import Mathlib.Data.Fintype.Lattice
import Replicare.RedisVersions
import Replicare.RedisRanks

/-! Full passes after the last client command. -/
namespace Replicare.RedisConverge
open Hlc Runs RedisMesh RedisRegister RedisVersions RedisRanks List Function

variable {E N C : Type*} [DecidableEq E] [LinearOrder N]

def Still (s : State E N C) : Action E N C → Prop
  | .client _ _ | .abort _ | .collect _ _ | .collectNext _ => False
  | .elapse until_ => ∀ n, unexpired until_ (s.data n) = s.data n
  | .deliver e => ∀ r ∈ (s.flight e).head?, ∀ x ∈ r.body, (restore s.time r x).isSome
  | _ => True

instance [Fintype N] [DecidableEq C] (s : State E N C) : (a : Action E N C) → Decidable (Still s a)
  | .client _ _ | .abort _ | .collect _ _ | .collectNext _ => isFalse id
  | .elapse until_ => inferInstanceAs (Decidable (∀ n, unexpired until_ (s.data n) = s.data n))
  | .deliver e => inferInstanceAs (Decidable (∀ r ∈ (s.flight e).head?, ∀ x ∈ r.body, (restore s.time r x).isSome))
  | .start _ _ | .next _ => isTrue trivial

structure Pass (m : Mesh E N C) (s : State E N C) (acts : List (Action E N C)) (t : State E N C) : Prop where
  ran : run (step m) s acts = some t
  still : Along (step m) Still s acts
  begun : ∀ e, ∃ now, Action.start e now ∈ acts
  idle : ∀ e, t.pc e = .idle
  sent : ∀ e, t.flight e = []

def Settled (m : Mesh E N C) (s : State E N C) (n : N) : Prop :=
  match s.register n with
  | none => s.data n = none
  | some v => if v.deleted then s.data n = none else ∃ d, s.data n = some d ∧ m.vhash d.value = v.vhash

/- A re-read has run its HGETALL. -/
def past : Pc N C → Bool
  | .idle | .begun _ => false
  | _ => true

def sees : Pc N C → Option (Option (Value C))
  | .dumped _ _ dump | .timed _ _ dump _ | .typed _ _ dump _ _ | .valued _ _ dump _ _ => some (some dump)
  | .absent _ _ _ => some none
  | _ => none

structure Recent (m : Mesh E N C) (s : State E N C) (e : E) : Prop where
  agree : ∀ x, sees (s.pc e) = some x → s.register (m.source e) = (s.pc e).stored →
    (s.data (m.source e)).map Data.value = x
  kinds : ∀ b stored dump ttl kind, s.pc e = .typed b stored dump ttl kind →
    s.register (m.source e) = stored → kind = dump.kind
  moved : past (s.pc e) = true → s.register (m.source e) = (s.pc e).stored ∨ Settled m s (m.source e)

def Shift (m : Mesh E N C) (s t : State E N C) (n : N) : Prop :=
  (t.register n = s.register n ∧ t.data n = s.data n) ∨
  Settled m t n ∧ ∃ f, t.register n = some f ∧ ∀ v, s.register n = some v → v.version < f.version

variable {m : Mesh E N C} {S : Set (Value C)} {s t : State E N C} {a : Action E N C} {e : E} {n : N}

theorem stampSettled {r} (alive : ∀ x ∈ r.body, r.vhash = m.vhash x)
    (shown : (s.data n).map Data.value = r.body) : Settled m (s.stamp n e r) n := by
  unfold Settled
  rw [State.stampAt]
  cases body : r.body with
  | none =>
    rw [body] at shown
    simp only [Record.entry,body,Option.isNone_none,if_true]
    exact Option.map_eq_none_iff.mp shown
  | some x =>
    rw [body] at shown
    obtain ⟨d,held,rfl⟩ := Option.map_eq_some_iff.mp shown
    simp only [Record.entry,body,Option.isNone_some,Bool.false_eq_true,if_false]
    exact ⟨d,held,(alive _ body).symm⟩

omit [DecidableEq E] in
theorem applyShift {r} (alive : ∀ x ∈ r.body, r.vhash = m.vhash x)
    (unexpired_ : ∀ x ∈ r.body, (restore s.time r x).isSome) (q) : Shift m s (meshApply s q r) n := by
  unfold meshApply
  split
  · rename_i won
    by_cases same : n = q
    · subst same
      refine .inr ⟨?_,r.entry,update_self ..,fun v entry => ?_⟩
      · unfold Settled
        simp only [update_self]
        cases body : r.body with
        | none => simp [Record.entry,body]
        | some x =>
          obtain ⟨d,restored⟩ := Option.isSome_iff_exists.mp (unexpired_ x body)
          simp only [Record.entry,body,Option.isNone_some,Bool.false_eq_true,if_false,Option.bind_some]
          exact ⟨d,restored,by rw [restoreValue restored,alive x body]⟩
      · rw [entry] at won
        exact of_decide_eq_true won
    · exact .inl ⟨update_of_ne same ..,update_of_ne same ..⟩
  · exact .inl ⟨rfl,rfl⟩

theorem stampShift {r b stored} (owned : Owned m s e b stored)
    (version : r.version = tickVersion b.now stored (m.source e)) (alive : ∀ x ∈ r.body, r.vhash = m.vhash x)
    (shown : (s.data (m.source e)).map Data.value = r.body) : Shift m s (s.stamp (m.source e) e r) n := by
  by_cases same : n = m.source e
  · subst same
    refine .inr ⟨stampSettled alive shown,r.entry,s.stampAt ..,fun v entry => ?_⟩
    show v.version < r.version
    rw [version]
    exact tickNew owned entry
  · exact .inl ⟨update_of_ne same ..,rfl⟩

theorem shiftStep (sound : Sound m S s) (recent : ∀ e, Recent m s e) (coherent : Coherent m s a) (still : Still s a)
    (ok : step m s a = some t) (n) : Shift m s t n := by
  cases taken ok with
  | elapse _ => exact .inl ⟨rfl,still n⟩
  | start _ => exact .inl ⟨rfl,rfl⟩
  | @deliver e r rest waiting =>
    have framed := sound.known.framed r (sound.known.flight e r (waiting ▸ mem_cons_self))
    exact applyShift (s := { s with flight := update s.flight e rest }) (fun x body => (framed.2 x body).1)
      (still r (by rw [waiting]; rfl)) _
  | @next e t command =>
    have reading := sound.reading e
    have agree := (recent e).agree
    cases command with
    | alive here moved =>
      simp only [Coherent,here] at coherent
      rw [here] at reading agree
      have owned := coherent moved
      refine stampShift owned rfl (fun x body => ?_) (agree _ rfl owned.1)
      cases body
      exact reading.2
    | tombstone here live =>
      simp only [Coherent,here] at coherent
      rw [here] at agree
      have owned := coherent live
      exact stampShift owned rfl (fun x body => absurd body (Option.not_mem_none x)) (agree _ rfl owned.1)
    | _ => exact .inl ⟨rfl,rfl⟩
  | _ => exact still.elim

omit [DecidableEq E] in
theorem settledShift (shift : Shift m s t n) (settled : Settled m s n) : Settled m t n := by
  rcases shift with ⟨entry,data⟩ | ⟨after,_⟩
  · unfold Settled at settled ⊢
    rw [entry,data]
    exact settled
  · exact after

omit [DecidableEq E] in
theorem newerOther (sound : Sound m S s) {f} (entry : t.register (m.source e) = some f)
    (above : ∀ v, s.register (m.source e) = some v → v.version < f.version) :
    t.register (m.source e) ≠ (s.pc e).stored := by
  rw [entry]
  intro same
  obtain ⟨g,held,below⟩ := sound.read e f same.symm
  exact absurd (above g held) (not_lt.mpr below)

omit [DecidableEq E] in
theorem recentOther (sound : Sound m S s) (recent : Recent m s e) (shift : Shift m s t (m.source e))
    (same : t.pc e = s.pc e) : Recent m t e := by
  rcases shift with ⟨entry,data⟩ | ⟨settled,f,entry,above⟩
  · refine ⟨?_,?_,?_⟩
    · rw [same,entry,data]
      exact recent.agree
    · rw [same,entry]
      exact recent.kinds
    · rw [same,entry]
      refine fun later => (recent.moved later).imp_right fun before => ?_
      exact settledShift (.inl ⟨entry,data⟩) before
  · have other := newerOther sound entry above
    refine ⟨fun x _ stored => ?_,fun b stored dump ttl kind here held => ?_,fun _ => .inr settled⟩
    · exact absurd (same ▸ stored) other
    · rw [same] at here
      rw [here] at other
      exact absurd held other

omit [DecidableEq E] [LinearOrder N] in
theorem unreadRecent (unread : past (t.pc e) = false) : Recent m t e := by
  refine ⟨fun x seen => ?_,fun b stored dump ttl kind here => ?_,fun later => ?_⟩
  · cases here : t.pc e with
    | idle | begun _ =>
      rw [here] at seen
      cases seen
    | _ =>
      rw [here] at unread
      cases unread
  · rw [here] at unread
    cases unread
  · rw [unread] at later
    cases later

omit [LinearOrder N] in
theorem gotoRecent {pc}
    (agree : ∀ x, sees pc = some x → s.register (m.source e) = pc.stored → (s.data (m.source e)).map Data.value = x)
    (kinds : ∀ b stored dump ttl kind, pc = .typed b stored dump ttl kind → s.register (m.source e) = stored → kind = dump.kind)
    (moved : s.register (m.source e) = pc.stored ∨ Settled m s (m.source e)) : Recent m (s.goto e pc) e := by
  have here : (s.goto e pc).pc e = pc := update_self ..
  refine ⟨?_,?_,?_⟩
  · rw [here]
    exact agree
  · rw [here]
    exact kinds
  · rw [here]
    exact fun _ => moved

theorem recentCommand (readable : ∀ x ∈ S, x.kind ≠ .moduleType) (sound : Sound m S s) (recent : Recent m s e)
    (command : Reread m s e t) : Recent m t e := by
  have idle : ∀ u : State E N C, u.pc = update s.pc e .idle → Recent m u e := by
    intro u same
    refine unreadRecent ?_
    rw [same,update_self]
    rfl
  have agree := recent.agree
  have moved := recent.moved
  cases command with
  | register _ => exact gotoRecent (fun x seen => by cases seen) (fun _ _ _ _ _ typed => by cases typed) (.inl rfl)
  | dumpNone here gone | pttlNone here gone | typeNone here gone =>
    rw [here] at moved
    refine gotoRecent (fun x seen _ => ?_) (fun _ _ _ _ _ typed => by cases typed) (moved rfl)
    cases seen
    rw [gone]
    rfl
  | @dump _ _ d here found =>
    rw [here] at moved
    refine gotoRecent (fun x seen _ => ?_) (fun _ _ _ _ _ typed => by cases typed) (moved rfl)
    cases seen
    rw [found]
    rfl
  | pttl here found | value here _ =>
    rw [here] at agree moved
    exact gotoRecent agree (fun _ _ _ _ _ typed => by cases typed) (moved rfl)
  | unreadable here found kind => exact absurd kind (readable _ (sound.values _ _ found))
  | type here found kind =>
    rw [here] at agree moved
    refine gotoRecent agree (fun b stored dump ttl k typed held => ?_) (moved rfl)
    cases typed
    have shown := agree _ rfl held
    rw [found] at shown
    exact congrArg Value.kind (Option.some.inj shown)
  | valueNone here failed =>
    have kinds := recent.kinds _ _ _ _ _ here
    rw [here] at agree moved
    refine gotoRecent (fun x _ held => ?_) (fun _ _ _ _ _ typed => by cases typed) (moved rfl)
    -- a value of the dumped type would have been read
    obtain ⟨d,found,shown⟩ := Option.map_eq_some_iff.mp (agree _ rfl held)
    rw [found] at failed
    simp only [canonicalValue,shown,kinds held,if_true] at failed
    cases failed
  | _ => exact idle _ rfl

theorem recentStep (readable : ∀ x ∈ S, x.kind ≠ .moduleType) (sound : Sound m S s) (recent : ∀ e, Recent m s e)
    (coherent : Coherent m s a) (still : Still s a) (ok : step m s a = some t) (e) : Recent m t e := by
  by_cases mover : a.mover = some e
  · cases taken ok with
    | abort _ => exact still.elim
    | start _ =>
      cases mover
      refine unreadRecent ?_
      simp only [State.goto,update_self]
      rfl
    | next command =>
      cases mover
      exact recentCommand readable sound (recent e) command
    | _ => cases mover
  · exact recentOther sound (recent e) (shiftStep sound recent coherent still ok _) (pcFrame ok mover)

theorem endSettles (sound : Sound m S s) (recent : ∀ e, Recent m s e) (coherent : Coherent m s a) (still : Still s a)
    (ok : step m s a = some t) (busy : s.pc e ≠ .idle) (idle : t.pc e = .idle) : Settled m t (m.source e) := by
  have kept : ∀ u : State E N C, u.register = s.register → u.data = s.data → Settled m s (m.source e) →
      Settled m u (m.source e) :=
    fun u entry data => settledShift (.inl ⟨congrFun entry _,congrFun data _⟩)
  by_cases mover : a.mover = some e
  · cases taken ok with
    | abort _ => exact still.elim
    | start here =>
      cases mover
      exact absurd here busy
    | next command =>
      cases mover
      have reading := sound.reading e
      have agree := (recent e).agree
      have moved := (recent e).moved
      cases command with
      | alive here new =>
        simp only [Coherent,here] at coherent
        rw [here] at reading agree
        refine stampSettled (fun x body => ?_) (agree _ rfl (coherent new).1)
        cases body
        exact reading.2
      | tombstone here live =>
        simp only [Coherent,here] at coherent
        rw [here] at agree
        exact stampSettled (fun x body => absurd body (Option.not_mem_none x)) (agree _ rfl (coherent live).1)
      | same here unmoved =>
        obtain ⟨rfl,live,fingerprint⟩ := unchangedSome unmoved
        rw [here] at reading agree moved
        refine kept _ rfl rfl ((moved rfl).elim (fun held => ?_) id)
        obtain ⟨d,found,shown⟩ := Option.map_eq_some_iff.mp (agree _ rfl held)
        unfold Settled
        rw [held]
        simp only [Pc.stored,live,Bool.false_eq_true,if_false]
        exact ⟨d,found,by rw [shown,fingerprint,reading.2]⟩
      | nothing here =>
        rw [here] at agree moved
        refine kept _ rfl rfl ((moved rfl).elim (fun held => ?_) id)
        unfold Settled
        rw [held]
        exact Option.map_eq_none_iff.mp (agree _ rfl held)
      | reframe here dead =>
        rw [here] at agree moved
        refine kept _ rfl rfl ((moved rfl).elim (fun held => ?_) id)
        unfold Settled
        rw [held]
        simp only [Pc.stored,dead,if_true]
        exact Option.map_eq_none_iff.mp (agree _ rfl held)
      | _ => cases (update_self e _ s.pc).symm.trans idle
    | _ => cases mover
  · rw [pcFrame ok mover] at idle
    exact absurd idle busy

structure Calm (m : Mesh E N C) (S : Set (Value C)) (s : State E N C) : Prop where
  sound : Sound m S s
  recent : ∀ e, Recent m s e

section Passes
variable (separates : Set.InjOn m.vhash S) (readable : ∀ x ∈ S, x.kind ≠ .moduleType)

include separates readable

theorem calmStep (calm : Calm m S s) (both : Coherent m s a ∧ Still s a) (ok : step m s a = some t) : Calm m S t := by
  refine ⟨soundStep separates calm.sound both.1 (fun n d same => ?_) ok,recentStep readable calm.sound calm.recent both.1 both.2 ok⟩
  subst same
  exact both.2.elim

theorem passSettles {acts} (sound : Sound m S s) (idle : ∀ e, s.pc e = .idle) (coherent : Along (step m) (Coherent m) s acts)
    (pass : Pass m s acts t) (e : E) : Settled m t (m.source e) := by
  have start : Calm m S s := ⟨sound,fun e => unreadRecent (by rw [idle e]; rfl)⟩
  have ends : Settled m t (m.source e) ∨ t.pc e ≠ .idle := by
    obtain ⟨now,mem⟩ := pass.begun e
    refine runOnward (Q := fun s => Settled m s (m.source e) ∨ s.pc e ≠ .idle) (T := fun a => ∃ now, a = .start e now)
      (fun s a t calm both ok => calmStep separates readable calm both ok) ?_ ?_ (alongBoth coherent pass.still) pass.ran start
      ⟨_,mem,now,rfl⟩
    · rintro s a t calm both ⟨now,rfl⟩ ok
      cases taken ok
      right
      simp [State.goto]
    · intro s a t calm both here ok
      rcases here with settled | busy
      · exact .inl (settledShift (shiftStep calm.sound calm.recent both.1 both.2 ok _) settled)
      · by_cases idle : t.pc e = .idle
        · exact .inl (endSettles calm.sound calm.recent both.1 both.2 ok busy idle)
        · exact .inr idle
  exact ends.resolve_right fun busy => busy (pass.idle e)

end Passes

def storedRank (pc : Pc N C) : WithBot (Version N) := pc.stored.elim ⊥ fun v => (v.version : WithBot (Version N))

structure Topped (m : Mesh E N C) (S : Set (Value C)) (holder : N) (top : WithBot (Version N)) (s : State E N C) : Prop where
  calm : Calm m S s
  settled : ∀ n, Settled m s n
  capped : Capped holder top s

def Coming (top : WithBot (Version N)) (e : E) (s : State E N C) : Prop :=
  (∃ b, s.pc e = .begun b) ∨ (past (s.pc e) = true ∧ storedRank (s.pc e) = top) ∨
    ∃ r ∈ s.flight e, (r.version : WithBot (Version N)) = top

theorem settledFrames (calm : Calm m S s) (settled : ∀ n, Settled m s n) (coherent : Coherent m s a) {r : Record N C}
    (frames : Frames m s a r) : ∃ e v, a = .next e ∧ (s.pc e).stored = some v ∧ r.version = v.version ∧
      ∀ t, step m s a = some t → t.register = s.register := by
  cases frames with
  | same here kept =>
    obtain ⟨rfl,_⟩ := unchangedSome kept
    refine ⟨_,_,rfl,by rw [here]; rfl,rfl,fun t ok => ?_⟩
    simp only [step,rereadNext,here,kept] at ok
    cases ok
    rfl
  | reframe here dead =>
    refine ⟨_,_,rfl,by rw [here]; rfl,rfl,fun t ok => ?_⟩
    simp only [step,rereadNext,here,dead,if_true] at ok
    cases ok
    rfl
  | @alive e b stored dump ttl vh here moved =>
    simp only [Coherent,here] at coherent
    have reading := calm.sound.reading e
    have agree := (calm.recent e).agree
    rw [here] at reading agree
    have owned := coherent moved
    obtain ⟨d,found,shown⟩ := Option.map_eq_some_iff.mp (agree _ rfl owned.1)
    have fits := settled (m.source e)
    unfold Settled at fits
    rw [owned.1,found] at fits
    cases stored with
    | none => cases fits
    | some v =>
      dsimp only at fits
      split at fits
      · cases fits
      · rename_i live
        obtain ⟨_,same,print⟩ := fits
        cases same
        simp [unchanged,live,← print,shown,reading.2] at moved
  | @tombstone e b v missing here live =>
    simp only [Coherent,here] at coherent
    have agree := (calm.recent e).agree
    rw [here] at agree
    have owned := coherent live
    have gone := Option.map_eq_none_iff.mp (agree _ rfl owned.1)
    have fits := settled (m.source e)
    unfold Settled at fits
    rw [owned.1,gone] at fits
    simp [live] at fits

section Top
variable {holder : N} {top : WithBot (Version N)}

theorem quietCommand (command : Reread m s e t) : (∃ r, Frames m s (.next e) r ∧ t.flight = update s.flight e (s.flight e++[r]) ∧
    t.pc e = .idle) ∨ t.flight = s.flight ∧ t.register = s.register := by
  cases command with
  | alive here moved => exact .inl ⟨_,.alive here moved,rfl,update_self ..⟩
  | same here kept => exact .inl ⟨_,.same here kept,rfl,update_self ..⟩
  | reframe here dead => exact .inl ⟨_,.reframe here dead,rfl,update_self ..⟩
  | tombstone here live => exact .inl ⟨_,.tombstone here live,rfl,update_self ..⟩
  | _ => exact .inr ⟨rfl,rfl⟩

omit [DecidableEq E] in
theorem toppedRead (topped : Topped m S holder top s) {v} (stored : (s.pc e).stored = some v) :
    (v.version : WithBot (Version N)) ≤ top := by
  obtain ⟨f,entry,below⟩ := topped.calm.sound.read e v stored
  calc (v.version : WithBot (Version N)) ≤ f.version := WithBot.coe_le_coe.mpr below
    _ = rank s (m.source e) := (rankSome entry).symm
    _ ≤ top := topped.capped.below _

theorem toppedWrites (topped : Topped m S holder top s) (coherent : Coherent m s a) (still : Still s a)
    (ok : step m s a = some t) : Writes top s t := by
  cases taken ok with
  | elapse _ | start _ => exact sameWrites topped.capped rfl rfl
  | deliver waiting => exact deliverWrites topped.capped waiting
  | @next e t command =>
    rcases quietCommand command with ⟨r,frames,flight,_⟩ | ⟨flight,register⟩
    · obtain ⟨q,v,same,stored,version,keeps⟩ := settledFrames topped.calm topped.settled coherent frames
      refine frameWrites topped.capped (keeps t ok) flight ?_
      rw [version]
      exact toppedRead topped stored
    · exact sameWrites topped.capped register flight
  | _ => exact still.elim

theorem toppedStep (separates : Set.InjOn m.vhash S) (readable : ∀ x ∈ S, x.kind ≠ .moduleType)
    (topped : Topped m S holder top s) (both : Coherent m s a ∧ Still s a) (ok : step m s a = some t) :
    Topped m S holder top t := by
  refine ⟨calmStep separates readable topped.calm both ok,fun n => ?_,
    cappedStep topped.capped (toppedWrites topped both.1 both.2 ok)⟩
  exact settledShift (shiftStep topped.calm.sound topped.calm.recent both.1 both.2 ok n) (topped.settled n)

theorem flightStays (still : Still s a) (ok : step m s a = some t) {r : Record N C} (mem : r ∈ s.flight e) :
    r ∈ t.flight e ∨ (r.version : WithBot (Version N)) ≤ rank t (m.target e) := by
  cases taken ok with
  | elapse _ | start _ => exact .inl mem
  | deliver waiting => exact deliverFlight waiting mem
  | next command =>
    rcases quietCommand command with ⟨x,_,flight,_⟩ | ⟨flight,_⟩
    · exact .inl (frameFlight flight mem)
    · exact .inl (flight ▸ mem)
  | _ => exact still.elim

theorem comingCommand (topped : Topped m S holder top s) (coherent : Coherent m s (.next e)) (from_ : m.source e = holder)
    (command : Reread m s e t) (way : (∃ b, s.pc e = .begun b) ∨ past (s.pc e) = true ∧ storedRank (s.pc e) = top) :
    top = ⊥ ∨ Coming top e t := by
  have onward : ∀ pc : Pc N C, past pc = true → pc.stored = (s.pc e).stored → past (s.pc e) = true → Coming top e (s.goto e pc) := by
    intro pc later same before
    have high : storedRank (s.pc e) = top := by
      rcases way with ⟨b,here⟩ | ⟨_,high⟩
      · rw [here] at before
        cases before
      · exact high
    refine .inr (.inl ?_)
    simp only [State.goto,update_self]
    refine ⟨later,?_⟩
    unfold storedRank at high ⊢
    rw [same]
    exact high
  have framed : ∀ r, Frames m s (.next e) r → t.flight = update s.flight e (s.flight e++[r]) →
      past (s.pc e) = true → Coming top e t := by
    intro r frames flight before
    obtain ⟨q,v,same,stored,version,_⟩ := settledFrames topped.calm topped.settled coherent frames
    cases same
    have high : storedRank (s.pc e) = top := by
      rcases way with ⟨b,here⟩ | ⟨_,high⟩
      · rw [here] at before
        cases before
      · exact high
    refine .inr (.inr ⟨r,?_,?_⟩)
    · rw [flight,update_self]
      exact mem_append_right _ (mem_singleton_self r)
    · rw [version,← high]
      unfold storedRank
      rw [stored]
      rfl
  cases command with
  | register here =>
    refine .inr (.inr (.inl ?_))
    simp only [State.goto,update_self]
    refine ⟨rfl,?_⟩
    rw [from_]
    exact topped.capped.held
  | dumpNone here _ | dump here _ | pttlNone here _ | pttl here _ | typeNone here _ | unreadable here _ _ | type here _ _
  | valueNone here _ | value here _ => exact .inr (onward _ rfl (by rw [here]; rfl) (by rw [here]; rfl))
  | alive here moved => exact .inr (framed _ (.alive here moved) rfl (by rw [here]; rfl))
  | same here kept => exact .inr (framed _ (.same here kept) rfl (by rw [here]; rfl))
  | reframe here dead => exact .inr (framed _ (.reframe here dead) rfl (by rw [here]; rfl))
  | tombstone here live => exact .inr (framed _ (.tombstone here live) rfl (by rw [here]; rfl))
  | nothing here =>
    rcases way with ⟨b,there⟩ | ⟨_,high⟩
    · cases here.symm.trans there
    · rw [here] at high
      exact .inl high.symm

theorem comingStep (topped : Topped m S holder top s) (both : Coherent m s a ∧ Still s a) (from_ : m.source e = holder)
    (ok : step m s a = some t) (coming : Coming top e s) : top ≤ rank t (m.target e) ∨ Coming top e t := by
  have way : ((∃ b, s.pc e = .begun b) ∨ past (s.pc e) = true ∧ storedRank (s.pc e) = top) →
      top ≤ rank t (m.target e) ∨ Coming top e t := by
    intro way
    by_cases mover : a.mover = some e
    · cases taken ok with
      | abort _ => exact both.2.elim
      | start here =>
        cases mover
        rw [here] at way
        rcases way with ⟨_,other⟩ | ⟨other,_⟩ <;> cases other
      | next command =>
        cases mover
        rcases comingCommand topped both.1 from_ command way with rfl | coming
        · exact .inl bot_le
        · exact .inr coming
      | _ => cases mover
    · have same := pcFrame ok mover
      exact .inr (way.imp (fun begun => same ▸ begun) fun read => .inl (same ▸ read))
  rcases coming with begun | read | ⟨r,mem,version⟩
  · exact way (.inl begun)
  · exact way (.inr read)
  · rcases flightStays both.2 ok mem with stays | arrived
    · exact .inr (.inr (.inr ⟨r,stays,version⟩))
    · exact .inl (version ▸ arrived)

theorem passArrives (separates : Set.InjOn m.vhash S) (readable : ∀ x ∈ S, x.kind ≠ .moduleType) {acts}
    (topped : Topped m S holder top s) (coherent : Along (step m) (Coherent m) s acts) (pass : Pass m s acts t)
    (from_ : m.source e = holder) : top ≤ rank t (m.target e) := by
  obtain ⟨now,mem⟩ := pass.begun e
  have ends : top ≤ rank t (m.target e) ∨ Coming top e t := by
    refine runOnward (Q := fun s => top ≤ rank s (m.target e) ∨ Coming top e s) (T := fun a => ∃ now, a = .start e now)
      (fun s a t topped both ok => toppedStep separates readable topped both ok) ?_ ?_ (alongBoth coherent pass.still) pass.ran
      topped ⟨_,mem,now,rfl⟩
    · rintro s a t topped both ⟨now,rfl⟩ ok
      cases taken ok
      exact .inr (.inl ⟨_,update_self ..⟩)
    · intro s a t topped both here ok
      rcases here with arrived | coming
      · exact .inl (arrived.trans (writesGrow (toppedWrites topped both.1 both.2 ok) _))
      · exact comingStep topped both from_ ok coming
  refine ends.resolve_right fun coming => ?_
  unfold Coming at coming
  rw [pass.idle e,pass.sent e] at coming
  rcases coming with ⟨_,other⟩ | ⟨other,_⟩ | ⟨_,other,_⟩ <;> cases other

end Top

omit [DecidableEq E] in
theorem sameValue (separates : Set.InjOn m.vhash S) (sound : Sound m S s) {k} (one : Settled m s n) (two : Settled m s k)
    (same : rank s n = rank s k) : (s.data n).map Data.value = (s.data k).map Data.value := by
  unfold Settled at one two
  cases first : s.register n with
  | none =>
    rw [first] at one
    cases second : s.register k with
    | none =>
      rw [second] at two
      rw [one,two]
    | some w =>
      rw [rankSome second] at same
      simp [rank,first] at same
  | some v =>
    rw [first] at one
    rw [rankSome first] at same
    cases second : s.register k with
    | none => simp [rank,second] at same
    | some w =>
      rw [second] at two
      rw [rankSome second,WithBot.coe_inj] at same
      obtain ⟨q,mem,rfl⟩ := sound.known.register n v first
      have atN := entryBody separates sound mem first rfl
      have atK := entryBody separates sound mem second same.symm
      have shown : ∀ x : Meta N, ∀ j, (if x.deleted then q.body = none else ∀ d ∈ s.data j, m.vhash d.value = x.vhash → q.body = some d.value) →
          (if x.deleted then s.data j = none else ∃ d, s.data j = some d ∧ m.vhash d.value = x.vhash) →
          (s.data j).map Data.value = q.body := by
        intro x j body fits
        split at body
        · rename_i dead
          rw [if_pos dead] at fits
          rw [fits,body]
          rfl
        · rename_i live
          rw [if_neg live] at fits
          obtain ⟨d,held,print⟩ := fits
          rw [held,body d held print]
          rfl
      rw [shown _ n atN one,shown _ k atK two]

theorem passesConverge [Finite N] (separates : Set.InjOn m.vhash S) (readable : ∀ x ∈ S, x.kind ≠ .moduleType)
    (whole : ∀ n k, n ≠ k → ∃ e, m.source e = n ∧ m.target e = k) {s₁ s₂ s₃ t : State E N C} {first second third}
    (written : ∀ n d, Action.client n (some d) ∈ first++(second++third) → d.value ∈ S)
    (sound : Sound m S s₁) (coherent : Along (step m) (Coherent m) s₁ (first++(second++third))) (one : Pass m s₁ first s₂)
    (two : Pass m s₂ second s₃) (three : Pass m s₃ third t) (n k : N) :
    (t.data n).map Data.value = (t.data k).map Data.value := by
  by_cases apart : n = k
  · rw [apart]
  obtain ⟨inFirst,rest⟩ := alongSplit coherent one.ran
  obtain ⟨inSecond,inThird⟩ := alongSplit rest two.ran
  have soundTwo := soundRun separates (fun n d mem => written n d (mem_append_left _ mem)) sound inFirst one.ran
  have soundThree := soundRun separates
    (fun n d mem => written n d (mem_append_right _ (mem_append_left _ mem))) soundTwo inSecond two.ran
  have settled : ∀ j, Settled m s₃ j := by
    intro j
    have other : ∃ i, j ≠ i := by
      by_cases same : j = n
      · exact ⟨k,same ▸ apart⟩
      · exact ⟨n,same⟩
    obtain ⟨i,different⟩ := other
    obtain ⟨e,rfl,_⟩ := whole j i different
    exact passSettles separates readable soundTwo one.idle inSecond two e
  have : Nonempty N := ⟨n⟩
  obtain ⟨holder,highest⟩ := Finite.exists_max (rank s₃)
  have topped : Topped m S holder (rank s₃ holder) s₃ := by
    refine ⟨⟨soundThree,fun e => unreadRecent (by rw [two.idle e]; rfl)⟩,settled,highest,rfl,fun e r mem => ?_⟩
    rw [two.sent e] at mem
    cases mem
  have last := runKeeps (fun s a t held both ok => toppedStep separates readable held both ok)
    (alongBoth inThird three.still) three.ran topped
  have level : ∀ j, rank t j = rank s₃ holder := by
    intro j
    by_cases same : holder = j
    · rw [← same]
      exact last.capped.held
    · obtain ⟨e,from_,rfl⟩ := whole holder j same
      exact le_antisymm (last.capped.below _) (passArrives separates readable topped inThird three from_)
  exact sameValue separates last.calm.sound (last.settled n) (last.settled k) ((level n).trans (level k).symm)

theorem versionsDetermineValues (m : Mesh E N C) (S : Set (Value C)) (separates : Set.InjOn m.vhash S) (time : Int)
    (data : N → Option (Data C)) (initial : ∀ n, ∀ d ∈ data n, d.value ∈ S) (acts : List (Action E N C))
    (written : ∀ n d, Action.client n (some d) ∈ acts → d.value ∈ S) (t : State E N C)
    (ran : run (step m) (fresh time data) acts = some t) (coherent : Along (step m) (Coherent m) (fresh time data) acts) :
    (∀ r ∈ t.framed, ∀ q ∈ t.framed, r.version = q.version → r.body = q.body) ∧
    (∀ r ∈ t.framed, ∀ n v, t.register n = some v → v.version = r.version →
      if v.deleted then r.body = none else ∀ d ∈ t.data n, m.vhash d.value = v.vhash → r.body = some d.value) ∧
    (Finite N → (∀ x ∈ S, x.kind ≠ .moduleType) → (∀ n k, n ≠ k → ∃ e, m.source e = n ∧ m.target e = k) →
      ∀ before first second third s₁ s₂ s₃, acts = before++(first++(second++third)) →
        run (step m) (fresh time data) before = some s₁ → Pass m s₁ first s₂ → Pass m s₂ second s₃ → Pass m s₃ third t →
        ∀ n k, (t.data n).map Data.value = (t.data k).map Data.value) := by
  have start : Sound m S (fresh time data : State E N C) := freshSound time data initial
  have sound := soundRun separates written start coherent ran
  refine ⟨sound.alike,fun r mem n v entry same => entryBody separates sound mem entry same,?_⟩
  intro finite readable whole before first second third s₁ s₂ s₃ split came one two three n k
  subst split
  obtain ⟨early,late⟩ := alongSplit coherent came
  have reached := soundRun separates (fun n d mem => written n d (mem_append_left _ mem)) start early came
  exact passesConverge separates readable whole (fun n d mem => written n d (mem_append_right _ mem)) reached late one two
    three n k

def bothWays (now : Int) : List (Action Bool Bool Nat) :=
  reading false now++[.next false,.deliver false]++(reading true now++[.next true,.deliver true])

def strings : Set (Value Nat) := fun v => v.kind = .string

theorem stringsSeparate : Set.InjOn pair.vhash strings := by
  rintro ⟨_,x⟩ rfl ⟨_,y⟩ rfl same
  cases (same : x = y)
  rfl

theorem versionsDetermineValuesUpdated : ∃ t : State Bool Bool Nat, run (step pair) (fresh 0 fun _ => text 1)
      ([.client true (text 2)]++(bothWays 5++(bothWays 6++bothWays 7))) = some t ∧
    (t.data false).map Data.value = (t.data true).map Data.value := by
  have begun : ∀ now e, ∃ at_, Action.start e at_ ∈ bothWays now := by
    intro now e
    exact ⟨now,by cases e <;> simp [bothWays,reading]⟩
  have whole : ∀ n k : Bool, n ≠ k → ∃ e, pair.source e = n ∧ pair.target e = k := by
    intro n k apart
    exact ⟨n,rfl,by cases n <;> cases k <;> first | rfl | exact absurd rfl apart⟩
  have initial : ∀ n : Bool, ∀ d ∈ (fun _ => text 1) n, d.value ∈ strings := by
    intro _ d held
    cases held
    rfl
  have written : ∀ n d, Action.client n (some d) ∈ [.client true (text 2)]++(bothWays 5++(bothWays 6++bothWays 7)) →
      d.value ∈ strings := by
    intro n d mem
    simp only [bothWays,reading,text,List.replicate,cons_append,nil_append,mem_cons,Action.client.injEq,
      reduceCtorEq,or_false,not_mem_nil,Option.some.injEq] at mem
    obtain ⟨_,rfl⟩ := mem
    rfl
  refine ⟨_,rfl,?_⟩
  exact (versionsDetermineValues pair strings stringsSeparate 0 (fun _ => text 1) initial
    ([.client true (text 2)]++(bothWays 5++(bothWays 6++bothWays 7))) written _ rfl (by decide +kernel)).2.2 inferInstance
    (fun x mem other => by cases mem.symm.trans other) whole [.client true (text 2)] (bothWays 5) (bothWays 6) (bothWays 7) _ _ _
    rfl rfl ⟨rfl,by decide +kernel,begun 5,by decide +kernel,by decide +kernel⟩
    ⟨rfl,by decide +kernel,begun 6,by decide +kernel,by decide +kernel⟩
    ⟨rfl,by decide +kernel,begun 7,by decide +kernel,by decide +kernel⟩ false true

theorem tornReadForksVersion : ∃ t : State Bool Bool Nat, run (step pair) (fresh 0 fun _ => text 1)
      ([.start false 5,.next false,.next false,.client false (text 2)]++List.replicate 4 (.next false)++[.deliver false]++
        bothWays 6) = some t ∧
    (∃ r ∈ t.framed, ∃ q ∈ t.framed, r.version = q.version ∧ r.body ≠ q.body) ∧
    ∀ n, (t.data n).map Data.value = some ⟨.string,1⟩ := by
  refine ⟨_,rfl,?_,by decide +kernel⟩
  exact ⟨⟨⟨5,0,false⟩,2,some ⟨.string,1⟩,0,false⟩,by decide +kernel,⟨⟨5,0,false⟩,2,some ⟨.string,2⟩,0,false⟩,by decide +kernel,rfl,
    by decide⟩

end Replicare.RedisConverge
