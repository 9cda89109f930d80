import Mathlib.Data.Fintype.Lattice
import Replicare.RedisRanks
import Replicare.RedisExpiry

/-! Histories of a Redis mesh: after every command and every expiry the key is re-read on all
edges twice. -/
namespace Replicare.ExpiryRounds
open Hlc HlcEngines Runs RedisMesh RedisRegister RedisRanks RedisExpiry List Function

variable {E N C : Type*} [DecidableEq E] [LinearOrder N]

structure Round (E N C : Type*) where
  event : Act E N C
  first : List (Act E N C)
  second : List (Act E N C)

def Round.acts (r : Round E N C) : List (Act E N C) := r.event::(r.first++r.second)

inductive History (m : Mesh E N C) : State E N C → List (Round E N C) → State E N C → Prop where
  | nil (s) : History m s [] s
  | round {s s₁ s₂ s₃ t r rs} (event : act m s r.event = some s₁) (told : Told m s r.event) (first : Pass m s₁ r.first s₂)
      (second : Pass m s₂ r.second s₃) (rest : History m s₃ rs t) : History m s (r::rs) t

variable {m : Mesh E N C} {g : Option (Meta N)} {o p : Option (Value C × Bool)} {s t : State E N C} {a : Act E N C} {e : E} {n : N}

structure Level (m : Mesh E N C) (g : Option (Meta N)) (o p : Option (Value C × Bool)) (holder : N) (top : WithBot (Version N))
    (s : State E N C) : Prop where
  spread : Spread m g o p s
  plain : ∀ n, Plain m g o p s n
  capped : Capped holder top s

section Level
variable {holder : N} {top : WithBot (Version N)}

theorem levelReread (turn : Turn m g o p) (level : Level m g o p holder top s) (now) :
    (s.register (m.source e) = none ∧ resolve m s e (outcome m s e now) = s) ∨
    ∃ v r, s.register (m.source e) = some v ∧ resolve m s e (outcome m s e now) = s.frame e r ∧ r.version = v.version := by
  have spread := level.spread
  rcases outcomeFits spread.time (fun d found => plainReadable turn spread _ found)
    (plainFits turn (level.plain (m.source e))) now with ⟨gone,frames⟩ | ⟨v,r,entry,frames,same,_⟩
  · rw [frames]
    exact .inl ⟨gone,rfl⟩
  · rw [frames]
    exact .inr ⟨v,r,entry,rfl,congrArg Meta.version same⟩

theorem levelWrites (turn : Turn m g o p) (level : Level m g o p holder top s) (still : Still m s a) (ok : act m s a = some t) :
    Writes top s t := by
  cases a with
  | command _ _ => exact still.elim
  | elapse until_ =>
    cases taken (show step m s (.elapse until_) = some t from ok)
    exact sameWrites level.capped rfl rfl
  | reread e now =>
    cases (wholeReread (level.spread.idle e) now).symm.trans ok
    rcases levelReread turn level now with ⟨_,same⟩ | ⟨v,r,entry,same,version⟩
    · rw [same]
      exact sameWrites level.capped rfl rfl
    · rw [same]
      refine frameWrites level.capped rfl rfl ?_
      rw [version,← rankSome entry]
      exact level.capped.below _
  | deliver e =>
    cases taken (show step m s (.deliver e) = some t from ok) with
    | deliver waiting => exact deliverWrites level.capped waiting

theorem levelStep (turn : Turn m g o p) (level : Level m g o p holder top s) (still : Still m s a) (ok : act m s a = some t) :
    Level m g o p holder top t := by
  obtain ⟨spread,advance⟩ := spreadStep turn level.spread still ok
  exact ⟨spread,fun n => advancePlain (advance n) (level.plain n),cappedStep level.capped (levelWrites turn level still ok)⟩

def Coming (m : Mesh E N C) (top : WithBot (Version N)) (e : E) (s : State E N C) : Prop :=
  top ≤ rank s (m.target e) ∨ ∃ r ∈ s.flight e, (r.version : WithBot (Version N)) = top

theorem comingStays (turn : Turn m g o p) (level : Level m g o p holder top s) (still : Still m s a) (ok : act m s a = some t)
    (coming : Coming m top e s) : Coming m top e t := by
  rcases coming with arrived | ⟨r,mem,version⟩
  · exact .inl (arrived.trans (writesGrow (levelWrites turn level still ok) _))
  · cases a with
    | command _ _ => exact still.elim
    | elapse until_ =>
      cases taken (show step m s (.elapse until_) = some t from ok)
      exact .inr ⟨r,mem,version⟩
    | reread q now =>
      cases (wholeReread (level.spread.idle q) now).symm.trans ok
      rcases levelReread turn level now with ⟨_,same⟩ | ⟨v,x,_,same,_⟩
      · exact .inr ⟨r,by rw [same]; exact mem,version⟩
      · exact .inr ⟨r,by rw [same]; exact frameFlight rfl mem,version⟩
    | deliver q =>
      cases taken (show step m s (.deliver q) = some t from ok) with
      | deliver waiting =>
        rcases deliverFlight waiting mem with stays | arrived
        · exact .inr ⟨r,stays,version⟩
        · exact .inl (version ▸ arrived)

theorem passArrives {acts} (turn : Turn m g o p) (level : Level m g o p holder top s) (pass : Pass m s acts t)
    (from_ : m.source e = holder) : top ≤ rank t (m.target e) := by
  obtain ⟨now,mem⟩ := pass.read e
  have ends : Coming m top e t := by
    refine runOnward (Q := Coming m top e) (T := fun a => ∃ now, a = .reread e now)
      (fun s a t held still ok => levelStep turn held still ok) ?_ (fun s a t held still here ok => comingStays turn held still ok here)
      pass.still pass.ran level ⟨_,mem,now,rfl⟩
    rintro s a t held still ⟨now,rfl⟩ ok
    cases (wholeReread (held.spread.idle e) now).symm.trans ok
    have top_ := held.capped.held
    rw [← from_] at top_
    rcases levelReread turn held now with ⟨gone,_⟩ | ⟨v,r,entry,same,version⟩
    · rw [rankNone gone] at top_
      exact .inl (top_ ▸ bot_le)
    · refine .inr ⟨r,?_,?_⟩
      · rw [same]
        simp only [State.frame,update_self]
        exact mem_append_right _ (mem_singleton_self r)
      · rw [version,← rankSome entry]
        exact top_
  rcases ends with arrived | ⟨r,mem,_⟩
  · exact arrived
  · rw [pass.sent e] at mem
    cases mem

end Level

omit [DecidableEq E] [LinearOrder N] in
theorem fittingEntry {v w} (one : Fitting m (some v) p) (two : Fitting m (some w) p) (same : v.version = w.version) :
    v = w := by
  obtain ⟨version,deleted,vhash⟩ := v
  obtain ⟨_,deleted',vhash'⟩ := w
  cases same
  cases p with
  | none => cases deleted <;> cases deleted' <;> simp_all [Fitting]
  | some x => cases deleted <;> cases deleted' <;> simp_all [Fitting]

omit [DecidableEq E] [LinearOrder N] in
theorem fittingHash {x y} (fits : Fitting m g (some (look x))) (hash : m.vhash x.value = m.vhash y.value) :
    Fitting m g (some (look y)) := by
  unfold Fitting at fits ⊢
  cases g with
  | none => cases fits
  | some v =>
    dsimp only at fits ⊢
    split at fits
    · cases fits.2
    · rename_i live
      rw [if_neg live]
      obtain ⟨z,held,same⟩ := fits
      cases held
      exact ⟨look y,rfl,hash.symm.trans same⟩

omit [DecidableEq E] in
theorem newerRank {k v} (old : s.register k = g) (entry : s.register n = some v) (newer : wins g v.version = true) :
    rank s k ≠ rank s n := by
  rw [rankSome entry]
  cases g with
  | none =>
    rw [rankNone old]
    exact WithBot.bot_ne_coe
  | some w =>
    rw [rankSome old]
    exact fun same => absurd (of_decide_eq_true newer) (not_lt.mpr (WithBot.coe_injective same).ge)

omit [DecidableEq E] in
theorem levelRest (turn : Turn m g o p) (spread : Spread m g o p t) (plain : ∀ n, Plain m g o p t n)
    (same : ∀ n k, rank t n = rank t k) (there : ∃ n, shown t n = p) (sent : ∀ e, t.flight e = []) : ∃ f, Rest m f p t := by
  have readable : ∀ x, p = some x → x.1.kind ≠ .moduleType := fun x held => turn.readable x (.inr held)
  by_cases reached : ∃ n, Reached m g p t n
  · obtain ⟨n,v,entry,newer,fits,_⟩ := reached
    have all : ∀ k, t.register k = some v ∧ shown t k = p := by
      intro k
      rcases plain k with ⟨old,_⟩ | ⟨w,entry',_,fits',shows_⟩
      · exact absurd (same k n) (newerRank old entry newer)
      · have version : w.version = v.version := by
          have level := same k n
          rw [rankSome entry',rankSome entry] at level
          exact WithBot.coe_injective level
        rw [entry',fittingEntry fits' fits version]
        exact ⟨rfl,shows_⟩
    exact ⟨some v,spread.time,spread.idle,sent,fun k => (all k).1,fun k => (all k).2,fits,readable⟩
  · have old : ∀ k, t.register k = g ∧ shown t k = o := fun k => (plain k).resolve_right fun here => reached ⟨k,here⟩
    obtain ⟨n,here⟩ := there
    have still : o = p := (old n).2.symm.trans here
    exact ⟨g,spread.time,spread.idle,sent,fun k => (old k).1,fun k => (old k).2.trans still,still ▸ turn.fits,readable⟩

theorem passesRest [Finite N] [Nontrivial N] (whole : ∀ n k, n ≠ k → ∃ e, m.source e = n ∧ m.target e = k)
    {s₁ s₂ s₃ : State E N C} {first second} (turn : Turn m g o p) (spread : Spread m g o p s₁) (there : ∃ n, shown s₁ n = p)
    (one : Pass m s₁ first s₂) (two : Pass m s₂ second s₃) : ∃ f, Rest m f p s₃ := by
  obtain ⟨n,here⟩ := there
  obtain ⟨spread₂,read,stays⟩ := passPlain turn spread one
  have plain : ∀ k, Plain m g o p s₂ k := by
    intro k
    obtain ⟨j,apart⟩ := exists_ne k
    obtain ⟨e,from_,_⟩ := whole k j apart.symm
    exact from_ ▸ read e
  obtain ⟨holder,highest⟩ := Finite.exists_max (rank s₂)
  have level : Level m g o p holder (rank s₂ holder) s₂ :=
    ⟨spread₂,plain,highest,rfl,fun e r mem => absurd (one.sent e ▸ mem) not_mem_nil⟩
  have last := runKeeps (fun s a t held still ok => levelStep turn held still ok) two.still two.ran level
  have top : ∀ k, rank s₃ k = rank s₂ holder := by
    intro k
    by_cases same : k = holder
    · rw [same]
      exact last.capped.held
    · obtain ⟨e,from_,rfl⟩ := whole holder k (Ne.symm same)
      exact le_antisymm (last.capped.below _) (passArrives turn level two from_)
  exact levelRest turn last.spread last.plain (fun k j => (top k).trans (top j).symm)
    ⟨n,(passPlain turn spread₂ two).2.2 n (stays n here)⟩ two.sent

omit [DecidableEq E] in
theorem restSpread (rest : Rest m g o s) (time : 0 ≤ t.time) (pc : t.pc = s.pc) (flight : t.flight = s.flight)
    (entry : t.register = s.register) (seen : ∀ n, shown t n = o ∨ shown t n = p) : Spread m g o p t := by
  refine ⟨time,fun e => pc ▸ rest.idle e,fun n => ?_,fun e r mem => ?_⟩
  · have same : t.register n = g := entry ▸ rest.entry n
    rcases seen n with old | new
    · exact .inl (.inl ⟨same,old⟩)
    · exact .inr ⟨same,new⟩
  · rw [flight,rest.sent e] at mem
    exact absurd mem not_mem_nil

theorem commandKind {time : Int} {x : Option (Data C)} {c : Command C} (readable : ∀ d ∈ x, d.value.kind ≠ .moduleType) :
    ∀ d ∈ c.exec time x, d.value.kind ≠ .moduleType := by
  intro d made
  cases c with
  | set _ _ =>
    cases made
    simp
  | expire _ | persist =>
    obtain ⟨was,held,rfl⟩ := Option.map_eq_some_iff.mp made
    exact readable was held
  | del => cases made

omit [DecidableEq E] [LinearOrder N] in
theorem restTurn (rest : Rest m g o s) : Turn m g o o := by
  refine ⟨rest.fits,fun x y old new _ => Option.some.inj (old.symm.trans new),?_⟩
  rintro x (old | old) <;> exact rest.readable x old

section Command
variable {c : Command C}

theorem commandDone (event : act m s (.command n c) = some t) :
    t = { s with data := update s.data n (unexpired s.time (c.exec s.time (s.data n))) } := by
  cases taken (show step m s (.client n (c.exec s.time (s.data n))) = some t from event)
  rfl

theorem commandHere (event : act m s (.command n c) = some t) : t.data n = unexpired s.time (c.exec s.time (s.data n)) := by
  rw [commandDone event]
  exact update_self ..

theorem commandElsewhere (rest : Rest m g o s) (event : act m s (.command n c) = some t) {k} (other : k ≠ n) : shown t k = o := by
  rw [commandDone event]
  simp only [shown,update_of_ne other]
  exact rest.shows_ k

theorem commandReadable (rest : Rest m g o s) (event : act m s (.command n c) = some t) {d : Data C} (found : t.data n = some d) :
    d.value.kind ≠ .moduleType := by
  refine commandKind (fun x held => ?_) d (unexpiredSome ((commandHere event).symm.trans found))
  exact rest.readable (look x) ((rest.shows_ n).symm.trans (congrArg (Option.map look) held))

theorem commandSpread (rest : Rest m g o s) (event : act m s (.command n c) = some t) (told : Told m s (.command n c)) :
    Turn m g o (shown t n) ∧ Spread m g o (shown t n) t := by
  refine ⟨⟨rest.fits,?_,?_⟩,?_⟩
  · intro x y old new same
    obtain ⟨d,held,rfl⟩ := Option.map_eq_some_iff.mp ((rest.shows_ n).trans old)
    obtain ⟨f,made,rfl⟩ := Option.map_eq_some_iff.mp new
    exact told d held f ((commandHere event).symm.trans made) same
  · rintro x (old | new)
    · exact rest.readable x old
    · obtain ⟨f,made,rfl⟩ := Option.map_eq_some_iff.mp new
      exact commandReadable rest event made
  · have seen : ∀ k, shown t k = o ∨ shown t k = shown t n := by
      intro k
      by_cases same : k = n
      · exact .inr (same ▸ rfl)
      · exact .inl (commandElsewhere rest event same)
    have done := commandDone event
    exact restSpread rest (by rw [done]; exact rest.time) (by rw [done]) (by rw [done]) (by rw [done]) seen

end Command

theorem elapseSpread [Nonempty N] {until_} (rest : Rest m g o s) (event : act m s (.elapse until_) = some t) :
    ∃ p, Turn m g o p ∧ Spread m g o p t ∧ ∃ n, shown t n = p := by
  cases taken (show step m s (.elapse until_) = some t from event) with
  | elapse later =>
    have left : ∀ k, (unexpired until_ (s.data k)).map look = o ∨ (unexpired until_ (s.data k)).map look = none := by
      intro k
      cases kept : unexpired until_ (s.data k) with
      | none => exact .inr rfl
      | some d => exact .inl ((congrArg (Option.map look) (unexpiredSome kept).symm).trans (rest.shows_ k))
    by_cases expired : ∃ k, (unexpired until_ (s.data k)).map look = none
    · refine ⟨none,⟨rest.fits,fun _ _ _ gone => absurd gone.symm (Option.some_ne_none _),?_⟩,?_,expired⟩
      · rintro x (old | gone)
        · exact rest.readable x old
        · cases gone
      · exact restSpread rest (rest.time.trans later) rfl rfl rfl left
    · have all : ∀ k, (unexpired until_ (s.data k)).map look = o :=
        fun k => (left k).resolve_right fun gone => expired ⟨k,gone⟩
      exact ⟨o,restTurn rest,restSpread rest (rest.time.trans later) rfl rfl rfl fun k => .inl (all k),Classical.arbitrary N,all _⟩

theorem eventSpread [Nonempty N] (rest : Rest m g o s) (event : act m s a = some t) (told : Told m s a) :
    ∃ p, Turn m g o p ∧ Spread m g o p t ∧ ∃ n, shown t n = p := by
  cases a with
  | command n c =>
    obtain ⟨turn,spread⟩ := commandSpread rest event told
    exact ⟨_,turn,spread,n,rfl⟩
  | elapse until_ => exact elapseSpread rest event
  | _ => exact told.elim

omit [DecidableEq E] [LinearOrder N] in
theorem freshRest {time} (begins : 0 ≤ time) : Rest m none none (fresh time fun _ => none : State E N C) :=
  ⟨begins,fun _ => rfl,fun _ => rfl,fun _ => rfl,fun _ => rfl,rfl,fun _ none_ => by cases none_⟩

theorem historyRest [Finite N] [Nontrivial N] (whole : ∀ n k, n ≠ k → ∃ e, m.source e = n ∧ m.target e = k) {rounds}
    (history : History m s rounds t) (rest : Rest m g o s) : ∃ f q, Rest m f q t := by
  induction history generalizing g o with
  | nil s => exact ⟨g,o,rest⟩
  | round event told one two _ ih =>
    obtain ⟨p,turn,spread,there⟩ := eventSpread rest event told
    obtain ⟨f,next⟩ := passesRest whole turn spread there one two
    exact ih next

theorem roundKeeps {s₁ s₂ s₃ : State E N C} {first second later} (turn : Turn m g o p) (spread : Spread m g o p s₁)
    (present : p.isSome) (one : Pass m s₁ first s₂) (two : Pass m s₂ second s₃) (onward : Along (act m) (Keeps m) s₃ later) :
    Along (act m) (Keeps m) s₁ ((first++second)++later) := by
  have keeps : ∀ {s acts t}, Spread m g o p s → Pass m s acts t → Along (act m) (Keeps m) s acts := by
    intro s acts t held pass
    exact alongUnder (fun _ _ _ held still ok => (spreadStep turn held still ok).1)
      (fun _ _ held still => spreadKeeps held present still) pass.still held
  refine alongJoin (alongJoin (keeps spread one) fun m ran => ?_) fun m ran => ?_
  · cases one.ran.symm.trans ran
    exact keeps (passPlain turn spread one).1 two
  · obtain ⟨_,left,right⟩ := runSplit ran
    cases one.ran.symm.trans left
    cases two.ran.symm.trans right
    exact onward

theorem elapsePersistent {x until_} (rest : Rest m g (some (x,false)) s)
    (event : act m s (.elapse until_) = some t) : Rest m g (some (x,false)) t := by
  cases taken (show step m s (.elapse until_) = some t from event) with
  | elapse later =>
    have same : (fun n => unexpired until_ (s.data n)) = s.data := by
      funext n
      obtain ⟨d,found,seen⟩ := Option.map_eq_some_iff.mp (rest.shows_ n)
      have none_ : d.expiry = none := Option.isSome_eq_false_iff.mp (congrArg Prod.snd seen) |> Option.isNone_iff_eq_none.mp
      simp only [found,unexpired,Option.filter_some,none_,Option.all_none,if_true]
    rw [same]
    exact ⟨rest.time.trans later,rest.idle,rest.sent,rest.entry,rest.shows_,rest.fits,rest.readable⟩

theorem historyKeeps [Finite N] [Nontrivial N] (whole : ∀ n k, n ≠ k → ∃ e, m.source e = n ∧ m.target e = k) {rounds}
    {x : Value C} (history : History m s rounds t) (rest : Rest m g (some (x,false)) s)
    (quiet : ∀ r ∈ rounds, ∃ until_, r.event = .elapse until_) :
    Along (act m) (Keeps m) s (rounds.flatMap Round.acts) ∧ ∀ n, shown t n = some (x,false) := by
  induction history generalizing g with
  | nil s => exact ⟨trivial,rest.shows_⟩
  | @round s s₁ s₂ s₃ t r rs event told one two later ih =>
    obtain ⟨until_,same⟩ := quiet r mem_cons_self
    rw [same] at event
    have rest₁ := elapsePersistent rest event
    have turn := restTurn rest₁
    have spread : Spread m g (some (x,false)) (some (x,false)) s₁ :=
      restSpread rest₁ rest₁.time rfl rfl rfl fun n => .inl (rest₁.shows_ n)
    obtain ⟨f,next⟩ := passesRest whole turn spread ⟨Classical.arbitrary N,rest₁.shows_ _⟩ one two
    obtain ⟨onward,ends⟩ := ih next fun r mem => quiet r (mem_cons_of_mem _ mem)
    refine ⟨?_,ends⟩
    rw [flatMap_cons,Round.acts,cons_append,same]
    refine ⟨(fun _ _ other => by cases other),fun _ ok => ?_⟩
    cases event.symm.trans ok
    exact roundKeeps turn spread rfl one two onward

structure Stuck (g : Option (Meta N)) (f : N → Option (Value C × Bool)) (s : State E N C) : Prop where
  time : 0 ≤ s.time
  idle : ∀ e, s.pc e = .idle
  entry : ∀ n, s.register n = g
  seen : ∀ n, shown s n = f n
  flight : ∀ e, ∀ r ∈ s.flight e, wins g r.version = false

section Stuck
variable {f : N → Option (Value C × Bool)}

theorem stuckStep (fits : ∀ n, Fitting m g (f n)) (readable : ∀ n x, f n = some x → x.1.kind ≠ .moduleType) (stuck : Stuck g f s)
    (still : Still m s a) (ok : act m s a = some t) : Stuck g f t := by
  cases a with
  | command _ _ => exact still.elim
  | elapse until_ =>
    cases taken (show step m s (.elapse until_) = some t from ok) with
    | elapse later =>
      have same : (fun n => unexpired until_ (s.data n)) = s.data := funext still
      rw [same]
      exact ⟨stuck.time.trans later,stuck.idle,stuck.entry,stuck.seen,stuck.flight⟩
  | reread e now =>
    cases (wholeReread (stuck.idle e) now).symm.trans ok
    have seen := stuck.seen (m.source e)
    have read : ∀ d, s.data (m.source e) = some d → d.value.kind ≠ .moduleType :=
      fun d found => readable _ (look d) (seen.symm.trans (congrArg (Option.map look) found))
    rcases outcomeFits stuck.time read (by rw [stuck.entry,seen]; exact fits _) now with ⟨_,frames⟩ | ⟨v,r,entry,frames,same,_⟩
    · rw [frames]
      exact stuck
    · rw [frames]
      refine ⟨stuck.time,frameIdle stuck.idle e r,stuck.entry,stuck.seen,fun q x mem => ?_⟩
      rcases pushMem mem with old | rfl
      · exact stuck.flight q x old
      · rw [← stuck.entry (m.source e),entry,show x.version = v.version from congrArg Meta.version same]
        exact decide_eq_false (lt_irrefl _)
  | deliver e =>
    cases taken (show step m s (.deliver e) = some t from ok) with
    | @deliver _ r rest waiting =>
      have lost : wins (s.register (m.target e)) r.version = false := by
        rw [stuck.entry]
        exact stuck.flight e r (waiting ▸ mem_cons_self)
      unfold meshApply
      rw [if_neg (by simpa using lost)]
      exact ⟨stuck.time,stuck.idle,stuck.entry,stuck.seen,fun q x mem => stuck.flight q x (popMem waiting mem)⟩

theorem expiryStuck {c x y k acts} (rest : Rest m g o s) (event : act m s (.command n c) = some t)
    (was : s.data n = some x) (now : t.data n = some y) (hash : m.vhash x.value = m.vhash y.value) (apart : n ≠ k)
    {u} (ran : run (act m) t acts = some u) (still : Along (act m) (Still m) t acts) :
    shown u n = some (look y) ∧ shown u k = some (look x) := by
  have before : o = some (look x) := (rest.shows_ n).symm.trans (congrArg (Option.map look) was)
  have seen : ∀ j, shown t j = if j = n then some (look y) else o := by
    intro j
    split
    · rename_i same
      rw [same]
      exact congrArg (Option.map look) now
    · rename_i other
      exact commandElsewhere rest event other
  have stuck : Stuck g (fun j => if j = n then some (look y) else o) t := by
    have done := commandDone event
    refine ⟨by rw [done]; exact rest.time,fun e => by rw [done]; exact rest.idle e,fun j => by rw [done]; exact rest.entry j,seen,
      fun e r mem => ?_⟩
    rw [done] at mem
    exact absurd (rest.sent e ▸ mem) not_mem_nil
  have fits : ∀ j, Fitting m g (if j = n then some (look y) else o) := by
    intro j
    split
    · exact fittingHash (before ▸ rest.fits) hash
    · exact rest.fits
  have readable : ∀ j z, (if j = n then some (look y) else o) = some z → z.1.kind ≠ .moduleType := by
    intro j z held
    split at held
    · cases held
      exact commandReadable rest event now
    · exact rest.readable z held
  have last := runKeeps (fun s a t held step ok => stuckStep fits readable held step ok) still ran stuck
  exact ⟨(last.seen n).trans (if_pos rfl),((last.seen k).trans (if_neg (Ne.symm apart))).trans before⟩

end Stuck

theorem expiryDecisionsKept [Finite N] [Nontrivial N] (m : Mesh E N C)
    (whole : ∀ n k, n ≠ k → ∃ e, m.source e = n ∧ m.target e = k) (time : Int) (begins : 0 ≤ time) (before : List (Round E N C))
    (s : State E N C) (history : History m (fresh time fun _ => none) before s) :
    (∀ n k, shown s n = shown s k) ∧
    (∀ n c first second after t, History m s (⟨.command n c,first,second⟩::after) t →
      (∀ r ∈ after, ∃ until_, r.event = .elapse until_) →
      ∀ s₁ x, act m s (.command n c) = some s₁ → shown s₁ n = some (x,false) →
        Along (act m) (Keeps m) s₁ ((first++second)++after.flatMap Round.acts) ∧ ∀ k, shown t k = some (x,false)) ∧
    (∀ n c s₁ x y, act m s (.command n c) = some s₁ → s.data n = some x → s₁.data n = some y → m.vhash x.value = m.vhash y.value →
      x.expiry.isSome ≠ y.expiry.isSome → ∀ acts t, run (act m) s₁ acts = some t → Along (act m) (Still m) s₁ acts →
        ∀ k, k ≠ n → (shown t k).map Prod.snd ≠ (shown t n).map Prod.snd) := by
  obtain ⟨g,o,rest⟩ := historyRest whole history (freshRest begins)
  refine ⟨fun n k => (rest.shows_ n).trans (rest.shows_ k).symm,?_,?_⟩
  · rintro n c first second after t (_ | ⟨event,told,one,two,later⟩) quiet s₁ x ok shows_
    cases event.symm.trans ok
    obtain ⟨turn,spread⟩ := commandSpread rest event told
    obtain ⟨f,next⟩ := passesRest whole turn spread ⟨n,rfl⟩ one two
    rw [shows_] at next
    obtain ⟨onward,ends⟩ := historyKeeps whole later next quiet
    exact ⟨roundKeeps turn spread (by rw [shows_]; rfl) one two onward,ends⟩
  · intro n c s₁ x y event was now hash flips acts t ran still k apart
    obtain ⟨here,there⟩ := expiryStuck rest event was now hash (Ne.symm apart) ran still
    rw [here,there]
    exact fun same => flips (Option.some.inj same)

instance decidableTold [DecidableEq C] (m : Mesh E N C) (s : State E N C) (a : Act E N C) : Decidable (Told m s a) :=
  match a with
  | .command n c => inferInstanceAs (Decidable (∀ x ∈ s.data n, ∀ y ∈ unexpired s.time (c.exec s.time (s.data n)),
      m.vhash x.value = m.vhash y.value → look x = look y))
  | .elapse _ => isTrue trivial
  | .reread _ _ => isFalse id
  | .deliver _ => isFalse id

instance decidableStill [Fintype N] [DecidableEq C] (m : Mesh E N C) (s : State E N C) (a : Act E N C) : Decidable (Still m s a) :=
  match a with
  | .command _ _ => isFalse id
  | .elapse until_ => inferInstanceAs (Decidable (∀ n, unexpired until_ (s.data n) = s.data n))
  | .reread e now => inferInstanceAs (Decidable ((readClock (s.register (m.source e))).physical < now ∨
      InRange ((readClock (s.register (m.source e))).logical+1)))
  | .deliver e => inferInstanceAs (Decidable (∀ r ∈ (s.flight e).head?, ∀ x ∈ r.body, (restore s.time r x).isSome))

def bothRead (now : Int) : List (Act Bool Bool Nat) := [.reread false now,.deliver false,.reread true now,.deliver true]

theorem expiryDecisionsKeptReset : ∃ s t : State Bool Bool Nat,
    run (act pair) (fresh 0 fun _ => none) ([.command false (.set 1 (some 100))]++(bothRead 5++bothRead 6)) = some s ∧
    (∀ n, shown s n = some (⟨.string,1⟩,true)) ∧
    run (act pair) s ([.command true (.set 2 none)]++(bothRead 7++bothRead 8)++([.elapse 500]++(bothRead 501++bothRead 502))) = some t ∧
    ∀ n, shown t n = some (⟨.string,2⟩,false) := by
  have read : ∀ now e, ∃ at_, Act.reread e at_ ∈ bothRead now := by
    intro now e
    exact ⟨now,by cases e <;> simp [bothRead]⟩
  have whole : ∀ n k : Bool, n ≠ k → ∃ e, pair.source e = n ∧ pair.target e = k := by
    intro n k apart
    exact ⟨n,rfl,by cases n <;> cases k <;> first | rfl | exact absurd rfl apart⟩
  refine ⟨_,_,rfl,by decide +kernel,rfl,?_⟩
  have kept := expiryDecisionsKept pair whole 0 (by decide) [⟨.command false (.set 1 (some 100)),bothRead 5,bothRead 6⟩] _
    (.round rfl (by decide +kernel) ⟨rfl,by decide +kernel,read 5,by decide +kernel⟩ ⟨rfl,by decide +kernel,read 6,by decide +kernel⟩
      (.nil _))
  exact (kept.2.1 true (.set 2 none) (bothRead 7) (bothRead 8) [⟨.elapse 500,bothRead 501,bothRead 502⟩] _
    (.round rfl (by decide +kernel) ⟨rfl,by decide +kernel,read 7,by decide +kernel⟩ ⟨rfl,by decide +kernel,read 8,by decide +kernel⟩
      (.round rfl trivial ⟨rfl,by decide +kernel,read 501,by decide +kernel⟩ ⟨rfl,by decide +kernel,read 502,by decide +kernel⟩
        (.nil _)))
    (fun r mem => ⟨500,by rw [mem_singleton.mp mem]⟩) _ ⟨.string,2⟩ rfl rfl).2

theorem persistedKeyDeleted : ∃ s t : State Bool Bool Nat, run (act pair) (fresh 0 fun _ => none)
      ([.command false (.set 1 (some 100))]++(bothRead 5++bothRead 6)++([.command false .persist]++(bothRead 7++bothRead 8))) = some s ∧
    shown s false = some (⟨.string,1⟩,false) ∧ shown s true = some (⟨.string,1⟩,true) ∧
    run (act pair) s ([.elapse 500]++(bothRead 501++bothRead 502)) = some t ∧ ¬Along (act pair) (Keeps pair) s
      ([.elapse 500]++(bothRead 501++bothRead 502)) ∧ ∀ n, t.data n = none := by
  refine ⟨_,_,rfl,by decide +kernel,by decide +kernel,rfl,?_,by decide +kernel⟩
  intro keeps
  have step := ((((keeps.2 _ rfl).2 _ rfl).2 _ rfl).2 _ rfl).1 true _ rfl rfl
  exact absurd (step (by decide +kernel)) (by decide +kernel)

end Replicare.ExpiryRounds
