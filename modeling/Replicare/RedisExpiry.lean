import Replicare.RedisVersions

/-! Expiry across a Redis mesh, one whole re-read at a time. -/
namespace Replicare.RedisExpiry
open Hlc HlcEngines Runs RedisMesh RedisRegister RedisVersions Function

variable {E N C : Type*} [DecidableEq E] [LinearOrder N]

inductive Command (C : Type*) where
  | set (x : C) (ttl : Option Int)
  | expire (ttl : Int)
  | persist
  | del
  deriving DecidableEq, Repr

/- SET writes a string and removes the expiry it does not set. -/
def Command.exec (time : Int) (d : Option (Data C)) : Command C → Option (Data C)
  | .set x ttl => some ⟨⟨.string,x⟩,ttl.map fun ms => time+ms⟩
  | .expire ttl => d.map fun d => { d with expiry := some (time+ttl) }
  | .persist => d.map fun d => { d with expiry := none }
  | .del => none

inductive Act (E N C : Type*) where
  | command (n : N) (c : Command C)
  | elapse (until_ : Int)
  | reread (e : E) (now : Int)
  | deliver (e : E)
  deriving DecidableEq, Repr

section Step
variable (m : Mesh E N C)

def finish : Nat → State E N C → E → Option (State E N C)
  | 0, s, e => if s.pc e matches .idle then some s else none
  | k+1, s, e => if s.pc e matches .idle then some s else (rereadNext m s e).bind fun t => finish k t e

def act (s : State E N C) : Act E N C → Option (State E N C)
  | .command n c => step m s (.client n (c.exec s.time (s.data n)))
  | .elapse until_ => step m s (.elapse until_)
  | .reread e now => (step m s (.start e now)).bind fun t => finish m 6 t e
  | .deliver e => step m s (.deliver e)

end Step

section Whole
variable {m : Mesh E N C} {s t : State E N C} {e : E}

def absentOutcome (now : Int) (stored : Option (Meta N)) (n : N) : Option (Record N C × Bool) :=
  stored.map fun v =>
    if v.deleted then (⟨v.version,v.vhash,none,0,false⟩,false) else (⟨tickVersion now stored n,0,none,0,false⟩,true)

def ttlOf (m : Mesh E N C) (s : State E N C) (e : E) (d : Data C) : Int × Bool :=
  restoreTTL (pttl s.time (some d)) (m.absTTL e) s.time

def outcome (m : Mesh E N C) (s : State E N C) (e : E) (now : Int) : Option (Record N C × Bool) :=
  let stored := s.register (m.source e)
  match s.data (m.source e) with
  | none => absentOutcome now stored (m.source e)
  | some d =>
      if d.value.kind = .moduleType then absentOutcome now stored (m.source e)
      else
        match unchanged stored (m.vhash d.value) with
        | none => some (⟨tickVersion now stored (m.source e),m.vhash d.value,some d.value,(ttlOf m s e d).1,(ttlOf m s e d).2⟩,true)
        | some v => some (⟨v.version,v.vhash,some d.value,(ttlOf m s e d).1,(ttlOf m s e d).2⟩,false)

def resolve (m : Mesh E N C) (s : State E N C) (e : E) : Option (Record N C × Bool) → State E N C
  | none => s
  | some (r,true) => s.stamp (m.source e) e r
  | some (r,false) => s.frame e r

omit [LinearOrder N] in
@[simp] theorem gotoPc (s : State E N C) (e : E) (pc) : (s.goto e pc).pc e = pc := update_self ..

omit [LinearOrder N] in
@[simp] theorem gotoTwice (s : State E N C) (e : E) (p q) : (s.goto e p).goto e q = s.goto e q := by
  simp [State.goto]

omit [LinearOrder N] in
@[simp] theorem gotoFrame (s : State E N C) (e : E) (p r) : (s.goto e p).frame e r = s.frame e r := by
  simp [State.goto,State.frame]

@[simp] theorem gotoStamp (s : State E N C) (n : N) (e : E) (p r) : (s.goto e p).stamp n e r = s.stamp n e r := by
  simp [State.goto,State.stamp,State.frame]

omit [LinearOrder N] in
@[simp] theorem gotoKeeps (s : State E N C) (e : E) (pc) : (s.goto e pc).data = s.data ∧ (s.goto e pc).time = s.time ∧
    (s.goto e pc).register = s.register := ⟨rfl,rfl,rfl⟩

omit [LinearOrder N] in
theorem gotoIdle (idle : s.pc e = .idle) : s.goto e .idle = s := by
  unfold State.goto
  rw [← idle,update_eq_self]

theorem finishIdle (k) (idle : s.pc e = .idle) : finish m k s e = some s := by
  cases k <;> simp [finish,idle]

theorem finishNext {k} {pc : Pc N C} (busy : (pc matches .idle) = false) :
    finish m (k+1) (s.goto e pc) e = (rereadNext m (s.goto e pc) e).bind fun t => finish m k t e := by
  simp only [finish,gotoPc,busy,Bool.false_eq_true,if_false]

theorem finishFrame (k) (r) : finish m k (s.frame e r) e = some (s.frame e r) :=
  finishIdle k (update_self ..)

theorem finishStamp (k) (n) (r) : finish m k (s.stamp n e r) e = some (s.stamp n e r) :=
  finishIdle k (update_self ..)

theorem finishAbsent (idle : s.pc e = .idle) (b : Base) (stored : Option (Meta N)) (missing) (k) :
    finish m (k+1) (s.goto e (.absent b stored missing)) e =
      some (resolve m s e (absentOutcome b.now stored (m.source e))) := by
  rw [finishNext rfl]
  cases stored with
  | none =>
    simp only [rereadNext,gotoPc,gotoTwice,gotoIdle idle,Option.bind_some]
    exact finishIdle k idle
  | some v =>
    cases dead : v.deleted with
    | true =>
      simp only [rereadNext,gotoPc,dead,if_true,gotoFrame,Option.bind_some,finishFrame,absentOutcome,Option.map_some,resolve]
    | false =>
      simp only [rereadNext,gotoPc,dead,Bool.false_eq_true,if_false,gotoStamp,Option.bind_some,finishStamp,absentOutcome,
        Option.map_some,resolve]

theorem wholeReread (idle : s.pc e = .idle) (now : Int) :
    act m s (.reread e now) = some (resolve m s e (outcome m s e now)) := by
  have begin_ : step m s (.start e now) = some (s.goto e (.begun ⟨now,s.time⟩)) := by simp [step,idle]
  simp only [act,begin_,Option.bind_some]
  rw [finishNext rfl]
  simp only [rereadNext,gotoPc,gotoTwice,gotoKeeps,Option.bind_some]
  rw [finishNext rfl]
  cases found : s.data (m.source e) with
  | none =>
    simp only [rereadNext,gotoPc,gotoTwice,gotoKeeps,found,Option.bind_some,finishAbsent idle,outcome]
  | some d =>
    simp only [rereadNext,gotoPc,gotoTwice,gotoKeeps,found,Option.bind_some]
    rw [finishNext rfl]
    simp only [rereadNext,gotoPc,gotoTwice,gotoKeeps,found,pttlAbsent,reduceCtorEq,if_false,Option.bind_some]
    rw [finishNext rfl]
    by_cases kind : d.value.kind = .moduleType
    · simp only [rereadNext,gotoPc,gotoTwice,gotoKeeps,found,kind,if_true,Option.bind_some,finishAbsent idle,outcome]
    · simp only [rereadNext,gotoPc,gotoTwice,gotoKeeps,found,kind,if_false,Option.bind_some]
      rw [finishNext rfl]
      simp only [rereadNext,gotoPc,gotoTwice,gotoKeeps,found,canonicalValue,if_true,Option.bind_some]
      rw [finishNext rfl]
      cases kept : unchanged (s.register (m.source e)) (m.vhash d.value) with
      | none =>
        simp only [rereadNext,gotoPc,kept,gotoStamp,Option.bind_some,finishStamp,outcome,found,kind,if_false,resolve,ttlOf]
      | some v =>
        simp only [rereadNext,gotoPc,kept,gotoFrame,Option.bind_some,finishFrame,outcome,found,kind,if_false,resolve,ttlOf]

end Whole

def look (d : Data C) : Value C × Bool := (d.value,d.expiry.isSome)

def shown (s : State E N C) (n : N) : Option (Value C × Bool) := (s.data n).map look

def carried (r : Record N C) : Option (Value C × Bool) := r.body.map fun x => (x,decide (r.ttl ≠ 0))

section Conditions
variable (m : Mesh E N C)

def Told (s : State E N C) : Act E N C → Prop
  | .command n c => ∀ x ∈ s.data n, ∀ y ∈ unexpired s.time (c.exec s.time (s.data n)),
      m.vhash x.value = m.vhash y.value → look x = look y
  | .elapse _ => True
  | _ => False

def Still (s : State E N C) : Act E N C → Prop
  | .command _ _ => False
  | .elapse until_ => ∀ n, unexpired until_ (s.data n) = s.data n
  | .reread e now => (readClock (s.register (m.source e))).physical < now ∨
      InRange ((readClock (s.register (m.source e))).logical+1)
  | .deliver e => ∀ r ∈ (s.flight e).head?, ∀ x ∈ r.body, (restore s.time r x).isSome

structure Pass (s : State E N C) (acts : List (Act E N C)) (t : State E N C) : Prop where
  ran : run (act m) s acts = some t
  still : Along (act m) (Still m) s acts
  read : ∀ e, ∃ now, Act.reread e now ∈ acts
  sent : ∀ e, t.flight e = []

end Conditions

def Keeps (m : Mesh E N C) (s : State E N C) (a : Act E N C) : Prop :=
  ∀ e t, a = .deliver e → act m s a = some t → (s.data (m.target e)).isSome → (t.data (m.target e)).isSome

def Fitting (m : Mesh E N C) (g : Option (Meta N)) (o : Option (Value C × Bool)) : Prop :=
  match g with
  | none => o = none
  | some v => if v.deleted then v.vhash = 0 ∧ o = none else ∃ x, o = some x ∧ m.vhash x.1 = v.vhash

structure Rest (m : Mesh E N C) (g : Option (Meta N)) (o : Option (Value C × Bool)) (s : State E N C) : Prop where
  time : 0 ≤ s.time
  idle : ∀ e, s.pc e = .idle
  sent : ∀ e, s.flight e = []
  entry : ∀ n, s.register n = g
  shows_ : ∀ n, shown s n = o
  fits : Fitting m g o
  readable : ∀ x, o = some x → x.1.kind ≠ .moduleType

/- What changes from `o` to `p` can be told by the entry. -/
structure Turn (m : Mesh E N C) (g : Option (Meta N)) (o p : Option (Value C × Bool)) : Prop where
  fits : Fitting m g o
  told : ∀ x y, o = some x → p = some y → m.vhash x.1 = m.vhash y.1 → x = y
  readable : ∀ x, o = some x ∨ p = some x → x.1.kind ≠ .moduleType

section Spread
variable (m : Mesh E N C) (g : Option (Meta N)) (o p : Option (Value C × Bool))

/- A newer entry that stands for `p`. -/
def Reached (s : State E N C) (n : N) : Prop :=
  ∃ v, s.register n = some v ∧ wins g v.version = true ∧ Fitting m (some v) p ∧ shown s n = p

def Plain (s : State E N C) (n : N) : Prop := (s.register n = g ∧ shown s n = o) ∨ Reached m g p s n

def Newer (r : Record N C) : Prop := wins g r.version = true ∧ carried r = p ∧ Fitting m (some r.entry) p

/- While `p` spreads: a node may show it before it has an entry for it. -/
structure Spread (s : State E N C) : Prop where
  time : 0 ≤ s.time
  idle : ∀ e, s.pc e = .idle
  node : ∀ n, Plain m g o p s n ∨ (s.register n = g ∧ shown s n = p)
  flight : ∀ e, ∀ r ∈ s.flight e, wins g r.version = false ∨ Newer m g p r

end Spread

variable {m : Mesh E N C} {g : Option (Meta N)} {o p : Option (Value C × Bool)} {s t : State E N C} {a : Act E N C} {e : E} {n : N}
variable {r : Record N C}

omit [DecidableEq E] [LinearOrder N] in
theorem restoreFlag (m) (e) (d) (later : 0 ≤ s.time) : decide ((ttlOf m s e d).1 ≠ 0) = d.expiry.isSome := by
  unfold ttlOf
  cases expiry : d.expiry with
  | none => simp [pttl,expiry,restoreTTL]
  | some at_ =>
    have bound := Int.le_max_left 0 (at_-s.time)
    simp only [pttl,expiry,Option.elim_some,restoreTTL,Option.isSome_some,decide_eq_true_eq]
    split
    · omega
    · split <;> split <;> simp only <;> omega

omit [LinearOrder N] in
theorem unchangedAlive {v : Meta N} {vh : Nat} (live : v.deleted = false) (same : v.vhash = vh) :
    unchanged (some v) vh = some v := by
  simp [unchanged,live,same]

omit [DecidableEq E] in
theorem olderLoses (spread : Spread m g o p s) (old : wins g r.version = false) (n) :
    wins (s.register n) r.version = false := by
  have same : s.register n = g → wins (s.register n) r.version = false := fun entry => entry ▸ old
  rcases spread.node n with (⟨entry,_⟩ | ⟨v,entry,newer,_⟩) | ⟨entry,_⟩
  · exact same entry
  · rw [entry]
    cases g with
    | none => cases old
    | some f =>
      refine decide_eq_false fun below => ?_
      exact absurd (lt_trans (of_decide_eq_true newer) below) (of_decide_eq_false old)
  · exact same entry

omit [DecidableEq E] [LinearOrder N] in
theorem turnFits (turn : Turn m g o p) (fits : Fitting m g p) : o = p := by
  have before := turn.fits
  unfold Fitting at before fits
  cases g with
  | none => exact before.trans fits.symm
  | some v =>
    dsimp only at before fits
    split at before
    · rename_i dead
      rw [if_pos dead] at fits
      exact before.2.trans fits.2.symm
    · rename_i live
      rw [if_neg live] at fits
      obtain ⟨x,rfl,one⟩ := before
      obtain ⟨y,rfl,two⟩ := fits
      rw [turn.told x y rfl rfl (one.trans two.symm)]

omit [DecidableEq E] in
theorem plainFits (turn : Turn m g o p) (plain : Plain m g o p s n) : Fitting m (s.register n) (shown s n) := by
  rcases plain with ⟨entry,same⟩ | ⟨v,entry,_,fits,same⟩
  · rw [entry,same]
    exact turn.fits
  · rw [entry,same]
    exact fits

omit [DecidableEq E] in
theorem plainReadable (turn : Turn m g o p) (spread : Spread m g o p s) (n) {d} (found : s.data n = some d) :
    d.value.kind ≠ .moduleType := by
  have seen : shown s n = some (look d) := by
    unfold shown
    rw [found]
    rfl
  rcases spread.node n with (⟨_,same⟩ | ⟨_,_,_,_,same⟩) | ⟨_,same⟩
  · exact turn.readable (look d) (.inl (same.symm.trans seen))
  · exact turn.readable (look d) (.inr (same.symm.trans seen))
  · exact turn.readable (look d) (.inr (same.symm.trans seen))

omit [DecidableEq E] [LinearOrder N] in
theorem outcomeFits (time : 0 ≤ s.time) (readable : ∀ d, s.data (m.source e) = some d → d.value.kind ≠ .moduleType)
    (fits : Fitting m (s.register (m.source e)) (shown s (m.source e))) (now : Int) :
    (s.register (m.source e) = none ∧ outcome m s e now = none) ∨
    ∃ v r, s.register (m.source e) = some v ∧ outcome m s e now = some (r,false) ∧ r.entry = v ∧
      carried r = shown s (m.source e) := by
  unfold Fitting at fits
  cases entry : s.register (m.source e) with
  | none =>
    rw [entry] at fits
    have gone : s.data (m.source e) = none := Option.map_eq_none_iff.mp fits
    exact .inl ⟨rfl,by simp only [outcome,gone,entry,absentOutcome,Option.map_none]⟩
  | some v =>
    rw [entry] at fits
    dsimp only at fits
    split at fits
    · rename_i dead
      have gone : s.data (m.source e) = none := Option.map_eq_none_iff.mp fits.2
      refine .inr ⟨v,⟨v.version,v.vhash,none,0,false⟩,rfl,?_,?_,fits.2.symm⟩
      · simp only [outcome,gone,entry,absentOutcome,Option.map_some,dead,if_true]
      · simp [Record.entry,← dead,← fits.1]
    · rename_i live
      have live : v.deleted = false := Bool.eq_false_of_not_eq_true live
      obtain ⟨x,seen,hash⟩ := fits
      obtain ⟨d,found,rfl⟩ := Option.map_eq_some_iff.mp seen
      have kept : unchanged (some v) (m.vhash d.value) = some v := unchangedAlive live hash.symm
      refine .inr ⟨v,⟨v.version,v.vhash,some d.value,(ttlOf m s e d).1,(ttlOf m s e d).2⟩,rfl,?_,?_,?_⟩
      · simp only [outcome,found,readable d found,if_false,entry,kept]
      · simp only [Record.entry,Option.isNone_some,Bool.false_eq_true,if_false]
        rw [← live]
      · simp only [carried,Option.map_some,seen,restoreFlag m e d time,look]

omit [DecidableEq E] in
theorem outcomeUnfit (turn : Turn m g o p) (spread : Spread m g o p s) (entry : s.register (m.source e) = g)
    (same : shown s (m.source e) = p) (unfit : ¬Fitting m g p) {now}
    (room : (readClock g).physical < now ∨ InRange ((readClock g).logical+1)) :
    ∃ r, outcome m s e now = some (r,true) ∧ Newer m g p r := by
  have newer : wins g (tickVersion now g (m.source e)) = true := by
    cases g with
    | none => rfl
    | some v => exact decide_eq_true (tickAbove room)
  cases found : s.data (m.source e) with
  | none =>
    have none_ : p = none := by
      rw [← same]
      unfold shown
      rw [found]
      rfl
    cases g with
    | none => exact absurd none_ unfit
    | some v =>
      have live : v.deleted = false := by
        by_contra dead
        have dead : v.deleted = true := Bool.eq_true_of_not_eq_false dead
        have fits := turn.fits
        simp only [Fitting,dead,if_true] at fits unfit
        exact unfit ⟨fits.1,none_⟩
      refine ⟨⟨tickVersion now (some v) (m.source e),0,none,0,false⟩,?_,newer,none_.symm,?_⟩
      · simp only [outcome,found,entry,absentOutcome,Option.map_some,live,Bool.false_eq_true,if_false]
      · simp [Fitting,Record.entry,none_]
  | some d =>
    have seen : p = some (look d) := by
      rw [← same]
      unfold shown
      rw [found]
      rfl
    have moved : unchanged g (m.vhash d.value) = none := by
      cases kept : unchanged g (m.vhash d.value) with
      | none => rfl
      | some v =>
        obtain ⟨rfl,live,hash⟩ := unchangedSome kept
        refine absurd ?_ unfit
        simp only [Fitting,live,Bool.false_eq_true,if_false]
        exact ⟨look d,seen,hash.symm⟩
    refine ⟨⟨tickVersion now g (m.source e),m.vhash d.value,some d.value,(ttlOf m s e d).1,(ttlOf m s e d).2⟩,?_,newer,?_,?_⟩
    · simp only [outcome,found,plainReadable turn spread _ found,if_false,entry,moved]
    · simp only [carried,Option.map_some,seen,restoreFlag m e d spread.time,look]
    · simp only [Fitting,Record.entry,Option.isNone_some,Bool.false_eq_true,if_false]
      exact ⟨look d,seen,rfl⟩

omit [LinearOrder N] in
theorem frameIdle (idle : ∀ e, s.pc e = .idle) (e) (r) (q) : (s.frame e r).pc q = .idle := by
  by_cases same : q = e
  · subst same
    exact update_self ..
  · exact (update_of_ne same ..).trans (idle q)

theorem frameSpread (spread : Spread m g o p s) {r} (known : wins g r.version = false ∨ Newer m g p r) (e) :
    Spread m g o p (s.frame e r) := by
  refine ⟨spread.time,frameIdle spread.idle e r,spread.node,fun q x mem => ?_⟩
  rcases pushMem mem with old | rfl
  · exact spread.flight q x old
  · exact known

theorem stampReached {r} (newer : Newer m g p r) (same : shown s n = p) (e) : Reached m g p (s.stamp n e r) n :=
  ⟨r.entry,s.stampAt ..,newer.1,newer.2.2,same⟩

theorem stampSpread (spread : Spread m g o p s) {r} (newer : Newer m g p r) (same : shown s n = p) (e) :
    Spread m g o p (s.stamp n e r) := by
  have framed := frameSpread spread (.inr newer) e
  refine ⟨framed.time,framed.idle,fun k => ?_,framed.flight⟩
  by_cases at_ : k = n
  · subst at_
    exact .inl (.inr (stampReached newer same e))
  · have entry : (s.stamp n e r).register k = s.register k := update_of_ne at_ ..
    have before := spread.node k
    unfold Plain Reached at before ⊢
    rw [entry]
    exact before

/- What a node comes to by one act: nothing new, or a newer entry for `p`. -/
def Advance (m : Mesh E N C) (g : Option (Meta N)) (p : Option (Value C × Bool)) (s t : State E N C) (n : N) : Prop :=
  (t.register n = s.register n ∧ shown t n = shown s n) ∨ Reached m g p t n

omit [DecidableEq E] in
theorem advancePlain (advance : Advance m g p s t n) (plain : Plain m g o p s n) : Plain m g o p t n := by
  rcases advance with ⟨entry,same⟩ | reached
  · unfold Plain Reached at plain ⊢
    rw [entry,same]
    exact plain
  · exact .inr reached

omit [DecidableEq E] in
theorem advanceShown (advance : Advance m g p s t n) (here : shown s n = p) : shown t n = p := by
  rcases advance with ⟨_,same⟩ | ⟨_,_,_,_,same⟩
  · exact same.trans here
  · exact same

theorem rereadSpread (turn : Turn m g o p) (spread : Spread m g o p s) {now} (still : Still m s (.reread e now)) :
    Spread m g o p (resolve m s e (outcome m s e now)) ∧
    (∀ n, Advance m g p s (resolve m s e (outcome m s e now)) n) ∧
    Plain m g o p (resolve m s e (outcome m s e now)) (m.source e) := by
  have readable : ∀ d, s.data (m.source e) = some d → d.value.kind ≠ .moduleType :=
    fun d found => plainReadable turn spread _ found
  by_cases plain : Plain m g o p s (m.source e)
  · rcases outcomeFits spread.time readable (plainFits turn plain) now with ⟨_,frames⟩ | ⟨v,r,entry,frames,same,brings⟩
    · rw [frames]
      exact ⟨spread,fun _ => .inl ⟨rfl,rfl⟩,plain⟩
    · rw [frames]
      refine ⟨frameSpread spread ?_ e,fun _ => .inl ⟨rfl,rfl⟩,plain⟩
      have version : r.version = v.version := congrArg Meta.version same
      rcases plain with ⟨old,_⟩ | ⟨w,new,newer,fits,shows_⟩
      · refine .inl ?_
        rw [version,← old,entry]
        exact decide_eq_false (lt_irrefl _)
      · cases entry.symm.trans new
        refine .inr ⟨?_,brings.trans shows_,same ▸ fits⟩
        rw [version]
        exact newer
  · obtain ⟨entry,same⟩ := (spread.node (m.source e)).resolve_left plain
    have unfit : ¬Fitting m g p := by
      intro fits
      exact plain (.inl ⟨entry,same.trans (turnFits turn fits).symm⟩)
    obtain ⟨r,frames,newer⟩ := outcomeUnfit turn spread entry same unfit (by rw [← entry]; exact still)
    rw [frames]
    refine ⟨stampSpread spread newer same e,fun n => ?_,.inr (stampReached newer same e)⟩
    by_cases at_ : n = m.source e
    · subst at_
      exact .inr (stampReached newer same e)
    · exact .inl ⟨update_of_ne at_ ..,rfl⟩

omit [LinearOrder N] in
theorem restoreShown {time : Int} (still : ∀ x ∈ r.body, (restore time r x).isSome) :
    (r.body.bind (restore time r)).map look = carried r := by
  cases body : r.body with
  | none => simp only [carried,body,Option.bind_none,Option.map_none]
  | some x =>
    obtain ⟨d,restored⟩ := Option.isSome_iff_exists.mp (still x body)
    simp only [Option.bind_some,restored,carried,body,Option.map_some,look]
    cases unexpiredSome restored
    by_cases zero : r.ttl = 0
    · simp [zero]
    · by_cases absolute : r.absolute = true <;> simp [zero,absolute]

omit [DecidableEq E] in
theorem winsNewer (spread : Spread m g o p s) (mem : r ∈ s.flight e) (won : wins (s.register n) r.version = true) :
    Newer m g p r := by
  refine (spread.flight e r mem).resolve_left fun old => ?_
  exact absurd (won.symm.trans (olderLoses spread old n)) (by simp)

omit [DecidableEq E] in
theorem applyAdvance {k : N} (still : ∀ x ∈ r.body, (restore s.time r x).isSome)
    (brings : wins (s.register k) r.version = true → Newer m g p r) (n) : Advance m g p s (meshApply s k r) n := by
  unfold meshApply
  split
  · rename_i won
    have newer := brings won
    by_cases same : n = k
    · subst same
      refine .inr ⟨r.entry,update_self ..,newer.1,newer.2.2,?_⟩
      simp only [shown,update_self]
      exact (restoreShown still).trans newer.2.1
    · refine .inl ⟨update_of_ne same ..,?_⟩
      simp only [shown,update_of_ne same]
  · exact .inl ⟨rfl,rfl⟩

omit [DecidableEq E] in
theorem applyTime (s : State E N C) (n r) : (meshApply s n r).time = s.time := by
  unfold meshApply
  split <;> rfl

theorem deliverSpread (spread : Spread m g o p s) {rest} (waiting : s.flight e = r::rest)
    (still : ∀ x ∈ r.body, (restore s.time r x).isSome) :
    Spread m g o p (meshApply { s with flight := update s.flight e rest } (m.target e) r) ∧
    ∀ n, Advance m g p s (meshApply { s with flight := update s.flight e rest } (m.target e) r) n := by
  have advance := applyAdvance (s := { s with flight := update s.flight e rest }) (k := m.target e) (m := m) (g := g)
    (p := p) still fun won => winsNewer spread (waiting ▸ List.mem_cons_self) won
  refine ⟨⟨?_,?_,fun n => ?_,fun q x inside => ?_⟩,advance⟩
  · rw [applyTime]
    exact spread.time
  · rw [applyPc]
    exact spread.idle
  · rcases spread.node n with plain | ⟨entry,same⟩
    · exact .inl (advancePlain (advance n) plain)
    · rcases advance n with ⟨kept,also⟩ | reached
      · exact .inr ⟨kept.trans entry,also.trans same⟩
      · exact .inl (.inr reached)
  · rw [applyFlight] at inside
    exact spread.flight q x (popMem waiting inside)

theorem spreadStep (turn : Turn m g o p) (spread : Spread m g o p s) (still : Still m s a) (ok : act m s a = some t) :
    Spread m g o p t ∧ ∀ n, Advance m g p s t n := by
  cases a with
  | command _ _ => exact still.elim
  | elapse until_ =>
    cases taken (show step m s (.elapse until_) = some t from ok) with
    | elapse later =>
      have same : (fun n => unexpired until_ (s.data n)) = s.data := funext still
      rw [same]
      exact ⟨⟨spread.time.trans later,spread.idle,spread.node,spread.flight⟩,fun _ => .inl ⟨rfl,rfl⟩⟩
  | reread e now =>
    cases (wholeReread (spread.idle e) now).symm.trans ok
    exact ⟨(rereadSpread turn spread still).1,(rereadSpread turn spread still).2.1⟩
  | deliver e =>
    cases taken (show step m s (.deliver e) = some t from ok) with
    | deliver waiting => exact deliverSpread spread waiting (still _ (by rw [waiting]; rfl))

theorem spreadKeeps (spread : Spread m g o p s) (present : p.isSome) (still : Still m s a) : Keeps m s a := by
  rintro e t rfl ok there
  cases taken (show step m s (.deliver e) = some t from ok) with
  | @deliver _ r rest waiting =>
    unfold meshApply
    split
    · rename_i won
      have newer := winsNewer spread (waiting ▸ List.mem_cons_self) won
      rw [← newer.2.1] at present
      obtain ⟨x,body⟩ := Option.isSome_iff_exists.mp (Option.isSome_map.symm.trans present)
      simp only [update_self,body,Option.bind_some]
      exact still r (by rw [waiting]; rfl) x body
    · exact there

theorem passPlain {acts} (turn : Turn m g o p) (spread : Spread m g o p s) (pass : Pass m s acts t) :
    Spread m g o p t ∧ (∀ e, Plain m g o p t (m.source e)) ∧ ∀ n, shown s n = p → shown t n = p := by
  refine ⟨?_,fun e => ?_,fun n here => ?_⟩
  · exact runKeeps (fun s a t held still ok => (spreadStep turn held still ok).1) pass.still pass.ran spread
  · obtain ⟨now,mem⟩ := pass.read e
    refine runOnward (Q := fun s => Plain m g o p s (m.source e)) (T := fun a => ∃ now, a = .reread e now)
      (fun s a t held still ok => (spreadStep turn held still ok).1) ?_ ?_ pass.still pass.ran spread ⟨_,mem,now,rfl⟩
    · rintro s a t held still ⟨now,rfl⟩ ok
      cases (wholeReread (held.idle e) now).symm.trans ok
      exact (rereadSpread turn held still).2.2
    · exact fun s a t held still plain ok => advancePlain ((spreadStep turn held still ok).2 _) plain
  · have both : Spread m g o p t ∧ shown t n = p := by
      refine runKeeps (P := fun s => Spread m g o p s ∧ shown s n = p) (fun s a t held still ok => ?_) pass.still pass.ran
        ⟨spread,here⟩
      obtain ⟨next,advance⟩ := spreadStep turn held.1 still ok
      exact ⟨next,advanceShown (advance n) held.2⟩
    exact both.2

end Replicare.RedisExpiry
