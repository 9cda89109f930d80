import Replicare.StreamPass

/-! Passes of a stream in which some components fail on every pass. A failing component ends
the drain of the pass, so what stands behind it in the list is never drained. -/
namespace Replicare.StreamIsolation
open Engine hiding Component
open Consume Purge Stored Enforce Runs Rounds CopyRun Reseed FkDrain FkAtomic StreamPass List Function

structure Confined (order : List TableRef) (s s' : State) : Prop where
  outside : ∀ r, r ∉ order → s'.queue r = s.queue r
  deltas : ∀ r, (s'.queue r).deltas = (s.queue r).deltas
  track : ∀ r, (s.queue r).track ⊆ (s'.queue r).track

theorem Confined.refl (order s) : Confined order s s := ⟨fun _ _ => rfl,fun _ => rfl,fun _ => subset_rfl⟩

theorem Confined.trans {order s s' t} (one : Confined order s s') (two : Confined order s' t) : Confined order s t :=
  ⟨fun r out => (two.outside r out).trans (one.outside r out),fun r => (two.deltas r).trans (one.deltas r),
    fun r => (one.track r).trans (two.track r)⟩

section Code
variable {job : Job} {s : State}

theorem gatherRef {w} {queue job} (mem : w ∈ gatherWork job queue) : w.ref ∈ job.tables := by
  obtain ⟨r,listed,rfl⟩ := mem_map.mp mem
  exact (mem_filter.mp listed).1

theorem confirmOthers {job : Job} {ws : List Work} {queue : Queues} {r} (out : ∀ v ∈ ws, v.ref ≠ r) :
    ws.foldl (confirmWork job) queue r = queue r := by
  induction ws generalizing queue with
  | nil => rfl
  | cons v ws ih =>
    rw [foldl_cons,ih fun u mem => out u (mem_cons_of_mem _ mem)]
    exact update_of_ne (out v mem_cons_self).symm _ _

theorem confirmDeltas {job : Job} (ws : List Work) (queue : Queues) (r) :
    (ws.foldl (confirmWork job) queue r).deltas = (queue r).deltas := by
  induction ws generalizing queue with
  | nil => rfl
  | cons w ws ih =>
    rw [foldl_cons,ih]
    unfold confirmWork
    by_cases here : r = w.ref
    · subst here
      rw [update_self]
      rfl
    · rw [update_of_ne here]

theorem confirmConfined {ws : List Work} (own : ∀ w ∈ ws, w.ref ∈ job.tables) (b : Base) :
    Confined job.tables s ⟨b,ws.foldl (confirmWork job) s.queue⟩ := by
  refine ⟨fun r out => confirmOthers fun w mem same => out (same ▸ own w mem),confirmDeltas ws s.queue,fun r => ?_⟩
  induction ws generalizing s with
  | nil => exact subset_rfl
  | cons w ws ih =>
    have one : (s.queue r).track ⊆ (confirmWork job s.queue w r).track := by
      unfold confirmWork
      by_cases here : r = w.ref
      · subst here
        rw [update_self]
        exact Finset.subset_union_left
      · rw [update_of_ne here]
    exact one.trans (ih (s := ⟨s.target,confirmWork job s.queue w⟩) fun u mem => own u (mem_cons_of_mem _ mem))

theorem phasesConfined (job : Job) (phases arrange) : Confined job.tables s (drainPhases job phases arrange s).state :=
  confirmConfined (fun _ mem => gatherRef (passMem (fun _ _ _ => arrangedMem) mem)) _

theorem poolConfined (job : Job) (dialect cyclic arrange) : Confined job.tables s (drainComponentPool dialect cyclic job arrange s).state := by
  unfold drainComponentPool
  split
  · rw [drainAcyclicPhases]
    exact phasesConfined job.plain 2 arrange
  · split
    · exact phasesConfined job 3 arrange
    · unfold drainAtomic
      dsimp only
      split
      · exact .refl _ _
      · split
        · exact .refl _ _
        · exact confirmConfined (fun _ => gatherRef) _

theorem attemptsConfined {drain order} (own : ∀ i s, Confined order s (drain i s).state) (n s) :
    Confined order s (attempts drain n s).state := by
  induction n generalizing s with
  | zero => exact .refl _ _
  | succ n ih =>
    simp only [attempts]
    split
    · exact (own n s).trans (ih _)
    · exact own n s

end Code

/- What a stream runs on. `reseed` is what the reseed at the end of a pass makes of the
target and the cursors. -/
structure Line where
  target : Base
  control : Control KeyValues

def Line.state (x : Line) : State := ⟨x.target,x.control.queue⟩

structure Loop where
  id : TargetID
  components : List (List TableRef)
  apart : components.flatten.Nodup
  drain : Nat → List TableRef → State → Result
  own : ∀ n, ∀ c ∈ components, ∀ s, Confined c s (drain n c s).state
  dialect : Dialect
  ret : RetentionPolicy
  obs : Nat → TableRef → Probe
  reseed : Nat → Line → Base × (TargetID → TableRef → Cursor)

section Passes
variable (l : Loop)

def Loop.drained (n : Nat) (x : Line) : State × Option Fault := drainAll (l.drain n) l.components x.state

def Loop.retained (n : Nat) (x : Line) : Control KeyValues × EnforceResult :=
  enforce l.dialect [l.id] l.ret ⟨l.components.flatten,l.apart⟩ (l.obs n) { x.control with queue := (l.drained n x).1.queue }

def Loop.streamOnce (n : Nat) (x : Line) : Line :=
  let y : Line := ⟨(l.drained n x).1.target,(l.retained n x).1⟩
  if (l.drained n x).2 = none ∧ (l.id ∈ (l.retained n x).2.reseeded ∨
      ∃ r ∈ l.components.flatten, (y.control.cursor l.id r).needsReseed = true) then
    ⟨(l.reseed n y).1,{ y.control with cursor := (l.reseed n y).2 }⟩
  else y

def Loop.passes (l : Loop) (x : Line) : Nat → Line
  | 0 => x
  | n+1 => l.streamOnce n (Loop.passes l x n)

/- The state in which the pass comes to what stands behind `before`. -/
def Loop.reached (x : Line) (n : Nat) (before : List (List TableRef)) : State := (drainAll (l.drain n) before (l.passes x n).state).1

def backlog (id : TargetID) (c : List TableRef) (s : State) : Nat := (c.map fun r => (unconsumed (s.queue r) id).length).sum

/- Each pass that comes to a component of `fails` fails there; each that comes to
another one drains it and, if it has a backlog, lowers it. -/
structure Behaves (fails : List TableRef → Prop) (x : Line) : Prop where
  failing : ∀ n before c after, l.components = before++c::after → (∀ b ∈ before, ¬fails b) → fails c →
    (l.drain n c (l.reached x n before)).fault ≠ none
  passing : ∀ n before c after, l.components = before++c::after → (∀ b ∈ before, ¬fails b) → ¬fails c →
    (l.drain n c (l.reached x n before)).fault = none
  lowers : ∀ n before c after, l.components = before++c::after → (∀ b ∈ before, ¬fails b) → ¬fails c →
    0 < backlog l.id c (l.reached x n before) →
    backlog l.id c (l.drain n c (l.reached x n before)).state < backlog l.id c (l.reached x n before)

/- Every delta of a component that does not fail is consumed by some pass. -/
def HealthyConsumed (fails : List TableRef → Prop) (x : Line) : Prop :=
  ∀ c ∈ l.components, ¬fails c → ∀ r ∈ c, ∀ d ∈ unconsumed (x.control.queue r) l.id,
    ∃ n, Consumed ((l.drained n (l.passes x n)).1.queue r) l.id d.id

def Unobstructed (fails : List TableRef → Prop) (x : Line) : Prop :=
  ∀ before c after, l.components = before++c::after → ¬fails c → (∃ b ∈ before, fails b) →
    ∀ r ∈ c, unconsumed (x.control.queue r) l.id = []

def Unsacrificed (fails : List TableRef → Prop) (x : Line) : Prop :=
  ∀ n, ∀ c ∈ l.components, ¬fails c → ∀ r ∈ c,
    ¬OverCap l.dialect ((l.drained n (l.passes x n)).1.queue r) [l.id] l.ret (l.obs n r) l.id

end Passes

section Frames
variable {l : Loop} {fails : List TableRef → Prop} {x : Line} {n : Nat} {before after : List (List TableRef)} {c : List TableRef} {r : TableRef}

theorem drainAllAppend {drain} (one two) (s) :
    drainAll drain (one++two) s = if (drainAll drain one s).2 = none then drainAll drain two (drainAll drain one s).1 else drainAll drain one s := by
  induction one generalizing s with
  | nil => rfl
  | cons c one ih =>
    simp only [cons_append,drainAll]
    split
    · exact ih _
    · rfl

theorem drainAllConfined {some_} (listed : ∀ c ∈ some_, c ∈ l.components) (n s) :
    Confined some_.flatten s (drainAll (l.drain n) some_ s).1 := by
  have widen : ∀ {a b : List TableRef} {s t}, (∀ r ∈ a, r ∈ b) → Confined a s t → Confined b s t :=
    fun sub confined => ⟨fun r out => confined.outside r fun mem => out (sub r mem),confined.deltas,confined.track⟩
  induction some_ generalizing s with
  | nil => exact .refl _ _
  | cons c some_ ih =>
    have one : Confined (c::some_).flatten s (l.drain n c s).state :=
      widen (fun r mem => by simp [mem]) (l.own n c (listed c mem_cons_self) s)
    simp only [drainAll]
    split
    · exact one.trans (widen (fun r mem => by simp only [flatten_cons,mem_append]; exact .inr mem)
        (ih (fun d mem => listed d (mem_cons_of_mem _ mem)) _))
    · exact one

section
variable (split : l.components = before++c::after)
include split

theorem apartBefore (mem : r ∈ c) : r ∉ before.flatten := by
  have apart := l.apart
  rw [split,flatten_append,flatten_cons] at apart
  intro there
  exact (nodup_append.mp apart).2.2 r there r (mem_append_left _ mem) rfl

theorem apartAfter (mem : r ∈ c) : r ∉ after.flatten := by
  have apart := l.apart
  rw [split,flatten_append,flatten_cons] at apart
  intro there
  exact (nodup_append.mp (nodup_append.mp apart).2.1).2.2 r mem r there rfl

theorem beforeListed : ∀ b ∈ before, b ∈ l.components :=
  fun _ mem => split ▸ mem_append_left _ mem

theorem reachedQueue (mem : r ∈ c) : (l.reached x n before).queue r = (l.passes x n).control.queue r :=
  (drainAllConfined (beforeListed split) n _).outside r (apartBefore split mem)

end

theorem reachedFaultless (behaves : Behaves l fails x) (split : l.components = before++after) (sound : ∀ b ∈ before, ¬fails b) :
    (drainAll (l.drain n) before (l.passes x n).state).2 = none := by
  induction before using List.reverseRecOn generalizing after with
  | nil => rfl
  | append_singleton before b ih =>
    have here : l.components = before++b::after := by rw [split,append_assoc]; rfl
    have earlier : ∀ a ∈ before, ¬fails a := fun a mem => sound a (mem_append_left _ mem)
    have went : (l.drain n b (drainAll (l.drain n) before (l.passes x n).state).1).fault = none :=
      behaves.passing n before b after here earlier (sound b (by simp))
    rw [drainAllAppend,if_pos (ih here earlier)]
    simp only [drainAll,if_pos went]

theorem drainedOwn (behaves : Behaves l fails x) (split : l.components = before++c::after) (sound : ∀ b ∈ before, ¬fails b)
    (healthy : ¬fails c) (mem : r ∈ c) :
    (l.drained n (l.passes x n)).1.queue r = (l.drain n c (l.reached x n before)).state.queue r := by
  unfold Loop.drained
  rw [split,drainAllAppend,if_pos (reachedFaultless behaves split sound)]
  simp only [drainAll]
  have went := behaves.passing n before c after split sound healthy
  unfold Loop.reached at went ⊢
  rw [if_pos went]
  exact (drainAllConfined (fun b mem => split ▸ mem_append_right _ (mem_cons_of_mem _ mem)) n _).outside r (apartAfter split mem)

theorem drainedBehind (behaves : Behaves l fails x) {f} (split : l.components = before++f::after) (sound : ∀ b ∈ before, ¬fails b)
    (failing : fails f) (behind : c ∈ after) (mem : r ∈ c) :
    (l.drained n (l.passes x n)).1.queue r = (l.passes x n).control.queue r := by
  have failed := behaves.failing n before f after split sound failing
  have out : r ∉ (before++[f]).flatten := by
    have apart := l.apart
    rw [split,show before++f::after = (before++[f])++after by simp,flatten_append] at apart
    intro there
    exact (nodup_append.mp apart).2.2 r there r (mem_flatten.mpr ⟨c,behind,mem⟩) rfl
  have cut : l.drained n (l.passes x n) = drainAll (l.drain n) (before++[f]) (l.passes x n).state := by
    have went := reachedFaultless (n := n) behaves split sound
    unfold Loop.drained Loop.reached at *
    rw [split,drainAllAppend,drainAllAppend,if_pos went,if_pos went]
    simp only [drainAll,if_neg failed]
  rw [cut]
  refine (drainAllConfined (fun b there => ?_) n _).outside r out
  rw [split]
  rcases mem_append.mp there with early | last
  · exact mem_append_left _ early
  · exact mem_append_right _ (mem_singleton.mp last ▸ mem_cons_self)

theorem passQueue (x n) : (l.passes x (n+1)).control.queue = (l.retained n (l.passes x n)).1.queue := by
  show (l.streamOnce n (l.passes x n)).control.queue = _
  unfold Loop.streamOnce
  dsimp only
  split <;> rfl

theorem retainedQueue (r) : (l.retained n x).1.queue r = (l.drained n x).1.queue r ∨
    (l.retained n x).1.queue r = (purge l.dialect ((l.drained n x).1.queue r) [l.id] l.ret (l.obs n r)).1 := by
  by_cases member : r ∈ l.components.flatten
  · exact .inr ((enforceQueue ⟨l.components.flatten,l.apart⟩ _).1 r member)
  · exact .inl ((enforceQueue ⟨l.components.flatten,l.apart⟩ _).2 r member)

theorem retainedConsumed {id} (consumed : Consumed ((l.retained n x).1.queue r) l.id id) : Consumed ((l.drained n x).1.queue r) l.id id := by
  rcases retainedQueue (l := l) (n := n) (x := x) r with same | purged
  · exact same ▸ consumed
  · rw [purged] at consumed
    exact (purgeConsumedIff.mp consumed).1

theorem retainedReads (spared : ¬OverCap l.dialect ((l.drained n x).1.queue r) [l.id] l.ret (l.obs n r) l.id) (d) :
    d ∈ unconsumed ((l.retained n x).1.queue r) l.id ↔ d ∈ unconsumed ((l.drained n x).1.queue r) l.id := by
  rcases retainedQueue (l := l) (n := n) (x := x) r with same | purged
  · rw [same]
  · rw [purged]
    exact sparedBy _ (mem_singleton_self _) (overCapIff.not.mpr spared) d (nodup_singleton _)

theorem behindNever (behaves : Behaves l fails x) {f} (split : l.components = before++f::after) (sound : ∀ b ∈ before, ¬fails b)
    (failing : fails f) (behind : c ∈ after) (mem : r ∈ c) {id} (open_ : ¬Consumed (x.control.queue r) l.id id) (n) :
    ¬Consumed ((l.passes x n).control.queue r) l.id id := by
  induction n with
  | zero => exact open_
  | succ n ih =>
    rw [passQueue]
    intro consumed
    have drained := retainedConsumed consumed
    rw [drainedBehind behaves split sound failing behind mem] at drained
    exact ih drained

theorem backlogFalls (behaves : Behaves l fails x) (split : l.components = before++c::after) (sound : ∀ b ∈ before, ¬fails b)
    (healthy : ¬fails c) (spared : Unsacrificed l fails x) (left : 0 < backlog l.id c (l.passes x n).state) :
    backlog l.id c (l.passes x (n+1)).state < backlog l.id c (l.passes x n).state := by
  have member : c ∈ l.components := split ▸ mem_append_right _ mem_cons_self
  have same : backlog l.id c (l.reached x n before) = backlog l.id c (l.passes x n).state := by
    refine congrArg List.sum (map_congr_left fun r mem => ?_)
    rw [reachedQueue split mem]
    rfl
  have after_ : backlog l.id c (l.passes x (n+1)).state = backlog l.id c (l.drain n c (l.reached x n before)).state := by
    refine congrArg List.sum (map_congr_left fun r mem => ?_)
    rw [← drainedOwn behaves split sound healthy mem]
    show (unconsumed ((l.passes x (n+1)).control.queue r) l.id).length = _
    rw [passQueue]
    have distinct : ∀ q : Queue KeyValues, (unconsumed q l.id).Nodup := fun q => (List.Nodup.of_map _ q.unique).filter _
    exact ((perm_ext_iff_of_nodup (distinct _) (distinct _)).mpr (retainedReads (spared n c member healthy r mem))).length_eq
  rw [after_,← same]
  exact behaves.lowers n before c after split sound healthy (same ▸ left)

theorem frontConsumed (behaves : Behaves l fails x) (split : l.components = before++c::after) (sound : ∀ b ∈ before, ¬fails b)
    (healthy : ¬fails c) (spared : Unsacrificed l fails x) (mem : r ∈ c) {d} (waiting : d ∈ unconsumed (x.control.queue r) l.id) :
    ∃ n, Consumed ((l.drained n (l.passes x n)).1.queue r) l.id d.id := by
  by_contra never
  push Not at never
  have member : c ∈ l.components := split ▸ mem_append_right _ mem_cons_self
  have stays : ∀ n, d ∈ unconsumed ((l.passes x n).control.queue r) l.id := by
    intro n
    induction n with
    | zero => exact waiting
    | succ n ih =>
      rw [passQueue,retainedReads (spared n c member healthy r mem),memUnconsumed]
      refine ⟨?_,never n⟩
      rw [Loop.drained,(drainAllConfined (fun _ mem => mem) n _).deltas r]
      exact (memUnconsumed.mp ih).1
  have left : ∀ n, 0 < backlog l.id c (l.passes x n).state := by
    intro n
    refine List.sum_pos_iff_exists_pos_nat.mpr ⟨_,mem_map_of_mem mem,?_⟩
    exact length_pos_of_mem (stays n)
  have bound : ∀ n, backlog l.id c (l.passes x n).state+n ≤ backlog l.id c x.state := by
    intro n
    induction n with
    | zero => exact le_rfl
    | succ n ih =>
      have := backlogFalls behaves split sound healthy spared (left n)
      omega
  have := bound (backlog l.id c x.state)
  have := left (backlog l.id c x.state)
  omega

end Frames

theorem isolatedIff (l : Loop) (fails : List TableRef → Prop) (x : Line) (behaves : Behaves l fails x) :
    (HealthyConsumed l fails x → Unobstructed l fails x) ∧
    (Unsacrificed l fails x → (HealthyConsumed l fails x ↔ Unobstructed l fails x)) := by
  have necessary : HealthyConsumed l fails x → Unobstructed l fails x := by
    intro consumed before c after split healthy ⟨b,early,failing⟩ r mem
    classical
    refine eq_nil_iff_forall_not_mem.mpr fun d waiting => ?_
    obtain ⟨n,done⟩ := consumed c (split ▸ mem_append_right _ mem_cons_self) healthy r mem d waiting
    -- the first component that fails
    obtain ⟨f,found⟩ : ∃ f, before.find? (fun b => decide (fails b)) = some f :=
      Option.isSome_iff_exists.mp (find?_isSome.mpr ⟨b,early,decide_eq_true failing⟩)
    obtain ⟨failed,first,between,rfl,sound⟩ := find?_eq_some_iff_append.mp found
    have whole : l.components = first++f::(between++c::after) := by rw [split,append_assoc]; rfl
    have sound_ : ∀ b ∈ first, ¬fails b := fun b mem => by simpa using sound b mem
    have behind : c ∈ between++c::after := mem_append_right _ mem_cons_self
    rw [drainedBehind behaves whole sound_ (of_decide_eq_true failed) behind mem] at done
    exact behindNever behaves whole sound_ (of_decide_eq_true failed) behind mem (memUnconsumed.mp waiting).2 n done
  refine ⟨necessary,fun spared => ⟨necessary,fun open_ c member healthy r mem d waiting => ?_⟩⟩
  obtain ⟨before,after,split⟩ := append_of_mem member
  refine frontConsumed behaves split (fun b early failing => ?_) healthy spared mem waiting
  have none := open_ before c after split healthy ⟨b,early,failing⟩ r mem
  rw [none] at waiting
  exact not_mem_nil waiting

section Reseeds
variable {sync : Sync} {w w' : World} {a : Act}

/- Neither a commit at the source nor a part of a pass. -/
def quiet : Act → Bool
  | .commit _ => false
  | a => !a.pass

theorem quietMoves (moves : Moves sync w a w') (still : quiet a = true) : w'.control = { w.control with cursor := w'.control.cursor } := by
  cases moves with
  | commit | drained | enforced => cases still
  | refused | failed => unfold World.fail; split <;> rfl
  | mark => rw [recordControl]; rfl
  | exec _ did =>
    rename_i i _ _ _
    cases i with
    | copy t => cases did
    | clear t =>
      obtain ⟨b,_,rfl⟩ := Option.map_eq_some_iff.mp did
      rfl
    | _ =>
      cases did
      rfl
  | _ => rfl

theorem quietRun {acts} (still : ∀ a ∈ acts, quiet a = true) (ran : run (step sync) w acts = some w') :
    w'.control = { w.control with cursor := w'.control.cursor } := by
  refine runKeeps (P := fun v => v.control = { w.control with cursor := v.control.cursor })
    (fun v a v' held still ok => ?_) (alongOfAll fun a mem _ => still a mem) ran rfl
  rw [quietMoves (stepMoves ok) still,held]

end Reseeds

def loopOf (set : Setting) (source : Base) (reseed : Nat → Line → Base × (TargetID → TableRef → Cursor)) : Loop where
  id := set.sync.id
  components := set.sync.components
  apart := set.sync.distinct
  drain := fun n => drainComponentRetryingPool set n source
  own := fun n c _ s => attemptsConfined (fun i _ => poolConfined (set.job source c) set.dialect false (set.arrange n c i)) maxAttempts s
  dialect := set.dialect
  ret := set.ret
  obs := set.obs
  reseed := reseed

/- The pass of the loop is the pass of the stream and the reseeds it starts. -/
theorem streamOnceLoop (set) (x) {acts w reseed} (still : ∀ a ∈ acts, quiet a = true)
    (ran : run (step set.sync) (streamOnce set x).world acts = some w) (started : (streamOnce set x).todo = [] → acts = [])
    (result : ∀ y, reseed x.turn y = (w.target,w.control.cursor)) :
    (loopOf set x.world.source reseed).streamOnce x.turn ⟨x.world.target,x.world.control⟩ = ⟨w.target,w.control⟩ := by
  unfold Loop.streamOnce
  dsimp only
  split
  · rw [quietRun still ran,show (loopOf set x.world.source reseed).reseed = reseed from rfl,result]
    rfl
  · have none : acts = [] := started (if_neg ‹_›)
    subst none
    cases ran
    rfl

/-! One component that fails whatever it is given, and one that confirms all it has. -/

def customers : TableRef := ⟨"public","customers"⟩

def confirmAll (c : List TableRef) (s : State) : State :=
  ⟨s.target,fun r => if r ∈ c then confirmConsumed (s.queue r) "t" ((s.queue r).deltas.map Delta.id) else s.queue r⟩

theorem confirmAllConfined (c s) : Confined c s (confirmAll c s) := by
  refine ⟨fun r out => if_neg out,fun r => ?_,fun r => ?_⟩
  · simp only [confirmAll]
    split <;> rfl
  · simp only [confirmAll]
    split
    · exact Finset.subset_union_left
    · exact subset_rfl

def halting (components : List (List TableRef)) (apart : components.flatten.Nodup) : Loop where
  id := "t"
  components := components
  apart := apart
  drain := fun _ c s => if c = [orders] then ⟨s,0,some .halt⟩ else ⟨confirmAll c s,0,none⟩
  own := by
    intro _ c _ s
    split
    · exact .refl _ _
    · exact confirmAllConfined c s
  dialect := .postgres
  ret := ⟨0,0⟩
  obs := fun _ _ => ⟨0,0⟩
  reseed := fun _ y => (y.target,y.control.cursor)

theorem haltingBehaves (components apart x) : Behaves (halting components apart) (· = [orders]) x where
  failing := by
    rintro n before c after - - rfl
    simp [halting]
  passing := by
    intro n before c after _ _ healthy
    simp [halting,healthy]
  lowers := by
    intro n before c after _ _ healthy left
    have none : backlog "t" c (confirmAll c ((halting components apart).reached x n before)) = 0 := by
      refine sum_eq_zero fun m mem => ?_
      obtain ⟨r,own,rfl⟩ := mem_map.mp mem
      refine length_eq_zero_iff.mpr (eq_nil_iff_forall_not_mem.mpr fun d waiting => ?_)
      simp only [confirmAll,if_pos own] at waiting
      obtain ⟨inside,open_⟩ := memUnconsumed.mp waiting
      exact open_ (confirmedIff.mpr (.inr ⟨rfl,mem_map_of_mem inside⟩))
    have drained : ((halting components apart).drain n c ((halting components apart).reached x n before)).state =
        confirmAll c ((halting components apart).reached x n before) := by
      simp [halting,healthy]
    rw [drained]
    exact lt_of_eq_of_lt none left

def waiting : Line := ⟨fun _ => [],⟨fun _ => Consume.capture .empty ⟨1,.insert,[],0⟩ (by decide),fun _ _ => ⟨.streaming,false⟩,[]⟩⟩

theorem frontIsolated : HealthyConsumed (halting [[customers],[orders]] (by decide)) (· = [orders]) waiting := by
  refine ((isolatedIff _ _ _ (haltingBehaves _ _ _)).2 ?_).mpr ?_
  · intro n c _ _ r _
    simp [halting,OverCap,Aged,Oversized]
  · rintro before c after split healthy ⟨b,early,failing⟩
    have whole : [[customers],[orders]] = before++c::after := split
    cases before with
    | nil => cases early
    | cons a before =>
      cases before with
      | nil =>
        cases whole
        exact absurd rfl healthy
      | cons b before => simp at whole

/- With the failing component first, the other is never drained. -/
theorem behindStarves : ¬HealthyConsumed (halting [[orders],[customers]] (by decide)) (· = [orders]) waiting := by
  intro consumed
  obtain ⟨n,done⟩ := consumed [customers] (by simp [halting]) (by decide) customers (by simp) ⟨1,.insert,[],0⟩ (by decide)
  have behaves := haltingBehaves [[orders],[customers]] (by decide) waiting
  have split : (halting [[orders],[customers]] (by decide)).components = []++[orders]::[[customers]] := rfl
  have member : [customers] ∈ [[customers]] := mem_singleton_self _
  have own : customers ∈ [customers] := mem_singleton_self _
  rw [drainedBehind behaves split (by simp) rfl member own] at done
  exact behindNever behaves split (by simp) rfl member own (by decide) n done

end Replicare.StreamIsolation
