import Replicare.FkPlan

/-! When repeated drain passes of a component reach the source. -/
namespace Replicare.FkProgress
open Engine Relations Consume Coalesce Stored Rounds Staged FkDrain FkPlan List

variable {job : Job} {s t : State} {phases : Nat} {a : Plan.State TableRef Move}

def Remains (job : Job) (s t : State) (pos : TableRef → Nat) : Prop :=
  ∀ r ∈ job.tables, readDirtyKeys (t.queue r) job.id 0 = (readDirtyKeys (s.queue r) job.id 0).drop (pos r*job.batch.toNat)

section Limited
variable (limited : 0 < job.batch) {pos : TableRef → Nat}
include limited

theorem sliceIff {r i} : i < slices job s r ↔ i*job.batch.toNat < (readDirtyKeys (s.queue r) job.id 0).length := by
  unfold slices
  have positive : 0 < job.batch.toNat := by omega
  rw [← Nat.succ_le_iff,Nat.le_div_iff_mul_le positive,Nat.succ_mul]
  omega

section
variable (remains : Remains job s t pos)
include remains

theorem readSlice {r} (known : r ∈ job.tables) : readDirtyKeys (t.queue r) job.id job.batch = slice job s r (pos r) := by
  rw [readTake _ _ limited,remains r known,slice]

theorem gatherNames :
    (gatherWork job t.queue).map Work.ref = job.tables.filter fun r => decide (pos r < slices job s r) := by
  have named : Work.ref ∘ workOf job t.queue = id := rfl
  unfold gatherWork
  rw [List.map_map,named,map_id]
  refine filter_congr fun r known => ?_
  have bound : pos r < slices job s r ↔ slice job s r (pos r) ≠ [] := by
    rw [sliceIff limited,slice,Ne,take_eq_nil_iff,drop_eq_nil_iff]
    omega
  rw [readSlice limited remains known]
  cases read : slice job s r (pos r) with
  | nil => simp [bound,read]
  | cons d rest => simp [bound,read]

theorem gatherSource {w} (mem : w ∈ gatherWork job t.queue) :
    w.ref ∈ job.tables ∧ w = workOf job t.queue w.ref ∧ w.distinct = sliceKeys job s w.ref (pos w.ref) := by
  obtain ⟨r,known,rfl⟩ := mem_map.mp mem
  refine ⟨(mem_filter.mp known).1,rfl,?_⟩
  simp only [workOf,sliceKeys,readSlice limited remains (mem_filter.mp known).1]

theorem emptyIff : (∀ r ∈ job.tables, unconsumed (t.queue r) job.id = []) ↔
    job.tables.filter (fun r => decide (pos r < slices job s r)) = [] := by
  simp only [filter_eq_nil_iff,decide_eq_true_eq]
  refine forall₂_congr fun r known => ?_
  rw [← readAllNone,remains r known,drop_eq_nil_iff,sliceIff limited,not_lt]

end

end Limited

theorem confirmTwice (q : Queue KeyValues) (id ids) :
    confirmConsumed (confirmConsumed q id ids) id ids = confirmConsumed q id ids := by
  simp [confirmConsumed,Finset.union_assoc]

theorem confirmFold {queue : Queues} {ws : List Work} (read : ∀ w ∈ ws, w = workOf job queue w.ref) {now : Queues} {r}
    (start : now r = queue r ∨ now r = confirmConsumed (queue r) job.id (workOf job queue r).ids) :
    ws.foldl (confirmWork job) now r =
      if r ∈ ws.map Work.ref then confirmConsumed (queue r) job.id (workOf job queue r).ids else now r := by
  induction ws generalizing now with
  | nil => simp
  | cons w ws ih =>
    have rest : ∀ v ∈ ws, v = workOf job queue v.ref := fun v mem => read v (mem_cons_of_mem _ mem)
    have ids : w.ids = (workOf job queue w.ref).ids := congrArg Work.ids (read w mem_cons_self)
    rw [foldl_cons]
    by_cases same : r = w.ref
    · subst same
      have confirmed : confirmWork job now w w.ref = confirmConsumed (queue w.ref) job.id (workOf job queue w.ref).ids := by
        unfold confirmWork
        rw [Function.update_self,ids]
        rcases start with fresh | done
        · rw [fresh]
        · rw [done,confirmTwice]
      rw [ih rest (.inr confirmed),confirmed]
      simp
    · have other : confirmWork job now w r = now r := Function.update_of_ne same _ _
      rw [ih rest (other ▸ start),other]
      simp [same]

theorem remainsConfirm (limited : 0 < job.batch) {pos : TableRef → Nat} (remains : Remains job s t pos) {ws : List Work}
    (read : ∀ w ∈ ws, w = workOf job t.queue w.ref) (target : Base) :
    Remains job s ⟨target,ws.foldl (confirmWork job) t.queue⟩ fun r => if r ∈ ws.map Work.ref then pos r+1 else pos r := by
  intro r known
  show readDirtyKeys (List.foldl (confirmWork job) t.queue ws r) job.id 0 = _
  rw [confirmFold read (.inl rfl)]
  dsimp only
  by_cases confirmed : r ∈ ws.map Work.ref
  · have ids : (workOf job t.queue r).ids = ((readDirtyKeys (t.queue r) job.id 0).take job.batch.toNat).map DirtyKey.deltaID := by
      rw [← readTake _ _ limited]
      exact coalesceIds _ _
    rw [if_pos confirmed,if_pos confirmed,ids,readConfirmed,remains r known,drop_drop,Nat.succ_mul]
  · rw [if_neg confirmed,if_neg confirmed,remains r known]

structure Tracks (job : Job) (s t : State) (a : Plan.State TableRef Move) : Prop where
  target : Reflects job s t.target a.landed
  queue : Remains job s t a.pos

theorem tracksStart : Tracks job s s Plan.start where
  target := by
    refine ⟨?_,fun m mem => absurd mem (Finset.notMem_empty m)⟩
    funext r k
    rw [reachedStage]
    simp [Plan.start]
  queue := fun r _ => by simp [Plan.start]

section Progress
variable (limited : 0 < job.batch) (initial : Consistent job.fks (view s.target))
  (final : Consistent job.fks (view job.source)) (steady : (course job s).Steady job.fks)
include limited initial final steady

theorem drainAgrees {arrange} (whole : Whole arrange) (bounded : phases ≤ 3) (tracks : Tracks job s t a)
    (inv : (plan job s phases).Inv a) :
    Reflects job s (pass (nullFillPhase job) (arranged arrange) phases 0 (gatherWork job t.queue) t.target).1
        ((plan job s phases).pass (arranged arrange) a.pos phases 0 ((plan job s phases).active a.pos) a.landed).1 ∧
      ((plan job s phases).pass (arranged arrange) a.pos phases 0 ((plan job s phases).active a.pos) a.landed).2 =
        (pass (nullFillPhase job) (arranged arrange) phases 0 (gatherWork job t.queue) t.target).2.map Work.ref := by
  have names : (gatherWork job t.queue).map Work.ref = (plan job s phases).active a.pos := gatherNames limited tracks.queue
  have agree : ∀ j, 0 ≤ j → j < 0+phases → ∀ b c, Reflects job s b c → (plan job s phases).Closed c →
      ∀ w ∈ gatherWork job t.queue, (∀ h < j, (plan job s phases).carries h w.ref (a.pos w.ref) ⊆ c) →
        Option.Rel (Reflects job s) (nullFillPhase job j b w) ((plan job s phases).attempt j a.pos c w.ref) :=
    fun j _ below b c held closed w mem passed => phaseAgrees initial final steady held closed
      (gatherSource limited tracks.queue mem).2.2 (by omega) passed
  have both := Plan.passSimulates Work.ref whole agree tracks.target inv.closed fun _ _ h none => absurd none (Nat.not_lt_zero h)
  rw [names] at both
  exact both

theorem drainTracks {arrange} (whole : Whole arrange) (bounded : phases ≤ 3) (tracks : Tracks job s t a)
    (inv : (plan job s phases).Inv a) :
    Tracks job s (drainPhases job phases arrange t).state ((plan job s phases).round (arranged arrange) a) := by
  obtain ⟨target,took⟩ := drainAgrees limited initial final steady whole bounded tracks inv
  have read : ∀ w ∈ (pass (nullFillPhase job) (arranged arrange) phases 0 (gatherWork job t.queue) t.target).2,
      w = workOf job t.queue w.ref := fun w mem =>
    (gatherSource limited tracks.queue (passMem (fun j l w => (memPick (whole j l.length)).mp) mem)).2.1
  refine ⟨target,?_⟩
  have left := remainsConfirm limited tracks.queue read
    (pass (nullFillPhase job) (arranged arrange) phases 0 (gatherWork job t.queue) t.target).1
  rw [← took] at left
  exact left

variable {arrange : Nat → Nat → Nat → List Nat} (whole : ∀ n, Whole (arrange n)) (bounded : phases ≤ 3)
include whole bounded

theorem passesTrack (n) : Tracks job s (passes (fun n t => (drainPhases job phases (arrange n) t).state) s n)
    ((plan job s phases).rounds (fun n => arranged (arrange n)) Plan.start n) := by
  induction n with
  | zero => exact tracksStart
  | succ n ih =>
    exact drainTracks limited initial final steady (whole n) bounded ih
      (Plan.roundsKeep (fun n => Plan.fairArranged (whole n)) Plan.invStart n)

end Progress

def Unblocked (job : Job) (s : State) (phases : Nat) : Prop :=
  ∀ x, (plan job s phases).Valid x → (plan job s phases).Possible (.inl x)

def Offered (job : Job) (s : State) : Prop :=
  ∀ r ∈ job.tables, ∀ k, view s.target r k ≠ view job.source r k → ∃ i < slices job s r, k ∈ sliceKeys job s r i

def Enough (job : Job) (phases : Nat) : Prop := phases = 3 ∨ phases = 2 ∧ ∀ r, job.cyclicCols r = []

theorem allLast (enough : Enough job phases) {r k i} (known : r ∈ job.tables) (below : i < slices job s r)
    (mem : k ∈ sliceKeys job s r i) : ⟨r,k,2⟩ ∈ (plan job s phases).all := by
  have final : ∃ j < phases, 2 ∈ landing j (view job.source r k).isSome (job.cyclicCols r).isEmpty := by
    cases here : (view job.source r k).isSome with
    | false => exact ⟨1,by rcases enough with rfl | ⟨rfl,_⟩ <;> omega,by simp [landing]⟩
    | true =>
      rcases enough with rfl | ⟨rfl,plain⟩
      · cases plain : (job.cyclicCols r).isEmpty with
        | true => exact ⟨0,by omega,by simp [landing]⟩
        | false => exact ⟨2,by omega,by simp [landing]⟩
      · exact ⟨0,by omega,by simp [landing,plain r]⟩
  obtain ⟨j,inside,landed⟩ := final
  simp only [Plan.all,Finset.mem_biUnion,mem_toFinset,Finset.mem_range,memCarries]
  exact ⟨r,known,i,below,j,inside,rfl,mem,landed⟩

theorem allSource {r k u} (mem : (⟨r,k,u⟩ : Move) ∈ (plan job s phases).all) :
    ∃ i < slices job s r, k ∈ sliceKeys job s r i := by
  simp only [Plan.all,Finset.mem_biUnion,mem_toFinset,Finset.mem_range,memCarries] at mem
  obtain ⟨_,_,i,below,_,_,rfl,key,_⟩ := mem
  exact ⟨i,below,key⟩

theorem landedOffered (inv : (plan job s phases).Inv a) {r k u} (landed : (⟨r,k,u⟩ : Move) ∈ a.landed) :
    ∃ i < slices job s r, k ∈ sliceKeys job s r i := allSource (Plan.landedAll inv landed)

theorem drainedIff (limited : 0 < job.batch) (enough : Enough job phases) (tracks : Tracks job s t a)
    (inv : (plan job s phases).Inv a) : Drained job t ↔ (plan job s phases).active a.pos = [] ∧ Offered job s := by
  constructor
  · intro drained
    refine ⟨(emptyIff limited tracks.queue).mp fun r known => (drained r known).1,fun r known k differs => ?_⟩
    have reached := (drained r known).2 k
    rw [tracks.target.1,reachedStage] at reached
    by_cases second : (⟨r,k,2⟩ : Move) ∈ a.landed
    · exact landedOffered inv second
    · by_cases first : (⟨r,k,1⟩ : Move) ∈ a.landed
      · exact landedOffered inv first
      · rw [if_neg second,if_neg first] at reached
        exact absurd reached differs
  · rintro ⟨empty,offered⟩ r known
    refine ⟨(emptyIff limited tracks.queue).mpr empty r known,fun k => ?_⟩
    have landed := Plan.emptiedLanded inv empty
    rw [tracks.target.1,reachedStage]
    by_cases carried : ∃ i < slices job s r, k ∈ sliceKeys job s r i
    · obtain ⟨i,below,mem⟩ := carried
      have last : (⟨r,k,2⟩ : Move) ∈ a.landed := landed ▸ allLast enough known below mem
      rw [if_pos last]
    · have out : ∀ u, (⟨r,k,u⟩ : Move) ∉ a.landed := fun u mem => carried (landedOffered inv mem)
      rw [if_neg (out 2),if_neg (out 1)]
      by_contra differs
      exact carried (offered r known k differs)

section Drained
variable (limited : 0 < job.batch) (initial : Consistent job.fks (view s.target))
  (final : Consistent job.fks (view job.source)) (steady : (course job s).Steady job.fks)
  {arrange : Nat → Nat → Nat → List Nat} (whole : ∀ n, Whole (arrange n)) (enough : Enough job phases)
include limited initial final steady whole enough

theorem phasesDrainIff : (∃ n, Drained job (passes (fun n t => (drainPhases job phases (arrange n) t).state) s n)) ↔
    Unblocked job s phases ∧ Offered job s := by
  have bounded : phases ≤ 3 := by rcases enough with rfl | ⟨rfl,_⟩ <;> omega
  have fair : ∀ n, Plan.Fair (arranged (ω := TableRef) (arrange n)) := fun n => Plan.fairArranged (whole n)
  have each : ∀ n, Drained job (passes (fun n t => (drainPhases job phases (arrange n) t).state) s n) ↔
      (plan job s phases).active ((plan job s phases).rounds (fun n => arranged (arrange n)) Plan.start n).pos = [] ∧
        Offered job s := fun n =>
    drainedIff limited enough (passesTrack limited initial final steady whole bounded n)
      (Plan.roundsKeep fair Plan.invStart n)
  rw [exists_congr each,exists_and_right,Plan.emptiedIff fair]
  rfl

end Drained

end Replicare.FkProgress
