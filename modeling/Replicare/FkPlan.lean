import Replicare.FkDrain
import Replicare.Staged

/-! The drain of a component as rounds of batches. -/
namespace Replicare.FkPlan
open Engine Relations Consume Coalesce Stored Rounds Staged FkDrain List

section Definitions
variable (job : Job) (s : State)

def slice (r : TableRef) (i : Nat) : List (DirtyKey KeyValues) :=
  ((readDirtyKeys (s.queue r) job.id 0).drop (i*job.batch.toNat)).take job.batch.toNat

def sliceKeys (r : TableRef) (i : Nat) : List KeyValues := (coalesce keySignature (slice job s r i)).1

def slices (r : TableRef) : Nat :=
  ((readDirtyKeys (s.queue r) job.id 0).length+job.batch.toNat-1)/job.batch.toNat

def halfway : Tables := fun r k =>
  (view job.source r k).map fun x => blend (job.cyclicCols r) x (view s.target r k)

def stage : Nat → Tables
  | 0 => view s.target
  | 1 => halfway job s
  | _ => view job.source

end Definitions

theorem halfwayGradual {job : Job} {s : State} {r k x z} {cols : List String} (old : view s.target r k = some x)
    (new : view job.source r k = some z) (same : cols.map x = cols.map z) :
    ∃ y, halfway job s r k = some y ∧ cols.map y = cols.map x := by
  refine ⟨blend (job.cyclicCols r) z (some x),by simp [halfway,old,new],map_inj_left.mpr fun c mem => ?_⟩
  have kept := map_inj_left.mp same c mem
  by_cases omitted : c ∈ job.cyclicCols r <;> simp [blend,omitted,kept]

section Definitions
variable (job : Job) (s : State)

def course : Course where
  last := 2
  stage := stage job s
  gradual := by
    intro r k i j l x z cols low mid high first second same
    rcases Nat.eq_or_lt_of_le low with rfl | below
    · exact ⟨x,first,rfl⟩
    · rcases Nat.eq_or_lt_of_le mid with rfl | above
      · exact ⟨z,second,same.symm⟩
      · obtain ⟨rfl,rfl,rfl⟩ : i = 0 ∧ j = 1 ∧ l = 2 := by omega
        exact halfwayGradual first second same

def landing : Nat → Bool → Bool → List Nat
  | 0, true, true => [1,2]
  | 0, true, false => [1]
  | 1, false, _ => [1,2]
  | 2, true, false => [2]
  | _, _, _ => []

def plan (phases : Nat) : Plan TableRef Move where
  queues := job.tables
  blocks := slices job s
  phases := phases
  carries j r i := ((sliceKeys job s r i).flatMap fun k =>
    (landing j (view job.source r k).isSome (job.cyclicCols r).isEmpty).map fun t => (⟨r,k,t⟩ : Move)).toFinset
  requires := (course job s).Requires job.fks

end Definitions

variable {job : Job} {s : State} {phases : Nat}

theorem memCarries {j r i m} : m ∈ (plan job s phases).carries j r i ↔ m.table = r ∧ m.key ∈ sliceKeys job s r i ∧
    m.stage ∈ landing j (view job.source r m.key).isSome (job.cyclicCols r).isEmpty := by
  obtain ⟨r',k,t⟩ := m
  simp only [plan,mem_toFinset,mem_flatMap,mem_map,Move.mk.injEq]
  constructor
  · rintro ⟨k',known,t',landed,rfl,rfl,rfl⟩
    exact ⟨rfl,known,landed⟩
  · rintro ⟨rfl,known,landed⟩
    exact ⟨k,known,t,landed,rfl,rfl,rfl⟩

theorem landingStage {j present plain t} (landed : t ∈ landing j present plain) : t = 1 ∨ t = 2 := by
  unfold landing at landed
  split at landed <;> simp_all

theorem reachedStage (c) (r k) : (course job s).reached ((course job s).level c) r k =
    if ⟨r,k,2⟩ ∈ c then view job.source r k else if ⟨r,k,1⟩ ∈ c then halfway job s r k else view s.target r k := by
  unfold Course.reached Course.level
  by_cases second : (⟨r,k,2⟩ : Move) ∈ c
  · simp [course,stage,second]
  · by_cases first : (⟨r,k,1⟩ : Move) ∈ c <;> simp [course,stage,Nat.findGreatest,first,second]

def Reflects (job : Job) (s : State) (b : Base) (c : Finset Move) : Prop :=
  view b = (course job s).reached ((course job s).level c) ∧ ∀ m ∈ c, m.stage = 1 ∨ m.stage = 2

theorem orderlyOf {c} (stages : ∀ m ∈ c, m.stage = 1 ∨ m.stage = 2)
    (earlier : ∀ r k, ⟨r,k,2⟩ ∈ c → ⟨r,k,1⟩ ∈ c) : (course job s).Orderly c where
  low := fun m mem => by rcases stages m mem with h | h <;> omega
  high := fun m mem => by
    show m.stage ≤ 2
    rcases stages m mem with h | h <;> omega
  earlier := fun r k t low mem => by
    rcases stages _ mem with h | h
    · dsimp only at h
      omega
    · obtain rfl : t = 1 := by dsimp only at h; omega
      exact earlier r k mem

theorem closedEarlier {c} (closed : (plan job s phases).Closed c) (r k) (mem : ⟨r,k,2⟩ ∈ c) : ⟨r,k,1⟩ ∈ c :=
  closed ⟨r,k,2⟩ mem ⟨r,k,1⟩ (.earlier (s := 1) (by decide) (by show 1 < 2; decide))

theorem steadyOfKeyed (keyCols) (covers : ∀ fk ∈ job.fks, ∀ c ∈ keyCols fk.parent, c ∈ fk.parentCols)
    (free : ∀ r, ∀ c ∈ keyCols r, c ∉ job.cyclicCols r)
    (apart : ∀ fk ∈ job.fks, (∀ c ∈ fk.childCols, c ∈ job.cyclicCols fk.child) ∨
      ∀ c ∈ fk.childCols, c ∉ job.cyclicCols fk.child)
    (target : Keyed keyCols (view s.target)) (source : Keyed keyCols (view job.source)) : (course job s).Steady job.fks := by
  have keyed : ∀ t r k x, stage job s t r k = some x → keyOf (keyCols r) x = k := by
    intro t r k x row
    unfold stage at row
    split at row
    · exact target r k x row
    · obtain ⟨z,found,rfl⟩ := Option.map_eq_some_iff.mp row
      rw [← source r k z found]
      exact map_inj_left.mpr fun c mem => by simp [blend,free r c mem]
    · exact source r k x row
  refine ⟨?_,fun fk known k x t bound row needs => ?_⟩
  · rintro fk known k x t u v p q _ _ _ _ ⟨y,yRow,first⟩ ⟨z,zRow,second⟩
    rw [← keyed u _ _ _ yRow,← keyed v _ _ _ zRow]
    exact referencesKey (covers fk known) first second
  · have there : t = 0 ∨ t = 1 ∨ t = 2 := by
      have high : t ≤ 2 := bound
      omega
    rcases there with rfl | rfl | rfl
    · exact .inl ⟨x,row,rfl⟩
    · obtain ⟨z,found,rfl⟩ := Option.map_eq_some_iff.mp row
      rcases apart fk known with inside | outside
      · cases old : view s.target fk.child k with
        | none =>
          -- all its columns are NULL in a new row
          cases none : fk.childCols with
          | nil => exact .inr ⟨z,found,by rw [none]; rfl⟩
          | cons c rest =>
            have mem : c ∈ fk.childCols := none ▸ mem_cons_self
            exact absurd (by simp [blend,old,inside c mem]) (needs c mem)
        | some o => exact .inl ⟨o,old,map_inj_left.mpr fun c mem => by simp [blend,inside c mem]⟩
      · exact .inr ⟨z,found,map_inj_left.mpr fun c mem => by simp [blend,outside c mem]⟩
    · exact .inr ⟨x,row,rfl⟩

theorem rereadLookup (w) (k) : (rereadCurrent job w).lookup k =
    if k ∈ w.distinct then view job.source w.ref k else none := by
  unfold rereadCurrent
  rw [lookupFilter (job.source w.ref) fun k => decide (k ∈ w.distinct)]
  simp [view]

theorem absentIff (w) (k) : (decide (k ∈ w.distinct) && !decide (k ∈ (rereadCurrent job w).map Prod.fst)) = true ↔
    k ∈ w.distinct ∧ view job.source w.ref k = none := by
  rw [Bool.and_eq_true,decide_eq_true_eq,Bool.not_eq_true',decide_eq_false_iff_not,← lookupNone,rereadLookup]
  constructor
  · rintro ⟨mem,gone⟩
    exact ⟨mem,by simpa [mem] using gone⟩
  · rintro ⟨mem,gone⟩
    exact ⟨mem,by simp [gone]⟩

variable {b : Base} {c : Finset Move} {w : Work} {i : Nat}

section
variable (read : w.distinct = sliceKeys job s w.ref i) (held : view b = (course job s).reached ((course job s).level c))
include read held

theorem mergeReached : view (merge b w.ref (job.cyclicCols w.ref) (rereadCurrent job w)) =
      (course job s).reached ((course job s).level (c ∪ (plan job s phases).carries 0 w.ref i)) := by
  funext r k
  rw [viewMerge,held,reachedStage,reachedStage,rereadLookup,read]
  simp only [Finset.mem_union,memCarries]
  by_cases same : r = w.ref
  · subst same
    by_cases mem : k ∈ sliceKeys job s w.ref i
    · cases row : view job.source w.ref k with
      | none => simp [landing,mem]
      | some x =>
        by_cases plain : job.cyclicCols w.ref = []
        · simp [landing,mem,plain,blendNothing]
        · have filled : (job.cyclicCols w.ref).isEmpty = false := by simpa using plain
          by_cases second : (⟨w.ref,k,2⟩ : Move) ∈ c
          · simp [landing,mem,filled,second,blendSelf]
          · by_cases first : (⟨w.ref,k,1⟩ : Move) ∈ c <;>
              simp [landing,mem,row,filled,second,first,halfway,blendTwice]
    · simp [mem]
  · simp [same]

theorem eraseReached :
    view (erase b w.ref fun k => decide (k ∈ w.distinct) && !decide (k ∈ (rereadCurrent job w).map Prod.fst)) =
      (course job s).reached ((course job s).level (c ∪ (plan job s phases).carries 1 w.ref i)) := by
  funext r k
  rw [viewErase,if_congr (and_congr_right fun _ => absentIff w k) rfl rfl,held,reachedStage,reachedStage,read]
  simp only [Finset.mem_union,memCarries]
  by_cases same : r = w.ref
  · subst same
    by_cases mem : k ∈ sliceKeys job s w.ref i
    · cases row : view job.source w.ref k with
      | none => simp [landing,mem]
      | some x => simp [landing]
    · simp [mem]
  · simp [same]

theorem fillReached (filled : job.cyclicCols w.ref ≠ []) (upserted : (plan job s phases).carries 0 w.ref i ⊆ c) :
    view (fill b w.ref (job.cyclicCols w.ref) (rereadCurrent job w)) =
      (course job s).reached ((course job s).level (c ∪ (plan job s phases).carries 2 w.ref i)) := by
  funext r k
  have open_ : (job.cyclicCols w.ref).isEmpty = false := by simpa using filled
  rw [viewFill,held,reachedStage,reachedStage,rereadLookup,read]
  simp only [Finset.mem_union,memCarries]
  by_cases same : r = w.ref
  · subst same
    by_cases mem : k ∈ sliceKeys job s w.ref i
    · cases row : view job.source w.ref k with
      | none =>
        have plain : ∀ y, blend (job.cyclicCols w.ref) y (some y) = y := blendSelf _
        simp [landing,mem,plain]
      | some x =>
        have first : (⟨w.ref,k,1⟩ : Move) ∈ c :=
          upserted (memCarries.mpr ⟨rfl,mem,by simp [landing,row,open_]⟩)
        by_cases second : (⟨w.ref,k,2⟩ : Move) ∈ c
        · simp [landing,mem,open_,second,blendSelf]
        · simp [landing,mem,row,open_,second,first,halfway,blendFilled]
    · have plain : ∀ y, blend (job.cyclicCols w.ref) y (some y) = y := blendSelf _
      simp [mem,plain]
  · simp [same]

end

section Agreement
variable (initial : Consistent job.fks (view s.target)) (final : Consistent job.fks (view job.source))
  (steady : (course job s).Steady job.fks)

include initial final steady in
theorem acceptAgrees {next j r pos} (held : Reflects job s b c) (closed : (plan job s phases).Closed c)
    (seen : view next = (course job s).reached ((course job s).level (c ∪ (plan job s phases).carries j r (pos r))))
    (begun : ∀ k, ⟨r,k,2⟩ ∈ (plan job s phases).carries j r (pos r) → ⟨r,k,1⟩ ∈ c ∪ (plan job s phases).carries j r (pos r)) :
    Option.Rel (Reflects job s) (accept job.fks next) ((plan job s phases).attempt j pos c r) := by
  have stages : ∀ m ∈ c ∪ (plan job s phases).carries j r (pos r), m.stage = 1 ∨ m.stage = 2 := fun m mem =>
    (Finset.mem_union.mp mem).elim (held.2 m) fun new => landingStage (memCarries.mp new).2.2
  have orderly : (course job s).Orderly (c ∪ (plan job s phases).carries j r (pos r)) := by
    refine orderlyOf stages fun r' k mem => ?_
    rcases Finset.mem_union.mp mem with old | new
    · exact Finset.mem_union_left _ (closedEarlier closed r' k old)
    · obtain rfl : r' = r := (memCarries.mp new).1
      exact begun k new
  have same : Consistent job.fks (view next) ↔ (plan job s phases).Closed (c ∪ (plan job s phases).carries j r (pos r)) := by
    rw [seen]
    exact Course.closedIff initial final steady orderly
  unfold accept Plan.attempt
  by_cases fits : Consistent job.fks (view next)
  · rw [if_pos fits,if_pos (same.mp fits)]
    exact .some ⟨seen,stages⟩
  · rw [if_neg fits,if_neg fun closed => fits (same.mpr closed)]
    exact .none

variable {pos : TableRef → Nat} (held : Reflects job s b c) (closed : (plan job s phases).Closed c)
  (read : w.distinct = sliceKeys job s w.ref (pos w.ref))

include initial final steady held closed read in
theorem stageUpsertAgrees :
    Option.Rel (Reflects job s) (stageUpsertCyclic job b w) ((plan job s phases).attempt 0 pos c w.ref) := by
  refine acceptAgrees initial final steady held closed (mergeReached read held.1) fun k mem => ?_
  obtain ⟨_,known,landed⟩ := memCarries.mp mem
  refine Finset.mem_union_right _ (memCarries.mpr ⟨rfl,known,?_⟩)
  revert landed
  cases (view job.source w.ref k).isSome <;> cases (job.cyclicCols w.ref).isEmpty <;> simp [landing]

include initial final steady held closed read in
theorem stageUpsertAgain (upserted : (plan job s phases).carries 0 w.ref (pos w.ref) ⊆ c) :
    ∃ d, stageUpsertCyclic job b w = some d ∧ Reflects job s d c := by
  have agrees := stageUpsertAgrees initial final steady held closed read
  rw [Plan.attemptLanded closed upserted] at agrees
  generalize stageUpsertCyclic job b w = staged at agrees ⊢
  cases agrees with
  | some found => exact ⟨_,rfl,found⟩

include initial final steady held closed read in
theorem deleteAgrees (upserted : (plan job s phases).carries 0 w.ref (pos w.ref) ⊆ c) :
    Option.Rel (Reflects job s) (perTableApplyCyclic job true false b w) ((plan job s phases).attempt 1 pos c w.ref) := by
  obtain ⟨d,staged,again⟩ := stageUpsertAgain initial final steady held closed read upserted
  simp only [perTableApplyCyclic,staged,Option.bind_some]
  refine acceptAgrees initial final steady again closed (eraseReached read again.1) fun k mem => ?_
  obtain ⟨_,known,landed⟩ := memCarries.mp mem
  refine Finset.mem_union_right _ (memCarries.mpr ⟨rfl,known,?_⟩)
  revert landed
  cases (view job.source w.ref k).isSome <;> simp [landing]

include initial final steady held closed read in
theorem fillAgrees (upserted : (plan job s phases).carries 0 w.ref (pos w.ref) ⊆ c) (filled : job.cyclicCols w.ref ≠ []) :
    Option.Rel (Reflects job s) (perTableApplyCyclic job false true b w) ((plan job s phases).attempt 2 pos c w.ref) := by
  obtain ⟨d,staged,again⟩ := stageUpsertAgain initial final steady held closed read upserted
  have agrees : Option.Rel (Reflects job s) (accept job.fks (fill d w.ref (job.cyclicCols w.ref) (rereadCurrent job w)))
      ((plan job s phases).attempt 2 pos c w.ref) := by
    refine acceptAgrees initial final steady again closed (fillReached read again.1 filled upserted) fun k mem => ?_
    obtain ⟨_,known,landed⟩ := memCarries.mp mem
    refine Finset.mem_union_left _ (upserted (memCarries.mpr ⟨rfl,known,?_⟩))
    revert landed
    cases (view job.source w.ref k).isSome <;> cases (job.cyclicCols w.ref).isEmpty <;> simp [landing]
  simpa [perTableApplyCyclic,fillCyclic,staged,filled] using agrees

include initial final steady held closed read in
theorem phaseAgrees {j} (below : j < 3) (passed : ∀ h < j, (plan job s phases).carries h w.ref (pos w.ref) ⊆ c) :
    Option.Rel (Reflects job s) (nullFillPhase job j b w) ((plan job s phases).attempt j pos c w.ref) := by
  obtain rfl | rfl | rfl : j = 0 ∨ j = 1 ∨ j = 2 := by omega
  · have agrees := stageUpsertAgrees initial final steady held closed read
    simpa [nullFillPhase,perTableApplyCyclic] using agrees
  · exact deleteAgrees initial final steady held closed read (passed 0 (by omega))
  · by_cases plain : job.cyclicCols w.ref = []
    · have nothing : (plan job s phases).carries 2 w.ref (pos w.ref) ⊆ c := by
        intro m mem
        have landed := (memCarries.mp mem).2.2
        cases here : (view job.source w.ref m.key).isSome <;> simp [landing,here,plain] at landed
      rw [Plan.attemptLanded closed nothing]
      simp only [nullFillPhase,if_pos plain]
      exact .some held
    · simp only [nullFillPhase,if_neg plain]
      exact fillAgrees initial final steady held closed read (passed 0 (by omega)) plain

end Agreement

end Replicare.FkPlan
