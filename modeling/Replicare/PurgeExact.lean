import Replicare.TrackRows

/-! What a purge deletes, and whom it sacrifices, for the statements of both engines: the
Postgres one joins the deltas to the groups of the track rows, the MySQL one counts the track
rows of each delta. -/
namespace Replicare.PurgeExact
open Engine Consume Purge TrackRows List

variable {K : Type*}

def groupedIds (q : Queue K) (targets : List TargetID) : Finset DeltaID :=
  ((q.track.filter fun r => r.1 ∈ targets).image Prod.snd).filter fun id =>
    ((q.track.filter fun r => r.1 ∈ targets).filter fun r => r.2 = id).card = targets.length

/- The ids that one DELETE statement removes. -/
def statementIds (dialect : Dialect) (q : Queue K) (targets : List TargetID) (batch : Nat) : List DeltaID :=
  if targets = [] then ((q.deltas.map Delta.id).insertionSort (· ≤ ·)).take batch
  else
    match dialect with
    | .postgres => (((q.deltas.map Delta.id).filter fun id => decide (id ∈ groupedIds q targets)).insertionSort (· ≤ ·)).take batch
    | .mysql => (((q.deltas.filter fun d => decide ((q.track.filter fun r => r.2 = d.id ∧ r.1 ∈ targets).card = targets.length)).map
        Delta.id).insertionSort (· ≤ ·)).take batch

def deleteStatement (dialect : Dialect) (targets : List TargetID) (batch : Nat) (q : Queue K) : Queue K :=
  keep q fun d => !decide (d.id ∈ statementIds dialect q targets batch)

inductive Ends (dialect : Dialect) (targets : List TargetID) (batch : Nat) : Queue K → Queue K → Prop where
  | short {q} : (statementIds dialect q targets batch).length < batch → Ends dialect targets batch q (deleteStatement dialect targets batch q)
  | full {q out} : ¬(statementIds dialect q targets batch).length < batch →
      Ends dialect targets batch (deleteStatement dialect targets batch q) out → Ends dialect targets batch q out

theorem statementSame (dialect : Dialect) (q : Queue K) (targets : List TargetID) (batch : Nat) :
    statementIds dialect q targets batch = batchIds q targets batch := by
  unfold statementIds batchIds purgeableIds
  by_cases none : targets = []
  · subst none
    rw [if_pos rfl]
    simp [purgeable]
  · rw [if_neg none]
    have positive : 0 < targets.length := length_pos_iff.mpr none
    have some_ : targets.isEmpty = false := by simpa using none
    cases dialect with
    | mysql =>
      have same : ∀ d : Delta K, purgeable q targets d.id = decide ((q.track.filter fun r => r.2 = d.id ∧ r.1 ∈ targets).card = targets.length) := by
        intro d
        simp [purgeable,some_,and_comm]
      simp only [same]
    | postgres =>
      have same : ∀ id, decide (id ∈ groupedIds q targets) = purgeable q targets id := by
        intro id
        have count : ((q.track.filter fun r => r.1 ∈ targets).filter fun r => r.2 = id) = q.track.filter fun r => r.1 ∈ targets ∧ r.2 = id :=
          Finset.filter_filter _ _ _
        rw [purgeable,some_,Bool.false_or,decide_eq_decide,groupedIds,Finset.mem_filter,count]
        refine and_iff_right_of_imp fun all => ?_
        -- a group of as many rows as there are targets is not empty
        obtain ⟨r,mem⟩ := Finset.card_pos.mp (all ▸ positive)
        obtain ⟨row,listed,here⟩ := Finset.mem_filter.mp mem
        exact Finset.mem_image.mpr ⟨r,Finset.mem_filter.mpr ⟨row,listed⟩,here⟩
      simp only [same]
      rw [filter_map]
      rfl

theorem loopEnds (dialect : Dialect) {targets : List TargetID} {batch : Nat} (positive : 0 < batch) {fuel : Nat} {q : Queue K} (total : Nat)
    (enough : q.deltas.length < fuel) : Ends dialect targets batch q (purgeLoop targets batch fuel q total).1 := by
  have same : ∀ q : Queue K, deleteStatement dialect targets batch q = deleteBatch targets batch q := by
    intro q
    rw [deleteStatement,statementSame,deleteBatch]
  induction fuel generalizing q total with
  | zero => omega
  | succ fuel ih =>
    unfold purgeLoop
    dsimp only
    split
    · rename_i short
      rw [← same]
      exact .short (by rwa [statementSame])
    · rename_i long
      refine .full (by rwa [statementSame]) ?_
      rw [same]
      have nonempty : batchIds q targets batch ≠ [] := by
        intro none
        rw [none] at long
        exact long positive
      exact ih _ (Nat.lt_of_lt_of_le (deleteBatchShrinks nonempty) (Nat.le_of_lt_succ enough))

theorem Ends.unique {dialect : Dialect} {targets : List TargetID} {batch : Nat} {q out out' : Queue K}
    (one : Ends dialect targets batch q out) (two : Ends dialect targets batch q out') : out = out' := by
  induction one with
  | short short =>
    cases two with
    | short => rfl
    | full long => exact absurd short long
  | full long _ ih =>
    cases two with
    | short short => exact absurd short long
    | full _ rest => exact ih rest

section Spec
variable (q : Queue K) (targets : List TargetID) (ret : RetentionPolicy) (p : Probe)

def Purges (dialect : Dialect) (out : Queue K) (reseed : List TargetID) : Prop :=
  reseed = overCapTargets dialect q targets ret p ∧
    if reseed = [] then Ends dialect targets defaultPurgeBatch q out
    else Ends dialect (subtractTargets targets reseed) defaultPurgeBatch (resetTrack q reseed) out

def Oldest (tg : TargetID) : Prop := ∃ before after, targets = before++tg::after ∧ ∃ d ∈ unconsumed q tg,
  (∀ u ∈ before, ∀ e ∈ unconsumed q u, d.rcAt < e.rcAt) ∧ ∀ u ∈ after, ∀ e ∈ unconsumed q u, d.rcAt ≤ e.rcAt

structure Exact (out : Queue K) (reseed : List TargetID) : Prop where
  sacrificed : ∀ tg, tg ∈ reseed ↔ tg ∈ targets ∧ Aged q ret p tg ∨ Oversized ret p ∧ Oldest q targets tg
  deleted : ∀ d, d ∈ out.deltas ↔ d ∈ q.deltas ∧ ∃ tg ∈ targets, tg ∉ reseed ∧ ¬Consumed q tg d.id
  spared : ∀ tg ∈ targets, tg ∉ reseed → ∀ d, d ∈ unconsumed out tg ↔ d ∈ unconsumed q tg

def Timely : Prop := Oversized ret p → (∃ tg ∈ targets, ∃ d ∈ unconsumed q tg, d.rcAt < p.now) ∨
  ∀ before tg after, targets = before++tg::after → (∀ u ∈ before, unconsumed q u = []) → unconsumed q tg ≠ [] →
    ∃ d ∈ unconsumed q tg, ∀ u ∈ targets, ∀ e ∈ unconsumed q u, d.rcAt ≤ e.rcAt

end Spec

section Ages
variable {q : Queue K} {targets : List TargetID} {ret : RetentionPolicy} {p : Probe} {tg : TargetID}

theorem purgeRuns (dialect : Dialect) (q : Queue K) (targets ret p) :
    Purges q targets ret p dialect (purge dialect q targets ret p).1 (overCapTargets dialect q targets ret p) := by
  refine ⟨rfl,?_⟩
  unfold purge
  dsimp only
  by_cases none : overCapTargets dialect q targets ret p = []
  · rw [if_pos none,none]
    exact loopEnds dialect (by decide) 0 (Nat.lt_succ_self _)
  · have some_ : (overCapTargets dialect q targets ret p).isEmpty = false := by simpa using none
    rw [if_neg none,some_]
    exact loopEnds dialect (by decide) 0 (Nat.lt_succ_self _)

theorem Purges.out {dialect : Dialect} {out : Queue K} {reseed : List TargetID} (ran : Purges q targets ret p dialect out reseed) :
    out = (purge dialect q targets ret p).1 ∧ reseed = overCapTargets dialect q targets ret p := by
  obtain ⟨rfl,ends⟩ := ran
  have other := (purgeRuns dialect q targets ret p).2
  refine ⟨?_,rfl⟩
  split at ends
  · rename_i none
    rw [if_pos none] at other
    exact ends.unique other
  · rename_i some_
    rw [if_neg some_] at other
    exact ends.unique other

theorem ageFirst {backlog : List (Delta K)} (some_ : backlog ≠ []) (p : Probe) : ∃ d ∈ backlog, (∀ e ∈ backlog, d.rcAt ≤ e.rcAt) ∧
    oldestAge .postgres backlog p = p.now-d.rcAt ∧ oldestAge .mysql backlog p = max 0 (p.now-d.rcAt) := by
  cases found : (backlog.map Delta.rcAt).min? with
  | none =>
    rw [min?_eq_none_iff,map_eq_nil_iff] at found
    exact absurd found some_
  | some first =>
    obtain ⟨mem,least⟩ := min?_eq_some_iff.mp found
    obtain ⟨d,listed,rfl⟩ := mem_map.mp mem
    refine ⟨d,listed,fun e mem => least _ (mem_map_of_mem mem),?_,?_⟩ <;> simp [oldestAge,found]

theorem laggardPostgres : Laggard .postgres q targets p tg ↔ Oldest q targets tg := by
  constructor
  · rintro ⟨before,after,split,some_,early,late⟩
    obtain ⟨d,mem,_,age,_⟩ := ageFirst some_ p
    refine ⟨before,after,split,d,mem,fun u listed e held => ?_,fun u listed e held => ?_⟩
    · have other := ne_nil_of_mem held
      have less := early u listed other
      obtain ⟨f,_,least,age',_⟩ := ageFirst other p
      have low := least e held
      omega
    · have other := ne_nil_of_mem held
      have less := late u listed other
      obtain ⟨f,_,least,age',_⟩ := ageFirst other p
      have low := least e held
      omega
  · rintro ⟨before,after,split,d,mem,early,late⟩
    have some_ := ne_nil_of_mem mem
    obtain ⟨f,_,least,age,_⟩ := ageFirst some_ p
    have low := least d mem
    refine ⟨before,after,split,some_,fun u listed other => ?_,fun u listed other => ?_⟩
    · obtain ⟨e,held,_,age',_⟩ := ageFirst other p
      have less := early u listed e held
      omega
    · obtain ⟨e,held,_,age',_⟩ := ageFirst other p
      have less := late u listed e held
      omega

theorem laggardMost {dialect} (lags : Laggard dialect q targets p tg) {u} (listed : u ∈ targets) (some_ : unconsumed q u ≠ []) :
    oldestAge dialect (unconsumed q u) p ≤ oldestAge dialect (unconsumed q tg) p := by
  obtain ⟨before,after,rfl,_,early,late⟩ := lags
  rcases mem_append.mp listed with first | rest
  · exact (early u first some_).le
  · rcases mem_cons.mp rest with rfl | last
    · exact le_refl _
    · exact late u last some_

theorem laggardPast (past : ∃ tg ∈ targets, ∃ d ∈ unconsumed q tg, d.rcAt < p.now) :
    Laggard .mysql q targets p tg ↔ Laggard .postgres q targets p tg := by
  obtain ⟨u₀,listed₀,d₀,held₀,past⟩ := past
  have some₀ := ne_nil_of_mem held₀
  obtain ⟨f₀,_,least₀,age₀,cut₀⟩ := ageFirst some₀ p
  have low₀ := least₀ d₀ held₀
  constructor
  · intro lags
    -- the laggard is at least as old as the delta in the past
    have high := laggardMost lags listed₀ some₀
    obtain ⟨before,after,rfl,some_,early,late⟩ := lags
    obtain ⟨d,_,_,age,cut⟩ := ageFirst some_ p
    refine ⟨before,after,rfl,some_,fun u listed other => ?_,fun u listed other => ?_⟩
    · have less := early u listed other
      obtain ⟨e,_,_,age',cut'⟩ := ageFirst other p
      omega
    · have less := late u listed other
      obtain ⟨e,_,_,age',cut'⟩ := ageFirst other p
      omega
  · intro lags
    have high := laggardMost lags listed₀ some₀
    obtain ⟨before,after,rfl,some_,early,late⟩ := lags
    obtain ⟨d,_,_,age,cut⟩ := ageFirst some_ p
    refine ⟨before,after,rfl,some_,fun u listed other => ?_,fun u listed other => ?_⟩
    · have less := early u listed other
      obtain ⟨e,_,_,age',cut'⟩ := ageFirst other p
      omega
    · have less := late u listed other
      obtain ⟨e,_,_,age',cut'⟩ := ageFirst other p
      omega

theorem firstWith {targets} (some_ : ∃ u ∈ targets, unconsumed q u ≠ []) : ∃ u before after, targets = before++u::after ∧
    unconsumed q u ≠ [] ∧ ∀ v ∈ before, unconsumed q v = [] := by
  induction targets with
  | nil =>
    obtain ⟨_,mem,_⟩ := some_
    exact absurd mem not_mem_nil
  | cons t rest ih =>
    by_cases here : unconsumed q t = []
    · obtain ⟨u,mem,backlog⟩ := some_
      rcases mem_cons.mp mem with rfl | later
      · exact absurd here backlog
      · obtain ⟨u,before,after,rfl,backlog,none⟩ := ih ⟨u,later,backlog⟩
        exact ⟨u,t::before,after,rfl,backlog,forall_mem_cons.mpr ⟨here,none⟩⟩
    · exact ⟨t,[],rest,rfl,here,fun v mem => absurd mem not_mem_nil⟩

theorem cutZero (ahead : ∀ tg ∈ targets, ∀ d ∈ unconsumed q tg, p.now ≤ d.rcAt) {u : TargetID} (listed : u ∈ targets)
    (some_ : unconsumed q u ≠ []) : oldestAge .mysql (unconsumed q u) p = 0 := by
  obtain ⟨d,held,_,_,cut⟩ := ageFirst some_ p
  have late := ahead u listed d held
  omega

theorem laggardAhead (ahead : ∀ tg ∈ targets, ∀ d ∈ unconsumed q tg, p.now ≤ d.rcAt) : Laggard .mysql q targets p tg ↔
    ∃ before after, targets = before++tg::after ∧ unconsumed q tg ≠ [] ∧ ∀ u ∈ before, unconsumed q u = [] := by
  constructor
  · rintro ⟨before,after,rfl,some_,early,_⟩
    refine ⟨before,after,rfl,some_,fun u first => ?_⟩
    by_contra other
    have less := early u first other
    rw [cutZero ahead (by simp [first]) other,cutZero ahead (by simp) some_] at less
    exact absurd less (lt_irrefl _)
  · rintro ⟨before,after,rfl,some_,none⟩
    refine ⟨before,after,rfl,some_,fun u first other => absurd (none u first) other,fun u last other => ?_⟩
    rw [cutZero ahead (by simp [last]) other,cutZero ahead (by simp) some_]

theorem firstOldest {before after} (none : ∀ u ∈ before, unconsumed q u = []) {d} (held : d ∈ unconsumed q tg)
    (least : ∀ u ∈ before++tg::after, ∀ e ∈ unconsumed q u, d.rcAt ≤ e.rcAt) : Oldest q (before++tg::after) tg := by
  refine ⟨before,after,rfl,d,held,fun u first e mem => ?_,fun u last e mem => least u (by simp [last]) e mem⟩
  rw [none u first] at mem
  exact absurd mem not_mem_nil

theorem oldestFirst {before after u} (split : targets = before++u::after) (none : ∀ v ∈ before, unconsumed q v = [])
    {d} (held : d ∈ unconsumed q u) (least : ∀ v ∈ targets, ∀ e ∈ unconsumed q v, d.rcAt ≤ e.rcAt) (oldest : Oldest q targets tg) :
    tg = u := by
  obtain ⟨front,back,split',f,mem,early,_⟩ := oldest
  rcases append_eq_append_iff.mp (split.symm.trans split') with ⟨gap,ahead,rest⟩ | ⟨gap,ahead,rest⟩
  · cases gap with
    | nil => exact (List.cons.inj rest).1.symm
    | cons v gap =>
      -- u stands before the oldest, so its deltas are younger
      obtain ⟨rfl,_⟩ := List.cons.inj rest
      have younger := early u (by simp [ahead]) d held
      have low := least tg (by simp [split']) f mem
      omega
  · cases gap with
    | nil => exact (List.cons.inj rest).1
    | cons v gap =>
      obtain ⟨rfl,_⟩ := List.cons.inj rest
      rw [none tg (by simp [ahead])] at mem
      exact absurd mem not_mem_nil

theorem laggardTimely (timely : Timely q targets ret p) (oversized : Oversized ret p) : Laggard .mysql q targets p tg ↔ Oldest q targets tg := by
  by_cases past : ∃ tg ∈ targets, ∃ d ∈ unconsumed q tg, d.rcAt < p.now
  · rw [laggardPast past,laggardPostgres]
  · have ahead : ∀ tg ∈ targets, ∀ d ∈ unconsumed q tg, p.now ≤ d.rcAt := by
      intro tg listed d held
      by_contra early
      exact past ⟨tg,listed,d,held,not_le.mp early⟩
    have first := (timely oversized).resolve_left past
    rw [laggardAhead ahead]
    constructor
    · rintro ⟨before,after,rfl,some_,none⟩
      obtain ⟨d,held,least⟩ := first before tg after rfl none some_
      exact firstOldest none held least
    · intro oldest
      -- the first target with a backlog is the oldest, and there is no other
      have some_ : ∃ u ∈ targets, unconsumed q u ≠ [] := by
        obtain ⟨front,back,rfl,d,held,_⟩ := oldest
        exact ⟨tg,by simp,ne_nil_of_mem held⟩
      obtain ⟨u,before,after,split,backlog,none⟩ := firstWith some_
      obtain ⟨d,held,least⟩ := first before u after split none backlog
      obtain rfl := oldestFirst split none held least oldest
      exact ⟨before,after,split,backlog,none⟩

theorem oldestLeast (oldest : Oldest q targets tg) : ∃ d ∈ unconsumed q tg, ∀ u ∈ targets, ∀ e ∈ unconsumed q u, d.rcAt ≤ e.rcAt := by
  obtain ⟨front,back,rfl,d,held,early,late⟩ := oldest
  obtain ⟨f,mem,least,_⟩ := ageFirst (ne_nil_of_mem held) ⟨0,0⟩
  have low := least d held
  refine ⟨f,mem,fun u listed e own => ?_⟩
  rcases mem_append.mp listed with first | rest
  · exact low.trans (early u first e own).le
  · rcases mem_cons.mp rest with rfl | last
    · exact least e own
    · exact low.trans (late u last e own)

theorem overCapSorted (dialect : Dialect) (q : Queue K) (targets ret p) :
    (overCapTargets dialect q targets ret p).Pairwise (· ≤ ·) ∧ (overCapTargets dialect q targets ret p).Nodup := by
  unfold overCapTargets
  split
  · exact ⟨.nil,.nil⟩
  · exact ⟨pairwise_insertionSort _ _,(perm_insertionSort _ _).nodup_iff.mpr (nodup_dedup _)⟩

theorem overCapSame (same : Oversized ret p → ∀ tg, Laggard .mysql q targets p tg ↔ Laggard .postgres q targets p tg) :
    overCapTargets .mysql q targets ret p = overCapTargets .postgres q targets ret p := by
  have members : ∀ tg, tg ∈ overCapTargets .mysql q targets ret p ↔ tg ∈ overCapTargets .postgres q targets ret p := by
    intro tg
    rw [overCapIff,overCapIff]
    exact or_congr_right (and_congr_right fun oversized => same oversized tg)
  obtain ⟨sorted,once⟩ := overCapSorted .mysql q targets ret p
  obtain ⟨sorted',once'⟩ := overCapSorted .postgres q targets ret p
  exact ((perm_ext_iff_of_nodup once once').mpr members).eq_of_pairwise' sorted sorted'

end Ages

theorem secondFresh : Fresh (Consume.capture (Queue.empty : Queue Nat) ⟨1,.insert,7,15⟩ firstFresh) 2 := by decide

def crossedDeltas : Queue Nat :=
  Consume.capture (Consume.capture .empty ⟨1,.insert,7,15⟩ firstFresh) ⟨2,.insert,8,20⟩ secondFresh

def crossed : Queue Nat := confirmConsumed (confirmConsumed crossedDeltas "a" [1]) "b" [2]

theorem crossedPast : Timely crossed ["a","b"] ⟨0,10⟩ ⟨30,50⟩ :=
  fun _ => .inl ⟨"a",by decide,⟨2,.insert,8,20⟩,by decide,by decide⟩

end Replicare.PurgeExact
