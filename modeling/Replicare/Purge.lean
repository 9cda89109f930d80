import Mathlib.Algebra.Order.Ring.Int
import Replicare.Consume

/-! Consumption-gated purge and bounded retention of one captured table. -/
namespace Replicare.Purge
open Engine Consume List

variable {K : Type*} {q : Queue K}

structure Probe where
  now : Int
  totalBytes : Int
  deriving DecidableEq, Repr

def second : Int := 1000000000

/- MySQL clamps a negative age; Postgres reports it. -/
def oldestAge (dialect : Dialect) (backlog : List (Delta K)) (p : Probe) : Int :=
  match (backlog.map Delta.rcAt).min? with
  | none => 0
  | some first => match dialect with
    | .postgres => p.now-first
    | .mysql => max 0 (p.now-first)

def deltaBacklogByRel (dialect : Dialect) (q : Queue K) (target : TargetID) (p : Probe) : DeltaBacklog :=
  let backlog := unconsumed q target
  { rows := backlog.length
    bytes := if q.deltas.length = 0 then 0 else (p.totalBytes*backlog.length).tdiv q.deltas.length
    oldestAge := oldestAge dialect backlog p
    hasBacklog := decide (0 < backlog.length) }

def older (found : Option (TargetID × Int)) (age : Int) : Bool :=
  match found with
  | none => true
  | some f => decide (f.2 < age)

def lag (found : Option (TargetID × Int)) (x : TargetID × DeltaBacklog) : Option (TargetID × Int) :=
  if x.2.hasBacklog && older found x.2.oldestAge then some (x.1,x.2.oldestAge) else found

def laggard (backlogs : List (TargetID × DeltaBacklog)) : Option (TargetID × Int) := backlogs.foldl lag none

def overCapTargets (dialect : Dialect) (q : Queue K) (targets : List TargetID) (ret : RetentionPolicy)
    (p : Probe) : List TargetID :=
  if ret.maxAgeSeconds ≤ 0 ∧ ret.maxBytes ≤ 0 then [] else
    let backlogs := targets.map fun tg => (tg,deltaBacklogByRel dialect q tg p)
    let aged := if 0 < ret.maxAgeSeconds then
      (backlogs.filter fun x => x.2.hasBacklog && decide (ret.maxAgeSeconds*second < x.2.oldestAge)).map Prod.fst
      else []
    let sized := if 0 < ret.maxBytes ∧ ret.maxBytes < p.totalBytes then
      (laggard backlogs).toList.map Prod.fst else []
    (aged++sized).dedup.insertionSort (· ≤ ·)

def purgeable (q : Queue K) (targets : List TargetID) (id : DeltaID) : Bool :=
  targets.isEmpty || decide ((q.track.filter fun r => r.1 ∈ targets ∧ r.2 = id).card = targets.length)

def defaultPurgeBatch : Nat := 10000

def purgeableIds (q : Queue K) (targets : List TargetID) : List DeltaID :=
  ((q.deltas.filter fun d => purgeable q targets d.id).map Delta.id).insertionSort (· ≤ ·)

/- The ids one DELETE statement removes. -/
def batchIds (q : Queue K) (targets : List TargetID) (batch : Nat) : List DeltaID := (purgeableIds q targets).take batch

def deleteBatch (targets : List TargetID) (batch : Nat) (q : Queue K) : Queue K :=
  keep q fun d => !decide (d.id ∈ batchIds q targets batch)

/- The loop of DELETE statements; it stops at the first short one. -/
def purgeLoop (targets : List TargetID) (batch : Nat) : Nat → Queue K → Nat → Queue K × Nat
  | 0, q, total => (q,total)
  | fuel+1, q, total =>
      let n := (batchIds q targets batch).length
      if n < batch then (deleteBatch targets batch q,total+n)
      else purgeLoop targets batch fuel (deleteBatch targets batch q) (total+n)

def purgeConsumedBy (q : Queue K) (targets : List TargetID) (batch : Nat) : Queue K × Nat :=
  purgeLoop targets batch (q.deltas.length+1) q 0

def resetTrack (q : Queue K) (targets : List TargetID) : Queue K :=
  { q with track := q.track.filter fun r => r.1 ∉ targets }

def subtractTargets (targets remove : List TargetID) : List TargetID := targets.filter (· ∉ remove)

def purge (dialect : Dialect) (q : Queue K) (targets : List TargetID) (ret : RetentionPolicy)
    (p : Probe) : Queue K × PurgeStats :=
  let reseed := overCapTargets dialect q targets ret p
  if reseed.isEmpty then
    let done := purgeConsumedBy q targets defaultPurgeBatch
    (done.1,⟨done.2,[]⟩)
  else
    let done := purgeConsumedBy (resetTrack q reseed) (subtractTargets targets reseed) defaultPurgeBatch
    (done.1,⟨done.2,reseed⟩)

theorem lagSource {backlogs : List (TargetID × DeltaBacklog)} {start f} (found : backlogs.foldl lag start = some f) :
    start = some f ∨ ∃ x ∈ backlogs, x.1 = f.1 ∧ x.2.hasBacklog = true := by
  induction backlogs generalizing start with
  | nil => exact .inl found
  | cons x rest ih =>
    rcases ih found with taken | ⟨y,hy,same⟩
    · unfold lag at taken
      split at taken
      · rename_i better
        cases taken
        exact .inr ⟨x,mem_cons_self,rfl,(Bool.and_eq_true_iff.mp better).1⟩
      · exact .inl taken
    · exact .inr ⟨y,mem_cons_of_mem _ hy,same⟩

theorem overCapSource {dialect} {targets ret p tg}
    (beyond : tg ∈ overCapTargets dialect q targets ret p) : tg ∈ targets ∧ unconsumed q tg ≠ [] := by
  have listed : ∀ x ∈ targets.map fun tg => (tg,deltaBacklogByRel dialect q tg p),
      x.2.hasBacklog = true → x.1 ∈ targets ∧ unconsumed q x.1 ≠ [] := by
    intro x hx backlog
    obtain ⟨u,hu,rfl⟩ := mem_map.mp hx
    refine ⟨hu,?_⟩
    intro none
    simp [deltaBacklogByRel,none] at backlog
  unfold overCapTargets at beyond
  split at beyond
  · exact absurd beyond not_mem_nil
  · rw [mem_insertionSort,mem_dedup] at beyond
    rcases mem_append.mp beyond with aged | sized
    · split at aged
      · obtain ⟨x,hx,rfl⟩ := mem_map.mp aged
        obtain ⟨mem,old⟩ := mem_filter.mp hx
        exact listed x mem (Bool.and_eq_true_iff.mp old).1
      · exact absurd aged not_mem_nil
    · split at sized
      · obtain ⟨f,hf,rfl⟩ := mem_map.mp sized
        rcases lagSource (Option.mem_toList.mp hf) with none | ⟨x,hx,same,backlog⟩
        · cases none
        · rw [← same]
          exact listed x hx backlog
      · exact absurd sized not_mem_nil

theorem trackCount (q : Queue K) (targets : List TargetID) (id : DeltaID) :
    (q.track.filter fun r => r.1 ∈ targets ∧ r.2 = id).card =
      (targets.toFinset.filter fun tg => Consumed q tg id).card := by
  apply Finset.card_nbij' (fun r => r.1) (fun tg => (tg,id))
  · intro r mem
    obtain ⟨row,listed,same⟩ := Finset.mem_filter.mp mem
    refine Finset.mem_coe.mpr (Finset.mem_filter.mpr ⟨mem_toFinset.mpr listed,?_⟩)
    rw [← same]
    exact row
  · intro tg mem
    obtain ⟨listed,row⟩ := Finset.mem_filter.mp mem
    exact Finset.mem_coe.mpr (Finset.mem_filter.mpr ⟨row,mem_toFinset.mp listed,rfl⟩)
  · intro r mem
    obtain ⟨_,_,same⟩ := Finset.mem_filter.mp mem
    rw [← same]
  · intro tg _
    rfl

theorem purgeableConsumed {targets id} (gone : purgeable q targets id = true) : ∀ tg ∈ targets, Consumed q tg id := by
  rcases Bool.or_eq_true_iff.mp gone with none | counted
  · rw [List.isEmpty_iff.mp none]
    exact fun tg mem => absurd mem not_mem_nil
  · have count := of_decide_eq_true counted
    rw [trackCount] at count
    have distinct : targets.toFinset.card ≤ targets.length := toFinset_card_le targets
    have all := Finset.eq_of_subset_of_card_le (Finset.filter_subset (fun tg => Consumed q tg id) targets.toFinset)
      (by omega)
    intro tg mem
    rw [← mem_toFinset,← all] at mem
    exact (Finset.mem_filter.mp mem).2

theorem purgeableIff {targets id} (distinct : targets.Nodup) :
    purgeable q targets id = true ↔ ∀ tg ∈ targets, Consumed q tg id := by
  refine ⟨purgeableConsumed,fun all => Bool.or_eq_true_iff.mpr (.inr (decide_eq_true ?_))⟩
  rw [trackCount,Finset.filter_true_of_mem fun tg mem => all tg (mem_toFinset.mp mem),
    toFinset_card_of_nodup distinct]

theorem memPurgeable {targets id} :
    id ∈ purgeableIds q targets ↔ ∃ d ∈ q.deltas, d.id = id ∧ purgeable q targets id = true := by
  rw [purgeableIds,mem_insertionSort,mem_map]
  refine exists_congr fun d => ?_
  rw [mem_filter,and_assoc]
  refine and_congr_right fun _ => ?_
  rw [and_comm]
  exact and_congr_right fun same => by rw [same]

theorem memDeleteBatch {targets batch d} :
    d ∈ (deleteBatch targets batch q).deltas ↔ d ∈ q.deltas ∧ d.id ∉ batchIds q targets batch := by
  simp [deleteBatch,keep]

theorem deleteBatchShrinks {targets batch} (some_ : batchIds q targets batch ≠ []) :
    (deleteBatch targets batch q).deltas.length < q.deltas.length := by
  obtain ⟨id,mem⟩ := exists_mem_of_ne_nil _ some_
  obtain ⟨d,hd,same,_⟩ := memPurgeable.mp (mem_of_mem_take mem)
  apply length_filter_lt_length_iff_exists.mpr
  refine ⟨d,hd,?_⟩
  rw [same]
  simp [mem]

theorem filterTaken {l : List DeltaID} (distinct : l.Nodup) (n) : (l.filter fun x => !decide (x ∈ l.take n)) = l.drop n := by
  have apart := distinct
  rw [← take_append_drop n l,nodup_append] at apart
  have none : ((l.take n).filter fun x => !decide (x ∈ l.take n)) = [] := filter_eq_nil_iff.mpr fun x mem => by simp [mem]
  have all : ((l.drop n).filter fun x => !decide (x ∈ l.take n)) = l.drop n :=
    filter_eq_self.mpr fun x mem => by simpa using fun early => apart.2.2 x early x mem rfl
  calc (l.filter fun x => !decide (x ∈ l.take n)) = (l.take n++l.drop n).filter fun x => !decide (x ∈ l.take n) := by
        rw [take_append_drop]
    _ = l.drop n := by rw [filter_append,none,all,nil_append]

/- The next statement goes on where the one before it ended. -/
theorem purgeableDeleted (targets batch) (q : Queue K) :
    purgeableIds (deleteBatch targets batch q) targets = (purgeableIds q targets).drop batch := by
  have listed := perm_insertionSort (· ≤ ·) ((q.deltas.filter fun d => purgeable q targets d.id).map Delta.id)
  have distinct : (purgeableIds q targets).Nodup := listed.nodup_iff.mpr (q.unique.sublist (filter_sublist.map _))
  have sorted : (purgeableIds q targets).Pairwise (· ≤ ·) := pairwise_insertionSort _ _
  refine Perm.eq_of_pairwise' (pairwise_insertionSort _ _) (sorted.sublist (drop_sublist ..)) ?_
  have rest : (((deleteBatch targets batch q).deltas.filter fun d => purgeable q targets d.id).map Delta.id) =
      ((q.deltas.filter fun d => purgeable q targets d.id).map Delta.id).filter fun x => !decide (x ∈ batchIds q targets batch) := by
    simp only [deleteBatch,keep,filter_map,filter_filter,Function.comp_def,Bool.and_comm]
  rw [← filterTaken distinct batch]
  exact (perm_insertionSort _ _).trans (rest ▸ (listed.filter _).symm)

theorem deleteThen (targets batch) (q : Queue K) (ids : List DeltaID) :
    (keep (deleteBatch targets batch q) fun d => !decide (d.id ∈ ids)) =
      keep q fun d => !decide (d.id ∈ batchIds q targets batch++ids) := by
  simp [deleteBatch,keep,filter_filter,Bool.and_comm]

theorem deleteBatches (targets batch n) (q : Queue K) :
    (deleteBatch targets batch)^[n] q = keep q fun d => !decide (d.id ∈ (purgeableIds q targets).take (n*batch)) := by
  induction n generalizing q with
  | zero => simp [keep]
  | succ n ih =>
    rw [Function.iterate_succ_apply,ih,purgeableDeleted,deleteThen,batchIds,Nat.succ_mul,Nat.add_comm,take_add]

theorem purgeLoopKeeps {targets batch} (positive : 0 < batch) {fuel} (total) (enough : q.deltas.length < fuel) :
    (purgeLoop targets batch fuel q total).1 = keep q fun d => !decide (d.id ∈ purgeableIds q targets) := by
  induction fuel generalizing q total with
  | zero => omega
  | succ fuel ih =>
    unfold purgeLoop
    dsimp only
    split
    · rename_i short
      rw [batchIds,length_take] at short
      rw [deleteBatch,batchIds,take_of_length_le (by omega)]
    · rename_i full
      have nonempty : batchIds q targets batch ≠ [] := by
        intro none
        rw [none] at full
        exact full positive
      have shrinks := deleteBatchShrinks nonempty
      rw [ih _ (by omega),purgeableDeleted,deleteThen,batchIds,take_append_drop]

theorem purgeConsumedKeeps (q : Queue K) (targets) :
    (purgeConsumedBy q targets defaultPurgeBatch).1 = keep q fun d => !decide (d.id ∈ purgeableIds q targets) :=
  purgeLoopKeeps (by decide) 0 (Nat.lt_succ_self _)

theorem memKept {targets d} : d ∈ (keep q fun d => !decide (d.id ∈ purgeableIds q targets)).deltas ↔
    d ∈ q.deltas ∧ ¬purgeable q targets d.id = true := by
  rw [keep,mem_filter,Bool.not_eq_true',decide_eq_false_iff_not,memPurgeable]
  exact and_congr_right fun mem => not_congr ⟨fun ⟨_,_,_,gone⟩ => gone,fun gone => ⟨d,mem,rfl,gone⟩⟩

theorem resetConsumed {targets tg id} : Consumed (resetTrack q targets) tg id ↔ Consumed q tg id ∧ tg ∉ targets := by
  simp [Consumed,resetTrack]

theorem resetNone (targets) (q : Queue K) : resetTrack q [] = q ∧ subtractTargets targets [] = targets := by
  simp [resetTrack,subtractTargets]

/- The ids that every target within the caps has consumed. -/
def freed (targets beyond : List TargetID) (q : Queue K) : List DeltaID :=
  purgeableIds (resetTrack q beyond) (subtractTargets targets beyond)

def without (beyond : List TargetID) (q : Queue K) (ids : List DeltaID) : Queue K :=
  keep (resetTrack q beyond) fun d => !decide (d.id ∈ ids)

theorem purgeWithout (dialect) (q : Queue K) (targets ret p) : (purge dialect q targets ret p).1 =
    without (overCapTargets dialect q targets ret p) q (freed targets (overCapTargets dialect q targets ret p) q) := by
  unfold purge without freed
  dsimp only
  split
  · rename_i none
    rw [isEmpty_iff.mp none,(resetNone targets q).1,(resetNone targets q).2,purgeConsumedKeeps]
  · rw [purgeConsumedKeeps]

theorem purgeReseeds (dialect) (q : Queue K) (targets ret p) :
    (purge dialect q targets ret p).2.targetsReseeded = overCapTargets dialect q targets ret p := by
  unfold purge
  dsimp only
  split
  · rename_i none
    exact (List.isEmpty_iff.mp none).symm
  · rfl

section Caps
variable {dialect : Dialect} {q : Queue K} {targets : List TargetID} {ret : RetentionPolicy} {p : Probe} {tg : TargetID}

theorem purgeConsumedIff {id} : Consumed (purge dialect q targets ret p).1 tg id ↔
    Consumed q tg id ∧ tg ∉ (purge dialect q targets ret p).2.targetsReseeded := by
  rw [purgeReseeds,purgeWithout]
  exact resetConsumed

theorem memPurge {d} : d ∈ (purge dialect q targets ret p).1.deltas ↔ d ∈ q.deltas ∧
    ¬purgeable (resetTrack q (overCapTargets dialect q targets ret p))
      (subtractTargets targets (overCapTargets dialect q targets ret p)) d.id = true := by
  rw [purgeWithout]
  exact memKept

theorem purgeDeletes {d} (before : d ∈ q.deltas) (after : d ∉ (purge dialect q targets ret p).1.deltas) (mem : tg ∈ targets) :
    Consumed q tg d.id ∨ tg ∈ overCapTargets dialect q targets ret p := by
  have gone := not_not.mp fun stays => after (memPurge.mpr ⟨before,stays⟩)
  by_cases hit : tg ∈ overCapTargets dialect q targets ret p
  · exact .inr hit
  · exact .inl (resetConsumed.mp (purgeableConsumed gone tg (mem_filter.mpr ⟨mem,decide_eq_true hit⟩))).1

theorem memPurgeIff (distinct : targets.Nodup) {d} : d ∈ (purge dialect q targets ret p).1.deltas ↔
    d ∈ q.deltas ∧ ∃ tg ∈ targets, tg ∉ overCapTargets dialect q targets ret p ∧ ¬Consumed q tg d.id := by
  rw [memPurge,subtractTargets,purgeableIff (distinct.filter _)]
  refine and_congr_right fun _ => ?_
  simp only [mem_filter,decide_eq_true_eq,resetConsumed,not_forall,exists_prop]
  refine exists_congr fun tg => ?_
  tauto

theorem sparedBy (dialect) (mem : tg ∈ targets) (spared : tg ∉ overCapTargets dialect q targets ret p) (d)
    (distinct : targets.Nodup) : d ∈ unconsumed (purge dialect q targets ret p).1 tg ↔ d ∈ unconsumed q tg := by
  rw [memUnconsumed,memUnconsumed,memPurgeIff distinct,purgeConsumedIff,purgeReseeds]
  constructor
  · rintro ⟨⟨listed,_⟩,open_⟩
    exact ⟨listed,fun consumed => open_ ⟨consumed,spared⟩⟩
  · rintro ⟨listed,open_⟩
    exact ⟨⟨listed,tg,mem,spared,open_⟩,fun consumed => open_ consumed.1⟩

theorem soleTargetDrained (drained : unconsumed q tg = []) (d) : d ∉ (purge dialect q [tg] ret p).1.deltas := by
  intro mem
  obtain ⟨inside,x,alone,_,open_⟩ := (memPurgeIff (nodup_singleton tg)).mp mem
  have left := memUnconsumed.mpr ⟨inside,open_⟩
  rw [mem_singleton.mp alone,drained] at left
  exact absurd left not_mem_nil

theorem soleTargetEmptied (beyond : tg ∈ overCapTargets dialect q [tg] ret p) (d) : d ∉ (purge dialect q [tg] ret p).1.deltas := by
  intro mem
  obtain ⟨_,x,alone,spared,_⟩ := (memPurgeIff (nodup_singleton tg)).mp mem
  exact spared (mem_singleton.mp alone ▸ beyond)

theorem soleCap {u} (mem : u ∈ overCapTargets dialect q [tg] ret p) :
    u = tg ∧ (!(overCapTargets dialect q [tg] ret p).isEmpty) = true := by
  refine ⟨mem_singleton.mp (overCapSource mem).1,?_⟩
  rw [Bool.not_eq_true',isEmpty_eq_false_iff]
  exact ne_nil_of_mem mem

/- A delta goes because the target has consumed it or is sacrificed. -/
theorem soleGone {d} (before : d ∈ q.deltas) (after : d ∉ (purge dialect q [tg] ret p).1.deltas) :
    (!(overCapTargets dialect q [tg] ret p).isEmpty) = true ∨ Consumed q tg d.id :=
  (purgeDeletes before after (mem_singleton_self _)).symm.imp_left fun beyond => (soleCap beyond).2

def Aged (q : Queue K) (ret : RetentionPolicy) (p : Probe) (tg : TargetID) : Prop :=
  0 < ret.maxAgeSeconds ∧ ∃ d ∈ unconsumed q tg, ret.maxAgeSeconds*second < p.now-d.rcAt

def Laggard (dialect : Dialect) (q : Queue K) (targets : List TargetID) (p : Probe) (tg : TargetID) : Prop :=
  ∃ before after, targets = before++tg::after ∧ unconsumed q tg ≠ [] ∧
    (∀ u ∈ before, unconsumed q u ≠ [] → oldestAge dialect (unconsumed q u) p < oldestAge dialect (unconsumed q tg) p) ∧
    ∀ u ∈ after, unconsumed q u ≠ [] → oldestAge dialect (unconsumed q u) p ≤ oldestAge dialect (unconsumed q tg) p

def Oversized (ret : RetentionPolicy) (p : Probe) : Prop := 0 < ret.maxBytes ∧ ret.maxBytes < p.totalBytes

def OverCap (dialect : Dialect) (q : Queue K) (targets : List TargetID) (ret : RetentionPolicy) (p : Probe) (tg : TargetID) : Prop :=
  tg ∈ targets ∧ Aged q ret p tg ∨ Oversized ret p ∧ Laggard dialect q targets p tg

theorem oldestBeyond {backlog : List (Delta K)} {cap : Int} (positive : 0 < cap) :
    cap < oldestAge dialect backlog p ↔ ∃ d ∈ backlog, cap < p.now-d.rcAt := by
  unfold oldestAge
  cases found : (backlog.map Delta.rcAt).min? with
  | none =>
    rw [min?_eq_none_iff,map_eq_nil_iff] at found
    simp [found,positive.le]
  | some first =>
    obtain ⟨mem,least⟩ := min?_eq_some_iff.mp found
    obtain ⟨d,hd,rfl⟩ := mem_map.mp mem
    have lowest : cap < p.now-d.rcAt ↔ ∃ d ∈ backlog, cap < p.now-d.rcAt := by
      refine ⟨fun beyond => ⟨d,hd,beyond⟩,fun some_ => ?_⟩
      obtain ⟨e,he,beyond⟩ := some_
      have := least e.rcAt (mem_map_of_mem he)
      omega
    rw [← lowest]
    cases dialect with
    | postgres => rfl
    | mysql =>
      dsimp only
      omega

theorem lagBelow {backlogs : List (TargetID × DeltaBacklog)} {start age} (low : ∀ s, start = some s → s.2 < age)
    (all : ∀ x ∈ backlogs, x.2.hasBacklog = true → x.2.oldestAge < age) {f} (found : backlogs.foldl lag start = some f) : f.2 < age := by
  induction backlogs generalizing start with
  | nil => exact low f found
  | cons x rest ih =>
    refine ih (fun s taken => ?_) (fun y mem => all y (mem_cons_of_mem _ mem)) found
    unfold lag at taken
    split at taken
    · rename_i better
      cases taken
      exact all x mem_cons_self (Bool.and_eq_true_iff.mp better).1
    · exact low s taken

theorem lagStays {backlogs : List (TargetID × DeltaBacklog)} {f} (all : ∀ x ∈ backlogs, x.2.hasBacklog = true → x.2.oldestAge ≤ f.2) :
    backlogs.foldl lag (some f) = some f := by
  induction backlogs with
  | nil => rfl
  | cons x rest ih =>
    have stays : lag (some f) x = some f := by
      unfold lag older
      cases backlog : x.2.hasBacklog with
      | false => rfl
      | true => simp [all x mem_cons_self backlog]
    rw [foldl_cons,stays]
    exact ih fun y mem => all y (mem_cons_of_mem _ mem)

theorem lagFound {backlogs start f} (found : backlogs.foldl lag start = some f) :
    start = some f ∧ (∀ x ∈ backlogs, x.2.hasBacklog = true → x.2.oldestAge ≤ f.2) ∨
    ∃ before x after, backlogs = before++x::after ∧ f = (x.1,x.2.oldestAge) ∧ x.2.hasBacklog = true ∧
      (∀ y ∈ before, y.2.hasBacklog = true → y.2.oldestAge < x.2.oldestAge) ∧
      (∀ s, start = some s → s.2 < x.2.oldestAge) ∧ ∀ y ∈ after, y.2.hasBacklog = true → y.2.oldestAge ≤ x.2.oldestAge := by
  induction backlogs generalizing start with
  | nil => exact .inl ⟨found,by simp⟩
  | cons x rest ih =>
    by_cases better : (x.2.hasBacklog && older start x.2.oldestAge) = true
    · have taken : lag start x = some (x.1,x.2.oldestAge) := by simp only [lag,better,if_true]
      obtain ⟨backlog,beats⟩ := Bool.and_eq_true_iff.mp better
      have first : ∀ s, start = some s → s.2 < x.2.oldestAge := by
        rintro s rfl
        exact of_decide_eq_true beats
      rw [foldl_cons,taken] at found
      rcases ih found with ⟨same,low⟩ | ⟨before,y,after,rfl,rfl,held,below,beyond,low⟩
      · cases same
        exact .inr ⟨[],x,rest,rfl,rfl,backlog,by simp,first,low⟩
      · have higher : x.2.oldestAge < y.2.oldestAge := beyond _ rfl
        refine .inr ⟨x::before,y,after,rfl,rfl,held,?_,fun s same => (first s same).trans higher,low⟩
        intro z mem backlog
        rcases mem_cons.mp mem with rfl | later
        · exact higher
        · exact below z later backlog
    · have kept : lag start x = start := by simp only [lag,better,if_false,Bool.false_eq_true]
      have behind : x.2.hasBacklog = true → ∃ s, start = some s ∧ x.2.oldestAge ≤ s.2 := by
        intro backlog
        rw [backlog,Bool.true_and] at better
        cases start with
        | none => exact absurd rfl better
        | some s => exact ⟨s,rfl,not_lt.mp fun less => better (decide_eq_true less)⟩
      rw [foldl_cons,kept] at found
      rcases ih found with ⟨same,low⟩ | ⟨before,y,after,rfl,rfl,held,below,beyond,low⟩
      · refine .inl ⟨same,fun y mem backlog => ?_⟩
        rcases mem_cons.mp mem with rfl | later
        · obtain ⟨s,here,less⟩ := behind backlog
          cases same.symm.trans here
          exact less
        · exact low y later backlog
      · refine .inr ⟨x::before,y,after,rfl,rfl,held,?_,beyond,low⟩
        intro z mem backlog
        rcases mem_cons.mp mem with rfl | later
        · obtain ⟨s,here,less⟩ := behind backlog
          exact less.trans_lt (beyond s here)
        · exact below z later backlog

theorem hasBacklogIff : (deltaBacklogByRel dialect q tg p).hasBacklog = true ↔ unconsumed q tg ≠ [] := by
  simp [deltaBacklogByRel,length_pos_iff]

theorem laggardIff :
    (∃ age, laggard (targets.map fun tg => (tg,deltaBacklogByRel dialect q tg p)) = some (tg,age)) ↔ Laggard dialect q targets p tg := by
  constructor
  · rintro ⟨age,found⟩
    rcases lagFound found with ⟨none,_⟩ | ⟨before,x,after,split,same,held,below,_,low⟩
    · cases none
    · obtain ⟨first,rest,rfl,rfl,tail⟩ := map_eq_append_iff.mp split
      obtain ⟨u,last,rfl,rfl,rfl⟩ := map_eq_cons_iff.mp tail
      cases same
      refine ⟨first,last,rfl,hasBacklogIff.mp held,fun u mem some_ => ?_,fun u mem some_ => ?_⟩
      · exact below _ (mem_map_of_mem mem) (hasBacklogIff.mpr some_)
      · exact low _ (mem_map_of_mem mem) (hasBacklogIff.mpr some_)
  · rintro ⟨before,after,rfl,held,below,low⟩
    refine ⟨oldestAge dialect (unconsumed q tg) p,?_⟩
    have beats : older ((before.map fun tg => (tg,deltaBacklogByRel dialect q tg p)).foldl lag none)
        (oldestAge dialect (unconsumed q tg) p) = true := by
      cases found : (before.map fun tg => (tg,deltaBacklogByRel dialect q tg p)).foldl lag none with
      | none => rfl
      | some f =>
        refine decide_eq_true (lagBelow (by simp) (fun x mem backlog => ?_) found)
        obtain ⟨u,hu,rfl⟩ := mem_map.mp mem
        exact below u hu (hasBacklogIff.mp backlog)
    rw [laggard,map_append,map_cons,foldl_append,foldl_cons]
    have taken : lag ((before.map fun tg => (tg,deltaBacklogByRel dialect q tg p)).foldl lag none) (tg,deltaBacklogByRel dialect q tg p) =
        some (tg,oldestAge dialect (unconsumed q tg) p) := by
      exact if_pos (Bool.and_eq_true_iff.mpr ⟨hasBacklogIff.mpr held,beats⟩)
    rw [taken]
    refine lagStays fun x mem backlog => ?_
    obtain ⟨u,hu,rfl⟩ := mem_map.mp mem
    exact low u hu (hasBacklogIff.mp backlog)

theorem overCapIff : tg ∈ overCapTargets dialect q targets ret p ↔ OverCap dialect q targets ret p tg := by
  have aged : (0 < ret.maxAgeSeconds ∧ ∃ x ∈ targets.map fun tg => (tg,deltaBacklogByRel dialect q tg p),
      (x.2.hasBacklog && decide (ret.maxAgeSeconds*second < x.2.oldestAge)) = true ∧ x.1 = tg) ↔ tg ∈ targets ∧ Aged q ret p tg := by
    constructor
    · rintro ⟨positive,x,mem,old,rfl⟩
      obtain ⟨u,hu,rfl⟩ := mem_map.mp mem
      have beyond := of_decide_eq_true (Bool.and_eq_true_iff.mp old).2
      exact ⟨hu,positive,(oldestBeyond (Int.mul_pos positive (by decide))).mp beyond⟩
    · rintro ⟨mem,positive,d,hd,old⟩
      refine ⟨positive,_,mem_map_of_mem mem,Bool.and_eq_true_iff.mpr ⟨?_,decide_eq_true ?_⟩,rfl⟩
      · exact hasBacklogIff.mpr (ne_nil_of_mem hd)
      · exact (oldestBeyond (Int.mul_pos positive (by decide))).mpr ⟨d,hd,old⟩
  unfold overCapTargets OverCap
  rw [← aged,← laggardIff,Oversized]
  split
  · rename_i none
    simp only [not_mem_nil,false_iff,not_or,not_and]
    exact ⟨fun positive => absurd positive (not_lt.mpr none.1),fun positive => absurd positive.1 (not_lt.mpr none.2)⟩
  · simp only [mem_insertionSort,mem_dedup,mem_append]
    refine or_congr ?_ ?_
    · split
      · rename_i positive
        simp only [positive,true_and,mem_map,mem_filter,and_assoc]
      · rename_i none
        simp [none]
    · split
      · rename_i beyond
        simp only [beyond,true_and,and_self,mem_map,Option.mem_toList,Prod.exists,exists_and_right,exists_eq_right]
      · rename_i none
        simp [none]

end Caps

end Replicare.Purge
