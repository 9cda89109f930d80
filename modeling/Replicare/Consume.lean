import Mathlib.Data.List.Sort
import Mathlib.Data.Finset.Prod
import Replicare.Engine

/-! The delta table and the track table of one captured table, and the reads and writes the
consumers issue against them. -/
namespace Replicare.Consume
open Engine List

structure Delta (K : Type*) where
  id : DeltaID
  op : Op
  key : K
  rcAt : Int
  deriving DecidableEq, Repr

structure Queue (K : Type*) where
  deltas : List (Delta K)
  track : Finset (TargetID × DeltaID)
  unique : (deltas.map Delta.id).Nodup

variable {K : Type*} {q : Queue K}

def Queue.empty : Queue K := ⟨[],∅,nodup_nil⟩

def Fresh (q : Queue K) (id : DeltaID) : Prop :=
  (∀ d ∈ q.deltas, d.id ≠ id) ∧ ∀ r ∈ q.track, r.2 ≠ id
instance (q : Queue K) (id) : Decidable (Fresh q id) :=
  inferInstanceAs (Decidable ((∀ d ∈ q.deltas, d.id ≠ id) ∧ ∀ r ∈ q.track, r.2 ≠ id))

def capture (q : Queue K) (d : Delta K) (fresh : Fresh q d.id) : Queue K where
  deltas := d::q.deltas
  track := q.track
  unique := by
    simp only [map_cons,nodup_cons,mem_map,not_exists,not_and]
    exact ⟨fresh.1,q.unique⟩

def keep (q : Queue K) (p : Delta K → Bool) : Queue K where
  deltas := q.deltas.filter p
  track := q.track
  unique := q.unique.sublist (filter_sublist.map _)

def Consumed (q : Queue K) (target : TargetID) (id : DeltaID) : Prop := (target,id) ∈ q.track
instance (q : Queue K) (target id) : Decidable (Consumed q target id) :=
  inferInstanceAs (Decidable ((target,id) ∈ q.track))

/- `delta MINUS track` for one target. -/
def unconsumed (q : Queue K) (target : TargetID) : List (Delta K) :=
  q.deltas.filter fun d => !decide (Consumed q target d.id)

def Delta.dirty (d : Delta K) : DirtyKey K := ⟨d.id,d.op,d.key⟩

def readDirtyKeys (q : Queue K) (target : TargetID) (max : Int) : List (DirtyKey K) :=
  let rows := ((unconsumed q target).insertionSort fun a b => a.id ≤ b.id).map Delta.dirty
  if 0 < max then rows.take max.toNat else rows

def confirmConsumed (q : Queue K) (target : TargetID) (ids : List DeltaID) : Queue K :=
  { q with track := q.track ∪ (ids.map fun id => (target,id)).toFinset }

theorem memUnconsumed {target d} : d ∈ unconsumed q target ↔ d ∈ q.deltas ∧ ¬Consumed q target d.id := by
  simp [unconsumed]

theorem readDirtySource {target max x} (mem : x ∈ readDirtyKeys q target max) : ∃ d ∈ unconsumed q target, d.dirty = x := by
  have listed : x ∈ ((unconsumed q target).insertionSort fun a b => a.id ≤ b.id).map Delta.dirty := by
    unfold readDirtyKeys at mem
    dsimp only at mem
    split at mem
    · exact mem_of_mem_take mem
    · exact mem
  obtain ⟨d,hd,rfl⟩ := mem_map.mp listed
  exact ⟨d,(mem_insertionSort _).mp hd,rfl⟩

theorem readWhole {target : TargetID} {max : Int} {d} (whole : max ≤ 0 ∨ ((unconsumed q target).length : Int) ≤ max)
    (mem : d ∈ unconsumed q target) : d.dirty ∈ readDirtyKeys q target max := by
  have listed : d.dirty ∈ ((unconsumed q target).insertionSort fun a b => a.id ≤ b.id).map Delta.dirty :=
    mem_map.mpr ⟨d,(mem_insertionSort _).mpr mem,rfl⟩
  unfold readDirtyKeys
  dsimp only
  split
  · rw [take_of_length_le]
    · exact listed
    · rw [length_map,length_insertionSort]
      omega
  · exact listed

theorem confirmedIff {target ids other id} : Consumed (confirmConsumed q target ids) other id ↔
      Consumed q other id ∨ other = target ∧ id ∈ ids := by
  simp only [Consumed,confirmConsumed,Finset.mem_union,mem_toFinset,mem_map,Prod.mk.injEq]
  constructor
  · rintro (old | ⟨i,hi,rfl,rfl⟩)
    · exact .inl old
    · exact .inr ⟨rfl,hi⟩
  · rintro (old | ⟨rfl,hi⟩)
    · exact .inl old
    · exact .inr ⟨id,hi,rfl,rfl⟩

theorem idDetermines {d e} (hd : d ∈ q.deltas) (he : e ∈ q.deltas) (same : d.id = e.id) : d = e :=
  inj_on_of_nodup_map q.unique hd he same

theorem readTake (q : Queue K) (target) {max : Int} (limited : 0 < max) :
    readDirtyKeys q target max = (readDirtyKeys q target 0).take max.toNat := by
  simp [readDirtyKeys,limited]

theorem readAllNone {target} : readDirtyKeys q target 0 = [] ↔ unconsumed q target = [] := by
  simp only [readDirtyKeys,lt_irrefl,if_false,map_eq_nil_iff]
  refine ⟨fun none => ?_,fun none => by rw [none]; rfl⟩
  exact length_eq_zero_iff.mp (by rw [← length_insertionSort (fun a b : Delta K => a.id ≤ b.id),none,length_nil])

theorem readAllUnique (q : Queue K) (target) : ((readDirtyKeys q target 0).map DirtyKey.deltaID).Nodup := by
  have sorted : ((unconsumed q target).insertionSort fun a b => a.id ≤ b.id).Perm (unconsumed q target) :=
    perm_insertionSort _ _
  have ids : ((unconsumed q target).map Delta.id).Nodup := q.unique.sublist (filter_sublist.map _)
  simp only [readDirtyKeys,lt_irrefl,if_false,List.map_map]
  exact ((sorted.map Delta.id).nodup_iff).mpr ids

instance : Std.Total (fun a b : Delta K => a.id ≤ b.id) := ⟨fun a b => Nat.le_total a.id b.id⟩
instance : IsTrans (Delta K) (fun a b => a.id ≤ b.id) := ⟨fun _ _ _ => Nat.le_trans⟩

theorem sortedFilter (q : Queue K) (target) (p : Delta K → Bool) :
    ((unconsumed q target).filter p).insertionSort (fun a b => a.id ≤ b.id) =
      ((unconsumed q target).insertionSort fun a b => a.id ≤ b.id).filter p := by
  have first := perm_insertionSort (fun a b : Delta K => a.id ≤ b.id) ((unconsumed q target).filter p)
  have second := (perm_insertionSort (fun a b : Delta K => a.id ≤ b.id) (unconsumed q target)).filter p
  refine List.Perm.eq_of_pairwise (fun a b mem other low high => ?_) (pairwise_insertionSort _ _)
    ((pairwise_insertionSort _ _).filter p) (first.trans second.symm)
  have source : ∀ d ∈ (unconsumed q target).filter p, d ∈ q.deltas :=
    fun d mem => (memUnconsumed.mp (mem_filter.mp mem).1).1
  exact idDetermines (source a (first.mem_iff.mp mem)) (source b (second.mem_iff.mp other)) (Nat.le_antisymm low high)

theorem filterTaken (n : Nat) {l : List (DirtyKey K)} (distinct : (l.map DirtyKey.deltaID).Nodup) :
    l.filter (fun d => !decide (d.deltaID ∈ (l.take n).map DirtyKey.deltaID)) = l.drop n := by
  induction l generalizing n with
  | nil => simp
  | cons d l ih =>
    cases n with
    | zero => simp
    | succ n =>
      obtain ⟨fresh,rest⟩ := nodup_cons.mp distinct
      rw [drop_succ_cons,← ih n rest,filter_cons_of_neg (by simp)]
      refine filter_congr fun e mem => ?_
      have other : e.deltaID ≠ d.deltaID := fun same => fresh (same ▸ mem_map_of_mem mem)
      simp [other]

theorem readConfirmed (q : Queue K) (target) (n : Nat) :
    readDirtyKeys (confirmConsumed q target (((readDirtyKeys q target 0).take n).map DirtyKey.deltaID)) target 0 =
      (readDirtyKeys q target 0).drop n := by
  rw [← filterTaken n (readAllUnique q target)]
  generalize ((readDirtyKeys q target 0).take n).map DirtyKey.deltaID = ids
  have left : unconsumed (confirmConsumed q target ids) target = (unconsumed q target).filter fun d => !decide (d.id ∈ ids) := by
    simp only [unconsumed,filter_filter]
    refine filter_congr fun d _ => ?_
    have known : Consumed (confirmConsumed q target ids) target d.id ↔ Consumed q target d.id ∨ d.id ∈ ids := by
      simp [confirmedIff]
    simp [known,Bool.and_comm]
  simp only [readDirtyKeys,lt_irrefl,if_false,left,sortedFilter,filter_map]
  rfl

end Replicare.Consume
