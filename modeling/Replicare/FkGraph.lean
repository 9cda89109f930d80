import Mathlib.Data.String.Basic
import Replicare.Kahn
import Replicare.PgPreflight

/-! The apply order of an FK component: Kahn's sort of the tables with a queue sorted by
name, then whatever is on or below a cycle, by name alone. -/
namespace Replicare.FkGraph
open Engine Relation Kahn List
open PgPreflight (selectedFKs)

structure Members where
  tables : List Table
  distinct : (tables.map Table.ref).Nodup
  own : ∀ t ∈ tables, ∀ fk ∈ t.foreignKeys, fk.child = t.ref

def sortRefs (refs : List TableRef) : List TableRef := refs.insertionSort fun a b => a.string ≤ b.string

section Definitions
variable (m : Members)

def Members.refs : List TableRef := m.tables.map Table.ref

def Members.fks : List ForeignKey := selectedFKs m.tables

def edges : List (TableRef × TableRef) :=
  ((m.fks.filter fun fk => !decide (fk.child = fk.parent)).map fun fk => (fk.parent,fk.child)).dedup

def selfCycle (r : TableRef) : Bool := m.fks.any fun fk => decide (fk.child = fk.parent ∧ fk.child = r)

def indeg (r : TableRef) : Nat := (edges m).countP fun e => decide (e.2 = r)

def children (r : TableRef) : List TableRef := sortRefs (((edges m).filter fun e => decide (e.1 = r)).map Prod.snd)

def enqueue (queue ready : List TableRef) : List TableRef := ready.foldl (fun queue c => sortRefs (queue++[c])) queue

def acyclicOrder : List TableRef :=
  drain (children m) (selfCycle m) enqueue m.refs.length
    (sortRefs (m.refs.filter fun r => decide (indeg m r = 0 ∧ selfCycle m r = false))) (indeg m)

def cyclicRest : List TableRef := sortRefs (m.refs.filter fun r => !decide (r ∈ acyclicOrder m))

def topoOrder : List TableRef × List TableRef := (acyclicOrder m++cyclicRest m,cyclicRest m)

def buildComponent : Component := ⟨sortRefs m.refs,(topoOrder m).1,(topoOrder m).2⟩

def Refers (c p : TableRef) : Prop := ∃ fk ∈ m.fks, fk.child = c ∧ fk.parent = p

def BelowCycle (r : TableRef) : Prop := ∃ u, ReflTransGen (Refers m) r u ∧ TransGen (Refers m) u u

def Inverted (fk : ForeignKey) : Prop := BelowCycle m fk.parent ∧ fk.child.string < fk.parent.string

def Misplaced (fk : ForeignKey) : Prop := BelowCycle m fk.parent ∧
  (fk.child.string < fk.parent.string ∨ fk.child.string = fk.parent.string ∧ Before m.refs fk.child fk.parent)

end Definitions

variable {m : Members}

theorem sortPerm (refs) : (sortRefs refs).Perm refs := perm_insertionSort _ refs

theorem enqueuePerm (queue ready) : (enqueue queue ready).Perm (queue++ready) := by
  induction ready generalizing queue with
  | nil => simp [enqueue]
  | cons c ready ih =>
    have rest := ih (sortRefs (queue++[c]))
    refine rest.trans ?_
    have first := (sortPerm (queue++[c])).append_right ready
    rwa [append_assoc] at first

theorem refsDistinct (m : Members) : m.refs.Nodup := m.distinct

theorem nameDetermines (named : (m.tables.map fun t => t.ref.string).Nodup) {a b} (one : a ∈ m.refs) (two : b ∈ m.refs)
    (same : a.string = b.string) : a = b := by
  have mapped : (m.tables.map fun t => t.ref.string) = m.refs.map TableRef.string := by simp [Members.refs,Function.comp_def]
  rw [mapped] at named
  exact inj_on_of_nodup_map named one two same

theorem fkInside {fk} (mem : fk ∈ m.fks) : fk.child ∈ m.refs ∧ fk.parent ∈ m.refs := by
  obtain ⟨listed,parent⟩ := mem_filter.mp mem
  obtain ⟨t,known,held⟩ := mem_flatMap.mp listed
  exact ⟨mem_map.mpr ⟨t,known,(m.own t known fk held).symm⟩,of_decide_eq_true parent⟩

theorem memEdges {p c} : (p,c) ∈ edges m ↔ Refers m c p ∧ c ≠ p := by
  simp only [edges,mem_dedup,mem_map,mem_filter,Bool.not_eq_true',decide_eq_false_iff_not,Prod.mk.injEq,Refers]
  constructor
  · rintro ⟨fk,⟨known,other⟩,rfl,rfl⟩
    exact ⟨⟨fk,known,rfl,rfl⟩,other⟩
  · rintro ⟨⟨fk,known,rfl,rfl⟩,other⟩
    exact ⟨fk,⟨known,other⟩,rfl,rfl⟩

theorem edgeInside (e) (mem : e ∈ edges m) : e.1 ∈ m.refs ∧ e.2 ∈ m.refs := by
  obtain ⟨⟨fk,known,child,parent⟩,_⟩ := memEdges.mp mem
  obtain ⟨one,two⟩ := fkInside known
  exact ⟨parent ▸ two,child ▸ one⟩

theorem sorting (m : Members) : Sorting m.refs (edges m) (children m) enqueue :=
  ⟨refsDistinct m,edgeInside,fun _ => sortPerm _,enqueuePerm⟩

theorem acyclicSorted (m) : Sorted m.refs (edges m) (selfCycle m) (acyclicOrder m) :=
  kahnSorted (sorting m) (fun _ => rfl) (sortPerm _)

theorem selfIff {r} : selfCycle m r = true ↔ Refers m r r := by
  simp only [selfCycle,any_eq_true,decide_eq_true_eq,Refers]
  constructor
  · rintro ⟨fk,known,same,rfl⟩
    exact ⟨fk,known,rfl,same.symm⟩
  · rintro ⟨fk,known,rfl,parent⟩
    exact ⟨fk,known,parent.symm,rfl⟩

theorem upwards {r u} (path : ReflTransGen (Refers m) r u) : ReflTransGen (Up (edges m)) r u := by
  induction path with
  | refl => exact .refl
  | @tail b c _ edge ih =>
    by_cases same : b = c
    · exact same ▸ ih
    · exact .tail ih (memEdges.mpr ⟨edge,same⟩)

theorem stuckIff {r} : Stuck (edges m) (selfCycle m) r ↔ BelowCycle m r := by
  have up : ∀ a b, Up (edges m) a b → Refers m a b := fun a b edge => (memEdges.mp edge).1
  constructor
  · rintro ⟨u,path,self | loop⟩
    · exact ⟨u,ReflTransGen.mono up _ _ path,.single (selfIff.mp self)⟩
    · exact ⟨u,ReflTransGen.mono up _ _ path,TransGen.mono up _ _ loop⟩
  · rintro ⟨u,path,loop⟩
    refine ⟨u,upwards path,?_⟩
    obtain ⟨v,first,rest⟩ := TransGen.head'_iff.mp loop
    by_cases same : u = v
    · exact .inl (selfIff.mpr (same.symm ▸ first))
    · exact .inr (TransGen.head' (memEdges.mpr ⟨first,same⟩) (upwards rest))

theorem leftIff {r} (known : r ∈ m.refs) : r ∉ acyclicOrder m ↔ BelowCycle m r :=
  ((acyclicSorted m).leftIff (fun e mem => (edgeInside e mem).1) known).trans stuckIff

theorem memRest {r} : r ∈ cyclicRest m ↔ r ∈ m.refs ∧ BelowCycle m r := by
  rw [cyclicRest,(sortPerm _).mem_iff,mem_filter,Bool.not_eq_true',decide_eq_false_iff_not]
  exact and_congr_right fun known => leftIff known

theorem orderPerm (m : Members) : (topoOrder m).1.Perm m.refs := by
  have sorted := acyclicSorted m
  have split : (m.refs.filter fun r => decide (r ∈ acyclicOrder m)).Perm (acyclicOrder m) := by
    refine (perm_ext_iff_of_nodup ((refsDistinct m).filter _) sorted.distinct).mpr fun r => ?_
    rw [mem_filter,decide_eq_true_eq]
    exact ⟨And.right,fun mem => ⟨sorted.known r mem,mem⟩⟩
  exact (split.symm.append (sortPerm _)).trans (filter_append_perm _ _)

theorem orderDistinct (m : Members) : (topoOrder m).1.Nodup := (orderPerm m).nodup_iff.mpr (refsDistinct m)

theorem sortBefore {l} (distinct : l.Nodup) {a b} (one : a ∈ l) (two : b ∈ l) (apart : a ≠ b) :
    Before (sortRefs l) a b ↔ a.string < b.string ∨ a.string = b.string ∧ Before l a b := by
  have unique : (sortRefs l).Nodup := (sortPerm l).nodup_iff.mpr distinct
  have sorted : (sortRefs l).Pairwise fun a b => a.string ≤ b.string := pairwise_insertionSort _ _
  have low : ∀ {a b : TableRef}, Before (sortRefs l) a b → a.string ≤ b.string := by
    intro a b before
    have here := beforePairwise sorted before
    exact here
  have keeps : ∀ {a b : TableRef}, a.string ≤ b.string → Before l a b → Before (sortRefs l) a b := fun low before =>
    beforePair.mpr (pair_sublist_insertionSort low (beforePair.mp before))
  have swap : ∀ {l : List TableRef}, l.Nodup → a ∈ l → b ∈ l → ¬Before l b a → Before l a b := fun distinct one two not =>
    ((beforeTotal distinct one two).resolve_left apart).resolve_right not
  constructor
  · intro before
    rcases (low before).lt_or_eq with less | same
    · exact .inl less
    · refine .inr ⟨same,swap distinct one two fun after => ?_⟩
      exact (before.trans unique (keeps same.ge after)).irrefl unique
  · rintro (less | ⟨same,before⟩)
    · refine swap unique ((sortPerm l).mem_iff.mpr one) ((sortPerm l).mem_iff.mpr two) fun after => ?_
      exact absurd less (not_lt.mpr (low after))
    · exact keeps same.le before

theorem restBefore {a b : TableRef} (one : a ∈ cyclicRest m) (two : b ∈ cyclicRest m) (apart : a ≠ b) :
    Before (cyclicRest m) a b ↔ a.string < b.string ∨ a.string = b.string ∧ Before m.refs a b := by
  have listed : ∀ {r}, r ∈ cyclicRest m → r ∈ m.refs.filter fun r => !decide (r ∈ acyclicOrder m) := fun mem => (sortPerm _).mem_iff.mp mem
  rw [cyclicRest,sortBefore ((refsDistinct m).filter _) (listed one) (listed two) apart]
  refine or_congr_right (and_congr_right fun _ => ?_)
  exact beforeFilter (refsDistinct m) (listed one) (listed two)

section Between
variable {a b : TableRef}

theorem beforeLeft {l l'} (before : Before l a b) : Before (l++l') a b := by
  obtain ⟨front,back,rfl,mem⟩ := before
  exact ⟨front,back++l',by simp,mem⟩

theorem beforeRight {l l'} (before : Before l' a b) : Before (l++l') a b := by
  obtain ⟨front,back,rfl,mem⟩ := before
  exact ⟨l++front,back,by simp,mem_append_right _ mem⟩

theorem beforeAcross {l l'} (one : a ∈ l) (two : b ∈ l') : Before (l++l') a b := by
  obtain ⟨front,back,rfl⟩ := append_of_mem two
  exact ⟨l++front,back,by simp,mem_append_left _ one⟩

end Between

section Order
variable {fk : ForeignKey} (known : fk ∈ m.fks) (apart : fk.child ≠ fk.parent)
include known

theorem childBelow (below : BelowCycle m fk.parent) : BelowCycle m fk.child := by
  obtain ⟨u,path,loop⟩ := below
  exact ⟨u,.head ⟨fk,known,rfl,rfl⟩ path,loop⟩

theorem misplacedBefore (apart : fk.child ≠ fk.parent) (misplaced : Misplaced m fk) : Before (topoOrder m).1 fk.child fk.parent := by
  obtain ⟨child,parent⟩ := fkInside known
  have below := memRest.mpr ⟨parent,misplaced.1⟩
  exact beforeRight ((restBefore (memRest.mpr ⟨child,childBelow known misplaced.1⟩) below apart).mpr misplaced.2)

include apart in
theorem parentBefore (upright : ¬Misplaced m fk) : Before (topoOrder m).1 fk.parent fk.child := by
  obtain ⟨child,parent⟩ := fkInside known
  by_cases below : BelowCycle m fk.parent
  · have one := memRest.mpr ⟨child,childBelow known below⟩
    have two := memRest.mpr ⟨parent,below⟩
    have not : ¬Before (cyclicRest m) fk.child fk.parent := fun before => upright ⟨below,(restBefore one two apart).mp before⟩
    have distinct : (cyclicRest m).Nodup := (sortPerm _).nodup_iff.mpr ((refsDistinct m).filter _)
    exact beforeRight (((beforeTotal distinct one two).resolve_left apart).resolve_left not)
  · have sorted := not_not.mp (mt (leftIff parent).mp below)
    by_cases stuck : BelowCycle m fk.child
    · exact beforeAcross sorted (memRest.mpr ⟨child,stuck⟩)
    · have too := not_not.mp (mt (leftIff child).mp stuck)
      exact beforeLeft ((acyclicSorted m).upward too (memEdges.mpr ⟨⟨fk,known,rfl,rfl⟩,apart⟩))

end Order

theorem parentIff {fk} (known : fk ∈ m.fks) (apart : fk.child ≠ fk.parent) :
    Before (topoOrder m).1 fk.parent fk.child ↔ ¬Misplaced m fk := by
  refine ⟨fun before misplaced => ?_,parentBefore known apart⟩
  exact (before.trans (orderDistinct m) (misplacedBefore known apart misplaced)).irrefl (orderDistinct m)

section Named
variable (named : (m.tables.map fun t => t.ref.string).Nodup)
include named

theorem misplacedIff {fk : ForeignKey} (known : fk ∈ m.fks) : Misplaced m fk ↔ Inverted m fk := by
  refine and_congr_right fun _ => or_iff_left ?_
  rintro ⟨same,before⟩
  rw [nameDetermines named (fkInside known).1 (fkInside known).2 same] at before
  exact before.irrefl (refsDistinct m)

theorem invertedBefore {fk} (known : fk ∈ m.fks) (inverted : Inverted m fk) : Before (topoOrder m).1 fk.child fk.parent := by
  have apart : fk.child ≠ fk.parent := fun same => lt_irrefl _ (same ▸ inverted.2)
  exact misplacedBefore known apart ((misplacedIff named known).mpr inverted)

theorem beforeIff {fk} (known : fk ∈ m.fks) : Before (topoOrder m).1 fk.child fk.parent ↔ Inverted m fk := by
  refine ⟨fun before => ?_,invertedBefore named known⟩
  by_contra upright
  have apart : fk.child ≠ fk.parent := by
    intro same
    rw [same] at before
    exact before.irrefl (orderDistinct m)
  have first := parentBefore known apart (mt (misplacedIff named known).mp upright)
  exact (before.trans (orderDistinct m) first).irrefl (orderDistinct m)

theorem placedIff {P : ForeignKey → Prop} :
    (∀ fk ∈ m.fks, fk.child ≠ fk.parent → P fk → Before (topoOrder m).1 fk.parent fk.child) ↔ ∀ fk ∈ m.fks, Inverted m fk → ¬P fk := by
  constructor
  · intro placed fk known inverted used
    have apart : fk.child ≠ fk.parent := fun same => lt_irrefl _ (same ▸ inverted.2)
    exact ((placed fk known apart used).trans (orderDistinct m) (invertedBefore named known inverted)).irrefl (orderDistinct m)
  · intro upright fk known apart used
    exact parentBefore known apart fun misplaced => upright fk known ((misplacedIff named known).mp misplaced) used

end Named

end Replicare.FkGraph
