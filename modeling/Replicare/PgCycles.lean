import Replicare.FkGraph

/-! The foreign keys on a cycle as the classification finds them, the columns that a
NULL-then-fill load leaves out at first, and the order in which it loads the tables. -/
namespace Replicare.PgCycles
open Engine Relation Kahn FkGraph PgPreflight List

section Search
variable {edges : List (TableRef × TableRef)} {goal : TableRef} {fuel : Nat} {seen stack : List TableRef}

theorem searchSound (found : search edges goal fuel seen stack = true) : ∃ n ∈ stack, ReflTransGen (fun a b => (a,b) ∈ edges) n goal := by
  induction fuel generalizing seen stack with
  | zero => simp [search] at found
  | succ fuel ih =>
    cases stack with
    | nil => simp [search] at found
    | cons n stack =>
      rw [search] at found
      split at found
      · rename_i here
        exact ⟨n,mem_cons_self,here ▸ .refl⟩
      · split at found
        · obtain ⟨k,mem,path⟩ := ih found
          exact ⟨k,mem_cons_of_mem _ mem,path⟩
        · obtain ⟨k,mem,path⟩ := ih found
          rcases mem_append.mp mem with next | old
          · obtain ⟨e,listed,rfl⟩ := mem_map.mp (mem_reverse.mp next)
            obtain ⟨edge,start⟩ := mem_filter.mp listed
            refine ⟨n,mem_cons_self,.head ?_ path⟩
            rwa [← of_decide_eq_true start]
          · exact ⟨k,mem_cons_of_mem _ old,path⟩

structure Enclosed (edges : List (TableRef × TableRef)) (goal : TableRef) (seen stack : List TableRef) (area : Set TableRef) : Prop where
  coming : ∀ n ∈ stack, n ∈ area
  past : ∀ n ∈ seen, n ∈ area
  without : goal ∉ area
  step : ∀ e ∈ edges, e.1 ∈ area → e.1 ∉ seen → e.2 ∈ area

theorem enclosedSeen (fresh : goal ∉ seen) : Enclosed edges goal seen [] {n | n ∈ seen} :=
  ⟨fun _ none => absurd none not_mem_nil,fun _ mem => mem,fresh,fun _ _ inside out => absurd inside out⟩

theorem unseenCount (edges : List (TableRef × TableRef)) (n : TableRef) (new : n ∉ seen) : edges.countP (fun e => !decide (e.1 ∈ seen)) =
    edges.countP (fun e => !decide (e.1 ∈ n::seen))+(edges.filter fun e => e.1 = n).length := by
  rw [← countP_eq_length_filter]
  induction edges with
  | nil => rfl
  | cons e edges ih =>
    rw [countP_cons,countP_cons,countP_cons,ih]
    by_cases here : e.1 = n
    · simp [here,new]
      omega
    · by_cases known : e.1 ∈ seen <;> simp [here,known]
      omega

theorem searchClosed (enough : stack.length+edges.countP (fun e => !decide (e.1 ∈ seen)) ≤ fuel) (fresh : goal ∉ seen)
    (missed : search edges goal fuel seen stack = false) : ∃ area, Enclosed edges goal seen stack area := by
  induction fuel generalizing seen stack with
  | zero =>
    cases length_eq_zero_iff.mp (show stack.length = 0 by omega)
    exact ⟨_,enclosedSeen fresh⟩
  | succ fuel ih =>
    cases stack with
    | nil => exact ⟨_,enclosedSeen fresh⟩
    | cons n stack =>
      rw [search] at missed
      rw [length_cons] at enough
      split at missed
      · cases missed
      · rename_i other
        split at missed
        · rename_i known
          obtain ⟨area,rest⟩ := ih (by omega) fresh missed
          exact ⟨area,forall_mem_cons.mpr ⟨rest.past n known,rest.coming⟩,rest.past,rest.without,rest.step⟩
        · rename_i new
          have count := unseenCount edges n new
          obtain ⟨area,rest⟩ := ih (by rw [length_append,length_reverse,length_map]; omega)
            (fun goal_ => (mem_cons.mp goal_).elim (fun same => other same.symm) fresh) missed
          refine ⟨area,forall_mem_cons.mpr ⟨rest.past n mem_cons_self,fun k mem => rest.coming k (mem_append_right _ mem)⟩,
            fun k mem => rest.past k (mem_cons_of_mem _ mem),rest.without,fun e edge inside unseen => ?_⟩
          by_cases here : e.1 = n
          · refine rest.coming e.2 (mem_append_left _ (mem_reverse.mpr (mem_map.mpr ⟨e,?_,rfl⟩)))
            exact mem_filter.mpr ⟨edge,decide_eq_true here⟩
          · exact rest.step e edge inside fun mem => (mem_cons.mp mem).elim here unseen

theorem reachableIff {start} : reachable edges start goal = true ↔ ReflTransGen (fun a b => (a,b) ∈ edges) start goal := by
  constructor
  · intro found
    obtain ⟨n,mem,path⟩ := searchSound found
    rwa [mem_singleton.mp mem] at path
  · intro path
    by_contra missed
    have enough : [start].length+edges.countP (fun e => !decide (e.1 ∈ ([] : List TableRef))) ≤ edges.length+1 := by
      rw [length_singleton,Nat.add_comm]
      exact Nat.add_le_add_right countP_le_length 1
    obtain ⟨area,enclosed⟩ := searchClosed enough not_mem_nil (Bool.eq_false_iff.mpr missed)
    have stays : ∀ {k}, ReflTransGen (fun a b => (a,b) ∈ edges) start k → k ∈ area := by
      intro k path
      induction path with
      | refl => exact enclosed.coming start mem_cons_self
      | tail _ edge ih => exact enclosed.step _ edge ih not_mem_nil
    exact enclosed.without (stays path)

end Search

section Schema
variable (m : Members)

def OnCycle (fk : ForeignKey) : Prop := ReflTransGen (Refers m) fk.parent fk.child

def cyclicFKs : List CyclicFK := classifyCyclicFKs m.tables

def cyclicEdge (fk : ForeignKey) : Bool := decide (fkKey fk ∈ (cyclicFKs m).map fun c => fkKey c.fk)

def nonCyclicFKs : List ForeignKey := m.fks.filter fun fk => !cyclicEdge m fk && !decide (fk.child = fk.parent)

def nonCyclicEdges : List (TableRef × TableRef) := (nonCyclicFKs m).map fun fk => (fk.parent,fk.child)

def nonCyclicChildren (r : TableRef) : List TableRef := ((nonCyclicEdges m).filter fun e => decide (e.1 = r)).map Prod.snd

def nonCyclicIndeg (r : TableRef) : Nat := (nonCyclicEdges m).countP fun e => decide (e.2 = r)

def nonCyclicSorted : List TableRef :=
  drain (nonCyclicChildren m) (fun _ => false) (fun queue ready => queue++sortRefs ready) m.refs.length
    (sortRefs (m.refs.filter fun r => decide (nonCyclicIndeg m r = 0))) (nonCyclicIndeg m)

def nonCyclicTopoOrder : List TableRef :=
  nonCyclicSorted m++sortRefs (m.refs.filter fun r => !decide (r ∈ nonCyclicSorted m))

end Schema

variable {m : Members} {fk : ForeignKey}

theorem onCycleSelf (same : fk.child = fk.parent) : OnCycle m fk := by
  unfold OnCycle
  rw [same]

theorem classifyOneFk (fk) (tables) : (classifyOne fk tables).fk = fk := by
  unfold classifyOne
  split
  · rfl
  · split <;> rfl

theorem memCyclic {c} : c ∈ cyclicFKs m ↔ ∃ fk ∈ m.fks, OnCycle m fk ∧ c = classifyOne fk m.tables := by
  have edge : ∀ a b, (a,b) ∈ m.fks.map (fun fk => (fk.child,fk.parent)) ↔ Refers m a b := by
    intro a b
    simp [Refers]
  have onCycle : ∀ fk : ForeignKey, (decide (fk.child = fk.parent) ||
      reachable (m.fks.map fun fk => (fk.child,fk.parent)) fk.parent fk.child) = true ↔ OnCycle m fk := by
    intro fk
    rw [Bool.or_eq_true,decide_eq_true_eq,reachableIff]
    simp only [edge]
    exact or_iff_right_of_imp onCycleSelf
  simp only [cyclicFKs,classifyCyclicFKs,mem_insertionSort,mem_map,mem_filter]
  constructor
  · rintro ⟨fk,⟨known,cycle⟩,rfl⟩
    exact ⟨fk,known,(onCycle fk).mp cycle,rfl⟩
  · rintro ⟨fk,known,cycle,rfl⟩
    exact ⟨fk,⟨known,(onCycle fk).mpr cycle⟩,rfl⟩

theorem classifyFill {tables} :
    (classifyOne fk tables).strategy = .nullThenFill ↔ fk.deferrable = false ∧ anyChildColNullable fk tables = true := by
  unfold classifyOne
  split
  · rename_i deferrable
    simp [deferrable]
  · rename_i immediate
    split
    · rename_i nullable
      simp [immediate,nullable]
    · rename_i full
      simp [full]

section Selection
variable {all : Members} (inside : ∀ t ∈ m.tables, t ∈ all.tables)
include inside

theorem fksInside (known : fk ∈ m.fks) : fk ∈ all.fks := by
  obtain ⟨listed,parent⟩ := mem_filter.mp known
  obtain ⟨t,mem,own⟩ := mem_flatMap.mp listed
  obtain ⟨t',mem',name⟩ := mem_map.mp (of_decide_eq_true parent)
  exact mem_filter.mpr ⟨mem_flatMap.mpr ⟨t,inside t mem,own⟩,decide_eq_true (mem_map.mpr ⟨t',inside t' mem',name⟩)⟩

omit inside in
theorem lastNamed {t} (mem : t ∈ m.tables) : (m.tables.reverse.find? fun t' => t'.ref = t.ref) = some t := by
  cases found : m.tables.reverse.find? fun t' => t'.ref = t.ref with
  | none => simpa using find?_eq_none.mp found t (mem_reverse.mpr mem)
  | some t' =>
    have same : t'.ref = t.ref := by simpa using find?_some found
    have listed := mem_reverse.mp (mem_of_find?_eq_some found)
    rw [inj_on_of_nodup_map m.distinct listed mem same]

theorem classifiedInside {c} (mem : c ∈ cyclicFKs m) : c ∈ cyclicFKs all := by
  obtain ⟨fk,known,cycle,rfl⟩ := memCyclic.mp mem
  have refers : ∀ a b, Refers m a b → Refers all a b := by
    rintro a b ⟨fk,known,child,parent⟩
    exact ⟨fk,fksInside inside known,child,parent⟩
  obtain ⟨t,listed,child⟩ := mem_map.mp (fkInside known).1
  have nullable : anyChildColNullable fk m.tables = anyChildColNullable fk all.tables := by
    rw [anyChildColNullable,anyChildColNullable,← child,lastNamed listed,lastNamed (inside t listed)]
  refine memCyclic.mpr ⟨fk,fksInside inside known,ReflTransGen.mono refers _ _ cycle,?_⟩
  rw [classifyOne,classifyOne,nullable]

end Selection

def replicable (all : Members) : Members where
  tables := all.tables.filter Table.hasUsableKey
  distinct := all.distinct.sublist (filter_sublist.map _)
  own := fun t mem => all.own t (mem_filter.mp mem).1

theorem acceptedStrategy {all : Members} {components sync sv tv target}
    (accepted : (buildPreflight components sync sv tv all.tables target).blocked = false)
    (inside : ∀ t ∈ m.tables, t ∈ all.tables ∧ t.hasUsableKey = true) : ∀ c ∈ cyclicFKs m, c.strategy ≠ .blocked := by
  intro c mem blocked
  have there : c ∈ cyclicFKs (replicable all) := classifiedInside (fun t listed => mem_filter.mpr (inside t listed)) mem
  exact Bool.eq_false_iff.mp accepted ((blockedIff components sync sv tv all.tables target).mpr (.inl ⟨c,there,blocked⟩))

section Order
variable (identified : ∀ fk ∈ m.fks, ∀ other ∈ m.fks, fkKey fk = fkKey other → fk = other)
include identified

theorem cyclicEdgeIff (known : fk ∈ m.fks) : cyclicEdge m fk = true ↔ OnCycle m fk := by
  simp only [cyclicEdge,decide_eq_true_eq,mem_map]
  constructor
  · rintro ⟨c,mem,same⟩
    obtain ⟨other,listed,cycle,rfl⟩ := memCyclic.mp mem
    rw [classifyOneFk] at same
    rwa [identified fk known other listed same.symm]
  · intro cycle
    exact ⟨classifyOne fk m.tables,memCyclic.mpr ⟨fk,known,cycle,rfl⟩,by rw [classifyOneFk]⟩

theorem memNonCyclic : fk ∈ nonCyclicFKs m ↔ fk ∈ m.fks ∧ ¬OnCycle m fk := by
  rw [nonCyclicFKs,mem_filter]
  refine and_congr_right fun known => ?_
  rw [Bool.and_eq_true,Bool.not_eq_true',Bool.not_eq_true',decide_eq_false_iff_not,Bool.eq_false_iff,Ne,cyclicEdgeIff identified known]
  exact and_iff_left_of_imp fun open_ same => open_ (onCycleSelf same)

omit identified in
theorem nonCyclicInside (e) (mem : e ∈ nonCyclicEdges m) : e.1 ∈ m.refs ∧ e.2 ∈ m.refs := by
  obtain ⟨fk,listed,rfl⟩ := mem_map.mp mem
  exact (fkInside (mem_filter.mp listed).1).symm

omit identified in
theorem nonCyclicSorting (m) : Sorting m.refs (nonCyclicEdges m) (nonCyclicChildren m) (fun queue ready => queue++sortRefs ready) :=
  ⟨refsDistinct m,nonCyclicInside,fun _ => List.Perm.refl _,fun queue ready => (sortPerm ready).append_left queue⟩

omit identified in
theorem nonCyclicWhole (m) : Sorted m.refs (nonCyclicEdges m) (fun _ => false) (nonCyclicSorted m) := by
  refine kahnSorted (nonCyclicSorting m) (fun _ => rfl) ((sortPerm _).trans ?_)
  simp

theorem allSorted {r} (known : r ∈ m.refs) : r ∈ nonCyclicSorted m := by
  by_contra left
  obtain ⟨u,_,held | loop⟩ := ((nonCyclicWhole m).leftIff (fun e mem => (nonCyclicInside e mem).1) known).mp left
  · cases held
  · have up : ∀ a b, Up (nonCyclicEdges m) a b → Refers m a b := by
      intro a b edge
      obtain ⟨fk,listed,same⟩ := mem_map.mp edge
      cases same
      exact ⟨fk,(mem_filter.mp listed).1,rfl,rfl⟩
    obtain ⟨v,first,rest⟩ := TransGen.head'_iff.mp loop
    obtain ⟨fk,listed,same⟩ := mem_map.mp first
    cases same
    exact ((memNonCyclic identified).mp listed).2 (ReflTransGen.mono up _ _ rest)

theorem loadOrderSorted : nonCyclicTopoOrder m = nonCyclicSorted m := by
  have none : (m.refs.filter fun r => !decide (r ∈ nonCyclicSorted m)) = [] := by
    refine filter_eq_nil_iff.mpr fun r known => ?_
    simp [allSorted identified known]
  rw [nonCyclicTopoOrder,none]
  exact append_nil _

theorem loadOrderPerm : (nonCyclicTopoOrder m).Perm m.refs := by
  rw [loadOrderSorted identified]
  refine (perm_ext_iff_of_nodup (nonCyclicWhole m).distinct (refsDistinct m)).mpr fun r => ?_
  exact ⟨(nonCyclicWhole m).known r,allSorted identified⟩

theorem nonCyclicBefore (known : fk ∈ m.fks) (open_ : ¬OnCycle m fk) : Before (nonCyclicTopoOrder m) fk.parent fk.child := by
  rw [loadOrderSorted identified]
  refine (nonCyclicWhole m).upward (allSorted identified (fkInside known).1) ?_
  exact mem_map.mpr ⟨fk,(memNonCyclic identified).mpr ⟨known,open_⟩,rfl⟩

end Order

end Replicare.PgCycles
