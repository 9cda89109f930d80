import Replicare.RowLoad

/-! The columns of a Postgres component with a cycle that are applied as NULL at first. -/
namespace Replicare.PgCyclicLoads
open Engine Relations FkGraph Kahn PgPreflight PgCycles RowLoad List

def folders : TableRef := ⟨"app","folders"⟩

def drive : Members where
  tables := [
    ⟨folders,[⟨"tenant_id","bigint",false,false,""⟩,⟨"id","bigint",false,false,""⟩,⟨"parent_id","bigint",true,false,""⟩],
      some ⟨"folders_pkey",["tenant_id","id"],true⟩,[],
      [⟨"folders_parent_fkey",folders,["tenant_id","parent_id"],folders,["tenant_id","id"],false⟩],""⟩]
  distinct := by decide
  own := by decide

/- A column that may be NULL and is not part of the replication identity. -/
def SafelyNull (t : Table) (c : String) : Prop :=
  (columnNamed t c).any Column.nullable = true ∧ ∀ key ∈ replicationKey t, c ∉ key.columns

/- What the sink promises of the columns it lets the drain apply as NULL at first. -/
structure OnlySafe (m : Members) : Prop where
  safe : ∀ t ∈ m.tables, ∀ c ∈ nullFillColsByTable (cyclicFKs m) t.ref, SafelyNull t c
  enough : ∀ x ∈ cyclicFKs m, x.strategy = .nullThenFill → ∃ c ∈ x.fk.childCols, c ∈ nullFillColsByTable (cyclicFKs m) x.fk.child

theorem nullFillMem {m r c} : c ∈ nullFillColsByTable (cyclicFKs m) r ↔
    ∃ fk ∈ m.fks, OnCycle m fk ∧ (fk.deferrable = false ∧ anyChildColNullable fk m.tables = true) ∧ fk.child = r ∧ c ∈ fk.childCols := by
  simp only [nullFillColsByTable,cyclicColsByTable,mem_eraseDups,mem_flatMap,mem_filter,decide_eq_true_eq]
  constructor
  · rintro ⟨x,⟨⟨mem,strategy⟩,child⟩,column⟩
    obtain ⟨fk,known,cycle,rfl⟩ := memCyclic.mp mem
    rw [classifyOneFk] at child column
    exact ⟨fk,known,cycle,classifyFill.mp strategy,child,column⟩
  · rintro ⟨fk,known,cycle,strategy,child,column⟩
    refine ⟨classifyOne fk m.tables,⟨⟨memCyclic.mpr ⟨fk,known,cycle,rfl⟩,classifyFill.mpr strategy⟩,?_⟩,?_⟩ <;> rwa [classifyOneFk]

theorem someChildCol {fk tables} (nullable : anyChildColNullable fk tables = true) : ∃ c, c ∈ fk.childCols := by
  unfold anyChildColNullable at nullable
  split at nullable
  · cases nullable
  · obtain ⟨c,mem,_⟩ := any_eq_true.mp nullable
    exact ⟨c,mem⟩

theorem onlySafeIff (m all : Members) (components sync sv tv target)
    (accepted : (buildPreflight components sync sv tv all.tables target).blocked = false)
    (inside : ∀ t ∈ m.tables, t ∈ all.tables ∧ t.hasUsableKey = true) :
    OnlySafe m ↔ ∀ t ∈ m.tables, ∀ fk ∈ m.fks, fk.child = t.ref → OnCycle m fk → fk.deferrable = false → ∀ c ∈ fk.childCols, SafelyNull t c := by
  -- pre-flight has found a nullable column for every such foreign key
  have fills : ∀ fk ∈ m.fks, OnCycle m fk → fk.deferrable = false → anyChildColNullable fk m.tables = true := by
    intro fk known cycle immediate
    have strategy := acceptedStrategy accepted inside _ (memCyclic.mpr ⟨fk,known,cycle,rfl⟩)
    by_contra full
    simp [classifyOne,immediate,full] at strategy
  constructor
  · intro only t mem fk known child cycle immediate c column
    exact only.safe t mem c (nullFillMem.mpr ⟨fk,known,cycle,⟨immediate,fills fk known cycle immediate⟩,child,column⟩)
  · intro safe
    refine ⟨fun t mem c column => ?_,fun x mem strategy => ?_⟩
    · obtain ⟨fk,known,cycle,⟨immediate,_⟩,child,column⟩ := nullFillMem.mp column
      exact safe t mem fk known child cycle immediate c column
    · obtain ⟨fk,known,cycle,rfl⟩ := memCyclic.mp mem
      rw [classifyOneFk]
      have chosen := classifyFill.mp strategy
      obtain ⟨c,column⟩ := someChildCol chosen.2
      exact ⟨c,column,nullFillMem.mpr ⟨fk,known,cycle,chosen,rfl,column⟩⟩

theorem shopOnlySafe : OnlySafe shop := by
  have safe : ∀ t ∈ shop.tables, ∀ fk ∈ shop.fks, fk.child = t.ref → ∀ c ∈ fk.childCols, SafelyNull t c := by
    unfold SafelyNull
    decide +kernel
  exact (onlySafeIff shop shop (fun _ => []) "shop" 160000 160000 shop.tables (by decide +kernel) (by decide)).mpr
    fun t mem fk known child _ _ => safe t mem fk known child

/- `tenant_id` of a folder is NOT NULL and part of its key. -/
theorem driveNulls : (buildPreflight (fun _ => []) "archive" 160000 160000 drive.tables drive.tables).blocked = false ∧
    nullFillColsByTable (cyclicFKs drive) folders = ["tenant_id","parent_id"] ∧ ¬OnlySafe drive := by
  have columns : nullFillColsByTable (cyclicFKs drive) folders = ["tenant_id","parent_id"] := by decide +kernel
  refine ⟨by decide +kernel,columns,fun only => ?_⟩
  have safe := only.safe _ (mem_singleton.mpr rfl) "tenant_id" (columns ▸ mem_cons_self)
  exact absurd safe.1 (by decide)

end Replicare.PgCyclicLoads
