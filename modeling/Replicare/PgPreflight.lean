import Mathlib.Data.List.Sort
import Replicare.PgTypes
import Replicare.MysqlPreflight

/-! The Postgres pre-flight: what blocks a selection of tables and what it only notes, and the
load strategy of every foreign key on a cycle. -/
namespace Replicare.PgPreflight
open Engine PgTypes List
open MysqlTypes (CompatLevel)
open MysqlPreflight (quoted detectGiant percent)

inductive CyclicFKStrategy where
  | deferred
  | nullThenFill
  | blocked
  deriving DecidableEq, Repr

def CyclicFKStrategy.name : CyclicFKStrategy → String
  | .deferred => "set_constraints_deferred"
  | .nullThenFill => "null_then_fill"
  | .blocked => "blocked"

structure CyclicFK where
  fk : ForeignKey
  strategy : CyclicFKStrategy
  nullable : Bool
  reason : String
  deriving DecidableEq, Repr

/- A column that is not found counts as NOT NULL. -/
def anyChildColNullable (fk : ForeignKey) (tables : List Table) : Bool :=
  match tables.reverse.find? fun t => t.ref = fk.child with
  | none => false
  | some child => fk.childCols.any fun col => (child.columns.reverse.find? fun c => c.name = col).any Column.nullable

def classifyOne (fk : ForeignKey) (tables : List Table) : CyclicFK :=
  if fk.deferrable then ⟨fk,.deferred,anyChildColNullable fk tables,
    "DEFERRABLE: load the component in one transaction with SET CONSTRAINTS DEFERRED"⟩
  else if anyChildColNullable fk tables then ⟨fk,.nullThenFill,true,"nullable FK column(s): NULL-then-fill two-pass load"⟩
  else ⟨fk,.blocked,false,
    "NOT NULL and non-deferrable FK on a cycle: cannot load without disabling the constraint; make the FK DEFERRABLE or break the cycle"⟩

def search (edges : List (TableRef × TableRef)) (goal : TableRef) : Nat → List TableRef → List TableRef → Bool
  | fuel+1, seen, n::stack =>
      if n = goal then true
      else if n ∈ seen then search edges goal fuel seen stack
      else search edges goal fuel (n::seen) (((edges.filter fun e => e.1 = n).map Prod.snd).reverse++stack)
  | _, _, _ => false

def reachable (edges : List (TableRef × TableRef)) (start goal : TableRef) : Bool :=
  search edges goal (edges.length+1) [] [start]

def fkKey (fk : ForeignKey) : String := fk.child.string++"->"++fk.parent.string++":"++fk.name

def selectedFKs (tables : List Table) : List ForeignKey :=
  (tables.flatMap Table.foreignKeys).filter fun fk => decide (fk.parent ∈ tables.map Table.ref)

def classifyCyclicFKs (tables : List Table) : List CyclicFK :=
  let edges := (selectedFKs tables).map fun fk => (fk.child,fk.parent)
  (((selectedFKs tables).filter fun fk => decide (fk.child = fk.parent) || reachable edges fk.parent fk.child).map
    fun fk => classifyOne fk tables).insertionSort fun a b => fkKey a.fk ≤ fkKey b.fk

def cyclicColsByTable (cyc : List CyclicFK) (r : TableRef) : List String :=
  ((cyc.filter fun c => c.fk.child = r).flatMap fun c => c.fk.childCols).eraseDups

def nullFillColsByTable (cyc : List CyclicFK) : TableRef → List String :=
  cyclicColsByTable (cyc.filter fun c => c.strategy = .nullThenFill)

structure ColumnCompat where
  column : String
  sourceType : String
  targetType : String
  level : CompatLevel
  detail : String
  deriving DecidableEq, Repr

structure TableCompat where
  table : TableRef
  targetExists : Bool
  columns : List ColumnCompat
  missingInTarget : List String
  extraNotNull : List String
  deriving DecidableEq, Repr

def columnNamed (t : Table) (name : String) : Option Column := t.columns.reverse.find? fun c => c.name = name

def transportColumns (t : Table) : List Column := t.columns.filter fun c => !c.generated

def compareColumn (tgt : Table) (sc : Column) : Option ColumnCompat :=
  (columnNamed tgt sc.name).map fun tc =>
    ⟨sc.name,sc.dataType,tc.dataType,(classifyTypes sc.dataType tc.dataType).1,(classifyTypes sc.dataType tc.dataType).2⟩

def compareTable (src : Table) : Option Table → TableCompat
  | none => ⟨src.ref,false,[],[],[]⟩
  | some tgt =>
      { table := src.ref
        targetExists := true
        columns := ((transportColumns src).filterMap (compareColumn tgt)).insertionSort fun a b => a.column ≤ b.column
        missingInTarget := (((transportColumns src).filter fun c => (columnNamed tgt c.name).isNone).map
          Column.name).insertionSort fun a b => a ≤ b
        extraNotNull := ((tgt.columns.filter fun c => !decide (c.name ∈ (transportColumns src).map Column.name) &&
          !c.nullable && !c.generated).map Column.name).insertionSort fun a b => a ≤ b }

def columnFinding (ref : TableRef) (c : ColumnCompat) : List Finding :=
  match c.level with
  | .incompatible => [⟨.block,ref,"type","column "++quoted c.column++": "++c.sourceType++" -> "++c.targetType++
      " is incompatible ("++c.detail++")"⟩]
  | .risky => [⟨.warn,ref,"type","column "++quoted c.column++": "++c.sourceType++" -> "++c.targetType++
      " is risky ("++c.detail++")"⟩]
  | _ => []

def compatFindings (ref : TableRef) (c : TableCompat) : List Finding :=
  if c.targetExists then
    (c.missingInTarget.map fun col => ⟨.block,ref,"missing-column","column "++quoted col++" is absent from the target"⟩)++
      c.columns.flatMap (columnFinding ref)++
      c.extraNotNull.map fun col => ⟨.warn,ref,"extra-not-null","target column "++quoted col++
        " is NOT NULL but not supplied by the source; inserts will fail unless it has a default"⟩
  else [⟨.block,ref,"missing-table","target table does not exist"⟩]

def danglingFKEdges (selected : List Table) : List ForeignKey :=
  ((selected.flatMap Table.foreignKeys).filter fun fk => !decide (fk.parent ∈ selected.map Table.ref)).insertionSort
    fun a b => a.child.string < b.child.string ∨ a.child.string = b.child.string ∧ a.parent.string ≤ b.parent.string

def cyclicFinding (c : CyclicFK) : Finding :=
  if c.strategy = .blocked then ⟨.block,c.fk.child,"cyclic-fk","FK "++c.fk.name++": "++c.reason⟩
  else ⟨.info,c.fk.child,"cyclic-fk","FK "++c.fk.name++" cyclic; load strategy: "++c.strategy.name⟩

def targetOf (target : List Table) (st : Table) : Option Table := target.reverse.find? fun t => t.ref = st.ref

def severityRank : Severity → Nat
  | .info => 0
  | .warn => 1
  | .block => 2

def findingBefore (a b : Finding) : Prop :=
  a.table.string < b.table.string ∨ a.table.string = b.table.string ∧
    (severityRank b.severity < severityRank a.severity ∨ a.severity = b.severity ∧ a.category ≤ b.category)
instance (a b) : Decidable (findingBefore a b) := by unfold findingBefore; infer_instance

def findings (components : List Table → List Component) (source target : List Table) : List Finding :=
  let replicable := source.filter Table.hasUsableKey
  ((source.filter fun t => !t.hasUsableKey).map fun t =>
      ⟨.warn,t.ref,"no-key","skipped: no primary key or usable unique key"⟩)++
    (match detectGiant (components replicable) replicable.length with
      | none => []
      | some n => [⟨.warn,⟨"",""⟩,"giant-component","one FK component spans "++toString (percent n replicable.length)++
          "% of selected tables ("++toString n++" of "++toString replicable.length++"), limiting parallelism"⟩])++
    ((danglingFKEdges replicable).map fun fk => ⟨.warn,fk.child,"dangling-fk","FK "++fk.name++
      " references unselected table "++fk.parent.string++"; the target must already satisfy it"⟩)++
    (classifyCyclicFKs replicable).map cyclicFinding++
    replicable.flatMap fun t => compatFindings t.ref (compareTable t (targetOf target t))

def buildPreflight (components : List Table → List Component) (syncName : String) (srcVersion tgtVersion : Int)
    (source target : List Table) : PreflightReport :=
  let replicable := source.filter Table.hasUsableKey
  { sync := syncName
    sourceVersion := srcVersion
    targetVersion := tgtVersion
    replicable := replicable.map Table.ref
    skipped := (source.filter fun t => !t.hasUsableKey).map fun t => ⟨t.ref,"no primary key or usable unique key"⟩
    components := components replicable
    findings := (findings components source target).insertionSort findingBefore }

def captureColsFor (t : Table) : List (String × String) :=
  match replicationKey t with
  | none => []
  | some key => key.columns.map fun name => (name,((columnNamed t name).map Column.dataType).getD "")

theorem memNullFillCols {cyc r c} (mem : c ∈ nullFillColsByTable cyc r) :
    ∃ x ∈ cyc, x.strategy = .nullThenFill ∧ x.fk.child = r ∧ c ∈ x.fk.childCols := by
  simp only [nullFillColsByTable,cyclicColsByTable,mem_eraseDups,mem_flatMap,mem_filter,decide_eq_true_eq] at mem
  obtain ⟨x,⟨⟨known,strategy⟩,child⟩,column⟩ := mem
  exact ⟨x,known,strategy,child,column⟩

theorem blockedIff (components sync sv tv source target) :
    (buildPreflight components sync sv tv source target).blocked = true ↔
      (∃ c ∈ classifyCyclicFKs (source.filter Table.hasUsableKey), c.strategy = .blocked) ∨
        ∃ t ∈ source, t.hasUsableKey = true ∧
          ∃ f ∈ compatFindings t.ref (compareTable t (targetOf target t)), f.severity = .block := by
  simp only [PreflightReport.blocked,buildPreflight,findings,any_eq_true,mem_insertionSort,mem_append,
    mem_flatMap,mem_map,mem_filter,beq_iff_eq]
  constructor
  · rintro ⟨f,(((⟨t,_,rfl⟩ | giant) | ⟨fk,_,rfl⟩) | ⟨c,mem,rfl⟩) | ⟨t,⟨mem,usable⟩,found⟩,block⟩
    · cases block
    · cases detected : detectGiant (components (source.filter Table.hasUsableKey)) (source.filter Table.hasUsableKey).length <;>
        rw [detected] at giant
      · exact absurd giant not_mem_nil
      · cases mem_singleton.mp giant
        cases block
    · cases block
    · refine .inl ⟨c,mem,?_⟩
      unfold cyclicFinding at block
      split at block
      · assumption
      · cases block
    · exact .inr ⟨t,mem,usable,f,found,block⟩
  · rintro (⟨c,mem,blocked⟩ | ⟨t,mem,usable,f,found,block⟩)
    · exact ⟨cyclicFinding c,.inl (.inr ⟨c,mem,rfl⟩),by simp [cyclicFinding,blocked]⟩
    · exact ⟨f,.inr ⟨t,⟨mem,usable⟩,found⟩,block⟩

theorem acceptedTable {components sync sv tv source target t}
    (accepted : (buildPreflight components sync sv tv source target).blocked = false) (mem : t ∈ source)
    (usable : t.hasUsableKey = true) :
    ∃ tgt, targetOf target t = some tgt ∧ ∀ c ∈ transportColumns t, ∃ tc, columnNamed tgt c.name = some tc := by
  have none := fun f found block => Bool.eq_false_iff.mp accepted
    ((blockedIff components sync sv tv source target).mpr (.inr ⟨t,mem,usable,f,found,block⟩))
  cases there : targetOf target t with
  | none => exact (none _ (by rw [there]; exact mem_singleton.mpr rfl) rfl).elim
  | some tgt =>
    refine ⟨tgt,rfl,fun c inside => ?_⟩
    cases named : columnNamed tgt c.name with
    | some tc => exact ⟨tc,rfl⟩
    | none =>
      refine (none ⟨.block,t.ref,"missing-column","column "++quoted c.name++" is absent from the target"⟩ ?_ rfl).elim
      rw [there]
      refine mem_append_left _ (mem_append_left _ (mem_map.mpr ⟨c.name,?_,rfl⟩))
      exact (mem_insertionSort _).mpr (mem_map.mpr ⟨c,mem_filter.mpr ⟨inside,by simp [named]⟩,rfl⟩)

end Replicare.PgPreflight
