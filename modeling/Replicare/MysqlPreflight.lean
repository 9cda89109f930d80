import Mathlib.Data.List.Nodup
import Replicare.MysqlTypes

/-! The MySQL pre-flight: what blocks a selection of tables and what it only notes. The
partition into FK components is a parameter; no finding about components blocks. -/
namespace Replicare.MysqlPreflight
open Engine MysqlTypes List

def quoted (s : String) : String := "\""++s++"\""

def lower (s : String) : List Char := s.toList.map Char.toLower

def blockNonInnoDB (t : Table) (role : String) : List Finding :=
  if t.storageEngine = "" ∨ lower t.storageEngine = lower "InnoDB" then []
  else [⟨.block,t.ref,"non-innodb",role++" table uses storage engine "++quoted t.storageEngine++
    "; only InnoDB is supported (non-transactional engines break atomic apply/capture, mysql-plan §0.5)"⟩]

def blockSecondaryUnique (t : Table) : List Finding :=
  match t.uniqueKeys.find? fun u => !((replicationKey t).any fun rk => decide (u.columns = rk.columns)) with
  | none => []
  | some u => [⟨.block,t.ref,"secondary-unique","target table has a secondary UNIQUE key "++quoted u.name++
      " beyond the replication key; ON DUPLICATE KEY UPDATE cannot preserve faithful halt-loud semantics for it (mysql-plan §0.4)"⟩]

def compareColumn (src : Table) (tgt : Table) (sc : Column) : List Finding :=
  if sc.generated then []
  else
    match tgt.columns.reverse.find? fun tc => tc.name = sc.name with
    | none => [⟨.block,src.ref,"missing-column","column "++quoted sc.name++" exists on the source but not the target"⟩]
    | some tc =>
        let (lvl,reason) := classifyColumn sc tc
        if lvl.blocks then [⟨.block,src.ref,"type-incompatible",
          "column "++quoted sc.name++": "++reason++" ("++sc.dataType++" -> "++tc.dataType++")"⟩]
        else if lvl = .risky then [⟨.warn,src.ref,"type-risky","column "++quoted sc.name++": "++reason⟩]
        else []

def compareColumns (src : Table) (tgt : Table) : List Finding := src.columns.flatMap (compareColumn src tgt)

def tableFindings (target : List Table) (st : Table) : List Finding :=
  if !st.hasUsableKey then
    [⟨.warn,st.ref,"no-key","table has no primary key or unique key; skipped (CLAUDE.md §3.1)"⟩]
  else
    blockNonInnoDB st "source"++
      match target.reverse.find? fun t => t.ref = st.ref with
      | none => [⟨.block,st.ref,"missing-target",
          "table is selected on the source but does not exist on the target (target schema is data-only, CLAUDE.md §7)"⟩]
      | some tgt => blockNonInnoDB tgt "target"++blockSecondaryUnique tgt++compareColumns st tgt

def detectGiant (comps : List Component) (total : Nat) : Option Nat :=
  let biggest := comps.foldl (fun most c => max most c.tables.length) 0
  if total < 5 ∨ comps = [] ∨ 5*biggest < 3*total then none else some biggest

def percent (part total : Nat) : Nat :=
  let q := 100*part/total
  let r := 100*part%total
  if total < 2*r ∨ (2*r = total ∧ q%2 = 1) then q+1 else q

def danglingEdges (selected : List Table) : List ForeignKey :=
  ((selected.flatMap Table.foreignKeys).filter fun fk => !decide (fk.parent ∈ selected.map Table.ref)).mergeSort
    fun a b => if a.child.string = b.child.string then decide (a.parent.string ≤ b.parent.string)
      else decide (a.child.string ≤ b.child.string)

def allNotNull (t : Table) (cols : List String) : Bool :=
  cols.all fun name => !(t.columns.reverse.find? fun c => c.name = name).any Column.nullable

def cyclicHasNotNullFK (c : Component) (tables : List Table) : Bool :=
  c.cyclic.any fun ref =>
    match tables.reverse.find? fun t => t.ref = ref with
    | none => false
    | some t => t.foreignKeys.any fun fk =>
        (decide (fk.parent ∈ c.cyclic) || decide (fk.parent = ref)) && allNotNull t fk.childCols

def noteCyclicStrategy (comps : List Component) (tables : List Table) : List Finding :=
  (comps.filter Component.hasCycle).flatMap fun c =>
    let strategy := if cyclicHasNotNullFK c tables then
        "scoped FOREIGN_KEY_CHECKS=0 + pre-commit orphan-verification (NOT NULL cyclic FK, mysql-plan §0.2)"
      else "NULL-then-fill (nullable cyclic FK)"
    c.cyclic.map fun ref =>
      ⟨.info,ref,"cyclic-fk","member of an FK cycle/self-reference; initial load strategy: "++strategy⟩

def componentFindings (comps : List Component) (replicable : List Table) : List Finding :=
  (match detectGiant comps replicable.length with
    | none => []
    | some n => [⟨.warn,⟨"",""⟩,"giant-component","one FK component covers "++
        toString (percent n replicable.length)++"% of the selection, collapsing parallelism (CLAUDE.md §8.1)"⟩])++
  (danglingEdges replicable).map (fun fk => ⟨.warn,fk.child,"dangling-fk","FK "++fk.name++" references "++
    fk.parent.string++" which is not in the selection; the target must already satisfy it"⟩)++
  noteCyclicStrategy comps replicable

def buildPreflight (components : List Table → List Component) (syncName : String) (srcVersion tgtVersion : Int)
    (source target : List Table) : PreflightReport :=
  let replicable := source.filter Table.hasUsableKey
  let comps := components replicable
  { sync := syncName
    sourceVersion := srcVersion
    targetVersion := tgtVersion
    replicable := replicable.map Table.ref
    skipped := (source.filter fun t => !t.hasUsableKey).map fun t => ⟨t.ref,"no primary key or unique key"⟩
    components := comps
    findings := source.flatMap (tableFindings target)++componentFindings comps replicable }

theorem componentsDoNotBlock (comps replicable) : ∀ f ∈ componentFindings comps replicable, f.severity ≠ .block := by
  intro f mem
  simp only [componentFindings,noteCyclicStrategy,mem_append,mem_map,mem_flatMap] at mem
  rcases mem with (giant|⟨fk,_,rfl⟩)|⟨c,_,ref,_,rfl⟩
  · cases found : detectGiant comps replicable.length <;> rw [found] at giant
    · exact absurd giant not_mem_nil
    · cases mem_singleton.mp giant
      simp
  · simp
  · simp

theorem blockedIff (components sync sv tv source target) :
    (buildPreflight components sync sv tv source target).blocked = true ↔
      ∃ st ∈ source, ∃ f ∈ tableFindings target st, f.severity = .block := by
  simp only [PreflightReport.blocked,buildPreflight,any_eq_true,mem_append,mem_flatMap,beq_iff_eq]
  constructor
  · rintro ⟨f,⟨st,mem,found⟩|note,block⟩
    · exact ⟨st,mem,f,found,block⟩
    · exact absurd block (componentsDoNotBlock _ _ f note)
  · rintro ⟨st,mem,f,found,block⟩
    exact ⟨f,.inl ⟨st,mem,found⟩,block⟩

theorem findNamed {α β : Type*} [DecidableEq β] {name : α → β} {l : List α} (distinct : (l.map name).Nodup) {a}
    (mem : a ∈ l) : (l.reverse.find? fun x => decide (name x = name a)) = some a := by
  have some_ : (l.reverse.find? fun x => decide (name x = name a)).isSome = true :=
    find?_isSome.mpr ⟨a,mem_reverse.mpr mem,decide_eq_true rfl⟩
  obtain ⟨x,found⟩ := Option.isSome_iff_exists.mp some_
  have inside := mem_reverse.mp (mem_of_find?_eq_some found)
  have same : name x = name a := by simpa using find?_some found
  rw [found,inj_on_of_nodup_map distinct inside mem same]

theorem sameSchemaAccepted (components sync sv tv) {tables : List Table} (refs : (tables.map Table.ref).Nodup)
    (names : ∀ t ∈ tables, (t.columns.map Column.name).Nodup)
    (engines : ∀ t ∈ tables, lower t.storageEngine = lower "InnoDB")
    (sole : ∀ t ∈ tables, ∀ u ∈ t.uniqueKeys, ∃ rk ∈ replicationKey t, u.columns = rk.columns) :
    (buildPreflight components sync sv tv tables tables).blocked = false := by
  rw [Bool.eq_false_iff,Ne,blockedIff]
  rintro ⟨t,mem,f,found,block⟩
  unfold tableFindings at found
  split at found
  · cases mem_singleton.mp found
    cases block
  · have innodb : ∀ role, blockNonInnoDB t role = [] := fun role => if_pos (.inr (engines t mem))
    have unique : blockSecondaryUnique t = [] := by
      unfold blockSecondaryUnique
      split
      · rfl
      · rename_i u second
        obtain ⟨rk,held,same⟩ := sole t mem u (mem_of_find?_eq_some second)
        have other := find?_some second
        rw [Option.mem_def.mp held] at other
        simp [same] at other
    have columns : compareColumns t t = [] := by
      refine flatMap_eq_nil_iff.mpr fun c inside => ?_
      unfold compareColumn
      split
      · rfl
      · rw [findNamed (names t mem) inside]
        simp only [classifySame rfl rfl]
        rfl
    rw [innodb,findNamed refs mem] at found
    simp [innodb,unique,columns] at found

end Replicare.MysqlPreflight
