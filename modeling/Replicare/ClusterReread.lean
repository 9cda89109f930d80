import Replicare.MeshTrigger
import Replicare.ClusterTx

/-! The versioned re-read of a Postgres member, driven by the register and joined to the
tables, over histories of local row changes, marked applies and tombstone collection. -/
namespace Replicare.ClusterReread
open Engine Hlc Relations MeshApply MeshTrigger ClusterTx Runs List

variable {N : Type*} [LinearOrder N]

abbrev Member (N : Type*) := MeshTrigger.Tables Cell Row N

inductive Action (N : Type*) where
  | change (pt : Int) (c : Change Cell Row)
  | apply (tx : Tx N) (clock : Clock)
  | gc (collect : Cell → Bool)

def Member.db (m : Member N) : Db N := ⟨m.rows,m.register⟩

/- One row of the COPY: the transport columns and the version columns. -/
structure Emitted (N : Type*) where
  cell : Cell
  version : Version N
  deleted : Bool
  row : Row

section
variable (keyCols : TableRef → List String)

/- The key columns are the register's, the others the joined row's or NULL. -/
def versionedRow (m : Member N) (c : Cell) : Option (Emitted N) :=
  (m.register c).map fun e => ⟨c,e.version,e.deleted,fun col =>
    match ((keyCols c.1).zip c.2).lookup col with
    | some v => v
    | none => (m.rows c).bind fun x => x col⟩

def rereadVersioned (m : Member N) (cells : List Cell) : List (Emitted N) := cells.filterMap (versionedRow keyCols m)

def Right (m : Member N) : Prop :=
  ∀ cells, ∀ r ∈ rereadVersioned keyCols m cells,
    if r.deleted then m.rows r.cell = none
    else ∃ x, m.rows r.cell = some x ∧ ∀ col ∉ keyCols r.cell.1, r.row col = x col

end

section
variable (onDelete : OnDelete) (cyclicCols : TableRef → List String)

/- A local statement fires the trigger for each row it changes, cascaded rows included.
The clock an apply leaves behind is that of its `hlc_observe` calls. -/
def step (m : Member N) : Action N → Option (Member N)
  | .change pt c => MeshTrigger.step .postgres m (pt,c)
  | .apply tx clock =>
      let done := ClusterTx.apply onDelete cyclicCols tx (Member.db m)
      some { m with rows := done.rows, register := done.register, clock := clock }
  | .gc collect => some { m with register := fun c => (m.register c).filter fun e => !(e.deleted && collect c) }

def Covered (m : Member N) : Action N → Prop
  | .apply tx _ => ∀ c x, (stageUpsert tx (Member.db m)).rows c = some x → carried onDelete tx (Member.db m) c x = none →
      deleted tx (Member.db m) c = true ∨ (m.register c = none ∧ renewed tx (Member.db m) c = false)
  | _ => True

end

def InStep (m : Member N) : Prop := ∀ c e, m.register c = some e → e.deleted = (m.rows c).isNone

variable {onDelete : OnDelete} {cyclicCols : TableRef → List String} {keyCols : TableRef → List String}
variable {m : Member N}

theorem lookupOutside {cols : List String} {k : KeyValues} {col} (out : col ∉ cols) : (cols.zip k).lookup col = none := by
  induction cols generalizing k with
  | nil => rfl
  | cons c cols ih =>
    cases k with
    | nil => rfl
    | cons v k =>
      have other : (col == c) = false := beq_false_of_ne fun same => out (same ▸ mem_cons_self)
      rw [zip_cons_cons,lookup_cons,other]
      exact ih fun mem => out (mem_cons_of_mem _ mem)

omit [LinearOrder N] in
theorem rightIff : Right keyCols m ↔ InStep m := by
  constructor
  · intro right c e entry
    obtain ⟨r,emitted,rfl,same⟩ : ∃ r, versionedRow keyCols m c = some r ∧ r.cell = c ∧ r.deleted = e.deleted := by
      unfold versionedRow
      rw [entry]
      exact ⟨_,rfl,rfl,rfl⟩
    have here := right [r.cell] r (mem_filterMap.mpr ⟨r.cell,mem_singleton_self _,emitted⟩)
    rw [← same]
    cases gone : r.deleted with
    | true =>
      rw [gone,if_pos rfl] at here
      rw [here]
      rfl
    | false =>
      rw [gone,if_neg Bool.false_ne_true] at here
      obtain ⟨x,row,_⟩ := here
      rw [row]
      rfl
  · intro held cells r mem
    obtain ⟨c,_,found⟩ := mem_filterMap.mp mem
    obtain ⟨e,entry,rfl⟩ := Option.map_eq_some_iff.mp found
    have tells := held c e entry
    cases gone : e.deleted with
    | true =>
      rw [gone] at tells
      rw [if_pos rfl]
      exact Option.isNone_iff_eq_none.mp tells.symm
    | false =>
      rw [gone] at tells
      rw [if_neg Bool.false_ne_true]
      obtain ⟨x,row⟩ : ∃ x, m.rows c = some x := Option.isSome_iff_exists.mp (by
        rw [← Option.not_isNone,← tells]
        rfl)
      refine ⟨x,row,fun col out => ?_⟩
      simp only [lookupOutside out,row,Option.bind_some]

omit [LinearOrder N] in
theorem localKeeps {t pt c} (held : InStep m) (ok : MeshTrigger.step .postgres m (pt,c) = some t) : InStep t := by
  have done := stepped ok
  intro k e entry
  by_cases mem : k ∈ c.event.keys
  · rw [done.stamped k mem] at entry
    rw [← Option.some.inj entry]
  · rw [done.register k mem] at entry
    rw [done.rows k mem]
    exact held k e entry

theorem gcKeeps {t collect} (held : InStep m) (ok : step onDelete cyclicCols m (.gc collect) = some t) : InStep t := by
  cases ok
  intro c e entry
  exact held c e (Option.mem_filter_iff.mp entry).1

section Apply
variable {tx : Tx N} {db : Db N} {c : Cell}

theorem applyRegister : (ClusterTx.apply onDelete cyclicCols tx db).register c =
    (deleteAll onDelete tx tx.deletes (stageUpsert tx db)).register c := by
  unfold ClusterTx.apply
  dsimp only
  split <;> rfl

theorem applyDeleted (own : deleted tx db c = true) : (ClusterTx.apply onDelete cyclicCols tx db).rows c = none ∧
    ∃ e, (ClusterTx.apply onDelete cyclicCols tx db).register c = some e ∧ e.deleted = true := by
  obtain ⟨listed,due⟩ := (Bool.and_eq_true _ _).mp own
  refine ⟨by rw [applyRows,own]; rfl,?_⟩
  rw [applyRegister]
  exact deleteAllDoomed tx.deletes (of_decide_eq_true listed) (by rw [stageDoomed]; exact due)

theorem applyEntry (kept : deleted tx db c = false) : (ClusterTx.apply onDelete cyclicCols tx db).register c =
    (stageUpsert tx db).register c := by
  rw [applyRegister]
  refine deleteAllRegister tx.deletes ?_
  rcases (Bool.and_eq_false_iff).mp kept with out | old
  · exact .inl (of_decide_eq_false out)
  · exact .inr (by rw [stageDoomed]; exact old)

end Apply

theorem applyKeepsIff {t} {tx clock} (held : InStep m) (ok : step onDelete cyclicCols m (.apply tx clock) = some t) :
    InStep t ↔ Covered onDelete m (.apply tx clock) := by
  cases ok
  constructor
  · intro after c x there taken
    rw [or_iff_not_imp_left,Bool.not_eq_true]
    intro kept
    have entry : (ClusterTx.apply onDelete cyclicCols tx (Member.db m)).register c =
        (stageUpsert tx (Member.db m)).register c := applyEntry kept
    have gone : (ClusterTx.apply onDelete cyclicCols tx (Member.db m)).rows c = none := by
      rw [applyRows,kept,there,Option.bind_some,taken]
      rfl
    have deadIfAny : ∀ e, (stageUpsert tx (Member.db m)).register c = some e → e.deleted = true := by
      intro e shown
      have tells := after c e (entry.trans shown)
      rw [tells]
      exact Option.isNone_iff_eq_none.mpr gone
    cases alive : renewed tx (Member.db m) c with
    | true =>
      obtain ⟨r,mem,rfl,greater,alive⟩ := renewedIff.mp alive
      exact absurd (deadIfAny _ (stageRenewed mem greater alive).2) Bool.false_ne_true
    | false =>
      refine ⟨?_,rfl⟩
      obtain ⟨rows,register⟩ := stageKept alive
      -- an entry would be a tombstone, but the row was there
      by_contra some
      obtain ⟨e,shown⟩ := Option.ne_none_iff_exists'.mp some
      have dead := deadIfAny e (register.trans shown)
      rw [held c e shown,Option.isNone_iff_eq_none] at dead
      cases dead.symm.trans (rows.symm.trans there)
  · intro covered c e shown
    cases own : deleted tx (Member.db m) c with
    | true =>
      obtain ⟨none,d,entry,dead⟩ := applyDeleted own
      cases shown.symm.trans entry
      rw [dead]
      exact (Option.isNone_iff_eq_none.mpr none).symm
    | false =>
      have entry := shown.symm.trans (applyEntry own)
      have same : ((ClusterTx.apply onDelete cyclicCols tx (Member.db m)).rows c).isNone =
          ((stageUpsert tx (Member.db m)).rows c).isNone := by
        rw [applyRows,own]
        cases there : (stageUpsert tx (Member.db m)).rows c with
        | none => rfl
        | some x =>
          cases taken : carried onDelete tx (Member.db m) c x with
          | some y => simp [taken]
          | none =>
            rcases covered c x there taken with dead | ⟨none,old⟩
            · rw [own] at dead
              cases dead
            · rw [(stageKept old).2] at entry
              exact absurd (entry.trans none) (by simp)
      rw [same]
      cases alive : renewed tx (Member.db m) c with
      | true =>
        obtain ⟨r,mem,rfl,greater,alive⟩ := renewedIff.mp alive
        obtain ⟨rows,register⟩ := stageRenewed mem greater alive
        cases entry.trans register
        rw [rows]
        exact alive.symm
      | false =>
        obtain ⟨rows,register⟩ := stageKept alive
        rw [rows]
        exact held c e (register.symm.trans entry.symm)

theorem stepKeeps {t a} (held : InStep m) (ok : step onDelete cyclicCols m a = some t) :
    InStep t ↔ Covered onDelete m a := by
  cases a with
  | change pt c => exact ⟨fun _ => trivial,fun _ => localKeeps held ok⟩
  | apply tx clock => exact applyKeepsIff held ok
  | gc collect => exact ⟨fun _ => trivial,fun _ => gcKeeps held ok⟩

theorem inStepIff {acts} (held : InStep m) :
    (∀ before t, before <+: acts → run (step onDelete cyclicCols) m before = some t → InStep t) ↔
      Along (step onDelete cyclicCols) (Covered onDelete) m acts := by
  induction acts generalizing m with
  | nil =>
    refine ⟨fun _ => trivial,fun _ before t part ran => ?_⟩
    rw [prefix_nil.mp part] at ran
    cases ran
    exact held
  | cons a acts ih =>
    constructor
    · intro always
      have next : ∀ t, step onDelete cyclicCols m a = some t → InStep t := fun t ok =>
        always [a] t (cons_prefix_cons.mpr ⟨rfl, nil_prefix⟩) (by simp only [run,ok,Option.bind_some])
      refine ⟨?_,fun t ok => (ih (next t ok)).mp fun before u part ran => ?_⟩
      · cases taken : step onDelete cyclicCols m a with
        | none => cases a <;> trivial
        | some t => exact (stepKeeps held taken).mp (next t taken)
      · exact always (a::before) u (cons_prefix_cons.mpr ⟨rfl,part⟩) (by simp only [run,ok,Option.bind_some,ran])
    · rintro ⟨here,rest⟩ before t part ran
      cases before with
      | nil =>
        cases ran
        exact held
      | cons b before =>
        obtain ⟨rfl,inside⟩ := cons_prefix_cons.mp part
        obtain ⟨n,first,later⟩ := runCons ran
        have next := (stepKeeps held first).mpr here
        exact (ih next).mpr (rest n first) before t inside later

def installed (rows : Cell → Option Row) (clock : Clock) (node : N) : Member N := ⟨rows,fun _ => none,[],clock,node⟩

theorem rereadRightIff (onDelete : OnDelete) (cyclicCols keyCols : TableRef → List String)
    (rows : Cell → Option Row) (clock : Clock) (node : N) (acts : List (Action N)) :
    (∀ before m, before <+: acts → run (step onDelete cyclicCols) (installed rows clock node) before = some m →
      Right keyCols m) ↔
    Along (step onDelete cyclicCols) (Covered onDelete) (installed rows clock node) acts := by
  have start : InStep (installed rows clock node) := by
    intro c e entry
    cases entry
  simp only [rightIff]
  exact inStepIff start

section Example

def parent : Cell := (⟨"public","orders"⟩,[some [1]])
def child : Cell := (⟨"public","items"⟩,[some [2]])

def itemsCascade : OnDelete := fun _ gone c x => if parent ∈ gone ∧ c = child then none else some x

def plain : Row := fun _ => some [1]

def orderGone : Tx Nat := ⟨[⟨parent,⟨20,0,1⟩,none⟩],nodup_singleton _,[parent.1],false⟩

theorem cascadedRowShipped : ∃ m : Member Nat,
    run (step itemsCascade fun _ => []) (installed (fun c => if c = parent then some plain else none) ⟨0,0⟩ 0)
      [.change 10 (.insert child plain),.apply orderGone ⟨20,1⟩] = some m ∧ ¬Right (fun _ => []) m := by
  refine ⟨_,rfl,fun right => ?_⟩
  have tells := rightIff.mp right child ⟨⟨10,0,0⟩,false⟩ (by decide +kernel)
  exact absurd tells (by decide +kernel)

end Example

end Replicare.ClusterReread
