import Replicare.Relations
import Replicare.MeshApply

/-! A cluster-mode apply transaction of the Postgres sink over the tables of a component: the
staged upserts, the tombstone deletes with what their foreign keys take along, and the fill of
the cyclic columns. -/
namespace Replicare.ClusterTx
open Engine LastWriter Hlc Relations MeshApply List

variable {N : Type*} [LinearOrder N]

abbrev Cell := TableRef × KeyValues
abbrev Db (N : Type*) := Replica Cell Row N
abbrev Staged (N : Type*) := Record Cell Row N

structure Tx (N : Type*) where
  staged : List (Staged N)
  distinct : (staged.map Record.key).Nodup
  deletes : List TableRef
  fill : Bool

/- What the delete of the given rows makes of another row: none for ON DELETE CASCADE, other
columns for SET NULL and SET DEFAULT. -/
abbrev OnDelete := (Cell → Option Row) → List Cell → Cell → Row → Option Row

def Tx.of (tx : Tx N) (t : TableRef) : List (Staged N) := tx.staged.filter fun r => r.key.1 = t

/- The staged record of `c` is a tombstone that beats the register. -/
def doomed (tx : Tx N) (db : Db N) (c : Cell) : Bool :=
  tx.staged.any fun r => decide (r.key = c) && meshVersionGreater db.register r && r.deleted

/- The staged record of `c` is alive and beats the register. -/
def renewed (tx : Tx N) (db : Db N) (c : Cell) : Bool :=
  tx.staged.any fun r => decide (r.key = c) && meshVersionGreater db.register r && !r.deleted

section Operations
variable (onDelete : OnDelete) (cyclicCols : TableRef → List String)

def stageUpsert (tx : Tx N) (db : Db N) : Db N := Postgres.stageUpsertCluster db tx.staged

/- What becomes of a row when the delete of `t` has removed those it names. -/
def carry (tx : Tx N) (db : Db N) (t : TableRef) : Cell → Row → Option Row :=
  onDelete db.rows (((tx.of t).map Record.key).filter fun d => doomed tx db d && (db.rows d).isSome)

def deleteAbsent (tx : Tx N) (db : Db N) (t : TableRef) : Db N :=
  let done := Postgres.deleteTombstonesCluster db (tx.of t)
  { done with rows := fun c => (done.rows c).bind (carry onDelete tx db t c) }

/- A tombstone is staged with NULL in every value column. -/
def filled (cols : List String) (r : Staged N) (x : Row) : Row :=
  fun c => if c ∈ cols then r.row.bind fun y => y c else x c

/- UPDATE ... FROM staging: every staged key that has a row, whatever its version. -/
def fillCyclic (tx : Tx N) (db : Db N) : Db N :=
  { db with rows := fun c => (db.rows c).map fun x =>
      (tx.staged.find? fun r => r.key = c).elim x fun r => filled (cyclicCols c.1) r x }

def deleteAll (tx : Tx N) (ts : List TableRef) (db : Db N) : Db N := ts.foldl (deleteAbsent onDelete tx) db

def apply (tx : Tx N) (db : Db N) : Db N :=
  let done := deleteAll onDelete tx tx.deletes (stageUpsert tx db)
  if tx.fill then fillCyclic cyclicCols tx done else done

def carryAll (tx : Tx N) : List TableRef → Db N → Cell → Row → Option Row
  | [], _, _, x => some x
  | t::ts, db, c, x => (carry onDelete tx db t c x).bind (carryAll tx ts (deleteAbsent onDelete tx db t) c)

end Operations

variable {onDelete : OnDelete} {cyclicCols : TableRef → List String} {tx : Tx N} {db : Db N} {c : Cell}

theorem doomedIff : doomed tx db c = true ↔
    ∃ r ∈ tx.staged, r.key = c ∧ meshVersionGreater db.register r = true ∧ r.deleted = true := by
  simp [doomed,and_assoc]

theorem renewedIff : renewed tx db c = true ↔
    ∃ r ∈ tx.staged, r.key = c ∧ meshVersionGreater db.register r = true ∧ r.deleted = false := by
  simp [renewed,and_assoc]

omit [LinearOrder N] in
theorem Tx.same {r q} (hr : r ∈ tx.staged) (hq : q ∈ tx.staged) (same : r.key = q.key) : r = q :=
  inj_on_of_nodup_map tx.distinct hr hq same

theorem stageRenewed {r} (mem : r ∈ tx.staged) (greater : meshVersionGreater db.register r = true)
    (alive : r.deleted = false) : (stageUpsert tx db).rows r.key = r.row ∧
      (stageUpsert tx db).register r.key = some ⟨r.version,false⟩ := by
  have staged := stageUpsertAt (n := db) tx.distinct mem
  simp only [settle,greater,alive] at staged
  simpa [stageUpsert] using staged

theorem stageKept (old : renewed tx db c = false) :
    (stageUpsert tx db).rows c = db.rows c ∧ (stageUpsert tx db).register c = db.register c := by
  by_cases named : ∃ r ∈ tx.staged, r.key = c
  · obtain ⟨r,mem,rfl⟩ := named
    have staged := stageUpsertAt (n := db) tx.distinct mem
    have loses : (meshVersionGreater db.register r && !r.deleted) = false := by
      by_contra wins
      have wins := Bool.eq_true_of_not_eq_false wins
      simp only [Bool.and_eq_true,Bool.not_eq_true'] at wins
      rw [renewedIff.mpr ⟨r,mem,rfl,wins.1,wins.2⟩] at old
      cases old
    simp only [settle] at staged
    rw [show (Phase.upsert == Phase.delete) = false from rfl,Bool.false_or,loses] at staged
    simpa [stageUpsert] using staged
  · have apart : ∀ r ∈ tx.staged, r.key ≠ c := fun r mem same => named ⟨r,mem,same⟩
    exact applyBatchFrame (n := db) .postgres .upsert apart

theorem doomedSame {d} (same : d.register c = db.register c) : doomed tx d c = doomed tx db c := by
  have beats : ∀ r : Staged N, r.key = c → meshVersionGreater d.register r = meshVersionGreater db.register r := by
    intro r key
    unfold meshVersionGreater
    rw [key,same]
  rw [Bool.eq_iff_iff,doomedIff,doomedIff]
  constructor
  · rintro ⟨r,mem,key,greater,gone⟩
    exact ⟨r,mem,key,beats r key ▸ greater,gone⟩
  · rintro ⟨r,mem,key,greater,gone⟩
    exact ⟨r,mem,key,(beats r key).symm ▸ greater,gone⟩

theorem renewedNotDoomed {d} (alive : renewed tx db c = true) : doomed tx d c = false := by
  obtain ⟨r,mem,key,_,alive⟩ := renewedIff.mp alive
  rw [Bool.eq_false_iff]
  intro doomed
  obtain ⟨q,inside,other,_,gone⟩ := doomedIff.mp doomed
  cases tx.same inside mem (other.trans key.symm)
  rw [alive] at gone
  cases gone

theorem stageDoomed : doomed tx (stageUpsert tx db) c = doomed tx db c := by
  cases alive : renewed tx db c with
  | false => exact doomedSame (stageKept alive).2
  | true => rw [renewedNotDoomed alive,renewedNotDoomed alive]

omit [LinearOrder N] in
theorem ofMem {t r} : r ∈ tx.of t ↔ r ∈ tx.staged ∧ r.key.1 = t := by
  simp [Tx.of]

omit [LinearOrder N] in
theorem ofDistinct (t) : ((tx.of t).map Record.key).Nodup :=
  tx.distinct.sublist (filter_sublist.map Record.key)

theorem tombstoneAt {t r} (mem : r ∈ tx.staged) (greater : meshVersionGreater db.register r = true)
    (gone : r.deleted = true) (table : r.key.1 = t) :
    (Postgres.deleteTombstonesCluster db (tx.of t)).rows r.key = none ∧
    (Postgres.deleteTombstonesCluster db (tx.of t)).register r.key = some ⟨r.version,true⟩ := by
  have at_ := tombstonesAt (n := db) (ofDistinct t) (ofMem.mpr ⟨mem,table⟩) (meshVersionGreater db.register)
  simp only [greater,gone,Bool.and_self,if_true] at at_
  exact Prod.mk.inj at_

theorem tombstoneKept {t} (apart : c.1 ≠ t ∨ doomed tx db c = false) :
    (Postgres.deleteTombstonesCluster db (tx.of t)).rows c = db.rows c ∧
    (Postgres.deleteTombstonesCluster db (tx.of t)).register c = db.register c := by
  by_cases named : ∃ r ∈ tx.of t, r.key = c
  · obtain ⟨r,mem,rfl⟩ := named
    obtain ⟨inside,table⟩ := ofMem.mp mem
    have old : doomed tx db r.key = false := apart.resolve_left (not_not.mpr table)
    have loses : (meshVersionGreater db.register r && r.deleted) = false := by
      by_contra wins
      have wins := Bool.eq_true_of_not_eq_false wins
      simp only [Bool.and_eq_true] at wins
      rw [doomedIff.mpr ⟨r,inside,rfl,wins.1,wins.2⟩] at old
      cases old
    have at_ := tombstonesAt (n := db) (ofDistinct t) mem (meshVersionGreater db.register)
    rw [loses] at at_
    exact Prod.mk.inj at_
  · have none : ∀ (p q : Staged N → Bool), ∀ r ∈ ((tx.of t).filter q).filter p, r.key ≠ c :=
      fun p q r mem same => named ⟨r,(mem_filter.mp (mem_filter.mp mem).1).1,same⟩
    exact ⟨writeAllFrame (none _ _),writeAllFrame (none _ _)⟩

theorem deletedDoomed {t} : doomed tx (deleteAbsent onDelete tx db t) c = (doomed tx db c && !decide (c.1 = t)) := by
  by_cases due : c.1 = t ∧ doomed tx db c = true
  · obtain ⟨table,due⟩ := due
    obtain ⟨r,mem,rfl,greater,gone⟩ := doomedIff.mp due
    have entry : (deleteAbsent onDelete tx db t).register r.key = some ⟨r.version,true⟩ :=
      (tombstoneAt mem greater gone table).2
    rw [show (doomed tx db r.key && !decide (r.key.1 = t)) = false by simp [table],Bool.eq_false_iff]
    intro again
    obtain ⟨q,inside,key,beats,_⟩ := doomedIff.mp again
    cases tx.same inside mem key
    simp [meshVersionGreater,entry] at beats
  · have apart : c.1 ≠ t ∨ doomed tx db c = false := by
      rcases eq_or_ne c.1 t with table | other
      · exact .inr (Bool.eq_false_iff.mpr fun doomed => due ⟨table,doomed⟩)
      · exact .inl other
    have same : doomed tx (deleteAbsent onDelete tx db t) c = doomed tx db c := doomedSame (tombstoneKept apart).2
    rw [same]
    rcases apart with other | not
    · simp [other]
    · simp [not]

theorem deleteAllRows (ts) : (deleteAll onDelete tx ts db).rows c =
    if decide (c.1 ∈ ts) && doomed tx db c then none else (db.rows c).bind (carryAll onDelete tx ts db c) := by
  induction ts generalizing db with
  | nil => simp [deleteAll,carryAll]
  | cons t ts ih =>
    rw [show deleteAll onDelete tx (t::ts) db = deleteAll onDelete tx ts (deleteAbsent onDelete tx db t) from rfl,
      ih,deletedDoomed]
    have first : (deleteAbsent onDelete tx db t).rows c =
        ((Postgres.deleteTombstonesCluster db (tx.of t)).rows c).bind (carry onDelete tx db t c) := rfl
    have both : (db.rows c).bind (carryAll onDelete tx (t::ts) db c) =
        ((db.rows c).bind (carry onDelete tx db t c)).bind (carryAll onDelete tx ts (deleteAbsent onDelete tx db t) c) :=
      Option.bind_assoc .. |>.symm
    rw [first,both]
    by_cases table : c.1 = t
    · cases due : doomed tx db c with
      | true =>
        obtain ⟨r,mem,key,greater,gone⟩ := doomedIff.mp due
        have none : (Postgres.deleteTombstonesCluster db (tx.of t)).rows c = none :=
          key ▸ (tombstoneAt mem greater gone (key.symm ▸ table)).1
        simp [table,none]
      | false => simp [(tombstoneKept (t := t) (.inr due)).1]
    · have kept : (Postgres.deleteTombstonesCluster db (tx.of t)).rows c = db.rows c := (tombstoneKept (.inl table)).1
      simp [table,kept]

theorem deleteAllRegister (ts) (apart : c.1 ∉ ts ∨ doomed tx db c = false) :
    (deleteAll onDelete tx ts db).register c = db.register c := by
  induction ts generalizing db with
  | nil => rfl
  | cons t ts ih =>
    have here : c.1 ≠ t ∨ doomed tx db c = false := apart.imp (fun out same => out (same ▸ mem_cons_self)) id
    have kept : (deleteAbsent onDelete tx db t).register c = db.register c := (tombstoneKept here).2
    rw [← kept]
    refine ih (apart.imp (fun out mem => out (mem_cons_of_mem _ mem)) fun not => ?_)
    rw [doomedSame kept]
    exact not

theorem deleteAllDoomed (ts) (listed : c.1 ∈ ts) (due : doomed tx db c = true) :
    ∃ e, (deleteAll onDelete tx ts db).register c = some e ∧ e.deleted = true := by
  induction ts generalizing db with
  | nil => cases listed
  | cons t ts ih =>
    by_cases table : c.1 = t
    · obtain ⟨r,mem,rfl,greater,gone⟩ := doomedIff.mp due
      have entry : (deleteAbsent onDelete tx db t).register r.key = some ⟨r.version,true⟩ :=
        (tombstoneAt mem greater gone table).2
      have done : doomed tx (deleteAbsent onDelete tx db t) r.key = false := by
        rw [deletedDoomed]
        simp [table]
      exact ⟨_,(deleteAllRegister ts (.inr done)).trans entry,rfl⟩
    · refine ih ((mem_cons.mp listed).resolve_left table) ?_
      rw [deletedDoomed,due]
      simp [table]

omit [LinearOrder N] in
theorem findStaged {r} (mem : r ∈ tx.staged) : (tx.staged.find? fun q => q.key = r.key) = some r := by
  cases found : tx.staged.find? fun q => q.key = r.key with
  | none => exact absurd (find?_eq_none.mp found r mem) (by simp)
  | some q =>
    have key : q.key = r.key := by simpa using find?_some found
    rw [tx.same (mem_of_find?_eq_some found) mem key]

/- A row changes only if its staged version beats the register, and an alive one that does is
the row afterwards. -/
structure Guarded (tx : Tx N) (db after : Db N) : Prop where
  only : ∀ c, after.rows c ≠ db.rows c →
    ∃ r ∈ tx.staged, r.key = c ∧ meshVersionGreater db.register r = true ∧ after.rows c = r.row
  takes : ∀ r ∈ tx.staged, meshVersionGreater db.register r = true → r.deleted = false → after.rows r.key = r.row

def deleted (tx : Tx N) (db : Db N) (c : Cell) : Bool := decide (c.1 ∈ tx.deletes) && doomed tx db c

/- What the ON DELETE actions make of a row as the upserts leave it. -/
def carried (onDelete : OnDelete) (tx : Tx N) (db : Db N) : Cell → Row → Option Row :=
  carryAll onDelete tx tx.deletes (stageUpsert tx db)

structure Harmless (onDelete : OnDelete) (cyclicCols : TableRef → List String) (tx : Tx N) (db : Db N) : Prop where
  taken : ∀ c x, (stageUpsert tx db).rows c = some x → carried onDelete tx db c x = none → doomed tx db c = true
  changed : ∀ c x y, (stageUpsert tx db).rows c = some x → deleted tx db c = false → carried onDelete tx db c x = some y →
    ∀ col, y col = x col ∨ tx.fill = true ∧ col ∈ cyclicCols c.1 ∧ ∃ r ∈ tx.staged, r.key = c
  filled : tx.fill = true → ∀ r ∈ tx.staged, renewed tx db r.key = false → deleted tx db r.key = false →
    ∀ x, db.rows r.key = some x → carried onDelete tx db r.key x ≠ none →
      ∀ col ∈ cyclicCols r.key.1, x col = r.row.bind fun y => y col

def ended (cyclicCols : TableRef → List String) (tx : Tx N) (c : Cell) (x : Row) : Row :=
  if tx.fill then (tx.staged.find? fun r => r.key = c).elim x fun r => filled (cyclicCols c.1) r x else x

theorem applyRows (onDelete : OnDelete) (cyclicCols) (tx : Tx N) (db : Db N) (c : Cell) :
    (apply onDelete cyclicCols tx db).rows c = if deleted tx db c then none else
      (((stageUpsert tx db).rows c).bind (carried onDelete tx db c)).map (ended cyclicCols tx c) := by
  have before : (deleteAll onDelete tx tx.deletes (stageUpsert tx db)).rows c = if deleted tx db c then none else
      ((stageUpsert tx db).rows c).bind (carried onDelete tx db c) := by
    rw [deleteAllRows,stageDoomed]
    rfl
  unfold apply ended
  cases tx.fill with
  | true =>
    simp only [if_true,fillCyclic,before]
    split <;> rfl
  | false => simp [before]

omit [LinearOrder N] in
theorem endedIff {x y} : ended cyclicCols tx c y = x ↔
    (∀ col, y col = x col ∨ tx.fill = true ∧ col ∈ cyclicCols c.1 ∧ ∃ r ∈ tx.staged, r.key = c) ∧
      (tx.fill = true → ∀ r ∈ tx.staged, r.key = c → ∀ col ∈ cyclicCols c.1, x col = r.row.bind fun y => y col) := by
  by_cases own : tx.fill = true ∧ ∃ r ∈ tx.staged, r.key = c
  · obtain ⟨fill,r,mem,rfl⟩ := own
    have value : ended cyclicCols tx r.key y = filled (cyclicCols r.key.1) r y := by
      rw [ended,fill,if_pos rfl,findStaged mem]
      rfl
    rw [value]
    constructor
    · rintro rfl
      refine ⟨fun col => ?_,fun _ q inside same col cyclic => ?_⟩
      · by_cases cyclic : col ∈ cyclicCols r.key.1
        · exact .inr ⟨fill,cyclic,r,mem,rfl⟩
        · exact .inl (if_neg cyclic).symm
      · cases tx.same inside mem same
        exact if_pos cyclic
    · rintro ⟨kept,set⟩
      funext col
      by_cases cyclic : col ∈ cyclicCols r.key.1
      · exact (if_pos cyclic).trans (set fill r mem rfl col cyclic).symm
      · exact (if_neg cyclic).trans ((kept col).resolve_right fun other => cyclic other.2.1)
  · have plain : ended cyclicCols tx c y = y := by
      unfold ended
      split
      · rename_i fill
        cases found : tx.staged.find? fun r => r.key = c with
        | none => rfl
        | some r => exact absurd ⟨fill,r,mem_of_find?_eq_some found,by simpa using find?_some found⟩ own
      · rfl
    rw [plain]
    refine ⟨?_,fun both => funext fun col => (both.1 col).resolve_right fun other => own ⟨other.1,other.2.2⟩⟩
    rintro rfl
    exact ⟨fun col => .inl rfl,fun fill r mem same => absurd ⟨fill,r,mem,same⟩ own⟩

theorem guardedStaged {after} : Guarded tx db after ↔
    ∀ c, after.rows c = (stageUpsert tx db).rows c ∨ after.rows c = none ∧ doomed tx db c = true := by
  constructor
  · intro guarded c
    cases alive : renewed tx db c with
    | true =>
      obtain ⟨r,mem,rfl,greater,own⟩ := renewedIff.mp alive
      exact .inl ((guarded.takes r mem greater own).trans (stageRenewed mem greater own).1.symm)
    | false =>
      rw [(stageKept alive).1]
      by_cases same : after.rows c = db.rows c
      · exact .inl same
      · obtain ⟨r,mem,key,greater,row⟩ := guarded.only c same
        have gone : r.deleted = true := by
          by_contra own
          rw [renewedIff.mpr ⟨r,mem,key,greater,Bool.eq_false_iff.mpr own⟩] at alive
          cases alive
        exact .inr ⟨row.trans (Option.isNone_iff_eq_none.mp gone),doomedIff.mpr ⟨r,mem,key,greater,gone⟩⟩
  · intro shown
    have takes : ∀ r ∈ tx.staged, meshVersionGreater db.register r = true → r.deleted = false → after.rows r.key = r.row := by
      intro r mem greater own
      rw [← (stageRenewed mem greater own).1]
      refine (shown r.key).resolve_right fun gone => ?_
      rw [renewedNotDoomed (renewedIff.mpr ⟨r,mem,rfl,greater,own⟩)] at gone
      cases gone.2
    refine ⟨fun c changed => ?_,takes⟩
    cases alive : renewed tx db c with
    | true =>
      obtain ⟨r,mem,rfl,greater,own⟩ := renewedIff.mp alive
      exact ⟨r,mem,rfl,greater,takes r mem greater own⟩
    | false =>
      obtain ⟨none,due⟩ := (shown c).resolve_left fun same => changed (same.trans (stageKept alive).1)
      obtain ⟨r,mem,key,greater,gone⟩ := doomedIff.mp due
      exact ⟨r,mem,key,greater,none.trans (Option.isNone_iff_eq_none.mp gone).symm⟩

theorem filledRenewed (filled : tx.fill = true → ∀ r ∈ tx.staged, renewed tx db r.key = false → deleted tx db r.key = false →
      ∀ x, db.rows r.key = some x → carried onDelete tx db r.key x ≠ none →
        ∀ col ∈ cyclicCols r.key.1, x col = r.row.bind fun y => y col)
    {r x} (fill : tx.fill = true) (mem : r ∈ tx.staged) (shown : (stageUpsert tx db).rows r.key = some x)
    (kept : deleted tx db r.key = false) (left : carried onDelete tx db r.key x ≠ none) :
    ∀ col ∈ cyclicCols r.key.1, x col = r.row.bind fun y => y col := by
  cases alive : renewed tx db r.key with
  | true =>
    obtain ⟨q,inside,key,greater,own⟩ := renewedIff.mp alive
    cases tx.same inside mem key
    rw [(stageRenewed mem greater own).1] at shown
    intro col _
    rw [shown]
    rfl
  | false => exact filled fill r mem alive kept x ((stageKept alive).1 ▸ shown) left

section Example

/- Employees refer to their bosses; `boss` is the cyclic column. -/
def employee : Cell := (⟨"public","employees"⟩,[some [1]])
def bossIs (b : UInt8) : Row := fun c => if c = "boss" then some [b] else some [1]

def staleFill : Tx Nat := ⟨[⟨employee,⟨3,0,0⟩,some (bossIs 2)⟩],nodup_singleton _,[],true⟩

def newerRow : Db Nat :=
  ⟨fun c => if c = employee then some (bossIs 7) else none,fun c => if c = employee then some ⟨⟨5,0,1⟩,false⟩ else none⟩

end Example

end Replicare.ClusterTx
