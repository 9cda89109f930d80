import Replicare.ChunkBlocks
import Replicare.Landing
import Replicare.PgCycles
import Replicare.WatermarkCodec

/-! The chunked copy of an FK component into a target that checks its foreign keys at once:
Postgres after each statement, InnoDB after each row. -/
namespace Replicare.RowLoad
open Engine Relations Chunks ChunkNulls ChunkBlocks FkGraph Kahn Landing List
open CopyRun (CopyProgress Slot leading checkpoint)
open WatermarkCodec (castJsonb marshal nul lossy)

abbrev Tagged := TableRef × Row

/- A reference without a NULL in it. -/
def Complete (fk : ForeignKey) (x : Row) : Prop := ∀ c ∈ fk.childCols, x c ≠ none
instance (fk x) : Decidable (Complete fk x) := by unfold Complete; infer_instance

def Met (fks : List ForeignKey) (db : List Tagged) (e : Tagged) : Prop :=
  ∀ fk ∈ fks, fk.child = e.1 → Complete fk e.2 → ∃ p ∈ db, p.1 = fk.parent ∧ references fk e.2 p.2
instance (fks db e) : Decidable (Met fks db e) := by unfold Met; infer_instance

def rowsOf (db : List Tagged) (r : TableRef) : List Row := (db.filter fun e => decide (e.1 = r)).map Prod.snd

structure Site where
  members : Members
  named : (members.tables.map fun t => t.ref.string).Nodup
  identified : ∀ fk ∈ members.fks, ∀ other ∈ members.fks, PgPreflight.fkKey fk = PgPreflight.fkKey other → fk = other
  dialect : Dialect
  le : TableRef → KeyValues → KeyValues → Bool
  ordered : ∀ r, KeyOrder (le r)
  targetRows : Int
  source : TableRef → List Row
  distinct : ∀ t ∈ members.tables, Distinct (le t.ref) ((source t.ref).map (keyOf (identityColumns t)))
  held : ∀ fk ∈ members.fks, ∀ x ∈ source fk.child, Complete fk x → ∃ y ∈ source fk.parent, references fk x y

/- One COPY is checked as a whole, LOAD DATA row by row. -/
def batches (dialect : Dialect) (r : TableRef) (rows : List Row) : List (List Tagged) :=
  match dialect with
  | .postgres => [rows.map fun x => (r,x)]
  | .mysql => rows.map fun x => [(r,x)]

def checked (dialect : Dialect) (rows : List Row) : List (Row × List Row) :=
  match dialect with
  | .postgres => rows.map fun x => (x,rows)
  | .mysql => rows.zip rows.inits.tail

/- The chunks of a table in the order in which they are finished. -/
abbrev Schedule := TableRef → List (Chunk × Nat) → List (Chunk × Nat)

def marked (chunks : List Chunk) (done : List Nat) : List (Chunk × Slot) :=
  chunks.zipIdx.map fun c => (c.1,if c.2 ∈ done then .done else .waiting false)

/- What the store keeps of it is read by a later run only. -/
def saveCopyProgress (p : CopyProgress) : Bool := (castJsonb (marshal p.watermark)).isOk

/- As Go reads the values of the key, none has a U+0000 in it. -/
def Storable (w : KeyValues) : Prop := ∀ b, some b ∈ w → nul ∉ lossy b

def Recorded (chunks : List Chunk) : Prop := ∀ c ∈ chunks.dropLast, ∀ w ∈ c.hi, Storable w

section Copy
variable (site : Site)

def Site.table (r : TableRef) : Option Table := site.members.tables.find? fun t => decide (t.ref = r)

def planTable (t : Table) : Except String (List Chunk) :=
  planKeyset (site.le t.ref) site.dialect t.ref (keyed t (site.source t.ref)) site.targetRows

def copyChunk (t : Table) (c : Chunk) : Except String (List Row) :=
  (keysetPredicate (site.le t.ref) site.dialect (identityColumns t).length c).map fun p =>
    (site.source t.ref).filter fun x => p (keyOf (identityColumns t) x)

def bulkLoad (db : List Tagged) (r : TableRef) (rows : List Row) : Option (List Tagged) :=
  load (Met site.members.fks) db (batches site.dialect r rows)

def loadChunk (t : Table) (db : List Tagged) (c : Chunk) : Option (List Tagged) := do
  let rows ← (copyChunk site t c).toOption
  bulkLoad site db t.ref rows

def finishChunk (t : Table) (chunks : List Chunk) (s : List Tagged × List Nat) (c : Chunk × Nat) :
    Option (List Tagged × List Nat) := do
  let db ← loadChunk site t s.1 c.1
  if (checkpoint (marked chunks s.2) (marked chunks (c.2::s.2))).all saveCopyProgress then some (db,c.2::s.2) else none

def copyTable (schedule : List (Chunk × Nat) → List (Chunk × Nat)) (t : Table) (db : List Tagged) : Option (List Tagged) := do
  let chunks ← (planTable site t).toOption
  let copied ← (schedule chunks.zipIdx).foldlM (finishChunk site t chunks) (db,[])
  if saveCopyProgress ⟨none,true⟩ then some copied.1 else none

def copyComponent (schedule : Schedule) (order : List TableRef) (db : List Tagged) : Option (List Tagged) :=
  order.foldlM (fun db r => do
    let t ← site.table r
    copyTable site (schedule r) t db) db

def Equal (db : List Tagged) : Prop := ∀ r ∈ site.members.refs, (rowsOf db r).Perm (site.source r)

def Reaches (run : Schedule → Option (List Tagged)) : Prop :=
  ∀ schedule : Schedule, (∀ r l, (schedule r l).Perm l) → ∃ out, run schedule = some out ∧ Equal site out

def Site.parts (r : TableRef) : List Chunk := ((site.table r).bind fun t => (planTable site t).toOption).getD []

def Site.rows (r : TableRef) (c : Chunk) : List Row :=
  match site.table r with
  | none => []
  | some t => (site.source r).filter fun x => selects (site.le r) site.dialect (identityColumns t).length c (keyOf (identityColumns t) x)

def Site.unit (r : TableRef) (c : Chunk) : List (List Tagged) := batches site.dialect r (site.rows r c)

def Readable (t : Table) (chunks : List Chunk) : Prop :=
  ∀ c ∈ chunks, ∃ p, keysetPredicate (site.le t.ref) site.dialect (identityColumns t).length c = .ok p

def Carried (t : Table) (fk : ForeignKey) : Prop :=
  ∀ e ∈ checked site.dialect (site.source t.ref), Complete fk e.1 → ∃ y ∈ e.2, references fk e.1 y ∧
    block (site.le t.ref) t (site.source t.ref) site.targetRows y = block (site.le t.ref) t (site.source t.ref) site.targetRows e.1

/- The keys at which the table is cut into chunks. -/
def boundaries (t : Table) : List KeyValues := everyNth (chunkRows site.targetRows)
  (((site.source t.ref).map (keyOf (identityColumns t))).insertionSort fun a b => site.le t.ref a b)

structure Copies (t : Table) : Prop where
  splits : Splits site.dialect t (site.source t.ref) site.targetRows
  stored : ∀ w ∈ boundaries site t, Storable w

def Built (r : TableRef) : Prop :=
  ∃ t chunks, site.table r = some t ∧ planTable site t = .ok chunks ∧ Readable site t chunks ∧ Recorded chunks

end Copy

theorem needs (fks) : Needs (Met fks) where
  grows := by
    intro l l' x sub met fk known child complete
    obtain ⟨p,mem,found⟩ := met fk known child complete
    exact ⟨p,sub mem,found⟩

theorem batchesFlatten (dialect) (r) (rows) : (batches dialect r rows).flatten = rows.map fun x => (r,x) := by
  cases dialect with
  | postgres => simp [batches]
  | mysql =>
    simp only [batches]
    induction rows with
    | nil => rfl
    | cons x rows ih => simp [ih]

section Checked
variable {dialect : Dialect} {rows : List Row} {x : Row} {ys : List Row}

theorem initsMem : (x,ys) ∈ rows.zip rows.inits.tail ↔ ∃ front back, rows = front++x::back ∧ ys = front++[x] := by
  induction rows generalizing ys with
  | nil => simp
  | cons a rows ih =>
    have step : (a::rows).zip (a::rows).inits.tail = (a,[a])::(rows.zip rows.inits.tail).map fun e => (e.1,a::e.2) := by
      cases rows with
      | nil => rfl
      | cons b rows => simp [List.inits,zip_map_right]
    rw [step,mem_cons,mem_map]
    constructor
    · rintro (first | ⟨e,mem,same⟩)
      · cases first
        exact ⟨[],rows,rfl,rfl⟩
      · cases same
        obtain ⟨front,back,split,upto⟩ := ih.mp mem
        exact ⟨a::front,back,by rw [split]; rfl,by rw [upto]; rfl⟩
    · rintro ⟨front,back,split,rfl⟩
      rcases cons_eq_append_iff.mp split with ⟨rfl,head⟩ | ⟨front',rfl,tail⟩
      · cases head
        exact .inl rfl
      · exact .inr ⟨(x,front'++[x]),ih.mpr ⟨front',back,tail,rfl⟩,rfl⟩

theorem checkedFilter (p) :
    (x,ys) ∈ checked dialect (rows.filter p) ↔ p x = true ∧ ∃ all, (x,all) ∈ checked dialect rows ∧ ys = all.filter p := by
  cases dialect with
  | postgres =>
    simp only [checked,mem_map,mem_filter,Prod.mk.injEq]
    constructor
    · rintro ⟨x,⟨mem,here⟩,rfl,rfl⟩
      exact ⟨here,rows,⟨x,mem,rfl,rfl⟩,rfl⟩
    · rintro ⟨here,_,⟨x,mem,rfl,rfl⟩,rfl⟩
      exact ⟨x,⟨mem,here⟩,rfl,rfl⟩
  | mysql =>
    simp only [checked,initsMem]
    constructor
    · rintro ⟨front,back,split,rfl⟩
      obtain ⟨early,late,rfl,rfl,after⟩ := filter_eq_append_iff.mp split
      obtain ⟨skipped,rest,rfl,none,here,rfl⟩ := filter_eq_cons_iff.mp after
      refine ⟨here,early++skipped++[x],⟨early++skipped,rest,by simp,rfl⟩,?_⟩
      have out : skipped.filter p = [] := filter_eq_nil_iff.mpr none
      simp [out,here]
    · rintro ⟨here,_,⟨front,back,rfl,rfl⟩,rfl⟩
      exact ⟨front.filter p,back.filter p,by simp [here],by simp [here]⟩

theorem landsChecked {fks there r} : Lands (Met fks) there (batches dialect r rows) ↔
      ∀ e ∈ checked dialect rows, Met fks (there++e.2.map fun y => (r,y)) (r,e.1) := by
  cases dialect with
  | postgres => simp [Lands,batches,checked]
  | mysql =>
    have singles : batches .mysql r rows = (rows.map fun x => (r,x)).map fun e => [e] := by simp [batches,Function.comp_def]
    rw [singles,landsSingles]
    constructor
    · rintro every ⟨x,ys⟩ mem
      obtain ⟨front,back,rfl,rfl⟩ := initsMem.mp mem
      have here := every (front.map fun x => (r,x)) (r,x) (back.map fun x => (r,x)) (by simp)
      simpa using here
    · rintro every front e back split
      obtain ⟨early,late,rfl,rfl,after⟩ := map_eq_append_iff.mp split
      obtain ⟨x,back_,rfl,rfl,rfl⟩ := map_eq_cons_iff.mp after
      have here := every (x,early++[x]) (initsMem.mpr ⟨early,back_,rfl,rfl⟩)
      simpa using here

theorem checkedMem (mem : (x,ys) ∈ checked dialect rows) : x ∈ rows ∧ ∀ y ∈ ys, y ∈ rows := by
  cases dialect with
  | postgres =>
    obtain ⟨x',known,same⟩ := mem_map.mp mem
    cases same
    exact ⟨known,fun y here => here⟩
  | mysql =>
    obtain ⟨front,back,rfl,rfl⟩ := initsMem.mp mem
    refine ⟨by simp,fun y here => ?_⟩
    rcases mem_append.mp here with early | own
    · exact mem_append_left _ early
    · simp [mem_singleton.mp own]

theorem checkedOf (dialect) (mem : x ∈ rows) : ∃ ys, (x,ys) ∈ checked dialect rows := by
  cases dialect with
  | postgres => exact ⟨rows,mem_map_of_mem mem⟩
  | mysql =>
    obtain ⟨front,back,rfl⟩ := append_of_mem mem
    exact ⟨front++[x],initsMem.mpr ⟨front,back,rfl,rfl⟩⟩

end Checked

section Records
variable {chunks front back : List Chunk} {done done' : List Nat}

theorem savesNone (done) : saveCopyProgress ⟨none,done⟩ = true := rfl

theorem savesIff {w done} : saveCopyProgress ⟨some w,done⟩ = true ↔ Storable w := by
  have stored := WatermarkCodec.saveOk (fun _ => none) "" "" ⟨"",""⟩ w done
  unfold WatermarkCodec.saveCopyProgress at stored
  unfold saveCopyProgress
  cases made : castJsonb (marshal (some w)) with
  | error e =>
    rw [made] at stored
    exact iff_of_false (by simp [Except.isOk,Except.toBool]) fun free => by cases (stored _).mpr ⟨free,rfl⟩
  | ok value =>
    rw [made] at stored
    exact iff_of_true rfl ((stored _).mp rfl).1

theorem markedHi {i : Nat} {c} (place : chunks[i]? = some c) : ((marked chunks done)[i]?.bind fun p => p.1.hi) = c.hi := by
  simp [marked,place]

theorem checkpointSaves (recorded : Recorded chunks) :
    (checkpoint (marked chunks done) (marked chunks done')).all saveCopyProgress = true := by
  unfold checkpoint
  split
  · rename_i moved
    have size : (marked chunks done').length = chunks.length := by simp [marked]
    have place : leading (marked chunks done')-1 < chunks.length-1 := by omega
    obtain ⟨c,found⟩ : ∃ c, chunks[leading (marked chunks done')-1]? = some c := ⟨_,getElem?_eq_getElem (by omega)⟩
    have kept : c ∈ chunks.dropLast := mem_of_getElem? (by rw [getElem?_dropLast,if_pos place,found])
    rw [Option.all_some,markedHi found]
    cases bound : c.hi with
    | none => exact savesNone false
    | some w => exact savesIff.mpr (recorded c kept w bound)
  · rfl

theorem leadingMarked (before : ∀ j, j ∈ done ↔ j < front.length) (back) : leading (marked (front++back) done) = front.length := by
  have early : ∀ p ∈ front.zipIdx.map fun c => (c.1,if c.2 ∈ done then Slot.done else .waiting false), p.2.isDone = true := by
    rintro p mem
    obtain ⟨c,inside,rfl⟩ := mem_map.mp mem
    obtain ⟨_,short,_⟩ := mem_zipIdx inside
    rw [if_pos ((before _).mpr (by simpa using short))]
    rfl
  rw [leading,marked,zipIdx_append,map_append,takeWhile_append_of_pos early]
  cases back with
  | nil => simp
  | cons c back =>
    have open_ : front.length ∉ done := fun mem => Nat.lt_irrefl _ ((before _).mp mem)
    simp [open_,Slot.isDone]

theorem rangesRecorded {start} (bs) : Recorded (buildKeysetRangesFrom start bs) ↔ ∀ w ∈ bs, Storable w := by
  induction bs generalizing start with
  | nil => simp [Recorded,buildKeysetRangesFrom]
  | cons b bs ih =>
    have some_ : buildKeysetRangesFrom (some b) bs ≠ [] := by cases bs <;> simp [buildKeysetRangesFrom]
    rw [forall_mem_cons,← @ih (some b),Recorded,buildKeysetRangesFrom,dropLast_cons_of_ne_nil some_,forall_mem_cons]
    simp [Recorded]

end Records

section Tables
variable {site : Site} {t : Table} {r : TableRef}

theorem tableNamed (mem : t ∈ site.members.tables) : site.table t.ref = some t := by
  cases found : site.table t.ref with
  | none => simpa using find?_eq_none.mp found t mem
  | some t' =>
    have same : t'.ref = t.ref := by simpa using find?_some found
    have listed := mem_of_find?_eq_some found
    rw [inj_on_of_nodup_map site.members.distinct listed mem same]

section
variable (found : site.table r = some t)
include found

theorem tableRef : t.ref = r ∧ t ∈ site.members.tables :=
  ⟨by simpa using find?_some found,mem_of_find?_eq_some found⟩

theorem readsIff {c rows} : (copyChunk site t c).toOption = some rows ↔
      (∃ p, keysetPredicate (site.le t.ref) site.dialect (identityColumns t).length c = .ok p) ∧ rows = site.rows r c := by
  obtain ⟨rfl,_⟩ := tableRef found
  cases built : keysetPredicate (site.le t.ref) site.dialect (identityColumns t).length c with
  | error e => simp [copyChunk,built,Except.map,Except.toOption]
  | ok p => simp [copyChunk,built,Except.map,Except.toOption,Site.rows,found,selects,eq_comm]

theorem loadChunkRows {c db} (readable : Readable site t [c]) :
    loadChunk site t db c = load (Met site.members.fks) db (site.unit r c) := by
  have read := (readsIff found).mpr ⟨readable c mem_cons_self,rfl⟩
  simp only [loadChunk,read,bulkLoad,Site.unit,(tableRef found).1]
  rfl

theorem tableLoad {chunks} (recorded : Recorded chunks) {parts : List (Chunk × Nat)}
    (readable : Readable site t (parts.map Prod.fst)) {db} (done) :
    (parts.foldlM (finishChunk site t chunks) (db,done)).map Prod.fst =
      load (Met site.members.fks) db ((parts.map Prod.fst).flatMap (site.unit r)) := by
  induction parts generalizing db done with
  | nil => rfl
  | cons c parts ih =>
    obtain ⟨first,later⟩ := forall_mem_cons.mp readable
    have step : finishChunk site t chunks (db,done) c =
        (load (Met site.members.fks) db (site.unit r c.1)).map fun db' => (db',c.2::done) := by
      simp only [finishChunk,checkpointSaves recorded,if_true]
      rw [loadChunkRows found (forall_mem_singleton.mpr first)]
      exact (Option.map_eq_bind ..).symm
    rw [foldlM_cons,step,map_cons,flatMap_cons,loadAppend]
    cases load (Met site.members.fks) db (site.unit r c.1) with
    | none => rfl
    | some db' => exact ih later _

theorem tableReads {chunks} {parts : List (Chunk × Nat)} {s out}
    (ok : parts.foldlM (finishChunk site t chunks) s = some out) : Readable site t (parts.map Prod.fst) := by
  induction parts generalizing s with
  | nil => exact fun c mem => absurd mem not_mem_nil
  | cons c parts ih =>
    rw [foldlM_cons] at ok
    obtain ⟨s',first,rest⟩ := Option.bind_eq_some_iff.mp ok
    obtain ⟨db,loaded,_⟩ := Option.bind_eq_some_iff.mp first
    obtain ⟨rows,read,_⟩ := Option.bind_eq_some_iff.mp loaded
    exact forall_mem_cons.mpr ⟨((readsIff found).mp read).1,ih rest⟩

end

/- Finished in order, the chunks are recorded one by one, all but the last. -/
theorem tableRecords (front) {back db done out} (before : ∀ j, j ∈ done ↔ j < front.length)
    (ok : (back.zipIdx front.length).foldlM (finishChunk site t (front++back)) (db,done) = some out) : Recorded back := by
  induction back generalizing front db done with
  | nil => exact fun c mem => absurd mem not_mem_nil
  | cons c back ih =>
    rw [zipIdx_cons,foldlM_cons] at ok
    obtain ⟨s,first,rest⟩ := Option.bind_eq_some_iff.mp ok
    obtain ⟨db',_,kept⟩ := Option.bind_eq_some_iff.mp first
    have after : ∀ j, j ∈ front.length::done ↔ j < (front++[c]).length := by
      intro j
      rw [mem_cons,before,length_append,length_singleton]
      omega
    have whole : front++[c]++back = front++c::back := by simp
    split at kept
    · rename_i saves
      cases kept
      have later : Recorded back := ih _ after (by rw [whole,length_append,length_singleton]; exact rest)
      cases back with
      | nil => exact fun c mem => absurd mem not_mem_nil
      | cons c' back =>
        have moved : checkpoint (marked (front++c::c'::back) done) (marked (front++c::c'::back) (front.length::done)) =
            some ⟨c.hi,false⟩ := by
          have grown := leadingMarked after (c'::back)
          rw [whole] at grown
          rw [checkpoint,grown,leadingMarked before _,if_pos (by simp [marked])]
          simp [marked]
        rw [moved,Option.all_some] at saves
        refine forall_mem_cons.mpr ⟨fun w is => ?_,later⟩
        rw [Option.mem_def.mp is] at saves
        exact savesIff.mp saves
    · cases kept

end Tables

section Component
variable {site : Site} {order : List TableRef}

theorem copyTableLoad {schedule : List (Chunk × Nat) → List (Chunk × Nat)} (shuffled : ∀ l, (schedule l).Perm l) {r t chunks}
    (found : site.table r = some t) (ok : planTable site t = .ok chunks) (readable : Readable site t chunks)
    (recorded : Recorded chunks) (db) : copyTable site schedule t db =
      load (Met site.members.fks) db (((schedule chunks.zipIdx).map Prod.fst).flatMap (site.unit r)) := by
  have parts : ((schedule chunks.zipIdx).map Prod.fst).Perm chunks := by
    have same := (shuffled chunks.zipIdx).map Prod.fst
    rwa [zipIdx_map_fst] at same
  rw [← tableLoad found recorded (fun c mem => readable c (parts.mem_iff.mp mem)) []]
  simp only [copyTable,ok,Except.toOption,savesNone,if_true]
  exact (Option.map_eq_bind ..).symm

theorem copyLoad {schedule} (shuffled : ∀ r l, (schedule r l).Perm l) (built : ∀ r ∈ order, Built site r) {db} :
    copyComponent site schedule order db = load (Met site.members.fks) db
      (order.flatMap fun r => ((schedule r (site.parts r).zipIdx).map Prod.fst).flatMap (site.unit r)) := by
  induction order generalizing db with
  | nil => rfl
  | cons r order ih =>
    obtain ⟨t,chunks,found,ok,readable,recorded⟩ := built r mem_cons_self
    have parts : site.parts r = chunks := by simp [Site.parts,found,ok,Except.toOption]
    have first := copyTableLoad (shuffled r) found ok readable recorded db
    rw [copyComponent,foldlM_cons,flatMap_cons,loadAppend,found,parts,← first]
    exact Option.bind_congr fun db' _ => ih fun r mem => built r (mem_cons_of_mem _ mem)

theorem copyBuilt {db out} (ok : copyComponent site (fun _ l => l) order db = some out) : ∀ r ∈ order, Built site r := by
  induction order generalizing db with
  | nil => exact fun r mem => absurd mem not_mem_nil
  | cons r order ih =>
    rw [copyComponent,foldlM_cons] at ok
    obtain ⟨db',first,rest⟩ := Option.bind_eq_some_iff.mp ok
    obtain ⟨t,found,copied⟩ := Option.bind_eq_some_iff.mp first
    obtain ⟨chunks,planned_,loaded⟩ := Option.bind_eq_some_iff.mp copied
    obtain ⟨s,finished,_⟩ := Option.bind_eq_some_iff.mp loaded
    refine forall_mem_cons.mpr ⟨⟨t,chunks,found,?_,?_,?_⟩,ih rest⟩
    · cases plan : planTable site t with
      | error e => simp [plan,Except.toOption] at planned_
      | ok l => simpa [plan,Except.toOption] using planned_
    · have reads := tableReads found finished
      rwa [zipIdx_map_fst] at reads
    · exact tableRecords [] (by simp) finished

end Component

section Whole
variable {site : Site} {order : List TableRef}

theorem permIndexed {l chunks} (perm : l.Perm chunks) :
    ∃ parts : List (Chunk × Nat), parts.Perm chunks.zipIdx ∧ parts.map Prod.fst = l := by
  have named : List.Forall₂ (fun c (p : Chunk × Nat) => c = p.1) chunks chunks.zipIdx := by
    refine forall₂_iff_get.mpr ⟨by simp,fun i one two => by simp⟩
  obtain ⟨parts,same,order⟩ := perm_comp_forall₂ perm named
  refine ⟨parts,order,?_⟩
  rw [← forall₂_eq_eq_eq,forall₂_map_left_iff]
  exact same.flip.imp fun _ _ => Eq.symm

theorem rowsOfAppend (db db') (r) : rowsOf (db++db') r = rowsOf db r++rowsOf db' r := by simp [rowsOf]

theorem rowsOfTagged (rows) (r r') : rowsOf (rows.map fun x => (r',x)) r = if r' = r then rows else [] := by
  by_cases same : r' = r <;> simp [rowsOf,filter_map,Function.comp_def,same]

theorem groupFlatten (r : TableRef) (chunks : List Chunk) :
    (chunks.flatMap (site.unit r)).flatten = (chunks.flatMap (site.rows r)).map fun x => (r,x) := by
  induction chunks with
  | nil => rfl
  | cons c chunks ih => rw [flatMap_cons,flatMap_cons,flatten_append,map_append,ih,Site.unit,batchesFlatten]

theorem rowsOfTables (distinct : order.Nodup) (f : TableRef → List Row) {r : TableRef} :
    rowsOf (order.flatMap fun r => (f r).map fun x => (r,x)) r = if r ∈ order then f r else [] := by
  induction order with
  | nil => rfl
  | cons r' order ih =>
    obtain ⟨fresh,rest⟩ := nodup_cons.mp distinct
    rw [flatMap_cons,rowsOfAppend,rowsOfTagged,ih rest]
    by_cases same : r' = r
    · subst same
      simp [fresh]
    · simp [same,Ne.symm same]

theorem rowsOfGroups (distinct : order.Nodup) (pick : TableRef → List Chunk) {r : TableRef} :
    rowsOf (order.flatMap fun r => (pick r).flatMap (site.unit r)).flatten r = if r ∈ order then (pick r).flatMap (site.rows r) else [] := by
  have tables : (order.flatMap fun r => (pick r).flatMap (site.unit r)).flatten =
      order.flatMap fun r => ((pick r).flatMap (site.rows r)).map fun x => (r,x) := by
    rw [flatMap_def,flatten_flatten,List.map_map,flatMap_def]
    exact congrArg List.flatten (map_congr_left fun r _ => groupFlatten r (pick r))
  rw [tables,rowsOfTables distinct]

theorem copiesLands (perm : order.Perm site.members.refs) :
    Reaches site (fun schedule => copyComponent site schedule order []) ↔
      (∀ r ∈ order, Built site r) ∧ (∀ r ∈ order, ((site.parts r).flatMap (site.rows r)).Perm (site.source r)) ∧
      ∀ front r back, order = front++r::back → ∀ c ∈ site.parts r, Lands (Met site.members.fks)
        ([]++(front.flatMap fun r => (site.parts r).flatMap (site.unit r)).flatten) (site.unit r c) := by
  have distinct : order.Nodup := perm.nodup_iff.mpr (refsDistinct site.members)
  have empty : ∀ x ∈ ([] : List Tagged), Met site.members.fks [] x := fun x mem => absurd mem not_mem_nil
  rw [← landsGroups (needs site.members.fks)]
  constructor
  · intro copies
    have built : ∀ r ∈ order, Built site r := by
      obtain ⟨out,ok,_⟩ := copies (fun _ l => l) fun _ l => List.Perm.refl l
      exact copyBuilt ok
    have loaded : ∀ pick : TableRef → List Chunk, (∀ r, (pick r).Perm (site.parts r)) →
        ∃ out, load (Met site.members.fks) [] (order.flatMap fun r => (pick r).flatMap (site.unit r)) = some out ∧ Equal site out := by
      intro pick shuffled
      choose parts order named using fun r => permIndexed (shuffled r)
      have perms : ∀ r l, (if l = (site.parts r).zipIdx then parts r else l).Perm l := by
        intro r l
        split
        · rename_i same
          exact same ▸ order r
        · exact List.Perm.refl l
      obtain ⟨out,ok,equal⟩ := copies _ perms
      have loads := (copyLoad perms built).symm.trans ok
      simp only [if_true,named] at loads
      exact ⟨out,loads,equal⟩
    refine ⟨built,fun r mem => ?_,fun pick shuffled => ?_⟩
    · obtain ⟨out,ok,equal⟩ := loaded site.parts fun r => List.Perm.refl _
      obtain ⟨_,rfl⟩ := (loadIff (needs _) empty).mp ok
      have same := equal r (perm.mem_iff.mp mem)
      rwa [nil_append,rowsOfGroups distinct,if_pos mem] at same
    · obtain ⟨out,ok,_⟩ := loaded pick shuffled
      exact ((loadIff (needs _) empty).mp ok).1
  · rintro ⟨built,full,lands⟩ schedule shuffled
    have parts : ∀ r, ((schedule r (site.parts r).zipIdx).map Prod.fst).Perm (site.parts r) := by
      intro r
      have same := (shuffled r (site.parts r).zipIdx).map Prod.fst
      rwa [zipIdx_map_fst] at same
    refine ⟨_,(copyLoad shuffled built).trans ((loadIff (needs _) empty).mpr ⟨lands _ parts,rfl⟩),fun r known => ?_⟩
    have mem := perm.mem_iff.mpr known
    rw [nil_append,rowsOfGroups distinct,if_pos mem]
    exact ((parts r).flatMap_right _).trans (full r mem)

end Whole

section Conditions
variable {site : Site} {t : Table} {order : List TableRef}

section
variable (mem : t ∈ site.members.tables)
include mem

theorem rowsTable (c) : site.rows t.ref c = (site.source t.ref).filter fun x =>
    selects (site.le t.ref) site.dialect (identityColumns t).length c (keyOf (identityColumns t) x) := by
  simp only [Site.rows,tableNamed mem]

theorem checkedPart {c x all} (listed : (x,all) ∈ checked site.dialect (site.source t.ref)) (here : x ∈ site.rows t.ref c) :
    ∃ ys, (x,ys) ∈ checked site.dialect (site.rows t.ref c) ∧ ∀ y, y ∈ ys ↔ y ∈ all ∧ y ∈ site.rows t.ref c := by
  rw [rowsTable mem,mem_filter] at here
  rw [rowsTable mem]
  refine ⟨_,(checkedFilter _).mpr ⟨here.2,all,listed,rfl⟩,fun y => ?_⟩
  rw [mem_filter,mem_filter]
  exact ⟨fun both => ⟨both.1,(checkedMem listed).2 y both.1,both.2⟩,fun both => ⟨both.1,both.2.2⟩⟩

theorem checkedWhole {c x ys} (listed : (x,ys) ∈ checked site.dialect (site.rows t.ref c)) :
    ∃ all, (x,all) ∈ checked site.dialect (site.source t.ref) ∧ ∀ y, y ∈ ys ↔ y ∈ all ∧ y ∈ site.rows t.ref c := by
  rw [rowsTable mem] at listed
  obtain ⟨_,all,known,rfl⟩ := (checkedFilter _).mp listed
  refine ⟨all,known,fun y => ?_⟩
  rw [rowsTable mem,mem_filter,mem_filter]
  exact ⟨fun both => ⟨both.1,(checkedMem known).2 y both.1,both.2⟩,fun both => ⟨both.1,both.2.2⟩⟩

theorem recordedIff (splits : Splits site.dialect t (site.source t.ref) site.targetRows)
    {chunks} (ok : planTable site t = .ok chunks) : Recorded chunks ↔ ∀ w ∈ boundaries site t, Storable w := by
  obtain ⟨bs,plan⟩ := planned (site.ordered t.ref) ok
  rcases splits with few | ⟨full,_⟩
  · have none : boundaries site t = [] := everyNthShort (by simpa using few)
    rw [fewAlone plan few,none]
    simp [Recorded]
  · rw [planRanges (site.ordered t.ref) (site.distinct t mem) ok full]
    exact rangesRecorded (boundaries site t)

omit mem in
theorem copiesSplit : (∀ t ∈ site.members.tables, Copies site t) ↔
    (∀ t ∈ site.members.tables, Splits site.dialect t (site.source t.ref) site.targetRows) ∧
      ∀ t ∈ site.members.tables, ∀ w ∈ boundaries site t, Storable w := by
  rw [← forall₂_and]
  exact forall₂_congr fun t _ => ⟨fun copies => ⟨copies.splits,copies.stored⟩,fun both => ⟨both.1,both.2⟩⟩

theorem copiesIffBuilt : Copies site t ↔
    Built site t.ref ∧ ((site.parts t.ref).flatMap (site.rows t.ref)).Perm (site.source t.ref) := by
  have found := tableNamed mem
  have rows : site.rows t.ref = fun c => (site.source t.ref).filter fun x =>
      selects (site.le t.ref) site.dialect (identityColumns t).length c (keyOf (identityColumns t) x) := funext (rowsTable mem)
  constructor
  · rintro ⟨splits,stored⟩
    obtain ⟨chunks,ok,once⟩ := (splitsOnce (site.ordered t.ref) (site.distinct t mem)).mpr splits
    have parts : site.parts t.ref = chunks := by simp [Site.parts,found,planTable,ok,Except.toOption]
    refine ⟨⟨t,chunks,found,ok,fun c inside => ?_,(recordedIff mem splits ok).mpr stored⟩,?_⟩
    · exact ⟨_,predicateFits (splitsFit (site.ordered t.ref) splits ok inside)⟩
    · rw [rows,parts]
      exact partsPerm.mpr (forall_mem_map.mp once)
  · rintro ⟨⟨t',chunks,found',ok,_,recorded⟩,full⟩
    cases found.symm.trans found'
    have parts : site.parts t.ref = chunks := by simp [Site.parts,found,ok,Except.toOption]
    rw [rows,parts] at full
    have splits := (splitsOnce (site.ordered t.ref) (site.distinct t mem)).mp ⟨chunks,ok,forall_mem_map.mpr (partsPerm.mp full)⟩
    exact ⟨splits,(recordedIff mem splits ok).mp recorded⟩

end

section Split
variable (copies : ∀ t ∈ site.members.tables, Copies site t)
include copies

theorem sourceParts {r} (known : r ∈ site.members.refs) {x} : x ∈ site.source r ↔ ∃ c ∈ site.parts r, x ∈ site.rows r c := by
  obtain ⟨t,mem,rfl⟩ := mem_map.mp known
  rw [← ((copiesIffBuilt mem).mp (copies t mem)).2.mem_iff,mem_flatMap]

theorem landedMem {front : List TableRef} (known : ∀ r ∈ front, r ∈ site.members.refs) {p : Tagged} :
    p ∈ []++(front.flatMap fun r => (site.parts r).flatMap (site.unit r)).flatten ↔ p.1 ∈ front ∧ p.2 ∈ site.source p.1 := by
  induction front with
  | nil => simp
  | cons r front ih =>
    have own : p ∈ ((site.parts r).flatMap (site.rows r)).map (fun x => (r,x)) ↔ p.1 = r ∧ p.2 ∈ site.source p.1 := by
      obtain ⟨r',x⟩ := p
      simp only [mem_map,Prod.mk.injEq,mem_flatMap,← sourceParts copies (known r mem_cons_self)]
      constructor
      · rintro ⟨x,mem,rfl,rfl⟩
        exact ⟨rfl,mem⟩
      · rintro ⟨rfl,mem⟩
        exact ⟨x,mem,rfl,rfl⟩
    have rest := ih fun r mem => known r (mem_cons_of_mem _ mem)
    rw [nil_append] at rest ⊢
    rw [flatMap_cons,flatten_append,groupFlatten,mem_append,own,rest,mem_cons]
    exact or_and_right.symm

theorem chunkBlock (mem : t ∈ site.members.tables) {i c} (place : (site.parts t.ref)[i]? = some c) {x}
    (known : x ∈ site.source t.ref) : x ∈ site.rows t.ref c ↔ block (site.le t.ref) t (site.source t.ref) site.targetRows x = i := by
  have found := tableNamed mem
  obtain ⟨t',chunks,found',ok,_⟩ := ((copiesIffBuilt mem).mp (copies t mem)).1
  cases found.symm.trans found'
  have parts : site.parts t.ref = chunks := by simp [Site.parts,found,ok,Except.toOption]
  rw [parts] at place
  rw [rowsTable mem,mem_filter,and_iff_right known]
  exact blockSelects (site.ordered t.ref) (site.distinct t mem) (copies t mem).splits ok known place

theorem sameChunk (mem : t ∈ site.members.tables) {c} (part : c ∈ site.parts t.ref) {x y} (known : x ∈ site.source t.ref)
    (also : y ∈ site.source t.ref) (here : x ∈ site.rows t.ref c) : y ∈ site.rows t.ref c ↔
      block (site.le t.ref) t (site.source t.ref) site.targetRows y = block (site.le t.ref) t (site.source t.ref) site.targetRows x := by
  obtain ⟨i,place⟩ := mem_iff_getElem?.mp part
  rw [(chunkBlock copies mem place known).mp here,chunkBlock copies mem place also]

theorem metIff {front : List TableRef} (known : ∀ r ∈ front, r ∈ site.members.refs) {r : TableRef} {x : Row} {ys : List Row} :
    Met site.members.fks ([]++(front.flatMap fun r => (site.parts r).flatMap (site.unit r)).flatten++ys.map fun y => (r,y)) (r,x) ↔
      ∀ fk ∈ site.members.fks, fk.child = r → Complete fk x →
        (fk.parent ∈ front ∧ ∃ y ∈ site.source fk.parent, references fk x y) ∨ (fk.parent = r ∧ ∃ y ∈ ys, references fk x y) := by
  refine forall_congr' fun fk => forall_congr' fun _ => forall_congr' fun _ => forall_congr' fun _ => ?_
  constructor
  · rintro ⟨⟨r',y⟩,mem,rfl,found⟩
    rcases mem_append.mp mem with early | own
    · obtain ⟨first,listed⟩ := (landedMem copies known).mp early
      exact .inl ⟨first,y,listed,found⟩
    · obtain ⟨y',listed,same⟩ := mem_map.mp own
      cases same
      exact .inr ⟨rfl,_,listed,found⟩
  · rintro (⟨first,y,listed,found⟩ | ⟨same,y,listed,found⟩)
    · exact ⟨(fk.parent,y),mem_append_left _ ((landedMem copies known).mpr ⟨first,listed⟩),rfl,found⟩
    · exact ⟨(r,y),mem_append_right _ (mem_map_of_mem listed),same.symm,found⟩

end Split

section Order
variable (perm : order.Perm site.members.refs)
include perm

theorem splitKnown {front back r} (split : order = front++r::back) : ∀ r' ∈ front, r' ∈ site.members.refs := by
  intro r' early
  exact perm.mem_iff.mp (split ▸ mem_append_left _ early)

theorem splitFresh {front back r} (split : order = front++r::back) : r ∉ front := by
  have distinct : order.Nodup := perm.nodup_iff.mpr (refsDistinct site.members)
  intro early
  exact (show Before order r r from ⟨front,back,split,early⟩).irrefl distinct

theorem readsSplit : ((∀ r ∈ order, Built site r) ∧ ∀ r ∈ order, ((site.parts r).flatMap (site.rows r)).Perm (site.source r)) ↔
    ∀ t ∈ site.members.tables, Copies site t := by
  have each : (∀ r ∈ order, Built site r ∧ ((site.parts r).flatMap (site.rows r)).Perm (site.source r)) ↔
      ∀ t ∈ site.members.tables, Built site t.ref ∧ ((site.parts t.ref).flatMap (site.rows t.ref)).Perm (site.source t.ref) := by
    constructor
    · intro every t mem
      exact every t.ref (perm.mem_iff.mpr (mem_map_of_mem mem))
    · intro every r mem
      obtain ⟨t,listed,rfl⟩ := mem_map.mp (perm.mem_iff.mp mem)
      exact every t listed
  rw [← forall₂_and,each]
  exact forall₂_congr fun t mem => (copiesIffBuilt mem).symm

theorem copiesIff : Reaches site (fun schedule => copyComponent site schedule order []) ↔
      (∀ t ∈ site.members.tables, Copies site t) ∧
      (∀ fk ∈ site.members.fks, fk.child ≠ fk.parent → (∃ x ∈ site.source fk.child, Complete fk x) → Before order fk.parent fk.child) ∧
      ∀ t ∈ site.members.tables, ∀ fk ∈ site.members.fks, fk.child = t.ref → fk.parent = t.ref → Carried site t fk := by
  have distinct : order.Nodup := perm.nodup_iff.mpr (refsDistinct site.members)
  rw [copiesLands perm,← and_assoc,readsSplit perm]
  refine and_congr_right fun copies => ?_
  simp only [Site.unit,landsChecked]
  constructor
  · intro lands
    -- every row of the source is checked with its chunk
    have finds : ∀ t ∈ site.members.tables, ∀ {front back}, order = front++t.ref::back →
      ∀ {x all}, (x,all) ∈ checked site.dialect (site.source t.ref) →
        ∀ fk ∈ site.members.fks, fk.child = t.ref → Complete fk x → fk.parent ∈ front ∨ fk.parent = t.ref ∧ ∃ y ∈ all, references fk x y ∧
          block (site.le t.ref) t (site.source t.ref) site.targetRows y = block (site.le t.ref) t (site.source t.ref) site.targetRows x := by
      intro t mem front back split x all listed fk known child complete
      obtain ⟨inside,others⟩ := checkedMem listed
      obtain ⟨c,part,here⟩ := (sourceParts copies (mem_map_of_mem mem)).mp inside
      obtain ⟨ys,own,among⟩ := checkedPart mem listed here
      rcases (metIff copies (splitKnown perm split)).mp (lands front t.ref back split c part _ own) fk known child complete with
        ⟨early,_⟩ | ⟨parent,y,near,found⟩
      · exact .inl early
      · obtain ⟨close,too⟩ := (among y).mp near
        exact .inr ⟨parent,y,close,found,(sameChunk copies mem part inside (others y close) here).mp too⟩
    constructor
    · rintro fk known apart ⟨x,inside,complete⟩
      obtain ⟨t,mem,child⟩ := mem_map.mp (fkInside known).1
      obtain ⟨front,back,split⟩ := append_of_mem (perm.mem_iff.mpr (mem_map_of_mem mem : t.ref ∈ site.members.refs))
      rw [← child] at inside
      obtain ⟨all,listed⟩ := checkedOf site.dialect inside
      rcases finds t mem split listed fk known child.symm complete with early | ⟨parent,_⟩
      · exact ⟨front,back,child ▸ split,early⟩
      · exact absurd (child.symm.trans parent.symm) apart
    · rintro t mem fk known child parent ⟨x,all⟩ listed complete
      obtain ⟨front,back,split⟩ := append_of_mem (perm.mem_iff.mpr (mem_map_of_mem mem : t.ref ∈ site.members.refs))
      rcases finds t mem split listed fk known child complete with early | ⟨_,near⟩
      · exact absurd (parent ▸ early) (splitFresh perm split)
      · exact near
  · rintro ⟨placed,carried⟩ front r back split c part ⟨x,ys⟩ own
    obtain ⟨t,mem,rfl⟩ := mem_map.mp (perm.mem_iff.mp (show r ∈ order by rw [split]; simp))
    obtain ⟨all,listed,among⟩ := checkedWhole mem own
    have inside := (checkedMem listed).1
    rw [metIff copies (splitKnown perm split)]
    intro fk known child complete
    by_cases same : fk.parent = t.ref
    · obtain ⟨y,close,found,near⟩ := carried t mem fk known child same (x,all) listed complete
      refine .inr ⟨same,y,(among y).mpr ⟨close,?_⟩,found⟩
      exact (sameChunk copies mem part inside ((checkedMem listed).2 y close) (checkedMem own).1).mpr near
    · have apart : fk.child ≠ fk.parent := fun loop => same (loop ▸ child)
      have before := placed fk known apart ⟨x,child ▸ inside,complete⟩
      exact .inl ⟨before.front distinct (child ▸ split),site.held fk known x (child ▸ inside) complete⟩

end Order

end Conditions

def shop : Members where
  tables := shopTables
  distinct := by decide
  own := by decide

def user (id : UInt8) (order : Option UInt8) : Row := fun c =>
  if c = "id" then some [id] else if c = "last_order" then order.map fun o => [o] else none

def order (id : UInt8) (user : Option UInt8) : Row := fun c =>
  if c = "id" then some [id] else if c = "user_id" then user.map fun u => [u] else none

def contents (os us : List Row) (r : TableRef) : List Row := if r = orders then os else if r = users then us else []

def gift (dialect : Dialect) : Site where
  members := shop
  named := by decide
  identified := by decide
  dialect := dialect
  le _ := byteOrder 0
  ordered _ := byteOrdered 0
  targetRows := 100
  source := contents [order 7 none] [user 1 (some 7)]
  distinct := by unfold Distinct; decide
  held := by decide

def sale (dialect : Dialect) : Site where
  members := shop
  named := by decide
  identified := by decide
  dialect := dialect
  le _ := byteOrder 0
  ordered _ := byteOrdered 0
  targetRows := 100
  source := contents [order 7 (some 1)] [user 1 none]
  distinct := by unfold Distinct; decide
  held := by decide

end Replicare.RowLoad
