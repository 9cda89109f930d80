import Replicare.Runs
import Replicare.Purge
import Replicare.Coalesce
import Replicare.MeshApply

/-! A full mesh of cluster members over one replicated table. -/
namespace Replicare.Mesh
open Engine Consume Coalesce Purge Hlc MeshApply Runs Function

variable {K V N S : Type*} [DecidableEq K] [Inhabited V] [LinearOrder N] [DecidableEq S]

structure Member (K V N : Type*) where
  replica : Replica K V N
  clock : Clock
  queue : Queue K

structure Pass (K V N : Type*) where
  ids : List DeltaID
  keys : List K
  staged : Option (List (Record K V N))
  shipped : Bool

/- The ranges that a copy is cut into: every key lies in one of them. -/
structure Plan (K : Type*) where
  chunk : K → Nat
  count : Nat
  inside : ∀ k, chunk k < count

/- `read` holds what was read of a chunk that is not loaded yet. -/
structure Copying (K V : Type*) extends Plan K where
  read : Nat → Option (K → Option V)
  loaded : Nat → Bool

/- `log` collects every stamped change and `writes` those of clients; no step reads them. -/
structure World (K V N : Type*) where
  member : N → Member K V N
  edge : N → N → Option (Pass K V N)
  copy : N → N → Option (Copying K V)
  needsReseed : N → N → Bool
  log : List (Record K V N)
  writes : List (Record K V N)
  accepted : N → List (Record K V N)

/- A client statement on one row, with the ids of the deltas its trigger inserts. -/
inductive RowOp (K V : Type*) where
  | insert (key : K) (row : V) (id : DeltaID)
  | update (key : K) (row : V) (id : DeltaID)
  | rekey (old new : K) (row : V) (oldId newId : DeltaID)
  | delete (key : K) (id : DeltaID)

inductive Action (K V N : Type*) where
  | client (i : N) (pt now : Int) (op : RowOp K V)
  | gather (i j : N) (batch : Int)
  | reread (i j : N)
  | ship (i j : N) (phase : MeshApply.Phase) (pt later : Int)
  | confirm (i j : N)
  | stop (i j : N)
  | enforce (i j : N) (probe : Probe)
  | gc (i : N)
  | clear (i j : N) (now : Int) (cleared : List (K × Int × DeltaID)) (plan : Plan K)
  | read (i j : N) (c : Nat)
  | load (i j : N) (c : Nat)
  | unflag (i j : N)
  | clock (i : N) (pt inPhys inLog : Int)
  | flag (i j : N)

/- What the trigger body writes for one key. -/
structure Stamped (K V : Type*) where
  key : K
  row : Option V
  op : Op
  id : DeltaID

def RowOp.stamps : RowOp K V → List (Stamped K V)
  | .insert k row id => [⟨k,some row,.insert,id⟩]
  | .update k row id => [⟨k,some row,.update,id⟩]
  | .rekey old new row oldId newId => [⟨old,none,.delete,oldId⟩,⟨new,some row,.update,newId⟩]
  | .delete k id => [⟨k,none,.delete,id⟩]

def RowOp.legal (rows : K → Option V) : RowOp K V → Bool
  | .insert k _ _ => (rows k).isNone
  | .update k _ _ => (rows k).isSome
  | .rekey old new _ _ _ => (rows old).isSome && (rows new).isNone
  | .delete k _ => (rows k).isSome

def World.set (s : World K V N) (i : N) (m : Member K V N) : World K V N :=
  { s with member := update s.member i m }

def put {α : Type*} (f : N → N → α) (i j : N) (x : α) : N → N → α := update f i (update (f i) j x)

def World.setEdge (s : World K V N) (i j : N) (p : Option (Pass K V N)) : World K V N :=
  { s with edge := put s.edge i j p }

def World.setCopy (s : World K V N) (i j : N) (x : Option (Copying K V)) : World K V N :=
  { s with copy := put s.copy i j x }

def World.setFlag (s : World K V N) (i j : N) (flagged : Bool) : World K V N :=
  { s with needsReseed := put s.needsReseed i j flagged }

def World.accept (s : World K V N) (i : N) (rs : List (Record K V N)) : World K V N :=
  { s with accepted := update s.accepted i (s.accepted i++rs) }

/- The job of an edge drains, enforces and reseeds one after the other. -/
def Idle (s : World K V N) (i j : N) : Prop := i ≠ j ∧ s.edge i j = none ∧ s.copy i j = none
instance (s : World K V N) (i j) : Decidable (Idle s i j) := by unfold Idle; infer_instance

def captureAll (now : Int) (stamps : List (Stamped K V)) (q : Queue K) : Option (Queue K) :=
  stamps.foldlM (fun q c => if fresh : Fresh q c.id then some (capture q ⟨c.id,c.op,c.key,now⟩ fresh) else none) q

def Stamped.record (v : Version N) (c : Stamped K V) : Record K V N := ⟨c.key,v,c.row⟩

/- The register upsert of the trigger is not guarded by a version. -/
def stampAll (v : Version N) (stamps : List (Stamped K V)) (n : Replica K V N) : Replica K V N :=
  { rows := LastWriter.writeAll Stamped.key Stamped.row stamps n.rows
    register := LastWriter.writeAll Stamped.key (fun c => some (c.record v).entry) stamps n.register }

/- One row event outside an apply: the trigger ticks the clock once, and stamps and
captures every key the event touches. -/
def captured (s : World K V N) (i : N) (pt now : Int) (stamps : List (Stamped K V)) : Option (World K V N) :=
  let m := s.member i
  let c := tick m.clock pt
  let v : Version N := ⟨c.physical,c.logical,i⟩
  (captureAll now stamps m.queue).map fun q =>
    { (s.set i ⟨stampAll v stamps m.replica,c,q⟩).accept i (stamps.map (Stamped.record v)) with
      log := s.log++stamps.map (Stamped.record v) }

def client (s : World K V N) (i : N) (pt now : Int) (op : RowOp K V) : Option (World K V N) :=
  let c := tick (s.member i).clock pt
  let written := op.stamps.map (Stamped.record ⟨c.physical,c.logical,i⟩)
  if op.legal (s.member i).replica.rows then
    (captured s i pt now op.stamps).map fun t => { t with writes := t.writes++written }
  else none

def versionedRow (n : Replica K V N) (k : K) : Option (Record K V N) :=
  (n.register k).map fun e => ⟨k,e.version,if e.deleted then none else some ((n.rows k).getD default)⟩

def rereadVersioned (n : Replica K V N) (keys : List K) : List (Record K V N) := keys.filterMap (versionedRow n)

def latest (stg : List (Record K V N)) : Option Clock := (stg.map fun r => r.version.stamp).max?

def observeFromStaging (c : Clock) (pt : Int) (stg : List (Record K V N)) : Clock :=
  match latest stg with
  | none => c
  | some m => observe c pt m.physical m.logical

def collectable (q : Queue K) (k : K) (e : Entry N) : Bool :=
  e.deleted && q.deltas.all fun d => !decide (d.key = k)

def gcTombstones (m : Member K V N) : Member K V N :=
  let left := fun k => (m.replica.register k).filter fun e => !collectable m.queue k e
  { m with replica := { m.replica with register := left } }

section Step
variable (dialect : Dialect) (ret : RetentionPolicy) (name : N ↪ TargetID) (sig : K → S)

def gather (s : World K V N) (i j : N) (batch : Int) : Option (World K V N) :=
  if Idle s i j then
    let dirty := readDirtyKeys (s.member i).queue (name j) batch
    if dirty.isEmpty then some s else
      let read := coalesce sig dirty
      some (s.setEdge i j (some ⟨read.2,read.1,none,false⟩))
  else none

def ship (s : World K V N) (i j : N) (p : Pass K V N) (recs : List (Record K V N)) (phase : MeshApply.Phase)
    (pt later : Int) : World K V N :=
  let m := s.member j
  let first := observeFromStaging m.clock pt recs
  let clock := match phase with
    | .upsert => first
    | .delete => observeFromStaging first later recs
  let done : Pass K V N := { p with staged := none, shipped := p.shipped || phase == .delete }
  ((s.set j { m with replica := applyBatch dialect phase m.replica recs, clock := clock }).accept j
    (accepts phase m.replica recs)).setEdge i j done

def enforce (s : World K V N) (i j : N) (probe : Probe) : World K V N :=
  let m := s.member i
  let done := purge dialect m.queue [name j] ret probe
  (s.set i { m with queue := done.1 }).setFlag i j (s.needsReseed i j || !done.2.targetsReseeded.isEmpty)

/- The deletes of the clear are not marked as applies, so each is captured like a client's. -/
def clearRow (j : N) (now : Int) (s : World K V N) (c : K × Int × DeltaID) : Option (World K V N) :=
  if ((s.member j).replica.rows c.1).isSome then captured s j c.2.1 now [⟨c.1,none,.delete,c.2.2⟩] else none

/- The rows of a chunk are loaded as applies, without versions. -/
def bulkLoad (s : World K V N) (i j : N) (x : Copying K V) (c : Nat) (rows : K → Option V) : World K V N :=
  let m := s.member j
  let loaded := fun k => if x.chunk k = c then (rows k).or (m.replica.rows k) else m.replica.rows k
  (s.set j { m with replica := { m.replica with rows := loaded } }).setCopy i j
    (some { x with read := update x.read c none, loaded := update x.loaded c true })

def step (s : World K V N) : Action K V N → Option (World K V N)
  | .client i pt now op => client s i pt now op
  | .gather i j batch => gather name sig s i j batch
  | .reread i j => (s.edge i j).map fun p =>
      s.setEdge i j (some { p with staged := some (rereadVersioned (s.member i).replica p.keys) })
  | .ship i j phase pt later => do
      let p ← s.edge i j
      let recs ← p.staged
      some (ship dialect s i j p recs phase pt later)
  | .confirm i j => do
      let p ← s.edge i j
      if p.shipped then
        let m := s.member i
        some ((s.set i { m with queue := confirmConsumed m.queue (name j) p.ids }).setEdge i j none)
      else none
  | .stop i j => some ((s.setEdge i j none).setCopy i j none)
  | .enforce i j probe => if Idle s i j then some (enforce dialect ret name s i j probe) else none
  | .gc i => some (s.set i (gcTombstones (s.member i)))
  -- one statement deletes the rows that `cleared` lists
  | .clear i j now cleared plan =>
      if Idle s i j ∧ s.needsReseed i j = true then
        (run (clearRow j now) s cleared).map fun t => t.setCopy i j (some ⟨plan,fun _ => none,fun _ => false⟩)
      else none
  | .read i j c => (s.copy i j).map fun x => s.setCopy i j
      (some { x with read := update x.read c (some (s.member i).replica.rows), loaded := update x.loaded c false })
  | .load i j c => (s.copy i j).bind fun x => (x.read c).map (bulkLoad s i j x c)
  | .unflag i j => (s.copy i j).bind fun x =>
      if (List.range x.count).all x.loaded then some ((s.setFlag i j false).setCopy i j none) else none
  -- captures and applies of the other tables move the same clock, and their purges set the same flag
  | .clock i pt inPhys inLog => some (s.set i { s.member i with clock := observe (s.member i).clock pt inPhys inLog })
  | .flag i j => some (s.setFlag i j true)

inductive Taken (s : World K V N) : Action K V N → World K V N → Prop where
  | client {i pt now op t} (ok : client s i pt now op = some t) : Taken s (.client i pt now op) t
  | nothing {i j batch} : Taken s (.gather i j batch) s
  | gather {i j batch} (apart : i ≠ j) : Taken s (.gather i j batch)
      (s.setEdge i j (some ⟨(coalesce sig (readDirtyKeys (s.member i).queue (name j) batch)).2,
        (coalesce sig (readDirtyKeys (s.member i).queue (name j) batch)).1,none,false⟩))
  | reread {i j p} (busy : s.edge i j = some p) : Taken s (.reread i j)
      (s.setEdge i j (some { p with staged := some (rereadVersioned (s.member i).replica p.keys) }))
  | ship {i j phase pt later p recs} (busy : s.edge i j = some p) (staged : p.staged = some recs) :
      Taken s (.ship i j phase pt later) (ship dialect s i j p recs phase pt later)
  | confirm {i j p} (busy : s.edge i j = some p) (done : p.shipped = true) : Taken s (.confirm i j)
      ((s.set i { s.member i with queue := confirmConsumed (s.member i).queue (name j) p.ids }).setEdge i j none)
  | stop {i j} : Taken s (.stop i j) ((s.setEdge i j none).setCopy i j none)
  | enforce {i j probe} (idle : Idle s i j) : Taken s (.enforce i j probe) (enforce dialect ret name s i j probe)
  | gc {i} : Taken s (.gc i) (s.set i (gcTombstones (s.member i)))
  | clear {i j now cleared plan t} (flagged : s.needsReseed i j = true) (ok : run (clearRow j now) s cleared = some t) :
      Taken s (.clear i j now cleared plan) (t.setCopy i j (some ⟨plan,fun _ => none,fun _ => false⟩))
  | read {i j c x} (busy : s.copy i j = some x) : Taken s (.read i j c) (s.setCopy i j
      (some { x with read := update x.read c (some (s.member i).replica.rows), loaded := update x.loaded c false }))
  | load {i j c x rows} (busy : s.copy i j = some x) (read : x.read c = some rows) :
      Taken s (.load i j c) (bulkLoad s i j x c rows)
  | unflag {i j x} (busy : s.copy i j = some x) (all : ∀ c < x.count, x.loaded c = true) :
      Taken s (.unflag i j) ((s.setFlag i j false).setCopy i j none)
  | clock {i pt inPhys inLog} : Taken s (.clock i pt inPhys inLog)
      (s.set i { s.member i with clock := observe (s.member i).clock pt inPhys inLog })
  | flag {i j} : Taken s (.flag i j) (s.setFlag i j true)

theorem stepTaken {s t : World K V N} {a} (ok : step dialect ret name sig s a = some t) :
    Taken dialect ret name sig s a t := by
  cases a with
  | client i pt now op => exact .client ok
  | gather i j batch =>
    simp only [step,gather] at ok
    split at ok <;> try contradiction
    rename_i idle
    split at ok <;> cases ok
    · exact .nothing
    · exact .gather idle.1
  | reread i j =>
    obtain ⟨p,busy,rfl⟩ := Option.map_eq_some_iff.mp ok
    exact .reread busy
  | ship i j phase pt later =>
    simp only [step,bind,Option.bind_eq_some_iff] at ok
    obtain ⟨p,busy,recs,staged,last⟩ := ok
    cases last
    exact .ship busy staged
  | confirm i j =>
    simp only [step,bind,Option.bind_eq_some_iff] at ok
    obtain ⟨p,busy,last⟩ := ok
    split at last <;> try contradiction
    rename_i done
    cases last
    exact .confirm busy done
  | enforce i j probe =>
    simp only [step] at ok
    split at ok <;> cases ok
    exact .enforce ‹_›
  | clear i j now cleared plan =>
    simp only [step] at ok
    split at ok <;> try contradiction
    obtain ⟨t,emptied,rfl⟩ := Option.map_eq_some_iff.mp ok
    rename_i free
    exact .clear free.2 emptied
  | read i j c =>
    obtain ⟨x,busy,rfl⟩ := Option.map_eq_some_iff.mp ok
    exact .read busy
  | load i j c =>
    obtain ⟨x,busy,last⟩ := Option.bind_eq_some_iff.mp ok
    obtain ⟨rows,read,rfl⟩ := Option.map_eq_some_iff.mp last
    exact .load busy read
  | unflag i j =>
    obtain ⟨x,busy,last⟩ := Option.bind_eq_some_iff.mp ok
    split at last <;> cases last
    rename_i all
    exact .unflag busy fun c below => List.all_eq_true.mp all c (List.mem_range.mpr below)
  | stop i j => cases ok; exact .stop
  | gc i => cases ok; exact .gc
  | clock i pt inPhys inLog => cases ok; exact .clock
  | flag i j => cases ok; exact .flag

end Step

def start (base : K → Option V) (clock : N → Clock) : World K V N where
  member i := ⟨⟨base,fun _ => none⟩,clock i,Queue.empty⟩
  edge _ _ := none
  copy _ _ := none
  needsReseed _ _ := false
  log := []
  writes := []
  accepted _ := []

end Replicare.Mesh
