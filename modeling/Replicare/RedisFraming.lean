import Replicare.Engine
import Replicare.Runs
import Replicare.Wire

/-! The private framing of Redis records: key, TTL, flags, the version register of a mesh
record, and the DUMP payload, each behind its length. -/
namespace Replicare.RedisFraming
open Engine Wire Runs List

def flagMesh : UInt8 := 2
def flagDeleted : UInt8 := 4

structure Version where
  phys : Int64 := 0
  log : Int32 := 0
  node : Bytes := []
  deleted : Bool := false
  vhash : UInt64 := 0
  deriving DecidableEq, Repr

structure Record where
  key : Bytes
  ttl : Int64
  flags : UInt8
  dump : Bytes
  ver : Version
  deriving DecidableEq, Repr

def Record.mesh (r : Record) : Bool := r.flags &&& flagMesh != 0

def numbers (ver : Version) : Bytes :=
  be 8 ver.phys.toUInt64.toNat++(be 4 ver.log.toUInt32.toNat++(be 8 ver.vhash.toNat++be 2 ver.node.length))

def writeRegister (ver : Version) : Bytes := numbers ver++ver.node

def write (r : Record) : Bytes :=
  be 4 r.key.length++(r.key++(be 8 r.ttl.toUInt64.toNat++[r.flags]++
    ((if r.mesh then writeRegister r.ver else [])++(be 4 r.dump.length++r.dump))))

def readRegister (flags : UInt8) : Reader Version := do
  let mv ← torn (readFull 22)
  let node ← torn (readFull (value ((mv.drop 20).take 2)))
  return {
    phys := (UInt64.ofNat (value (mv.take 8))).toInt64,
    log := (UInt32.ofNat (value ((mv.drop 8).take 4))).toInt32,
    vhash := UInt64.ofNat (value ((mv.drop 12).take 8)),
    node := node,
    deleted := flags &&& flagDeleted != 0 }

def readVersion (flags : UInt8) : Reader Version :=
  if flags &&& flagMesh != 0 then readRegister flags else pure {}

def readBody (key : Bytes) (mid : Bytes) (ver : Version) : Reader Record := do
  let dl ← torn (readFull 4)
  let dump ← torn (readFull (value dl))
  return {
    key := key,
    ttl := (UInt64.ofNat (value (mid.take 8))).toInt64,
    flags := mid.getD 8 0,
    dump := dump,
    ver := ver }

def readAfterHeader (hdr : Bytes) : Reader Record := do
  let key ← torn (readFull (value hdr))
  let mid ← torn (readFull 9)
  let ver ← readVersion (mid.getD 8 0)
  readBody key mid ver

def readRecord : Reader Record := do
  let hdr ← readFull 4
  readAfterHeader hdr

structure WellFormed (r : Record) : Prop where
  key : r.key.length < 2^32
  dump : r.dump.length < 2^32
  node : r.ver.node.length < 2^16
  deleted : r.mesh = true → r.ver.deleted = (r.flags &&& flagDeleted != 0)
  plain : r.mesh = false → r.ver = {}

instance (r : Record) : Decidable (WellFormed r) :=
  decidable_of_iff (r.key.length < 2^32 ∧ r.dump.length < 2^32 ∧ r.ver.node.length < 2^16 ∧
      (r.mesh = true → r.ver.deleted = (r.flags &&& flagDeleted != 0)) ∧ (r.mesh = false → r.ver = {}))
    ⟨fun ⟨a,b,c,d,e⟩ => ⟨a,b,c,d,e⟩,fun h => ⟨h.key,h.dump,h.node,h.deleted,h.plain⟩⟩

theorem valueU64 (n) : UInt64.ofNat (value (be 8 n.toNat)) = n := by
  rw [valueOf n.toNat_lt,UInt64.ofNat_toNat]

theorem valueU32 (n : UInt32) : UInt32.ofNat (value (be 4 n.toNat)) = n := by
  rw [valueOf n.toNat_lt,UInt32.ofNat_toNat]

section Register
variable (ver : Version)

theorem numbersLength : (numbers ver).length = 22 := by
  simp [numbers,beLength]

theorem numbersPhys : (numbers ver).take 8 = be 8 ver.phys.toUInt64.toNat :=
  take_left' (beLength ..)

theorem numbersLog : ((numbers ver).drop 8).take 4 = be 4 ver.log.toUInt32.toNat :=
  cutOut (beLength ..) (beLength ..)

theorem numbersVhash : ((numbers ver).drop 12).take 8 = be 8 ver.vhash.toNat := by
  rw [numbers,←append_assoc]
  exact cutOut (by simp [beLength]) (beLength ..)

theorem numbersNode : ((numbers ver).drop 20).take 2 = be 2 ver.node.length := by
  rw [numbers,←append_assoc,←append_assoc,←append_nil (be 2 _)]
  exact cutOut (by simp [beLength]) (beLength ..)

end Register

theorem exactRegister {flags ver} (node : ver.node.length < 2^16)
    (deleted : ver.deleted = (flags &&& flagDeleted != 0)) : Exact (readRegister flags) (writeRegister ver) ver := by
  refine exactBind (exactFull (numbersLength ver)) ?_
  rw [numbersNode,valueOf node,numbersPhys,numbersLog,numbersVhash,valueU64,valueU32,valueU64,Int64.toInt64_toUInt64,
    Int32.toInt32_toUInt32,←deleted]
  exact exactMap (fun node => { ver with node := node }) (exactFull rfl)

theorem exactVersion {r} (well : WellFormed r) :
    Exact (readVersion r.flags) (if r.mesh then writeRegister r.ver else []) r.ver := by
  have flag : (r.flags &&& flagMesh != 0) = r.mesh := rfl
  rw [readVersion,flag]
  cases mesh : r.mesh with
  | true => exact exactRegister well.node (well.deleted mesh)
  | false =>
    rw [well.plain mesh]
    exact exactPure _

theorem exactBody (r) (dump : r.dump.length < 2^32) :
    Exact (readBody r.key (be 8 r.ttl.toUInt64.toNat++[r.flags]) r.ver) (be 4 r.dump.length++r.dump) r := by
  have ttl : (be 8 r.ttl.toUInt64.toNat++[r.flags]).take 8 = be 8 r.ttl.toUInt64.toNat := take_left' (beLength ..)
  have flags : (be 8 r.ttl.toUInt64.toNat++[r.flags]).getD 8 0 = r.flags := by
    simp [List.getD,beLength]
  unfold readBody
  rw [ttl,flags,valueU64,Int64.toInt64_toUInt64]
  refine exactBind (exactFull (beLength 4 _)) ?_
  rw [valueOf dump]
  exact exactMap (fun dump => { r with dump := dump }) (exactFull rfl)

theorem exactAfterHeader {r} (well : WellFormed r) :
    Exact (readAfterHeader (be 4 r.key.length)) (r.key++(be 8 r.ttl.toUInt64.toNat++[r.flags]++
      ((if r.mesh then writeRegister r.ver else [])++(be 4 r.dump.length++r.dump)))) r := by
  have flags : (be 8 r.ttl.toUInt64.toNat++[r.flags]).getD 8 0 = r.flags := by
    simp [List.getD,beLength]
  have size : (be 8 r.ttl.toUInt64.toNat++[r.flags]).length = 9 := by
    simp [beLength]
  unfold readAfterHeader
  rw [valueOf well.key]
  refine exactBind (exactFull rfl) (exactBind (exactFull size) ?_)
  rw [flags]
  exact exactBind (exactVersion well) (exactBody r well.dump)

theorem readWritten {r} (well : WellFormed r) (rest) : readRecord (write r++rest) = .ok (r,rest) := by
  have step : readRecord (write r++rest) = (readFull 4 (write r++rest)).bind fun x => readAfterHeader x.1 x.2 := rfl
  rw [step,write,append_assoc,readWhole (beLength 4 _)]
  exact (exactAfterHeader well).whole rest

theorem readTruncated {r} (well : WellFormed r) {part} (begins : part <+: write r) (proper : part ≠ write r) :
    readRecord part = .error (if part.isEmpty then .eof else .unexpectedEOF) := by
  have step : readRecord part = (readFull 4 part).bind fun x => readAfterHeader x.1 x.2 := rfl
  rw [step]
  rcases partAppend begins proper with ⟨early,short⟩ | ⟨rest,rfl,late,short⟩
  · rw [readCut (beLength 4 _) early short]
    rfl
  · rw [readWhole (beLength 4 _)]
    have started : (be 4 r.key.length++rest).isEmpty = false := by
      rw [isEmpty_eq_false_iff]
      exact fun none => by simpa [beLength] using congrArg List.length none
    rw [started]
    exact (exactAfterHeader well).cut rest late short

def readLoop : Nat → Bytes → List Record × Stop
  | 0, _ => ([],.eof)
  | fuel+1, s =>
    match readRecord s with
    | .error stop => ([],stop)
    | .ok (r,rest) => (r::(readLoop fuel rest).1,(readLoop fuel rest).2)

def readAll (s : Bytes) : List Record × Stop := readLoop (s.length+1) s

theorem writeLength (r) : 0 < (write r).length := by
  simp only [write,length_append,beLength]
  omega

theorem loopAppend {r} (well : WellFormed r) (fuel) (rest) :
    readLoop (fuel+1) (write r++rest) = (r::(readLoop fuel rest).1,(readLoop fuel rest).2) := by
  rw [readLoop,readWritten well]

theorem loopWhole {records} (well : ∀ r ∈ records, WellFormed r) {fuel}
    (enough : (records.flatMap write).length < fuel) : readLoop fuel (records.flatMap write) = (records,.eof) := by
  induction records generalizing fuel with
  | nil =>
    cases fuel with
    | zero => simp at enough
    | succ fuel => rfl
  | cons r records ih =>
    cases fuel with
    | zero => simp at enough
    | succ fuel =>
      have size := writeLength r
      rw [flatMap_cons,length_append] at enough
      rw [flatMap_cons,loopAppend (well r (.head _)),ih (fun r member => well r (.tail _ member)) (by omega)]

variable {records : List Record}

theorem loopPart (well : ∀ r ∈ records, WellFormed r) {part : Bytes} {fuel : Nat}
    (begins : part <+: records.flatMap write) (enough : part.length < fuel)
    (within : ∀ n, part ≠ (records.take n).flatMap write) :
    ∃ n, readLoop fuel part = (records.take n,.unexpectedEOF) ∧ (records.take n).flatMap write <+: part := by
  induction records generalizing part fuel with
  | nil => exact absurd (prefix_nil.mp begins) (within 0)
  | cons r records ih =>
    cases fuel with
    | zero => omega
    | succ fuel =>
      have whole : part ≠ write r++records.flatMap write := by
        simpa using within (records.length+1)
      rcases partAppend begins whole with ⟨early,short⟩ | ⟨rest,rfl,late,_⟩
      · have started : part.isEmpty = false := by
          simpa using within 0
        refine ⟨0,?_, nil_prefix⟩
        rw [readLoop,readTruncated (well r (.head _)) early short,started]
        rfl
      · have size := writeLength r
        rw [length_append] at enough
        have shorter : rest.length < fuel := by omega
        obtain ⟨n,reads,before⟩ := ih (fun r member => well r (.tail _ member)) late shorter
          (fun n same => within (n+1) (by rw [take_succ_cons,flatMap_cons,same]))
        refine ⟨n+1,?_,?_⟩
        · rw [loopAppend (well r (.head _)),reads,take_succ_cons]
        · rw [take_succ_cons,flatMap_cons]
          exact (prefix_append_right_inj _).mpr before

/- Goroutines on one stream: each holds the lock for the bytes of one record. -/
structure Shared where
  out : Bytes
  held : Option Bytes
  waiting : List (List Record)
  deriving DecidableEq, Repr

inductive Act where
  | lock (writer : Nat)
  | emit
  | unlock
  deriving DecidableEq, Repr

def act (s : Shared) : Act → Option Shared
  | .lock writer =>
    match s.held,s.waiting[writer]? with
    | none,some (r::rest) => some { s with held := some (write r), waiting := s.waiting.set writer rest }
    | _,_ => none
  | .emit =>
    match s.held with
    | some (b::rest) => some { s with out := s.out++[b], held := some rest }
    | _ => none
  | .unlock =>
    match s.held with
    | some [] => some { s with held := none }
    | _ => none

def newSyncWriter (writers : List (List Record)) : Shared := ⟨[],none,writers⟩

structure Whole (writers : List (List Record)) (s : Shared) (records : List Record) : Prop where
  all : (records++s.waiting.flatten).Perm writers.flatten
  bytes : s.out++s.held.getD [] = records.flatMap write

theorem takeFirst {l : List (List Record)} {i : Nat} {r : Record} {rest : List Record} (here : l[i]? = some (r::rest)) :
    (r::(l.set i rest).flatten).Perm l.flatten := by
  induction l generalizing i with
  | nil => simp at here
  | cons first l ih =>
    cases i with
    | zero =>
      simp only [getElem?_cons_zero,Option.some.injEq] at here
      rw [here]
      exact .refl _
    | succ i =>
      rw [set_cons_succ,flatten_cons,flatten_cons]
      exact perm_middle.symm.trans ((ih (by simpa using here)).append_left first)

theorem actWhole {writers : List (List Record)} {s t : Shared} {a : Act}
    (whole : Whole writers s records) (step : act s a = some t) : ∃ more, Whole writers t more := by
  cases a with
  | lock writer =>
    simp only [act] at step
    split at step
    · rename_i r rest held waiting
      cases step
      refine ⟨records++[r],?_,?_⟩
      · have moved := (takeFirst waiting).append_left records
        simpa using moved.trans whole.all
      · have bytes := whole.bytes
        rw [held] at bytes
        simpa using bytes
    · cases step
  | emit =>
    simp only [act] at step
    split at step
    · rename_i b rest held
      cases step
      have bytes := whole.bytes
      rw [held] at bytes
      exact ⟨records,whole.all,by simpa using bytes⟩
    · cases step
  | unlock =>
    simp only [act] at step
    split at step
    · rename_i held
      cases step
      have bytes := whole.bytes
      rw [held] at bytes
      exact ⟨records,whole.all,bytes⟩
    · cases step

theorem sharedWhole {writers acts s} (ran : run act (newSyncWriter writers) acts = some s) :
    ∃ order, Whole writers s order := by
  have start : Whole writers (newSyncWriter writers) [] := ⟨.refl _,rfl⟩
  refine runInvariant (P := fun s => ∃ order, Whole writers s order) ?_ ran ⟨[],start⟩
  rintro s a t ⟨order,whole⟩ step
  exact actWhole whole step

theorem framingRoundTrip {records : List Record} (well : ∀ r ∈ records, WellFormed r) : readAll (records.flatMap write) = (records,.eof) ∧
    (∀ part, part <+: records.flatMap write → (∀ n, part ≠ (records.take n).flatMap write) →
      ∃ n, readAll part = (records.take n,.unexpectedEOF) ∧ (records.take n).flatMap write <+: part) ∧
    ∀ writers acts s, run act (newSyncWriter writers) acts = some s →
      ∃ order, (order++s.waiting.flatten).Perm writers.flatten ∧ s.out <+: order.flatMap write ∧
        (s.held = none → s.out = order.flatMap write) := by
  refine ⟨loopWhole well (Nat.lt_succ_self _),?_,?_⟩
  · intro part begins within
    exact loopPart well begins (Nat.lt_succ_self _) within
  · intro writers acts s ran
    obtain ⟨order,whole⟩ := sharedWhole ran
    refine ⟨order,whole.all,⟨_,whole.bytes⟩,fun free => ?_⟩
    rw [←whole.bytes,free]
    simp

def plainRecord : Record := ⟨[107],5000,0,[1,2,3],{}⟩
def meshTombstone : Record := ⟨[],0,6,[],⟨1700,1,[97],true,9⟩⟩

theorem framingTwo : (∀ r ∈ [plainRecord,meshTombstone], WellFormed r) ∧
    readAll ([plainRecord,meshTombstone].flatMap write) = ([plainRecord,meshTombstone],.eof) := by
  have well : ∀ r ∈ [plainRecord,meshTombstone], WellFormed r := by decide
  exact ⟨well,(framingRoundTrip well).1⟩

example : readAll ((write plainRecord).take 6) = ([],.unexpectedEOF) := by decide

example : run act (newSyncWriter [[plainRecord],[meshTombstone]]) [.lock 1,.lock 0] = none := by decide

end Replicare.RedisFraming
