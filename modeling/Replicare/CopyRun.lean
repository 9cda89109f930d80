import Replicare.Chunks
import Replicare.Enforce
import Replicare.Runs

/-! The daemon of one target as it brings tables up, streams and reseeds, step by step and
interleaved with commits at the source. -/
namespace Replicare.CopyRun
open Engine hiding Component
open Relations Consume Stored Chunks Enforce Function

structure Sync where
  fks : List ForeignKey
  components : List (List TableRef)
  distinct : components.flatten.Nodup
  id : TargetID
  le : KeyValues → KeyValues → Bool
  targetRows : Int

def Sync.tables (sync : Sync) : Enforce.Component := ⟨sync.components.flatten,sync.distinct⟩

structure CopyProgress where
  watermark : Option KeyValues
  done : Bool
  deriving DecidableEq, Repr

inductive LoadMode where
  | direct
  | merge
  deriving DecidableEq, Repr

inductive Slot where
  | waiting (retried : Bool)
  | reading (retried : Bool) (rows : Rows)
  | landed
  | done

def Slot.isDone : Slot → Bool
  | .done => true
  | _ => false

structure Copying where
  ref : TableRef
  mode : LoadMode
  parts : List (Chunk × Slot)

inductive Instr where
  | install
  | copy (r : TableRef)
  | cut (r : TableRef)
  | clear (r : TableRef)
  | reset (r : TableRef)
  | unflag (r : TableRef)
  deriving DecidableEq, Repr

inductive Kind where
  | bringup
  | reseed
  deriving DecidableEq, Repr

inductive Mode where
  | down
  | streaming
  | busy (kind : Kind) (current : Option Copying) (rest : List Instr)

structure World where
  source : Base
  target : Base
  control : Control KeyValues
  progress : TableRef → CopyProgress
  captured : Bool
  mode : Mode

def copyAndCutover (order : List TableRef) : List Instr := order.map .copy++order.map .cut

def bringup (sync : Sync) : List Instr := .install::sync.components.flatMap copyAndCutover

def reseedRun (order : List TableRef) : List Instr :=
  order.reverse.map .clear++(order.map .reset++(order.map .copy++order.map .unflag))

structure Change where
  table : TableRef
  key : KeyValues
  row : Option Row
  id : DeltaID
  op : Op
  rcAt : Int

def Change.apply (b : Base) (c : Change) : Base :=
  match c.row with
  | some x => upsert b c.table [(c.key,x)]
  | none => erase b c.table fun k => decide (k = c.key)

def captureChange (control : Control KeyValues) (c : Change) : Option (Control KeyValues) :=
  if fresh : Fresh (control.queue c.table) c.id then
    some (control.put c.table (capture (control.queue c.table) ⟨c.id,c.op,c.key,c.rcAt⟩ fresh))
  else none

inductive Act where
  | commit (changes : List Change)
  | restart
  | reseed (order : List TableRef)
  | drained (target : Base) (queue : TableRef → Queue KeyValues)
  | enforced (dialect : Dialect) (ret : RetentionPolicy) (obs : TableRef → Purge.Probe)
  | plan (probed : Bool)
  | read (i : Nat)
  | land (i : Nat)
  | retry (i : Nat)
  | mark (i : Nat)
  | finish
  | exec
  | crash

def Act.pass : Act → Bool
  | .drained _ _ => true
  | .enforced _ _ _ => true
  | _ => false

section Step
variable (sync : Sync)

def World.saveProgress (w : World) (r : TableRef) (p : CopyProgress) : World :=
  { w with progress := update w.progress r p }

def World.record (w : World) (r : TableRef) (p : Option CopyProgress) : World := p.elim w (w.saveProgress r)

def World.saveCursor (w : World) (r : TableRef) (c : Cursor) : World :=
  { w with control := { w.control with
      cursor := update w.control.cursor sync.id (update (w.control.cursor sync.id) r c) } }

/- An empty target is loaded directly, unless the probe failed. -/
def resolveLoadMode (b : Base) (r : TableRef) (probed : Bool) : LoadMode :=
  if probed ∧ b r = [] then .direct else .merge

def bulkLoad (b : Base) (r : TableRef) (rows : Rows) : LoadMode → Option Base
  | .direct => if ∃ e ∈ rows, e.1 ∈ (b r).map Prod.fst then none else accept sync.fks (upsert b r rows)
  | .merge => accept sync.fks (upsert b r rows)

def leading (parts : List (Chunk × Slot)) : Nat := (parts.takeWhile fun p => p.2.isDone).length

def checkpoint (before after : List (Chunk × Slot)) : Option CopyProgress :=
  if leading before < leading after ∧ leading after < after.length then
    some ⟨(after[leading after-1]?).bind fun p => p.1.hi,false⟩
  else none

def instruct (w : World) : Instr → Option World
  | .install => some { w with captured := true }
  | .copy _ => none
  | .cut r => some (w.saveCursor sync r { w.control.cursor sync.id r with phase := .streaming })
  | .clear r => (accept sync.fks (erase w.target r fun _ => true)).map fun b => { w with target := b }
  | .reset r => some (w.saveProgress r ⟨none,false⟩)
  | .unflag r => some (w.saveCursor sync r ⟨.streaming,false⟩)

def World.fail (w : World) : Kind → World
  | .bringup => { w with mode := .down }
  | .reseed => { w with mode := .streaming }

def World.next (w : World) (kind : Kind) (rest : List Instr) : World :=
  { w with mode := if rest = [] then .streaming else .busy kind none rest }

def World.parts (w : World) (kind : Kind) (c : Copying) (rest : List Instr) (i : Nat) (p : Chunk × Slot) : World :=
  { w with mode := .busy kind (some { c with parts := c.parts.set i p }) rest }

def step (w : World) : Act → Option World
  | .commit changes =>
      let source := changes.foldl Change.apply w.source
      if Consistent sync.fks (view source) then
        if w.captured then (changes.foldlM captureChange w.control).map fun c => { w with source := source, control := c }
        else some { w with source := source }
      else none
  | .crash => some { w with mode := .down }
  | .restart =>
      match w.mode with
      | .down => some { w with mode := .busy .bringup none (bringup sync) }
      | _ => none
  | .reseed order =>
      match w.mode with
      | .streaming =>
          if order ∈ sync.components ∧ order ≠ [] then some { w with mode := .busy .reseed none (reseedRun order) } else none
      | _ => none
  | .drained target queue =>
      match w.mode with
      | .streaming => some { w with target := target, control := { w.control with queue := queue } }
      | _ => none
  | .enforced dialect ret obs =>
      match w.mode with
      | .streaming => some { w with control := (enforce dialect [sync.id] ret sync.tables obs w.control).1 }
      | _ => none
  | .plan probed =>
      match w.mode with
      | .busy kind none (.copy r::rest) =>
          if (w.progress r).done then some (w.next kind rest)
          else
            let chunks := planChunks sync.le (w.source r) sync.targetRows (w.progress r).watermark
            let current := ⟨r,resolveLoadMode w.target r probed,chunks.map fun c => (c,.waiting false)⟩
            some { w with mode := .busy kind (some current) (.copy r::rest) }
      | _ => none
  | .read i =>
      match w.mode with
      | .busy kind (some c) rest =>
          match c.parts[i]? with
          | some (chunk,.waiting retried) =>
              some (w.parts kind c rest i (chunk,.reading retried (copyChunk sync.le (w.source c.ref) chunk)))
          | _ => none
      | _ => none
  | .land i =>
      match w.mode with
      | .busy kind (some c) rest =>
          match c.parts[i]? with
          | some (chunk,.reading retried rows) =>
              match bulkLoad sync w.target c.ref rows (if retried then .merge else c.mode) with
              | some b => some { w.parts kind c rest i (chunk,.landed) with target := b }
              | none => some (w.fail kind)
          | _ => none
      | _ => none
  -- the connection dropped, and the load may have landed without the worker knowing
  | .retry i =>
      match w.mode with
      | .busy kind (some c) rest =>
          match c.parts[i]? with
          | some (chunk,.reading _ _) | some (chunk,.landed) => some (w.parts kind c rest i (chunk,.waiting true))
          | _ => none
      | _ => none
  | .mark i =>
      match w.mode with
      | .busy kind (some c) rest =>
          match c.parts[i]? with
          | some (chunk,.landed) =>
              some ((w.parts kind c rest i (chunk,.done)).record c.ref (checkpoint c.parts (c.parts.set i (chunk,.done))))
          | _ => none
      | _ => none
  | .finish =>
      match w.mode with
      | .busy kind (some c) (_::rest) =>
          if c.parts.all fun p => p.2.isDone then some ((w.saveProgress c.ref ⟨none,true⟩).next kind rest) else none
      | _ => none
  | .exec =>
      match w.mode with
      | .busy _ none (.copy _::_) => none
      | .busy kind none (i::rest) =>
          match instruct sync w i with
          | some w => some (w.next kind rest)
          | none => some (w.fail kind)
      | _ => none

end Step

variable {w : World}

theorem nextMode {kind rest kind' c rest'} : (w.next kind rest).mode ≠ .busy kind' (some c) rest' := by
  unfold World.next
  split <;> simp

theorem failMode {kind kind' c rest} : (w.fail kind).mode ≠ .busy kind' c rest := by
  cases kind <;> simp [World.fail]

theorem nextBusy {kind rest kind' current rest'} (at_ : (w.next kind rest).mode = .busy kind' current rest') :
    kind' = kind ∧ current = none ∧ rest' = rest := by
  unfold World.next at at_
  split at at_ <;> cases at_
  exact ⟨rfl,rfl,rfl⟩

theorem recordMode (r : TableRef) (p : Option CopyProgress) : (w.record r p).mode = w.mode := by
  cases p <;> rfl

/- All that a step can do. -/
inductive Moves (sync : Sync) (w : World) : Act → World → Prop where
  | commit {changes control} (held : Consistent sync.fks (view (changes.foldl Change.apply w.source)))
      (captures : w.captured = true ∧ changes.foldlM captureChange w.control = some control ∨
        w.captured = false ∧ control = w.control) :
      Moves sync w (.commit changes) { w with source := changes.foldl Change.apply w.source, control := control }
  | crash : Moves sync w .crash { w with mode := .down }
  | restart (idle : w.mode = .down) : Moves sync w .restart { w with mode := .busy .bringup none (bringup sync) }
  | reseed {order} (idle : w.mode = .streaming) (known : order ∈ sync.components) (nonempty : order ≠ []) :
      Moves sync w (.reseed order) { w with mode := .busy .reseed none (reseedRun order) }
  | drained {target queue} (idle : w.mode = .streaming) :
      Moves sync w (.drained target queue) { w with target := target, control := { w.control with queue := queue } }
  | enforced {dialect ret obs} (idle : w.mode = .streaming) : Moves sync w (.enforced dialect ret obs)
      { w with control := (enforce dialect [sync.id] ret sync.tables obs w.control).1 }
  | skip {probed kind r rest} (at_ : w.mode = .busy kind none (.copy r::rest)) (copied : (w.progress r).done = true) :
      Moves sync w (.plan probed) (w.next kind rest)
  | plan {probed kind r rest} (at_ : w.mode = .busy kind none (.copy r::rest)) (copied : (w.progress r).done = false) :
      Moves sync w (.plan probed) { w with mode := .busy kind (some ⟨r,resolveLoadMode w.target r probed,
        (planChunks sync.le (w.source r) sync.targetRows (w.progress r).watermark).map fun c => (c,.waiting false)⟩) (.copy r::rest) }
  | read {i kind c rest chunk retried} (at_ : w.mode = .busy kind (some c) rest)
      (part : c.parts[i]? = some (chunk,.waiting retried)) : Moves sync w (.read i)
        (w.parts kind c rest i (chunk,.reading retried (copyChunk sync.le (w.source c.ref) chunk)))
  | land {i kind c rest chunk retried rows b} (at_ : w.mode = .busy kind (some c) rest)
      (part : c.parts[i]? = some (chunk,.reading retried rows))
      (loaded : bulkLoad sync w.target c.ref rows (if retried then .merge else c.mode) = some b) :
      Moves sync w (.land i) { w.parts kind c rest i (chunk,.landed) with target := b }
  | refused {i kind c rest chunk retried rows} (at_ : w.mode = .busy kind (some c) rest)
      (part : c.parts[i]? = some (chunk,.reading retried rows))
      (loaded : bulkLoad sync w.target c.ref rows (if retried then .merge else c.mode) = none) :
      Moves sync w (.land i) (w.fail kind)
  | retry {i kind c rest chunk slot} (at_ : w.mode = .busy kind (some c) rest) (part : c.parts[i]? = some (chunk,slot))
      (uncounted : slot.isDone = false) : Moves sync w (.retry i) (w.parts kind c rest i (chunk,.waiting true))
  | mark {i kind c rest chunk} (at_ : w.mode = .busy kind (some c) rest) (part : c.parts[i]? = some (chunk,.landed)) :
      Moves sync w (.mark i)
        ((w.parts kind c rest i (chunk,.done)).record c.ref (checkpoint c.parts (c.parts.set i (chunk,.done))))
  | finish {kind c i rest} (at_ : w.mode = .busy kind (some c) (i::rest)) (all : ∀ p ∈ c.parts, p.2.isDone = true) :
      Moves sync w .finish ((w.saveProgress c.ref ⟨none,true⟩).next kind rest)
  | exec {kind i rest after} (at_ : w.mode = .busy kind none (i::rest)) (did : instruct sync w i = some after) :
      Moves sync w .exec (after.next kind rest)
  | failed {kind i rest} (at_ : w.mode = .busy kind none (i::rest)) (other : ∀ r, i ≠ .copy r)
      (did : instruct sync w i = none) : Moves sync w .exec (w.fail kind)

theorem stepMoves {sync w a w'} (ok : step sync w a = some w') : Moves sync w a w' := by
  cases a with
  | commit changes =>
    simp only [step] at ok
    split at ok <;> try contradiction
    rename_i held
    split at ok
    · rename_i captured
      obtain ⟨control,captures,rfl⟩ := Option.map_eq_some_iff.mp ok
      exact .commit held (.inl ⟨captured,captures⟩)
    · rename_i captured
      cases ok
      exact .commit held (.inr ⟨Bool.eq_false_iff.mpr captured,rfl⟩)
  | crash =>
    cases ok
    exact .crash
  | restart =>
    simp only [step] at ok
    split at ok <;> cases ok
    exact .restart ‹_›
  | reseed order =>
    simp only [step] at ok
    split at ok <;> try contradiction
    split at ok <;> cases ok
    rename_i idle known
    exact .reseed idle known.1 known.2
  | drained target queue =>
    simp only [step] at ok
    split at ok <;> cases ok
    exact .drained ‹_›
  | enforced dialect ret obs =>
    simp only [step] at ok
    split at ok <;> cases ok
    exact .enforced ‹_›
  | plan probed =>
    simp only [step] at ok
    split at ok <;> try contradiction
    rename_i at_
    split at ok <;> cases ok
    · exact .skip at_ ‹_›
    · exact .plan at_ (Bool.eq_false_iff.mpr ‹_›)
  | read i =>
    simp only [step] at ok
    split at ok <;> try contradiction
    rename_i at_
    split at ok <;> cases ok
    exact .read at_ ‹_›
  | land i =>
    simp only [step] at ok
    split at ok <;> try contradiction
    rename_i at_
    split at ok <;> try contradiction
    rename_i part
    split at ok <;> cases ok
    · exact .land at_ part ‹_›
    · exact .refused at_ part ‹_›
  | retry i =>
    simp only [step] at ok
    split at ok <;> try contradiction
    rename_i at_
    split at ok <;> cases ok
    · exact .retry at_ ‹_› rfl
    · exact .retry at_ ‹_› rfl
  | mark i =>
    simp only [step] at ok
    split at ok <;> try contradiction
    rename_i at_
    split at ok <;> cases ok
    exact .mark at_ ‹_›
  | finish =>
    simp only [step] at ok
    split at ok <;> try contradiction
    rename_i at_
    split at ok <;> cases ok
    exact .finish at_ (List.all_eq_true.mp ‹_›)
  | exec =>
    simp only [step] at ok
    split at ok <;> try contradiction
    rename_i other at_
    split at ok <;> cases ok
    · exact .exec at_ ‹_›
    · exact .failed at_ other ‹_›

section Captured
variable {sync : Sync} {w w' : World}

theorem failCaptured (kind) : (w.fail kind).captured = w.captured := by
  cases kind <;> rfl

theorem recordCaptured (r) (p) : (w.record r p).captured = w.captured := by
  cases p <;> rfl

theorem instructCaptured {i after} (did : instruct sync w i = some after) (captured : w.captured = true) : after.captured = true := by
  cases i with
  | copy t => cases did
  | clear t =>
    obtain ⟨b,_,rfl⟩ := Option.map_eq_some_iff.mp did
    exact captured
  | install => cases did; rfl
  | _ => cases did; exact captured

theorem capturedMoves {a} (moves : Moves sync w a w') (captured : w.captured = true) : w'.captured = true := by
  cases moves with
  | exec _ did =>
    have after := instructCaptured did captured
    exact after
  | mark _ _ => exact (recordCaptured _ _).trans captured
  | refused | failed => exact (failCaptured _).trans captured
  | _ => exact captured

end Captured

end Replicare.CopyRun
