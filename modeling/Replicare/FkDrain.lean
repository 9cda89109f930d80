import Replicare.Consume
import Replicare.Coalesce
import Replicare.Rounds
import Replicare.Stored

/-! Drain passes over the tables of a foreign key component. -/
namespace Replicare.FkDrain
open Engine Relations Consume Coalesce Stored Rounds

abbrev Queues := TableRef → Queue KeyValues

structure State where
  target : Base
  queue : Queues

structure Job where
  fks : List ForeignKey
  cyclicCols : TableRef → List String
  source : Base
  tables : List TableRef
  id : TargetID
  batch : Int

structure Work where
  ref : TableRef
  distinct : List KeyValues
  ids : List DeltaID
  deriving DecidableEq, Repr

structure Outcome where
  state : State
  total : Nat
  transient : Bool

variable (job : Job)

def workOf (queue : Queues) (ref : TableRef) : Work where
  ref := ref
  distinct := (coalesce keySignature (readDirtyKeys (queue ref) job.id job.batch)).1
  ids := (coalesce keySignature (readDirtyKeys (queue ref) job.id job.batch)).2

def gatherWork (queue : Queues) : List Work :=
  (job.tables.filter fun ref => !(readDirtyKeys (queue ref) job.id job.batch).isEmpty).map (workOf job queue)

def rereadCurrent (w : Work) : Rows := (job.source w.ref).filter fun e => decide (e.1 ∈ w.distinct)

def perTableUpsert (b : Base) (w : Work) : Option Base := accept job.fks (upsert b w.ref (rereadCurrent job w))

def deleteAbsent (b : Base) (w : Work) : Option Base :=
  accept job.fks (erase b w.ref fun k => decide (k ∈ w.distinct) && !decide (k ∈ (rereadCurrent job w).map Prod.fst))

def perTableDelete (b : Base) (w : Work) : Option Base := (perTableUpsert job b w).bind fun b => deleteAbsent job b w

/- The cyclic columns are left out of the upsert, so that they are NULL in a new row
and keep their value in an old one. -/
def stageUpsertCyclic (b : Base) (w : Work) : Option Base :=
  accept job.fks (merge b w.ref (job.cyclicCols w.ref) (rereadCurrent job w))

def fillCyclic (b : Base) (w : Work) : Option Base :=
  if job.cyclicCols w.ref = [] then some b
  else accept job.fks (fill b w.ref (job.cyclicCols w.ref) (rereadCurrent job w))

def perTableApplyCyclic (del fill : Bool) (b : Base) (w : Work) : Option Base :=
  (stageUpsertCyclic job b w).bind fun b =>
    (if fill then fillCyclic job b w else some b).bind fun b =>
      if del then deleteAbsent job b w else some b

def confirmWork (queue : Queues) (w : Work) : Queues :=
  Function.update queue w.ref (confirmConsumed (queue w.ref) job.id w.ids)

def topoOrder (j n : Nat) : List Nat := if j = 1 then (List.range n).reverse else List.range n

def drainAcyclic (arrange : Nat → Nat → List Nat) (s : State) : Outcome :=
  let work := gatherWork job s.queue
  let upserted := phase (perTableUpsert job) (arranged arrange 0 work) s.target
  let deleted := phase (fun (s : State) w => (perTableDelete job s.target w).map fun b => ⟨b,confirmWork job s.queue w⟩)
    (arranged arrange 1 upserted.2) ⟨upserted.1,s.queue⟩
  ⟨deleted.1,(deleted.2.map fun w => w.ids.length).sum,decide (deleted.2.length < work.length)⟩

def drainAcyclicSeq (s : State) : Outcome := drainAcyclic job topoOrder s

def nullFillPhase : Nat → Base → Work → Option Base
  | 0, b, w => perTableApplyCyclic job false false b w
  | 1, b, w => perTableApplyCyclic job true false b w
  | _, b, w => if job.cyclicCols w.ref = [] then some b else perTableApplyCyclic job false true b w

def drainPhases (phases : Nat) (arrange : Nat → Nat → List Nat) (s : State) : Outcome :=
  let work := gatherWork job s.queue
  let took := pass (nullFillPhase job) (arranged arrange) phases 0 work s.target
  ⟨⟨took.1,took.2.foldl (confirmWork job) s.queue⟩,(took.2.map fun w => w.ids.length).sum,
    decide (took.2.length < work.length)⟩

def drainCyclicNullFill (arrange : Nat → Nat → List Nat) (s : State) : Outcome := drainPhases job 3 arrange s

def drainCyclicNullFillSeq (s : State) : Outcome := drainCyclicNullFill job topoOrder s

def passes (step : Nat → State → State) (s : State) : Nat → State
  | 0 => s
  | n+1 => step n (passes step s n)

def Drained (s : State) : Prop :=
  ∀ r ∈ job.tables, unconsumed (s.queue r) job.id = [] ∧ ∀ k, view s.target r k = view job.source r k

def Covered (s : State) : Prop :=
  ∀ r ∈ job.tables, ∀ k, view s.target r k ≠ view job.source r k → ∃ d ∈ unconsumed (s.queue r) job.id, d.key = k

def ParentsFirst : Prop := ∀ fk ∈ job.fks, job.tables.idxOf fk.parent < job.tables.idxOf fk.child
instance : Decidable (ParentsFirst job) := inferInstanceAs (Decidable (∀ fk ∈ job.fks, _))

variable {job}

theorem topoOrderWhole : Whole topoOrder := by
  intro j n
  unfold topoOrder
  split
  · exact List.reverse_perm _
  · exact List.Perm.refl _

theorem topoForward {ω : Type*} {j} (other : j ≠ 1) (l : List ω) : arranged topoOrder j l = l := by
  rw [arranged,topoOrder,if_neg other,pickRange]

theorem topoBackward {ω : Type*} (l : List ω) : arranged topoOrder 1 l = l.reverse := by
  rw [arranged,topoOrder,if_pos rfl,pickReverse]

theorem coveredOfListed {s} (each : ∀ r ∈ job.tables, ∀ e ∈ s.target r++job.source r,
    ∃ d ∈ unconsumed (s.queue r) job.id, d.key = e.1) : Covered job s := by
  intro r known k differs
  cases old : view s.target r k with
  | some x =>
    obtain ⟨e,mem,rfl⟩ := lookupMem old
    exact each r known e (List.mem_append_left _ mem)
  | none =>
    cases new : view job.source r k with
    | some x =>
      obtain ⟨e,mem,rfl⟩ := lookupMem new
      exact each r known e (List.mem_append_right _ mem)
    | none => exact absurd (old.trans new.symm) differs

theorem phaseConfirms (ws) (b) (queue) :
    phase (fun (s : State) w => (perTableDelete job s.target w).map fun b => ⟨b,confirmWork job s.queue w⟩) ws ⟨b,queue⟩ =
      (⟨(phase (perTableDelete job) ws b).1,(phase (perTableDelete job) ws b).2.foldl (confirmWork job) queue⟩,
        (phase (perTableDelete job) ws b).2) := by
  induction ws generalizing b queue with
  | nil => rfl
  | cons w ws ih =>
    simp only [phase]
    cases taken : perTableDelete job b w with
    | none => exact ih b queue
    | some c => simp only [Option.map_some,ih,List.foldl_cons]

def Job.plain (job : Job) : Job := { job with cyclicCols := fun _ => [] }

theorem stageUpsertPlain : stageUpsertCyclic job.plain = perTableUpsert job := by
  funext b w
  exact congrArg (accept job.fks) (mergeWhole b w.ref _)

theorem upsertCyclic : perTableUpsert job = nullFillPhase job.plain 0 := by
  funext b w
  simp only [nullFillPhase,perTableApplyCyclic,stageUpsertPlain]
  cases perTableUpsert job b w <;> rfl

theorem deleteCyclic : perTableDelete job = nullFillPhase job.plain 1 := by
  funext b w
  simp only [nullFillPhase,perTableApplyCyclic,stageUpsertPlain,perTableDelete]
  rfl

theorem drainAcyclicPhases (arrange s) : drainAcyclic job arrange s = drainPhases job.plain 2 arrange s := by
  unfold drainAcyclic
  simp only [phaseConfirms]
  rw [upsertCyclic,deleteCyclic]
  rfl

theorem passesStay {step s} (same : ∀ n, step n s = s) (n) : passes step s n = s := by
  induction n with
  | zero => rfl
  | succ n ih => rw [passes,ih,same]

end Replicare.FkDrain
