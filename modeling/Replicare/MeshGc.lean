import Mathlib.Data.Fintype.Basic
import Replicare.MeshSteps

/-! Collection of tombstones. -/
namespace Replicare.Mesh
open Engine Consume Coalesce Purge Hlc MeshApply Runs

variable {K V N S : Type*} [DecidableEq K] [Inhabited V] [LinearOrder N] [DecidableEq S]

def GcSafe (dialect : Dialect) (ret : RetentionPolicy) (name : N ↪ TargetID) (sig : K → S) (s : World K V N) :
    Action K V N → Prop
  | .gather i j batch => KeepsKeys name sig s i j batch
  | .enforce i j probe => overCapTargets dialect (s.member i).queue [name j] ret probe = [] ∧
      ∀ d ∈ (s.member i).queue.deltas, Consumed (s.member i).queue (name j) d.id →
        ∀ l, l ≠ i → Consumed (s.member i).queue (name l) d.id
  | .gc i => CollectsOutlived s i
  | .clear .. | .read .. | .load .. | .unflag .. | .flag .. => False
  | _ => True

variable {dialect : Dialect} {ret : RetentionPolicy} {name : N ↪ TargetID} {sig : K → S} {base : K → Option V}
  {s t : World K V N}

omit [Inhabited V] in
theorem gcSafeCareful {a} (safe : GcSafe dialect ret name sig s a) : Careful dialect ret name sig False s a := by
  cases a with
  | client => exact fun none => none.elim
  | enforce i j probe =>
    intro d mem hit l foreign _
    rw [safe.1] at hit
    exact .inl (safe.2 d mem (hit.resolve_left Bool.false_ne_true) l foreign)
  | clear => exact safe.elim
  | load => exact safe.elim
  | gather => exact safe
  | gc => exact safe
  | _ => trivial

theorem gcSafeUnflagged {a} (clear : ∀ i j, s.needsReseed i j = false) (safe : GcSafe dialect ret name sig s a)
    (ok : step dialect ret name sig s a = some t) : ∀ i j, t.needsReseed i j = false := by
  cases stepTaken dialect ret name sig ok with
  | client ok =>
    unfold client at ok
    dsimp only at ok
    split at ok <;> try contradiction
    obtain ⟨u,event,rfl⟩ := Option.map_eq_some_iff.mp ok
    obtain ⟨q,_,rfl⟩ := Option.map_eq_some_iff.mp event
    exact clear
  | @enforce i j probe idle =>
    have none : (s.needsReseed i j || !(purge dialect (s.member i).queue [name j] ret probe).2.targetsReseeded.isEmpty) = false := by
      simp [clear,purgeReseeds,safe.1]
    intro a b
    simp only [enforce,World.setFlag,none]
    rcases putCases s.needsReseed i j false a b with ⟨_,_,new⟩ | ⟨_,old⟩
    · exact new
    · exact old.trans (clear a b)
  | clear | unflag | flag => exact safe.elim
  | _ => exact clear

section Decide
variable [Fintype N] [Fintype K]

instance (s : World K V N) (k v) : Decidable (Outlived s k v) :=
  decidable_of_iff ((∀ i, v.stamp ≤ (s.member i).clock) ∧
      (∀ i, ∀ e ∈ (s.member i).replica.register k, e.deleted = false → v ≤ e.version) ∧
      ∀ i j, ∀ p ∈ s.edge i j, ∀ recs ∈ p.staged, ∀ r ∈ recs, r.key = k → r.deleted = false → v ≤ r.version)
    ⟨fun ⟨clocks,registers,flying⟩ => ⟨clocks,registers,fun i j r ⟨p,recs,busy,staged,mem⟩ =>
        flying i j p busy recs staged r mem⟩,
      fun old => ⟨old.clocks,old.registers,fun i j p busy recs staged r mem =>
        old.flying i j r ⟨p,recs,busy,staged,mem⟩⟩⟩

instance (s : World K V N) (i) : Decidable (CollectsOutlived s i) :=
  decidable_of_iff (∀ k, ∀ e ∈ (s.member i).replica.register k,
    collectable (s.member i).queue k e = true → Outlived s k e.version) Iff.rfl

instance (s : World K V N) (i j batch) : Decidable (KeepsKeys name sig s i j batch) :=
  inferInstanceAs (Decidable (∀ x ∈ readDirtyKeys (s.member i).queue (name j) batch,
    x.key ∈ (coalesce sig (readDirtyKeys (s.member i).queue (name j) batch)).1))

instance (dialect ret name) (sig : K → S) (s : World K V N) (a) : Decidable (GcSafe dialect ret name sig s a) := by
  cases a <;> unfold GcSafe <;> infer_instance

instance (name) (s : World K V N) : Decidable (Drained name s) := by unfold Drained; infer_instance

end Decide

instance (x y : Record K V N) : Decidable (NoResurrection x y) := by unfold NoResurrection; infer_instance

def letters : Fin 3 ↪ TargetID := ⟨fun i => match i with | 0 => "a" | 1 => "b" | 2 => "c",by decide⟩

def noCaps : RetentionPolicy := ⟨0,0⟩

def pass (i j : N) : List (Action K V N) :=
  [.gather i j 0,.reread i j,.ship i j .delete 0 0,.confirm i j]

def spreadDelete : List (Action Unit Nat (Fin 3)) :=
  .client 0 1 0 (.insert () 5 1)::pass 0 1++pass 0 2++.client 0 2 0 (.delete () 2)::pass 0 1++pass 0 2++
    [.enforce 0 1 ⟨0,0⟩,.gc 0,.gc 1,.gc 2]

def lateRow : List (Action Unit Nat (Fin 3)) :=
  .client 2 1 0 (.insert () 5 1)::pass 2 1++.client 1 2 0 (.delete () 1)::pass 1 0++.gc 0::pass 2 0++pass 1 2

def Resurrects (dialect : Dialect) : Prop :=
  ∃ t ∈ run (step dialect noCaps letters id) (start (fun _ => none) fun _ => ⟨0,0⟩) lateRow,
    Drained letters t ∧ ¬(t.accepted 0).Pairwise NoResurrection ∧
    (t.member 0).replica.rows () = some 5 ∧ (t.member 1).replica.rows () = none

end Replicare.Mesh
