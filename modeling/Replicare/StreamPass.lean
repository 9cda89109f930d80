import Replicare.FkAtomic
import Replicare.Reseed

/-! The stream of a daemon: pass after pass it drains every component, enforces the retention
and, when no component failed and the target is flagged, reseeds component by component. -/
namespace Replicare.StreamPass
open Engine hiding Component
open Relations Consume Stored Enforce Runs Rounds Staged Chunks CopyRun CopyProgram Reseed FkDrain FkPlan FkProgress
  FkAtomic

structure Setting where
  sync : Sync
  dialect : Dialect
  batch : Int
  ret : RetentionPolicy
  obs : Nat → TableRef → Purge.Probe
  arrange : Nat → List TableRef → Nat → Nat → Nat → List Nat

structure Stream where
  turn : Nat
  world : World
  todo : List (List TableRef)

def Stream.drained (x : Stream) : State := ⟨x.world.target,x.world.control.queue⟩

def attempts (drain : Nat → State → Result) : Nat → State → Result
  | 0, s => ⟨s,0,some .halt⟩
  | left+1, s =>
      if (drain left s).fault = some .transient then
        { attempts drain left (drain left s).state with
          total := (drain left s).total+(attempts drain left (drain left s).state).total }
      else drain left s

section Pass
variable (set : Setting)

def Setting.job (source : Base) (order : List TableRef) : Job := ⟨set.sync.fks,fun _ => [],source,order,set.sync.id,set.batch⟩

def drainComponentRetryingPool (turn : Nat) (source : Base) (order : List TableRef) (s : State) : Result :=
  attempts (fun i => drainComponentPool set.dialect false (set.job source order) (set.arrange turn order i)) maxAttempts s

def drainAll (drain : List TableRef → State → Result) : List (List TableRef) → State → State × Option Fault
  | [], s => (s,none)
  | order::rest, s =>
      if (drain order s).fault = none then drainAll drain rest (drain order s).state else ((drain order s).state,(drain order s).fault)

def drainPass (x : Stream) : State × Option Fault :=
  drainAll (drainComponentRetryingPool set x.turn x.world.source) set.sync.components x.drained

def retain (x : Stream) : Control KeyValues × EnforceResult :=
  enforce set.dialect [set.sync.id] set.ret set.sync.tables (set.obs x.turn) { x.world.control with queue := (drainPass set x).1.queue }

def targetNeedsReseed (w : World) : Prop := ∃ r ∈ set.sync.components.flatten, flagged set.sync w r = true
instance (w) : Decidable (targetNeedsReseed set w) := inferInstanceAs (Decidable (∃ r ∈ _, _))

def streamOnce (x : Stream) : Stream :=
  let world := { x.world with target := (drainPass set x).1.target, control := (retain set x).1 }
  ⟨x.turn+1,world,
    if (drainPass set x).2 = none ∧ (set.sync.id ∈ (retain set x).2.reseeded ∨ targetNeedsReseed set world) then set.sync.components else []⟩

end Pass

end Replicare.StreamPass
