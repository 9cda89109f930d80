import Replicare.CopyCovers
import Replicare.CopyProgram

/-! A bring-up from an empty target, with crashes and restarts, while the source goes on:
at the cutover of a component the queue has a delta for every key that still differs. -/
namespace Replicare.Bringup
open Engine hiding Component
open Relations Consume Stored Enforce Runs Chunks CopyRun CopyCovers CopyProgram

/- Nothing is on the target, saved or captured yet. -/
structure Initial (w : World) : Prop where
  idle : w.mode = .down
  empty : ∀ r, w.target r = []
  fresh : ∀ r, w.progress r = ⟨none,false⟩
  uncaptured : w.captured = false

/- The daemon does not stream or reseed before its first bring-up is through. -/
def ofBringup : Act → Bool
  | .drained _ _ => false
  | .enforced _ _ _ => false
  | .reseed _ => false
  | _ => true

section Invariant
variable {sync : Sync} {w w' : World} {a : Act}

theorem notPass (only : ofBringup a = true) : a.pass = false := by
  cases a <;> first | rfl | cases only

structure Untouched (sync : Sync) (w : World) : Prop where
  uncaptured : w.captured = false
  empty : ∀ r, w.target r = []
  fresh : ∀ r, w.progress r = ⟨none,false⟩
  early : Early sync w

structure Covered (sync : Sync) (w : World) : Prop where
  captured : w.captured = true
  kept : ∀ r, Kept sync w r
  kind : ∀ kind current rest, w.mode = .busy kind current rest → kind = .bringup

theorem keptEmpty {r} (empty : w.target r = []) (fresh : w.progress r = ⟨none,false⟩)
    (idle : ∀ kind c rest, w.mode ≠ .busy kind (some c) rest) : Kept sync w r := by
  refine ⟨fun k there => absurd ?_ there,filledFresh fresh,fun kind c rest at_ => absurd at_ (idle kind c rest)⟩
  unfold view
  rw [empty]
  rfl

theorem Untouched.moves (held : Untouched sync w) (moves : Moves sync w a w') : Untouched sync w' ∨ Covered sync w' := by
  rcases earlyMoves held.early moves with ⟨early,target,progress,captured⟩ | ⟨rest,rfl⟩
  · refine .inl ⟨captured.trans held.uncaptured,fun r => ?_,fun r => ?_,early⟩
    · rw [target]
      exact held.empty r
    · rw [progress]
      exact held.fresh r
  · exact .inr ⟨rfl,fun r => keptEmpty (held.empty r) (held.fresh r) fun _ _ _ => nextMode,fun _ _ _ now => (nextBusy now).1⟩

theorem kindMoves (moves : Moves sync w a w') (only : ofBringup a = true)
    (held : ∀ kind current rest, w.mode = .busy kind current rest → kind = .bringup) :
    ∀ kind current rest, w'.mode = .busy kind current rest → kind = .bringup := by
  intro kind current rest now
  rcases processFrom moves now with ⟨same,_,_⟩ | ⟨order,_,_,rfl,_⟩ | ⟨current,rest,was,_⟩
  · exact same
  · cases only
  · exact held kind current rest was

def Reached (sync : Sync) (w : World) : Prop := Position sync w ∧ (Untouched sync w ∨ Covered sync w)

theorem reachedStep (held : Reached sync w) (only : ofBringup a = true) (ok : step sync w a = some w') : Reached sync w' := by
  have moves := stepMoves ok
  refine ⟨positionMoves moves held.1,?_⟩
  rcases held.2 with untouched | covered
  · exact untouched.moves moves
  · refine .inr ⟨capturedMoves moves covered.captured,fun r => ?_,kindMoves moves only covered.kind⟩
    refine keptMoves moves covered.captured (notPass only) (fun kind rest at_ => ?_) (covered.kept r)
    cases covered.kind _ _ _ at_
    rcases bringupAt held.1 at_ with none | ⟨_,none⟩ | ⟨_,none⟩ <;> cases none

theorem reachedRun {w₀ acts} (initial : Initial w₀) (only : ∀ a ∈ acts, ofBringup a = true)
    (ran : run (step sync) w₀ acts = some w) : Reached sync w := by
  have start : Reached sync w₀ := by
    refine ⟨positionIdle fun _ _ _ none => ?_,.inl ⟨initial.uncaptured,initial.empty,initial.fresh,.inl initial.idle⟩⟩
    cases initial.idle.symm.trans none
  have along : Along (step sync) (fun _ a => ofBringup a = true) w₀ acts := alongOfAll fun a mem _ => only a mem
  exact runKeeps (fun _ _ _ held only ok => reachedStep held only ok) along ran start

end Invariant

theorem bringupLosesNothing {sync : Sync} {w₀ w : World} {acts : List Act} {kind : Kind} {t : TableRef} {rest : List Instr}
    {order : List TableRef} (initial : Initial w₀) (only : ∀ a ∈ acts, ofBringup a = true)
    (ran : run (step sync) w₀ acts = some w) (cutover : w.mode = .busy kind none (.cut t::rest))
    (known : order ∈ sync.components) (component : t ∈ order) :
    ∀ r ∈ order, ∀ k, view w.target r k ≠ view w.source r k → Pending sync w r k := by
  intro r table k differs
  obtain ⟨position,held⟩ := reachedRun initial only ran
  rcases held with untouched | covered
  · rcases untouched.early with mode | mode <;> cases mode.symm.trans cutover
  · cases covered.kind _ _ _ cutover
    obtain ⟨before,placed⟩ := position _ _ _ cutover
    have split : bringup sync = before++.cut t::rest := Eq.symm placed.known
    have copied := placed.copied r (copiedBeforeCut split known component table)
    exact (doneSafe (covered.kept r) copied k).resolve_left differs

section Orders

def number : KeyValues → Nat
  | [some [x]] => x.toNat
  | _ => 0
def byNumber (a b : KeyValues) : Bool := decide (number a ≤ number b)
def order (id note : UInt8) : KeyValues × Row :=
  ([some [id]],fun c => if c = "id" then some [id] else if c = "note" then some [note] else none)
def ordersSync : Sync := ⟨[],[[orders]],by decide,"copy",byNumber,1⟩
def ordersEmpty : World where
  source := fun r => if r = orders then [order 1 0,order 2 0] else []
  target := fun _ => []
  control := ⟨fun _ => .empty,fun _ _ => ⟨.initialCopy,false⟩,[]⟩
  progress := fun _ => ⟨none,false⟩
  captured := false
  mode := .down

def resumed : List Act :=
  [.restart,.exec,.plan true,.read 0,.commit [⟨orders,[some [1]],some (order 1 7).2,1,.update,5⟩],.land 0,.mark 0,.crash,
    .restart,.exec,.plan true,.read 0,.land 0,.mark 0,.finish]

def between : Mode → Option (Kind × List Instr)
  | .busy kind none rest => some (kind,rest)
  | _ => none

theorem betweenMode {m kind rest} (at_ : between m = some (kind,rest)) : m = .busy kind none rest := by
  unfold between at at_
  split at at_ <;> cases at_
  rfl

def note (b : Base) (id : UInt8) : Option (Option Bytes) := (view b orders [some [id]]).map fun x => x "note"

theorem bringupLosesNothingResumed : ∃ w, run (step ordersSync) ordersEmpty resumed = some w ∧
    w.mode = .busy .bringup none [.cut orders] ∧
    view w.target orders [some [1]] ≠ view w.source orders [some [1]] ∧ Pending ordersSync w orders [some [1]] := by
  have initial : Initial ordersEmpty := ⟨rfl,fun _ => rfl,fun _ => rfl,rfl⟩
  have stands : (run (step ordersSync) ordersEmpty resumed).map (fun w => between w.mode) =
      some (some (.bringup,[.cut orders])) := by decide +kernel
  have rows : (run (step ordersSync) ordersEmpty resumed).map (fun w => (note w.target 1,note w.source 1)) =
      some (some (some [0]),some (some [7])) := by decide +kernel
  obtain ⟨w,ran,mode⟩ := Option.map_eq_some_iff.mp stands
  rw [ran,Option.map_some] at rows
  obtain ⟨old,new⟩ := Prod.mk.inj (Option.some.inj rows)
  have differs : view w.target orders [some [1]] ≠ view w.source orders [some [1]] := by
    intro same
    have equal : note w.target 1 = note w.source 1 := by rw [note,same,note]
    cases old.symm.trans (equal.trans new)
  have cutover := betweenMode mode
  exact ⟨w,ran,cutover,differs,bringupLosesNothing initial (by decide) ran cutover List.mem_cons_self List.mem_cons_self
    orders List.mem_cons_self _ differs⟩

end Orders

end Replicare.Bringup
