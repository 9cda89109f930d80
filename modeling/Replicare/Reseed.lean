import Replicare.Bringup

/-! The reseed of a component, interrupted at any point and followed by restarts and
further passes: a flag goes only at the end of a whole run, and then the queue covers
what differs, whatever the target and the queue were before. -/
namespace Replicare.Reseed
open Engine hiding Component
open Relations Consume Stored Enforce Runs Chunks CopyRun CopyCovers CopyProgram List

section Invariant
variable {sync : Sync} {w w' : World} {a : Act} {order : List TableRef} {before rest : List Instr} {r t : TableRef}

structure Rebuilt (sync : Sync) (w : World) (before : List Instr) : Prop where
  clean : ∀ r, .clear r ∈ before → Clean sync w r
  kept : ∀ r, .reset r ∈ before → Kept sync w r

def Rebuilding (sync : Sync) (w : World) : Prop :=
  ∀ current rest, w.mode = .busy .reseed current rest →
    ∃ order ∈ sync.components, ∃ before, reseedRun order = before++rest ∧ Rebuilt sync w before

def Installed (sync : Sync) (w : World) : Prop :=
  w.captured = true ∨ Early sync w

theorem installedMoves (moves : Moves sync w a w') (held : Installed sync w) : Installed sync w' := by
  rcases held with captured | early
  · exact .inl (capturedMoves moves captured)
  · rcases earlyMoves early moves with ⟨early,_⟩ | ⟨rest,rfl⟩
    · exact .inr early
    · exact .inl rfl

theorem Installed.captured {current} (held : Installed sync w) (at_ : w.mode = .busy .reseed current rest) : w.captured = true := by
  rcases held with captured | mode | mode
  · exact captured
  · cases mode.symm.trans at_
  · cases mode.symm.trans at_

theorem Rebuilt.copying {kind current} (rebuilt : Rebuilt sync w before) (moves : Moves sync w a w') (captured : w.captured = true)
    (apart : a.pass = false) (split : reseedRun order = before++.copy t::rest)
    (at_ : w.mode = .busy kind current (.copy t::rest)) : Rebuilt sync w' before := by
  have kept : ∀ r, .reset r ∈ before → Kept sync w' r := by
    intro r mem
    refine keptMoves moves captured apart (fun kind rest now => ?_) (rebuilt.kept r mem)
    cases at_.symm.trans now
  refine ⟨fun r mem => (kept r (resetBefore split (clearMem.mp ?_))).clean,kept⟩
  rw [split]
  exact mem_append_left _ mem

theorem Rebuilt.snoc {i} (rebuilt : Rebuilt sync w before) (apart : ∀ r, i ≠ .clear r ∧ i ≠ .reset r) : Rebuilt sync w (before++[i]) := by
  refine ⟨fun r mem => ?_,fun r mem => ?_⟩
  · rcases mem_append.mp mem with passed | own
    · exact rebuilt.clean r passed
    · exact absurd (mem_singleton.mp own).symm (apart r).1
  · rcases mem_append.mp mem with passed | own
    · exact rebuilt.kept r passed
    · exact absurd (mem_singleton.mp own).symm (apart r).2

theorem Rebuilt.exec {i after kind} (rebuilt : Rebuilt sync w before) (split : reseedRun order = before++i::rest)
    (did : instruct sync w i = some after) : Rebuilt sync (after.next kind rest) (before++[i]) := by
  refine ⟨fun r mem => ?_,fun r mem => ?_⟩
  · obtain ⟨source,queue,_,target,_⟩ := instructDrifts (r := r) did
    by_cases here : i = .clear r
    · subst here
      obtain ⟨b,cleared,rfl⟩ := Option.map_eq_some_iff.mp did
      unfold accept at cleared
      split at cleared <;> cases cleared
      intro k there
      refine absurd ?_ there
      simp [World.next,viewErase]
    · refine (driftsSame (w := w) source queue).clean (target here) (rebuilt.clean r ?_)
      rcases mem_append.mp mem with passed | own
      · exact passed
      · exact absurd (mem_singleton.mp own).symm here
  · obtain ⟨source,queue,_,target,progress⟩ := instructDrifts (r := r) did
    by_cases here : i = .reset r
    · subst here
      cases did
      have member : r ∈ order := resetMem.mp (split ▸ mem_append_right before mem_cons_self)
      refine ⟨?_,filledFresh (Function.update_self _ _ _),fun _ _ _ now => absurd now nextMode⟩
      exact (driftsSame (w := w) rfl rfl).clean rfl (rebuilt.clean r (clearedBeforeReset split member))
    · have passed : .reset r ∈ before := by
        rcases mem_append.mp mem with passed | own
        · exact passed
        · exact absurd (mem_singleton.mp own).symm here
      have uncleared : i ≠ .clear r := by
        rintro rfl
        exact clearBeforeReset split passed
      exact (rebuilt.kept r passed).same source queue (target uncleared) (progress here) fun _ _ _ now => absurd now nextMode

theorem rebuildingCopy {kind current} (moves : Moves sync w a w') (installed : Installed sync w) (held : Rebuilding sync w)
    (apart : a.pass = false) (at_ : w.mode = .busy kind current (.copy t::rest))
    (after : ∀ current' rest', w'.mode = .busy .reseed current' rest' →
      kind = .reseed ∧ (rest' = .copy t::rest ∨ rest' = rest)) : Rebuilding sync w' := by
  intro current' rest' now
  obtain ⟨rfl,rest'⟩ := after current' rest' now
  obtain ⟨order,known,before,split,rebuilt⟩ := held _ _ at_
  have moved := rebuilt.copying moves (installed.captured at_) apart split at_
  rcases rest' with rfl | rfl
  · exact ⟨order,known,before,split,moved⟩
  · refine ⟨order,known,before++[.copy t],by rw [split,append_assoc]; rfl,moved.snoc fun r => ⟨?_,?_⟩⟩
    · exact fun none => by cases none
    · exact fun none => by cases none

theorem rebuildingIdle (idle : ∀ current rest, w.mode ≠ .busy .reseed current rest) : Rebuilding sync w :=
  fun current rest at_ => absurd at_ (idle current rest)

theorem rebuildingMoves (moves : Moves sync w a w') (position : Position sync w) (installed : Installed sync w)
    (held : Rebuilding sync w) : Rebuilding sync w' := by
  have atCopy : ∀ {kind c rest}, w.mode = .busy kind (some c) rest → ∃ tail, rest = .copy c.ref::tail := by
    intro kind c rest at_
    obtain ⟨before,placed⟩ := position _ _ _ at_
    exact (placed.current c rfl).1
  have same := moves
  cases moves with
  | commit fits captures =>
    intro current rest at_
    obtain ⟨order,known,before,split,rebuilt⟩ := held current rest at_
    have captured := installed.captured at_
    refine ⟨order,known,before,split,fun r mem => ?_,fun r mem => ?_⟩
    · rcases captures with ⟨_,captures⟩ | ⟨uncaptured,_⟩
      · exact (commitDrifts captures).clean rfl (rebuilt.clean r mem)
      · cases captured.symm.trans uncaptured
    · refine keptMoves same captured rfl (fun _ _ _ => ?_) (rebuilt.kept r mem)
      exact fun none => by cases none
  | crash | restart => exact rebuildingIdle fun _ _ none => by cases none
  | reseed idle known nonempty =>
    intro current rest at_
    cases at_
    exact ⟨_,known,[],rfl,fun r none => absurd none not_mem_nil,fun r none => absurd none not_mem_nil⟩
  | drained idle | enforced idle => exact rebuildingIdle fun _ _ none => by cases idle.symm.trans none
  | skip at_ _ =>
    refine rebuildingCopy same installed held rfl at_ fun current' rest' now => ?_
    obtain ⟨rfl,_,rfl⟩ := nextBusy now
    exact ⟨rfl,.inr rfl⟩
  | plan at_ _ =>
    refine rebuildingCopy same installed held rfl at_ fun current' rest' now => ?_
    cases now
    exact ⟨rfl,.inl rfl⟩
  | read at_ _ | land at_ _ _ | retry at_ _ _ =>
    obtain ⟨tail,rfl⟩ := atCopy at_
    refine rebuildingCopy same installed held rfl at_ fun current' rest' now => ?_
    cases now
    exact ⟨rfl,.inl rfl⟩
  | refused | failed => exact rebuildingIdle fun _ _ => failMode
  | mark at_ _ =>
    obtain ⟨tail,rfl⟩ := atCopy at_
    refine rebuildingCopy same installed held rfl at_ fun current' rest' now => ?_
    rw [recordMode] at now
    cases now
    exact ⟨rfl,.inl rfl⟩
  | finish at_ _ =>
    obtain ⟨tail,head⟩ := atCopy at_
    cases head
    refine rebuildingCopy same installed held rfl at_ fun current' rest' now => ?_
    obtain ⟨rfl,_,rfl⟩ := nextBusy now
    exact ⟨rfl,.inr rfl⟩
  | exec at_ did =>
    intro current' rest' now
    obtain ⟨rfl,_,rfl⟩ := nextBusy now
    obtain ⟨order,known,before,split,rebuilt⟩ := held _ _ at_
    exact ⟨order,known,before++[_],by rw [split,append_assoc]; rfl,rebuilt.exec split did⟩

end Invariant

section Flag
variable {sync : Sync} {w w' : World} {a : Act} {r : TableRef}

def flagged (sync : Sync) (w : World) (r : TableRef) : Bool := (w.control.cursor sync.id r).needsReseed

theorem captureCursor {changes : List Change} {control after : Control KeyValues}
    (ok : changes.foldlM captureChange control = some after) : after.cursor = control.cursor := by
  induction changes generalizing control with
  | nil =>
    cases ok
    rfl
  | cons c changes ih =>
    rw [foldlM_cons] at ok
    obtain ⟨mid,first,rest⟩ := Option.bind_eq_some_iff.mp ok
    unfold captureChange at first
    split at first <;> cases first
    exact (ih rest).trans rfl

theorem failControl (kind) : (w.fail kind).control = w.control := by
  cases kind <;> rfl

theorem recordControl (t) (p) : (w.record t p).control = w.control := by
  cases p <;> rfl

theorem instructFlag {i after} (did : instruct sync w i = some after) (other : i ≠ .unflag r) : flagged sync after r = flagged sync w r := by
  cases i with
  | copy t => cases did
  | clear t =>
    obtain ⟨b,_,rfl⟩ := Option.map_eq_some_iff.mp did
    rfl
  | cut t =>
    cases did
    by_cases here : r = t
    · subst here
      simp [flagged,World.saveCursor]
    · simp [flagged,World.saveCursor,here]
  | unflag t =>
    cases did
    have here : r ≠ t := fun same => other (same ▸ rfl)
    simp [flagged,World.saveCursor,here]
  | _ => cases did; rfl

theorem flagMoves (moves : Moves sync w a w') (was : flagged sync w r = true) (now : flagged sync w' r = false) :
    a = .exec ∧ ∃ kind rest, w.mode = .busy kind none (.unflag r::rest) := by
  have unchanged : w'.control.cursor ≠ w.control.cursor := by
    intro same
    unfold flagged at was now
    rw [same,was] at now
    cases now
  cases moves with
  | commit _ captures =>
    rcases captures with ⟨_,captures⟩ | ⟨_,same⟩
    · exact absurd (captureCursor captures) unchanged
    · exact absurd (congrArg Control.cursor same) unchanged
  | enforced =>
    rename_i dialect ret obs _
    have marked : ((enforce dialect [sync.id] ret sync.tables obs w.control).1.cursor sync.id r).needsReseed = true :=
      (enforceCursor sync.tables w.control sync.id r).mpr (.inl was)
    cases marked.symm.trans now
  | refused | failed => exact absurd (congrArg Control.cursor (failControl _)) unchanged
  | mark => exact absurd (congrArg Control.cursor (recordControl _ _)) unchanged
  | exec at_ did =>
    rename_i kind i rest after
    by_cases here : i = .unflag r
    · subst here
      exact ⟨rfl,kind,rest,at_⟩
    · have same := instructFlag did here
      cases (same.trans was).symm.trans now
  | _ => exact absurd rfl unchanged

end Flag

section History
variable {sync : Sync} {w₀ w : World} {acts : List Act} {order : List TableRef}

def Within (order : List TableRef) (w : World) : Prop :=
  ∃ current rest, w.mode = .busy .reseed current rest ∧ rest <:+ reseedRun order

def Unbroken (sync : Sync) (w₀ : World) (acts : List Act) (w : World) (order : List TableRef) : Prop :=
  ∃ before during w₁ w₂, acts = before++.reseed order::during ∧ run (step sync) w₀ before = some w₁ ∧
    step sync w₁ (.reseed order) = some w₂ ∧ run (step sync) w₂ during = some w ∧
      Along (step sync) (fun w _ => Within order w) w₂ during

theorem unbroken (idle : ∀ current rest, w₀.mode ≠ .busy .reseed current rest) (ran : run (step sync) w₀ acts = some w) {current rest}
    (at_ : w.mode = .busy .reseed current rest) :
    ∃ order ∈ sync.components, rest <:+ reseedRun order ∧ Unbroken sync w₀ acts w order := by
  induction acts using List.reverseRecOn generalizing w current rest with
  | nil =>
    cases ran
    exact absurd at_ (idle current rest)
  | append_singleton acts a ih =>
    obtain ⟨m,early,last⟩ := runSplit ran
    obtain ⟨_,last,same⟩ := runCons last
    cases same
    rcases processFrom (stepMoves last) at_ with ⟨none,_,_⟩ | ⟨order,known,_,rfl,rfl⟩ | ⟨current',rest',was,within⟩
    · cases none
    · exact ⟨order,known,suffix_rfl,acts,[],m,w,rfl,early,last,rfl,trivial⟩
    · obtain ⟨order,known,suffix,before,during,w₁,w₂,rfl,first,began,rest,along⟩ := ih early was
      refine ⟨order,known,within.trans suffix,before,during++[a],w₁,w₂,by simp,first,began,runSnoc rest last,?_⟩
      refine alongSnoc along fun m' ran' => ?_
      cases rest.symm.trans ran'
      exact ⟨current',rest',was,suffix⟩

theorem sameComponent {other r} (one : order ∈ sync.components) (two : other ∈ sync.components) (own : r ∈ order)
    (also : r ∈ other) : order = other := by
  by_contra differ
  have symmetric : Std.Symm (List.Disjoint (α := TableRef)) := ⟨fun _ _ disjoint => disjoint.symm⟩
  exact (nodup_flatten.mp sync.distinct).2.forall one two differ own also

structure Invariant (sync : Sync) (w : World) : Prop where
  position : Position sync w
  installed : Installed sync w
  rebuilding : Rebuilding sync w

theorem invariantRun (down : w₀.mode = .down) (ran : run (step sync) w₀ acts = some w) : Invariant sync w := by
  have start : Invariant sync w₀ := by
    refine ⟨positionIdle fun _ _ _ none => ?_,.inr (.inl down),rebuildingIdle fun _ _ none => ?_⟩
    · cases down.symm.trans none
    · cases down.symm.trans none
  refine runInvariant (fun w a w' held ok => ?_) ran start
  have moves := stepMoves ok
  exact ⟨positionMoves moves held.position,installedMoves moves held.installed,
    rebuildingMoves moves held.position held.installed held.rebuilding⟩

theorem runCovered {kind r rest} (held : Invariant sync w) (at_ : w.mode = .busy kind none (.unflag r::rest))
    (known : order ∈ sync.components) (own : r ∈ order) :
    kind = .reseed ∧ ∀ t ∈ order, (w.progress t).done = true ∧ Kept sync w t := by
  obtain ⟨before,placed⟩ := held.position _ _ _ at_
  cases kind with
  | bringup =>
    have program : before++.unflag r::rest = bringup sync := placed.known
    have mem : Instr.unflag r ∈ bringup sync := program ▸ mem_append_right before mem_cons_self
    rcases bringupInstr mem with none | ⟨_,none⟩ | ⟨_,none⟩ <;> cases none
  | reseed =>
    refine ⟨rfl,fun t mem => ?_⟩
    have whose : ∀ {other before}, other ∈ sync.components → reseedRun other = before++.unflag r::rest → other = order := by
      intro other before listed split
      have also : r ∈ other := unflagMem.mp (split ▸ mem_append_right before mem_cons_self)
      exact sameComponent listed known also own
    obtain ⟨other,listed,_,split⟩ := placed.known
    cases whose listed split.symm
    obtain ⟨again,listed',before',split',rebuilt⟩ := held.rebuilding _ _ at_
    cases whose listed' split'
    exact ⟨placed.copied t (copiedBeforeUnflag split.symm mem).2.2,rebuilt.kept t (copiedBeforeUnflag split' mem).2.1⟩

end History

theorem reseedCorrect {sync : Sync} {w₀ w w' : World} {acts : List Act} {a : Act} (down : w₀.mode = .down)
    (ran : run (step sync) w₀ acts = some w) (ok : step sync w a = some w') {r : TableRef} {order : List TableRef}
    (known : order ∈ sync.components) (own : r ∈ order) :
    (flagged sync w r = true → flagged sync w' r = false →
      Unbroken sync w₀ acts w order ∧ a = .exec ∧ (∃ rest, w.mode = .busy .reseed none (.unflag r::rest)) ∧
        ∀ t ∈ order, (w.progress t).done = true) ∧
    (∀ rest, w.mode = .busy .reseed none (.unflag r::rest) → a = .exec → ∀ t ∈ order, ∀ k,
      view w'.target t k ≠ view w'.source t k → Pending sync w' t k) := by
  have held := invariantRun down ran
  refine ⟨fun was now => ?_,fun rest at_ acts t mem k differs => ?_⟩
  · obtain ⟨rfl,kind,rest,at_⟩ := flagMoves (stepMoves ok) was now
    obtain ⟨rfl,copied⟩ := runCovered held at_ known own
    obtain ⟨other,listed,suffix,unbroken⟩ := unbroken (fun _ _ busy => by cases down.symm.trans busy) ran at_
    cases sameComponent listed known (unflagMem.mp (suffix.subset mem_cons_self)) own
    exact ⟨unbroken,rfl,⟨rest,at_⟩,fun t mem => (copied t mem).1⟩
  · subst acts
    obtain ⟨_,copied⟩ := runCovered held at_ known own
    obtain ⟨done,kept⟩ := copied t mem
    have moves := stepMoves ok
    have after : Kept sync w' t := by
      refine keptMoves moves (held.installed.captured at_) rfl (fun kind rest now => ?_) kept
      cases at_.symm.trans now
    have progress : w'.progress t = w.progress t := by
      cases moves with
      | exec was did =>
        cases at_.symm.trans was
        have same := instructDone (r := t) did (fun none => by cases none)
        exact same
      | failed was _ did =>
        cases at_.symm.trans was
        cases did
    exact (doneSafe after (by rw [progress,done]) k).resolve_left differs

section Orders
open Bringup (ordersSync ordersEmpty order note between betweenMode)

def ordersStale : World where
  source := ordersEmpty.source
  target := fun r => if r = orders then [order 3 0] else []
  control := ⟨fun _ => .empty,fun _ _ => ⟨.streaming,true⟩,[]⟩
  progress := fun _ => ⟨none,true⟩
  captured := true
  mode := .down

def reseeded : List Act :=
  [.restart,.exec,.plan true,.exec,.reseed [orders],.exec,.crash,.restart,.exec,.plan true,.exec,
    .reseed [orders],.exec,.exec,.plan true,.read 0,.read 1,
    .commit [⟨orders,[some [1]],some (order 1 7).2,1,.update,5⟩],.land 1,.mark 1,.land 0,.mark 0,.finish]

theorem reseedCorrectStale : ∃ w w', run (step ordersSync) ordersStale reseeded = some w ∧ step ordersSync w .exec = some w' ∧
    flagged ordersSync w orders = true ∧ flagged ordersSync w' orders = false ∧
    Unbroken ordersSync ordersStale reseeded w [orders] ∧
    view w'.target orders [some [1]] ≠ view w'.source orders [some [1]] ∧
    Pending ordersSync w' orders [some [1]] := by
  have stands : (run (step ordersSync) ordersStale reseeded).map (fun w => (between w.mode,flagged ordersSync w orders)) =
      some (some (.reseed,[.unflag orders]),true) := by decide +kernel
  have rows : ((run (step ordersSync) ordersStale reseeded).bind fun w => step ordersSync w .exec).map
      (fun w => (note w.target 1,note w.source 1,flagged ordersSync w orders)) =
      some (some (some [0]),some (some [7]),false) := by decide +kernel
  obtain ⟨w,ran,seen⟩ := Option.map_eq_some_iff.mp stands
  obtain ⟨mode,was⟩ := Prod.mk.inj seen
  rw [ran,Option.bind_some] at rows
  obtain ⟨w',ok,seen⟩ := Option.map_eq_some_iff.mp rows
  obtain ⟨old,seen⟩ := Prod.mk.inj seen
  obtain ⟨new,now⟩ := Prod.mk.inj seen
  have differs : view w'.target orders [some [1]] ≠ view w'.source orders [some [1]] := by
    intro same
    have equal : note w'.target 1 = note w'.source 1 := by rw [note,same,note]
    cases old.symm.trans (equal.trans new)
  have correct := reseedCorrect rfl ran ok (r := orders) mem_cons_self mem_cons_self
  exact ⟨w,w',ran,ok,was,now,(correct.1 was now).1,differs,
    correct.2 [] (betweenMode mode) rfl orders mem_cons_self _ differs⟩

end Orders

end Replicare.Reseed
