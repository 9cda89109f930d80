import Replicare.CopyRun

/-! Where a process stands in its program: what it has executed, and that a copy it has
behind it is recorded as done. -/
namespace Replicare.CopyProgram
open Engine hiding Component
open CopyRun List Function

section Lists
variable {α : Type*} {A B before rest : List α} {x y : α}

theorem passedBefore (same : A++B = before++x::rest) (out : x ∉ A) (mem : y ∈ A) : y ∈ before := by
  rcases append_eq_append_iff.mp same with ⟨more,rfl,_⟩ | ⟨more,rfl,tail⟩
  · exact mem_append_left _ mem
  · cases more with
    | nil => simpa using mem
    | cons z more =>
      cases (List.cons.inj tail).1
      exact absurd (mem_append_right before mem_cons_self) out

theorem passedWithin (same : A++B = before++x::rest) (out : x ∉ B) (mem : y ∈ before) : y ∈ A := by
  rcases append_eq_append_iff.mp same with ⟨more,_,rfl⟩ | ⟨more,rfl,_⟩
  · exact absurd (mem_append_right more mem_cons_self) out
  · exact mem_append_left _ mem

end Lists

def Program (sync : Sync) : Kind → List Instr → Prop
  | .bringup, program => program = bringup sync
  | .reseed, program => ∃ order ∈ sync.components, order ≠ [] ∧ program = reseedRun order

section Bringup
variable {sync : Sync} {before rest : List Instr}

theorem bringupInstr {i} (mem : i ∈ bringup sync) : i = .install ∨ (∃ r, i = .copy r) ∨ ∃ r, i = .cut r := by
  rcases mem_cons.mp mem with rfl | mem
  · exact .inl rfl
  · obtain ⟨order,_,mem⟩ := mem_flatMap.mp mem
    rcases mem_append.mp mem with copied | cut
    · obtain ⟨r,_,rfl⟩ := mem_map.mp copied
      exact .inr (.inl ⟨r,rfl⟩)
    · obtain ⟨r,_,rfl⟩ := mem_map.mp cut
      exact .inr (.inr ⟨r,rfl⟩)

theorem copiedBeforeCut {order t r} (split : bringup sync = before++.cut t::rest) (known : order ∈ sync.components)
    (cut : t ∈ order) (table : r ∈ order) : .copy r ∈ before := by
  obtain ⟨earlier,later,parts⟩ := append_of_mem known
  have distinct := sync.distinct
  rw [parts,flatten_append,flatten_cons] at distinct
  have apart : t ∉ earlier.flatten := by
    intro mem
    have disjoint := (nodup_append.mp distinct).2.2 t mem t (mem_append_left _ cut)
    exact disjoint rfl
  have program : (.install::earlier.flatMap copyAndCutover++order.map .copy)++(order.map .cut++later.flatMap copyAndCutover) =
      before++.cut t::rest := by
    rw [← split,bringup,parts,flatMap_append,flatMap_cons,copyAndCutover]
    simp only [cons_append,append_assoc]
  refine passedBefore program ?_ (mem_append_right _ (mem_map_of_mem table))
  intro mem
  rcases mem_append.mp mem with mem | mem
  · rcases mem_cons.mp mem with none | mem
    · cases none
    · obtain ⟨other,inside,mem⟩ := mem_flatMap.mp mem
      rcases mem_append.mp mem with none | mem
      · obtain ⟨_,_,none⟩ := mem_map.mp none
        cases none
      · obtain ⟨s,own,same⟩ := mem_map.mp mem
        cases same
        exact apart (mem_flatten.mpr ⟨other,inside,own⟩)
  · obtain ⟨_,_,none⟩ := mem_map.mp mem
    cases none

end Bringup

section Reseed
variable {order : List TableRef} {before rest : List Instr} {r t : TableRef}

theorem clearMem : .clear r ∈ reseedRun order ↔ r ∈ order := by simp [reseedRun]
theorem resetMem : .reset r ∈ reseedRun order ↔ r ∈ order := by simp [reseedRun]
theorem unflagMem : .unflag r ∈ reseedRun order ↔ r ∈ order := by simp [reseedRun]

theorem resetBeforeCopy (split : reseedRun order = before++.reset r::rest) : .copy t ∉ before := by
  intro mem
  have front : .copy t ∈ order.reverse.map Instr.clear++order.map .reset :=
    passedWithin (B := order.map .copy++order.map .unflag) (by rw [← split,reseedRun,append_assoc]) (by simp) mem
  simp at front

theorem clearBeforeReset (split : reseedRun order = before++.clear r::rest) : .reset t ∉ before := by
  intro mem
  have front : .reset t ∈ order.reverse.map Instr.clear := passedWithin split (by simp) mem
  simp at front

theorem clearedBeforeReset (split : reseedRun order = before++.reset r::rest) (mem : t ∈ order) : .clear t ∈ before :=
  passedBefore split (by simp) (by simpa using mem)

theorem resetBefore (split : reseedRun order = before++.copy r::rest) (mem : t ∈ order) : .reset t ∈ before := by
  have same : (order.reverse.map Instr.clear++order.map .reset)++(order.map .copy++order.map .unflag) = before++.copy r::rest := by
    rw [← split,reseedRun,append_assoc]
  exact passedBefore same (by simp) (by simp [mem])

theorem copiedBeforeUnflag (split : reseedRun order = before++.unflag r::rest) (mem : t ∈ order) :
    .clear t ∈ before ∧ .reset t ∈ before ∧ .copy t ∈ before := by
  have same : (order.reverse.map Instr.clear++(order.map .reset++order.map .copy))++order.map .unflag = before++.unflag r::rest := by
    rw [← split,reseedRun]
    simp only [append_assoc]
  have passed : ∀ i ∈ order.reverse.map Instr.clear++(order.map .reset++order.map .copy), i ∈ before :=
    fun i inside => passedBefore same (by simp) inside
  exact ⟨passed _ (by simp [mem]),passed _ (by simp [mem]),passed _ (by simp [mem])⟩

end Reseed

section Position
variable {sync : Sync} {w w' : World} {a : Act}

theorem processFrom {kind current rest} (moves : Moves sync w a w') (at_ : w'.mode = .busy kind current rest) :
    (kind = .bringup ∧ a = .restart ∧ rest = bringup sync) ∨
      (∃ order ∈ sync.components, kind = .reseed ∧ a = .reseed order ∧ rest = reseedRun order) ∨
        ∃ current' rest', w.mode = .busy kind current' rest' ∧ rest <:+ rest' := by
  have onward : ∀ {v : World} {kind' current' i tail}, w.mode = .busy kind' current' (i::tail) →
      (v.next kind' tail).mode = .busy kind current rest → ∃ current' rest', w.mode = .busy kind current' rest' ∧ rest <:+ rest' := by
    intro v kind' current' i tail was now
    obtain ⟨rfl,_,rfl⟩ := nextBusy now
    exact ⟨_,_,was,suffix_cons _ _⟩
  cases moves with
  | commit => exact .inr (.inr ⟨_,_,at_,suffix_rfl⟩)
  | crash => cases at_
  | restart idle =>
    cases at_
    exact .inl ⟨rfl,rfl,rfl⟩
  | reseed idle known nonempty =>
    cases at_
    exact .inr (.inl ⟨_,known,rfl,rfl,rfl⟩)
  | drained idle | enforced idle => cases idle.symm.trans at_
  | skip was _ | finish was _ | exec was _ => exact .inr (.inr (onward was at_))
  | plan was _ | read was _ | land was _ _ | retry was _ _ =>
    cases at_
    exact .inr (.inr ⟨_,_,was,suffix_rfl⟩)
  | refused | failed => exact absurd at_ failMode
  | mark was _ =>
    rw [recordMode] at at_
    cases at_
    exact .inr (.inr ⟨_,_,was,suffix_rfl⟩)

def Early (sync : Sync) (w : World) : Prop := w.mode = .down ∨ w.mode = .busy .bringup none (bringup sync)

theorem earlyMoves (early : Early sync w) (moves : Moves sync w a w') :
    (Early sync w' ∧ w'.target = w.target ∧ w'.progress = w.progress ∧ w'.captured = w.captured) ∨
      ∃ rest, w' = World.next { w with captured := true } .bringup rest := by
  have uncopied : ∀ kind c rest, w.mode ≠ .busy kind (some c) rest := by
    intro kind c rest at_
    rcases early with mode | mode <;> cases mode.symm.trans at_
  have unstreamed : w.mode ≠ .streaming := by
    intro at_
    rcases early with mode | mode <;> cases mode.symm.trans at_
  have atInstall : ∀ kind i rest, w.mode = .busy kind none (i::rest) → kind = .bringup ∧ i = .install := by
    intro kind i rest at_
    rcases early with mode | mode <;> cases mode.symm.trans at_
    exact ⟨rfl,rfl⟩
  cases moves with
  | commit => exact .inl ⟨early,rfl,rfl,rfl⟩
  | crash => exact .inl ⟨.inl rfl,rfl,rfl,rfl⟩
  | restart => exact .inl ⟨.inr rfl,rfl,rfl,rfl⟩
  | reseed idle _ _ | drained idle | enforced idle => exact absurd idle unstreamed
  | skip at_ _ | plan at_ _ => cases (atInstall _ _ _ at_).2
  | read at_ _ | land at_ _ _ | refused at_ _ _ | retry at_ _ _ | mark at_ _ | finish at_ _ =>
    exact absurd at_ (uncopied _ _ _)
  | exec at_ did =>
    obtain ⟨rfl,rfl⟩ := atInstall _ _ _ at_
    cases did
    exact .inr ⟨_,rfl⟩
  | failed at_ _ did =>
    obtain ⟨_,rfl⟩ := atInstall _ _ _ at_
    cases did

structure Placed (sync : Sync) (w : World) (kind : Kind) (current : Option Copying) (rest before : List Instr) : Prop where
  known : Program sync kind (before++rest)
  more : rest ≠ []
  copied : ∀ r, .copy r ∈ before → (w.progress r).done = true
  current : ∀ c, current = some c → (∃ tail, rest = .copy c.ref::tail) ∧ (w.progress c.ref).done = false

def Position (sync : Sync) (w : World) : Prop :=
  ∀ kind current rest, w.mode = .busy kind current rest → ∃ before, Placed sync w kind current rest before

theorem positionIdle (idle : ∀ kind current rest, w.mode ≠ .busy kind current rest) : Position sync w :=
  fun kind current rest at_ => absurd at_ (idle kind current rest)

theorem positionStart {kind program} (mode : w.mode = .busy kind none program) (known : Program sync kind program)
    (more : program ≠ []) : Position sync w := by
  intro kind current rest at_
  cases mode.symm.trans at_
  exact ⟨[],known,more,fun r mem => absurd mem not_mem_nil,fun c none => by cases none⟩

theorem Placed.advance {kind current i rest before} (placed : Placed sync w kind current (i::rest) before)
    (copied : ∀ r, .copy r ∈ before++[i] → (w'.progress r).done = true) : Position sync (w'.next kind rest) := by
  intro kind' current' rest' at_
  unfold World.next at at_
  split at at_
  · cases at_
  · rename_i more
    cases at_
    refine ⟨before++[i],?_,more,copied,fun c none => by cases none⟩
    rw [append_assoc]
    exact placed.known

theorem Placed.onward {kind c c' rest before} (placed : Placed sync w kind (some c) rest before)
    (mode : w'.mode = .busy kind (some c') rest) (ref : c'.ref = c.ref)
    (progress : ∀ r, (w'.progress r).done = (w.progress r).done) : Position sync w' := by
  intro kind' current' rest' at_
  cases mode.symm.trans at_
  obtain ⟨head,undone⟩ := placed.current c rfl
  refine ⟨before,placed.known,placed.more,fun r mem => (progress r).trans (placed.copied r mem),fun d same => ?_⟩
  cases same
  rw [ref,progress]
  exact ⟨head,undone⟩

theorem checkpointOpen {before after p} (saved : checkpoint before after = some p) : p.done = false := by
  unfold checkpoint at saved
  split at saved <;> cases saved
  rfl

theorem Placed.mark {kind c rest before p} (placed : Placed sync w kind (some c) rest before) (undone : p.done = false)
    (r) : ((w.saveProgress c.ref p).progress r).done = (w.progress r).done := by
  by_cases here : r = c.ref
  · rw [here,(placed.current c rfl).2,← undone]
    exact congrArg CopyProgress.done (update_self _ _ _)
  · exact congrArg CopyProgress.done (update_of_ne here _ _)

theorem instructDone {i after r} (did : instruct sync w i = some after) (other : i ≠ .reset r) :
    after.progress r = w.progress r := by
  cases i with
  | copy t => cases did
  | reset t =>
    cases did
    exact update_of_ne (fun same => other (congrArg Instr.reset same.symm)) _ _
  | clear t =>
    obtain ⟨b,_,rfl⟩ := Option.map_eq_some_iff.mp did
    rfl
  | _ => cases did; rfl

theorem Placed.unforgotten {kind current t rest before r} (placed : Placed sync w kind current (.reset t::rest) before) :
    .copy r ∉ before := by
  have known := placed.known
  cases kind with
  | bringup =>
    have mem : Instr.reset t ∈ bringup sync := known ▸ mem_append_right before mem_cons_self
    rcases bringupInstr mem with none | ⟨_,none⟩ | ⟨_,none⟩ <;> cases none
  | reseed =>
    obtain ⟨order,_,_,split⟩ := known
    exact resetBeforeCopy split.symm

theorem reseedMore {order} (more : order ≠ []) : reseedRun order ≠ [] := by
  simp [reseedRun,more]

theorem positionMoves (moves : Moves sync w a w') (held : Position sync w) : Position sync w' := by
  cases moves with
  | commit _ _ =>
    intro kind current rest at_
    obtain ⟨before,placed⟩ := held kind current rest at_
    exact ⟨before,placed.known,placed.more,placed.copied,placed.current⟩
  | crash => exact positionIdle fun _ _ _ none => by cases none
  | restart idle => exact positionStart rfl rfl (cons_ne_nil _ _)
  | reseed idle known nonempty => exact positionStart rfl ⟨_,known,nonempty,rfl⟩ (reseedMore nonempty)
  | drained idle | enforced idle => exact positionIdle fun _ _ _ now => by cases idle.symm.trans now
  | skip at_ copied =>
    obtain ⟨before,placed⟩ := held _ _ _ at_
    refine placed.advance fun t mem => ?_
    rcases mem_append.mp mem with passed | own
    · exact placed.copied t passed
    · cases mem_singleton.mp own
      exact copied
  | plan at_ copied =>
    rename_i probed kind r rest
    obtain ⟨before,placed⟩ := held _ _ _ at_
    intro kind' current' rest' now
    cases now
    refine ⟨before,placed.known,placed.more,placed.copied,fun c same => ?_⟩
    cases same
    exact ⟨⟨rest,rfl⟩,copied⟩
  | read at_ part | land at_ part loaded | retry at_ part uncounted =>
    obtain ⟨before,placed⟩ := held _ _ _ at_
    exact placed.onward rfl rfl fun _ => rfl
  | refused at_ part loaded | failed at_ _ did => exact positionIdle fun _ _ _ => failMode
  | mark at_ part =>
    rename_i i kind c rest chunk
    obtain ⟨before,placed⟩ := held _ _ _ at_
    cases saved : checkpoint c.parts (c.parts.set i (chunk,.done)) with
    | none => exact placed.onward rfl rfl fun _ => rfl
    | some p => exact placed.onward rfl rfl (placed.mark (checkpointOpen saved))
  | finish at_ all =>
    rename_i kind c i rest
    obtain ⟨before,placed⟩ := held _ _ _ at_
    obtain ⟨⟨tail,head⟩,_⟩ := placed.current c rfl
    cases head
    refine placed.advance fun t mem => ?_
    by_cases here : t = c.ref
    · subst here
      simp [World.saveProgress]
    · refine (congrArg CopyProgress.done (update_of_ne here _ _)).trans (placed.copied t ?_)
      rcases mem_append.mp mem with passed | own
      · exact passed
      · cases mem_singleton.mp own
        exact absurd rfl here
  | exec at_ did =>
    rename_i kind i rest after
    obtain ⟨before,placed⟩ := held _ _ _ at_
    refine placed.advance fun t mem => ?_
    have passed : .copy t ∈ before := by
      rcases mem_append.mp mem with passed | own
      · exact passed
      · cases mem_singleton.mp own
        cases did
    have other : i ≠ .reset t := by
      rintro rfl
      exact placed.unforgotten passed
    rw [instructDone did other]
    exact placed.copied t passed

theorem bringupAt {current i rest} (held : Position sync w) (at_ : w.mode = .busy .bringup current (i::rest)) :
    i = .install ∨ (∃ r, i = .copy r) ∨ ∃ r, i = .cut r := by
  obtain ⟨before,placed⟩ := held _ _ _ at_
  have known : before++i::rest = bringup sync := placed.known
  exact bringupInstr (known ▸ mem_append_right before mem_cons_self)

end Position

end Replicare.CopyProgram
