import Mathlib.Data.Prod.Lex
import Replicare.QuietCopy

/-! The copy of one table ends when every row it is to load finds its parents on the
target and nothing refers to the table yet. -/
namespace Replicare.CopyEnds
open Engine hiding Component
open Relations Consume Stored Enforce Runs Chunks CopyRun CopyCovers CopyProgram Bringup QuietCopy List

def healthy : Act → Bool
  | .restart => true
  | .plan _ => true
  | .read _ => true
  | .land _ => true
  | .mark _ => true
  | .finish => true
  | .exec => true
  | _ => false

def Proc (sync : Sync) (w w' : World) : Prop := ∃ a, healthy a = true ∧ step sync w a = some w'

section Load
variable {sync : Sync} {w w' : World} {c : Copying} {start : Option KeyValues} {bs : List KeyValues} {i : Nat} {chunk : Chunk}
  {retried : Bool} {rows : Rows}

structure Takes (sync : Sync) (w : World) (t : TableRef) (start : Option KeyValues) : Prop where
  accepted : Consistent sync.fks (view w.target)
  apart : ∀ fk ∈ sync.fks, fk.parent ≠ fk.child
  parents : ∀ fk ∈ sync.fks, fk.child = t → ∀ k x, above sync.le start k = true → view w.source t k = some x →
    (∀ c ∈ fk.childCols, x c ≠ none) → ∃ kp p, view w.target fk.parent kp = some p ∧ references fk x p
  children : ∀ fk ∈ sync.fks, fk.parent = t → w.target fk.child = []

theorem loadConsistent (order : KeyOrder sync.le) (takes : Takes sync w c.ref start) (held : Fetching sync w c start bs)
    (part : c.parts[i]? = some (chunk,.reading retried rows)) : Consistent sync.fks (view (upsert w.target c.ref rows)) := by
  have mem := mem_of_getElem? part
  obtain ⟨_,rfl⟩ := held.reading chunk retried rows mem
  have known : chunk ∈ buildKeysetRangesFrom start bs := held.ranges ▸ mem_map_of_mem mem
  intro fk listed k x row whole
  have there : fk.parent ≠ c.ref ∧ ∃ kp p, view w.target fk.parent kp = some p ∧ references fk x p := by
    by_cases child : fk.child = c.ref
    · refine ⟨child ▸ takes.apart fk listed,?_⟩
      by_cases old : view w.target fk.child k = some x
      · exact takes.accepted fk listed k x old whole
      · rw [child] at old
        rw [child,landView] at row
        split at row
        · rename_i inside
          rcases Option.or_eq_some_iff.mp row with fresh | ⟨_,kept⟩
          · exact takes.parents fk listed child k x (rangesFloor order held.cuts known inside) fresh whole
          · exact absurd kept old
        · exact absurd row old
    · rw [viewUpsert,if_neg child] at row
      refine ⟨fun same => ?_,takes.accepted fk listed k x row whole⟩
      rw [view,takes.children fk listed same] at row
      cases row
  obtain ⟨parent,kp,p,found,refers⟩ := there
  exact ⟨kp,p,by rw [viewUpsert,if_neg parent]; exact found,refers⟩

theorem landAccepts (order : KeyOrder sync.le) (takes : Takes sync w c.ref start) (held : Fetching sync w c start bs)
    (part : c.parts[i]? = some (chunk,.reading retried rows)) :
    bulkLoad sync w.target c.ref rows (if retried then .merge else c.mode) ≠ none := by
  have fits := loadConsistent order takes held part
  have mem := mem_of_getElem? part
  obtain ⟨rfl,rows⟩ := held.reading chunk retried rows mem
  cases mode : c.mode with
  | merge =>
    rw [if_neg Bool.false_ne_true,bulkLoad,acceptTaken fits]
    exact Option.some_ne_none _
  | direct =>
    have apart : ¬∃ e ∈ copyChunk sync.le (w.source c.ref) chunk, e.1 ∈ (w.target c.ref).map Prod.fst := by
      rintro ⟨e,own,there⟩
      have present : view w.target c.ref e.1 ≠ none := fun none => lookupNone.mp none there
      obtain ⟨p,known,loaded,inside⟩ := held.direct mode e.1 present
      obtain ⟨j,short,rfl⟩ := mem_iff_getElem.mp known
      have one : (buildKeysetRangesFrom start bs)[i]? = some chunk := by rw [← held.ranges,getElem?_map,part]; rfl
      have two : (buildKeysetRangesFrom start bs)[j]? = some c.parts[j].1 := by
        rw [← held.ranges,getElem?_map,getElem?_eq_getElem short]
        rfl
      cases rangesApart order held.cuts one two (mem_filter.mp own).2 inside
      have same := (getElem?_eq_getElem short).symm.trans part
      rw [Option.some.inj same] at loaded
      cases loaded
    subst rows
    rw [if_neg Bool.false_ne_true,bulkLoad,if_neg apart,acceptTaken fits]
    exact Option.some_ne_none _

end Load

section Rank
variable {sync : Sync} {w w' : World} {a : Act} {c : Copying} {rest : List Instr} {i : Nat} {chunk : Chunk}

def weight : Slot → Nat
  | .waiting _ => 3
  | .reading _ _ => 2
  | .landed => 1
  | .done => 0

def load (parts : List (Chunk × Slot)) : Nat := (parts.map fun p => weight p.2).sum

theorem loadSet {parts p q} (part : parts[i]? = some p) (less : weight q.2 < weight p.2) :
    load (parts.set i q) < load parts := by
  induction parts generalizing i with
  | nil => cases part
  | cons head parts ih =>
    cases i with
    | zero =>
      cases part
      simp only [load,set_cons_zero,map_cons,sum_cons]
      omega
    | succ i =>
      have below := ih part
      simp only [load,set_cons_succ,map_cons,sum_cons] at below ⊢
      omega

def rank (sync : Sync) (w : World) : ℕ ×ₗ ℕ ×ₗ ℕ :=
  match w.mode with
  | .down => toLex ((bringup sync).length+1,toLex (0,0))
  | .streaming => toLex (0,toLex (0,0))
  | .busy _ none rest => toLex (rest.length,toLex (1,0))
  | .busy _ (some c) rest => toLex (rest.length,toLex (0,load c.parts))

theorem rankNext {v : World} {kind kind' current j tail} (at_ : w.mode = .busy kind current (j::tail)) :
    rank sync (v.next kind' tail) < rank sync w := by
  have length : ∃ y, rank sync w = toLex ((j::tail).length,y) := by
    unfold rank
    rw [at_]
    cases current <;> exact ⟨_,rfl⟩
  obtain ⟨y,same⟩ := length
  rw [same]
  by_cases last : tail = []
  · have now : rank sync (v.next kind' tail) = toLex (0,toLex (0,0)) := by simp [rank,World.next,last]
    rw [now]
    exact Prod.Lex.toLex_lt_toLex.mpr (.inl (Nat.succ_pos _))
  · have now : rank sync (v.next kind' tail) = toLex (tail.length,toLex (1,0)) := by simp [rank,World.next,last]
    rw [now]
    exact Prod.Lex.toLex_lt_toLex.mpr (.inl (Nat.lt_succ_self _))

theorem rankCopy {kind c' d} (at_ : w.mode = .busy kind c' rest) (now : w'.mode = .busy kind (some d) rest)
    (less : ∀ c, c' = some c → load d.parts < load c.parts) : rank sync w' < rank sync w := by
  unfold rank
  rw [at_,now]
  cases c' with
  | none => exact Prod.Lex.toLex_lt_toLex.mpr (.inr ⟨rfl,Prod.Lex.toLex_lt_toLex.mpr (.inl Nat.zero_lt_one)⟩)
  | some c => exact Prod.Lex.toLex_lt_toLex.mpr (.inr ⟨rfl,Prod.Lex.toLex_lt_toLex.mpr (.inr ⟨rfl,less c rfl⟩)⟩)

theorem procOf (alive : healthy a = true) (taken : (step sync w a).isSome = true) : ∃ w', Proc sync w w' := by
  obtain ⟨w',ok⟩ := Option.isSome_iff_exists.mp taken
  exact ⟨w',a,alive,ok⟩

theorem execGoes {kind j} (at_ : w.mode = .busy kind none (j::rest)) (other : ∀ r, j ≠ .copy r) : ∃ w', Proc sync w w' := by
  refine procOf (a := .exec) rfl ?_
  cases j with
  | copy r => exact absurd rfl (other r)
  | _ =>
    simp only [step,at_]
    split <;> rfl

theorem planGoes {kind r} (at_ : w.mode = .busy kind none (.copy r::rest)) : ∃ w', Proc sync w w' := by
  refine procOf (a := .plan true) rfl ?_
  simp only [step,at_]
  split <;> rfl

theorem chunkGoes {kind slot} (at_ : w.mode = .busy kind (some c) rest) (part : c.parts[i]? = some (chunk,slot))
    (uncounted : slot.isDone = false) : ∃ w', Proc sync w w' := by
  cases slot with
  | waiting retried =>
    refine procOf (a := .read i) rfl ?_
    simp only [step,at_,part]
    rfl
  | reading retried rows =>
    refine procOf (a := .land i) rfl ?_
    simp only [step,at_,part]
    split <;> rfl
  | landed =>
    refine procOf (a := .mark i) rfl ?_
    simp only [step,at_,part]
    rfl
  | done => cases uncounted

theorem finishGoes {kind j} (at_ : w.mode = .busy kind (some c) (j::rest)) (all : (c.parts.all fun p => p.2.isDone) = true) :
    ∃ w', Proc sync w w' := by
  refine procOf (a := .finish) rfl ?_
  simp only [step,at_]
  rw [if_pos all]
  rfl

theorem copyGoes {kind j} (at_ : w.mode = .busy kind (some c) (j::rest)) : ∃ w', Proc sync w w' := by
  cases all : c.parts.all fun p => p.2.isDone with
  | true => exact finishGoes at_ all
  | false =>
    obtain ⟨p,mem,uncounted⟩ := all_eq_false.mp all
    obtain ⟨i,short,rfl⟩ := mem_iff_getElem.mp mem
    exact chunkGoes at_ (getElem?_eq_getElem short) (Bool.eq_false_iff.mpr uncounted)

theorem rankFalls (moves : Moves sync w a w') (alive : healthy a = true)
    (loads : ∀ kind (c : Copying) rest (i : Nat) chunk retried rows, w.mode = .busy kind (some c) rest →
      c.parts[i]? = some (chunk,Slot.reading retried rows) →
      bulkLoad sync w.target c.ref rows (if retried then .merge else c.mode) ≠ none)
    (does : ∀ kind j rest, w.mode = .busy kind none (j::rest) → (∀ r, j ≠ .copy r) → instruct sync w j ≠ none) :
    rank sync w' < rank sync w := by
  cases moves with
  | commit | crash | reseed | drained | enforced | retry => cases alive
  | restart idle =>
    unfold rank
    rw [idle]
    exact Prod.Lex.toLex_lt_toLex.mpr (.inl (Nat.lt_succ_self _))
  | skip at_ _ | finish at_ _ | exec at_ _ => exact rankNext at_
  | plan at_ _ => exact rankCopy at_ rfl fun _ none => by cases none
  | read at_ part | land at_ part loaded =>
    refine rankCopy at_ rfl fun c same => ?_
    cases same
    exact loadSet part (Nat.lt_succ_self _)
  | refused at_ part loaded => exact absurd loaded (loads _ _ _ _ _ _ _ at_ part)
  | mark at_ part =>
    refine rankCopy at_ (recordMode _ _) fun c same => ?_
    cases same
    exact loadSet part (Nat.lt_succ_self _)
  | failed at_ other did => exact absurd did (does _ _ _ at_ other)

end Rank

section Copy
variable {sync : Sync} {w v v' : World} {a : Act} {c d : Copying} {t : TableRef} {kind kind' : Kind} {rest rest' : List Instr}
  {start : Option KeyValues} {bs : List KeyValues}

theorem fetchingStep (order : KeyOrder sync.le) (held : Fetching sync v c start bs) (at_ : v.mode = .busy kind (some c) rest)
    (moves : Moves sync v a v') (alive : healthy a = true) (now : v'.mode = .busy kind' (some d) rest') :
    Fetching sync v' d start bs ∧ d.ref = c.ref ∧ kind' = kind ∧ rest' = rest := by
  cases moves with
  | restart => cases now
  | skip | finish | exec => exact absurd now nextMode
  | plan was => cases at_.symm.trans was
  | read was part =>
    cases at_.symm.trans was
    cases now
    refine ⟨Fetching.same (w := v) (held.put part (fun _ none => by cases none) (fun _ _ same => ?_) (fun none => by cases none)
      fun none => by cases none) rfl rfl rfl,rfl,rfl,rfl⟩
    cases same
    exact ⟨held.waiting _ _ (mem_of_getElem? part),rfl⟩
  | land was part loaded =>
    cases at_.symm.trans was
    cases now
    cases loadedRows loaded
    exact ⟨held.land part,rfl,rfl,rfl⟩
  | refused | failed => exact absurd now failMode
  | mark was part =>
    rename_i i kind c rest chunk
    cases at_.symm.trans was
    rw [recordMode] at now
    cases now
    refine ⟨?_,rfl,rfl,rfl⟩
    cases saved : checkpoint c.parts (c.parts.set i (chunk,.done)) with
    | none => exact (held.count part).same rfl rfl rfl
    | some p => exact (held.count part).checkpointed order saved
  | _ => cases alive

end Copy

end Replicare.CopyEnds
