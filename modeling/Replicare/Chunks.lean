import Mathlib.Data.List.Sort
import Replicare.Stored

/-! Chunks of a table by ranges of its key. How the database compares two key tuples is a
parameter. -/
namespace Replicare.Chunks
open Engine Stored List

/- A missing bound leaves that side open. -/
structure Chunk where
  lo : Option KeyValues
  hi : Option KeyValues
  deriving DecidableEq, Repr

section Plan
variable (le : KeyValues → KeyValues → Bool)

def above (lo : Option KeyValues) (k : KeyValues) : Bool := lo.all fun b => le b k

def Chunk.has (c : Chunk) (k : KeyValues) : Bool := above le c.lo k && c.hi.all fun b => !le b k

def copyChunk (rows : Rows) (c : Chunk) : Rows := rows.filter fun e => c.has le e.1

def defaultChunkRows : Nat := 100000

def chunkRows (targetRows : Int) : Nat := if targetRows ≤ 0 then defaultChunkRows else targetRows.toNat

def keysetBoundaries (rows : Rows) (n : Nat) (lo : Option KeyValues) : List KeyValues :=
  ((((rows.map Prod.fst).filter (above le lo)).insertionSort fun a b => le a b).zipIdx.filter fun e =>
    decide (e.2%n = 0 ∧ 0 < e.2)).map Prod.fst

def buildKeysetRangesFrom (start : Option KeyValues) : List KeyValues → List Chunk
  | [] => [⟨start,none⟩]
  | b::bs => ⟨start,some b⟩::buildKeysetRangesFrom (some b) bs

def planChunks (rows : Rows) (targetRows : Int) (lo : Option KeyValues) : List Chunk :=
  buildKeysetRangesFrom lo (keysetBoundaries le rows (chunkRows targetRows) lo)

end Plan

variable {le : KeyValues → KeyValues → Bool} {start : Option KeyValues} {bs : List KeyValues} {k : KeyValues}

theorem rangesCover (floor : above le start k = true) : ∃ c ∈ buildKeysetRangesFrom start bs, c.has le k = true := by
  induction bs generalizing start with
  | nil => exact ⟨⟨start,none⟩,mem_cons_self,by simp [Chunk.has,floor]⟩
  | cons b bs ih =>
    by_cases beyond : le b k = true
    · have later : above le (some b) k = true := by simpa [above] using beyond
      obtain ⟨c,mem,inside⟩ := ih later
      exact ⟨c,mem_cons_of_mem _ mem,inside⟩
    · exact ⟨⟨start,some b⟩,mem_cons_self,by simp [Chunk.has,floor,beyond]⟩

theorem prefixCovers {i c w} (place : (buildKeysetRangesFrom start bs)[i]? = some c) (bound : c.hi = some w)
    (below : ¬le w k = true) (floor : above le start k = true) :
    ∃ d ∈ (buildKeysetRangesFrom start bs).take (i+1), d.has le k = true := by
  induction bs generalizing start i with
  | nil =>
    cases i with
    | zero =>
      cases place
      cases bound
    | succ i => simp [buildKeysetRangesFrom] at place
  | cons b bs ih =>
    by_cases beyond : le b k = true
    · cases i with
      | zero =>
        cases place
        cases bound
        exact absurd beyond below
      | succ i =>
        have rest : (buildKeysetRangesFrom (some b) bs)[i]? = some c := place
        obtain ⟨d,mem,inside⟩ := ih rest (by simpa [above] using beyond)
        exact ⟨d,mem_cons_of_mem _ mem,inside⟩
    · exact ⟨⟨start,some b⟩,mem_cons_self,by simp [Chunk.has,floor,beyond]⟩

section Order

/- The database orders the keys. -/
structure KeyOrder (le : KeyValues → KeyValues → Bool) : Prop where
  total : ∀ a b, le a b = true ∨ le b a = true
  trans : ∀ {a b c}, le a b = true → le b c = true → le a c = true

theorem aboveTrans (order : KeyOrder le) {b} (floor : above le start b = true) (beyond : le b k = true) : above le start k = true := by
  cases start with
  | none => rfl
  | some a => exact order.trans floor beyond

theorem boundariesListed (rows) (n) (lo) : (keysetBoundaries le rows n lo).Sublist
    (((rows.map Prod.fst).filter (above le lo)).insertionSort fun a b => le a b) := by
  have listed := (filter_sublist (p := fun e => decide (e.2%n = 0 ∧ 0 < e.2))
    (l := (((rows.map Prod.fst).filter (above le lo)).insertionSort fun a b => le a b).zipIdx)).map Prod.fst
  rwa [zipIdx_map_fst] at listed

theorem boundariesSorted (order : KeyOrder le) (rows) (n) (lo) :
    (keysetBoundaries le rows n lo).Pairwise fun a b => le a b = true := by
  have total : Std.Total (fun a b => le a b = true) := ⟨order.total⟩
  have trans : IsTrans KeyValues (fun a b => le a b = true) := ⟨fun _ _ _ => order.trans⟩
  exact List.Pairwise.sublist (boundariesListed rows n lo) (pairwise_insertionSort _ _)

theorem boundariesAbove {rows n lo b} (mem : b ∈ keysetBoundaries le rows n lo) : above le lo b = true := by
  have listed := (mem_insertionSort _).mp ((boundariesListed rows n lo).subset mem)
  exact (mem_filter.mp listed).2

/- Ranges between bounds that are sorted. -/
structure Cuts (le : KeyValues → KeyValues → Bool) (start : Option KeyValues) (bs : List KeyValues) : Prop where
  sorted : bs.Pairwise fun a b => le a b = true
  floor : ∀ b ∈ bs, above le start b = true

theorem Cuts.tail {b} (cuts : Cuts le start (b::bs)) : Cuts le (some b) bs :=
  ⟨(pairwise_cons.mp cuts.sorted).2,(pairwise_cons.mp cuts.sorted).1⟩

theorem rangesFloor (order : KeyOrder le) (cuts : Cuts le start bs) {c} (mem : c ∈ buildKeysetRangesFrom start bs)
    (inside : c.has le k = true) : above le start k = true := by
  induction bs generalizing start with
  | nil =>
    cases mem_singleton.mp mem
    exact (Bool.and_eq_true_iff.mp inside).1
  | cons b bs ih =>
    rcases mem_cons.mp mem with rfl | later
    · exact (Bool.and_eq_true_iff.mp inside).1
    · exact aboveTrans order (cuts.floor b mem_cons_self) (ih cuts.tail later)

theorem rangesApart (order : KeyOrder le) (cuts : Cuts le start bs) {i j : Nat} {c d : Chunk}
    (one : (buildKeysetRangesFrom start bs)[i]? = some c) (two : (buildKeysetRangesFrom start bs)[j]? = some d)
    (inside : c.has le k = true) (also : d.has le k = true) : i = j := by
  induction bs generalizing start i j with
  | nil =>
    obtain ⟨short,_⟩ := List.getElem?_eq_some_iff.mp one
    obtain ⟨short',_⟩ := List.getElem?_eq_some_iff.mp two
    simp only [buildKeysetRangesFrom,length_singleton] at short short'
    omega
  | cons b bs ih =>
    have never : ∀ {e f : Chunk}, e = ⟨start,some b⟩ → f ∈ buildKeysetRangesFrom (some b) bs → e.has le k = true →
        f.has le k = true → False := by
      rintro e f rfl later inside also
      have beyond : le b k = true := rangesFloor order cuts.tail later also
      simp [Chunk.has,beyond] at inside
    cases i with
    | zero =>
      cases j with
      | zero => rfl
      | succ j => exact (never (Option.some.inj one).symm (mem_of_getElem? (i := j) two) inside also).elim
    | succ i =>
      cases j with
      | zero => exact (never (Option.some.inj two).symm (mem_of_getElem? (i := i) one) also inside).elim
      | succ j => exact congrArg (·+1) (ih cuts.tail one two)

theorem rangesLength : (buildKeysetRangesFrom start bs).length = bs.length+1 := by
  induction bs generalizing start with
  | nil => rfl
  | cons b bs ih => simp [buildKeysetRangesFrom,ih]

theorem rangesHi {i : Nat} {c : Chunk} (place : (buildKeysetRangesFrom start bs)[i]? = some c) : c.hi = bs[i]? := by
  induction bs generalizing start i with
  | nil =>
    cases mem_singleton.mp (mem_of_getElem? place)
    rfl
  | cons b bs ih =>
    cases i with
    | zero =>
      cases place
      rfl
    | succ i => exact ih place

theorem rangesBound {i : Nat} {c : Chunk} (place : (buildKeysetRangesFrom start bs)[i]? = some c)
    (more : i+1 < (buildKeysetRangesFrom start bs).length) :
    ∃ b ∈ bs, c.hi = some b := by
  have short : i < bs.length := by
    rw [rangesLength] at more
    omega
  exact ⟨bs[i],getElem_mem short,(rangesHi place).trans (getElem?_eq_getElem short)⟩

end Order

end Replicare.Chunks
