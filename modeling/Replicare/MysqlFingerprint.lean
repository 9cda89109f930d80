import Mathlib.Data.List.Sort
import Replicare.Engine
import Replicare.Wire

/-! The row text that the MySQL fingerprint hashes: the columns by name, NULL as one NUL
byte, joined by the byte 1. Which rows no other row shares its text with. -/
namespace Replicare.MysqlFingerprint
open Engine Wire List Function

structure Columns where
  names : List String
  distinct : names.Nodup

abbrev Row := String → Option Bytes

def sentinel : Bytes := [0]
def separator : UInt8 := 1

/- IFNULL(CAST(c AS CHAR), CHAR(0)). -/
def cell (row : Row) (c : String) : Bytes := (row c).getD sentinel

def Columns.sorted (cols : Columns) : List String := cols.names.insertionSort (· ≤ ·)

def rowExpr (cols : Columns) (row : Row) : Bytes := join separator (cols.sorted.map (cell row))

/- No NULL, no NUL byte alone, and no separator in a row of several columns. -/
def Plain (cols : Columns) (row : Row) : Prop :=
  (∀ c ∈ cols.names, cell row c ≠ sentinel) ∧ (cols.names.length ≤ 1 ∨ ∀ c ∈ cols.names, separator ∉ cell row c)

instance (cols : Columns) (row : Row) : Decidable (Plain cols row) := inferInstanceAs (Decidable (_ ∧ _))

section Rows
variable {cols : Columns} {row other : Row}

theorem sortedMem {c} : c ∈ cols.sorted ↔ c ∈ cols.names := (perm_insertionSort _ _).mem_iff

theorem cellSame {c} (plain : cell row c ≠ sentinel) (same : cell other c = cell row c) : other c = row c := by
  cases here : row c with
  | none => exact absurd (by rw [cell,here,Option.getD_none]) plain
  | some b =>
    rw [cell,cell,here,Option.getD_some] at same
    cases there : other c with
    | none =>
      rw [there,Option.getD_none] at same
      exact absurd (by rw [cell,here,Option.getD_some,same]) plain
    | some d =>
      rw [there,Option.getD_some] at same
      rw [same]

theorem plainUnique (plain : Plain cols row) (same : rowExpr cols other = rowExpr cols row) : ∀ c ∈ cols.names, other c = row c := by
  have cells : cols.sorted.map (cell row) = cols.sorted.map (cell other) := by
    have size : (cols.sorted.map (cell row)).length = (cols.sorted.map (cell other)).length := by
      rw [length_map,length_map]
    rcases plain.2 with few | free
    · have length : (cols.sorted.map (cell row)).length ≤ 1 := by
        rwa [length_map,Columns.sorted,length_insertionSort]
      exact joinShort size length same.symm
    · refine joinUnique size ?_ same.symm
      intro text member
      obtain ⟨c,mem,rfl⟩ := mem_map.mp member
      exact free c (sortedMem.mp mem)
  intro c member
  have one := map_inj_left.mp cells c (sortedMem.mpr member)
  exact cellSame (plain.1 c member) one.symm

theorem sentinelShared {c} (member : c ∈ cols.names) (bad : cell row c = sentinel) :
    ∃ other, rowExpr cols other = rowExpr cols row ∧ other c ≠ row c := by
  refine ⟨update row c (if row c = none then some sentinel else none),?_,?_⟩
  · rw [rowExpr,rowExpr]
    congr 2
    funext d
    by_cases here : d = c
    · subst here
      rw [cell,update_self,bad]
      split <;> rfl
    · rw [cell,update_of_ne here,cell]
  · rw [update_self]
    split
    · rename_i none
      rw [none]
      simp
    · rename_i some
      exact Ne.symm some

theorem neighboursShared {front back c d x y} (split : cols.sorted = front++c::d::back)
    (same : cell row c++separator::cell row d = x++separator::y) :
    rowExpr cols (update (update row c (some x)) d (some y)) = rowExpr cols row := by
  have distinct : (front++c::d::back).Nodup := split ▸ (perm_insertionSort _ _).nodup_iff.mpr cols.distinct
  have frontC : ∀ e ∈ front, e ≠ c ∧ e ≠ d := by
    intro e member
    have apart := (nodup_append.mp distinct).2.2 e member
    exact ⟨apart c (by simp),apart d (by simp)⟩
  have rest := (nodup_append.mp distinct).2.1
  rw [nodup_cons,nodup_cons,mem_cons,not_or] at rest
  obtain ⟨⟨apart,backC⟩,backD,_⟩ := rest
  have kept : ∀ e, e ≠ c ∧ e ≠ d → cell (update (update row c (some x)) d (some y)) e = cell row e := by
    intro e away
    rw [cell,update_of_ne away.2,update_of_ne away.1,cell]
  rw [rowExpr,rowExpr,split,map_append,map_append,map_cons,map_cons,map_cons,map_cons,
    map_congr_left fun e member => kept e (frontC e member),
    map_congr_left fun e member => kept e ⟨fun here => backC (here ▸ member),fun here => backD (here ▸ member)⟩,
    joinSwap same]
  simp [cell,apart]

theorem separatorShared {c} (member : c ∈ cols.names) (several : 2 ≤ cols.names.length) (bad : separator ∈ cell row c) :
    ∃ other, rowExpr cols other = rowExpr cols row ∧ other c ≠ row c := by
  obtain ⟨u,v,text⟩ := append_of_mem bad
  have changed : ∀ x : Bytes, x.length < (u++separator::v).length → some x ≠ row c := by
    intro x shorter here
    rw [cell,←here,Option.getD_some] at text
    rw [text] at shorter
    omega
  obtain ⟨front,back,split⟩ := append_of_mem (sortedMem.mpr member)
  have size : (front++c::back).length = cols.names.length := by
    rw [←split,Columns.sorted,length_insertionSort]
  cases back with
  | cons d back =>
    refine ⟨_,neighboursShared split (x := u) (y := v++separator::cell row d) (by rw [text]; simp),?_⟩
    have apart : c ≠ d := by
      have distinct : (front++c::d::back).Nodup := split ▸ (perm_insertionSort _ _).nodup_iff.mpr cols.distinct
      have rest := (nodup_append.mp distinct).2.1
      exact fun here => (nodup_cons.mp rest).1 (here ▸ .head _)
    rw [update_of_ne apart,update_self]
    exact changed u (by simp)
  | nil =>
    obtain ⟨front,d,rfl⟩ : ∃ l e, front = l++[e] := by
      rcases eq_nil_or_concat front with rfl | ⟨l,e,here⟩
      · simp at size
        omega
      · exact ⟨l,e,by simpa using here⟩
    rw [append_assoc] at split
    refine ⟨_,neighboursShared split (x := cell row d++separator::u) (y := v) (by rw [text]; simp),?_⟩
    rw [update_self]
    exact changed v (by simp; omega)

theorem rowTextUniqueIff (cols : Columns) (row : Row) :
    (∀ other, rowExpr cols other = rowExpr cols row → ∀ c ∈ cols.names, other c = row c) ↔ Plain cols row := by
  constructor
  · intro unique
    by_contra unsure
    simp only [Plain,not_and_or,not_or,not_forall,not_le] at unsure
    rcases unsure with ⟨c,member,bad⟩ | ⟨several,c,member,bad⟩
    · obtain ⟨other,same,differs⟩ := sentinelShared member (not_not.mp bad)
      exact differs (unique other same c member)
    · obtain ⟨other,same,differs⟩ := separatorShared member several (not_not.mp bad)
      exact differs (unique other same c member)
  · exact fun plain other same => plainUnique plain same

end Rows

def twoColumns : Columns := ⟨["a","b"],by decide⟩

/- ("x\x01y", "z") and ("x", "y\x01z"); and NULL against the NUL byte. -/
theorem rowTextShared :
    (∃ one two : Row, rowExpr twoColumns one = rowExpr twoColumns two ∧ one "a" = some [120,1,121] ∧ two "a" = some [120]) ∧
    ∃ one two : Row, rowExpr twoColumns one = rowExpr twoColumns two ∧ one "a" = none ∧ two "a" = some [0] := by
  refine ⟨⟨fun c => if c = "a" then some [120,1,121] else some [122],fun c => if c = "a" then some [120] else some [121,1,122],?_,?_,?_⟩,
    ⟨fun c => if c = "a" then none else some [],fun c => if c = "a" then some [0] else some [],?_,?_,?_⟩⟩ <;> decide +kernel

end Replicare.MysqlFingerprint
