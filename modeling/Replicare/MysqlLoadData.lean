import Replicare.Engine
import Replicare.Wire

/-! The text of LOAD DATA: rows of escaped fields as they are written, and the reader that the
FIELDS and LINES clause describes. -/
namespace Replicare.MysqlLoadData
open Engine Wire List

def fieldSep : UInt8 := 9
def rowTerm : UInt8 := 10
def escByte : UInt8 := 92
def nullField : Bytes := [escByte,78]

def escapes : List (UInt8 × UInt8) := [(0,48),(8,98),(fieldSep,116),(rowTerm,110),(13,114),(26,90),(escByte,escByte)]

def escapeByte (b : UInt8) : Bytes :=
  match escapes.find? fun e => e.1 = b with
  | some e => [escByte,e.2]
  | none => [b]

def escapeInto (v : Bytes) : Bytes := v.flatMap escapeByte

def writeField : Option Bytes → Bytes
  | none => nullField
  | some v => escapeInto v

def writeRow (row : List (Option Bytes)) : Bytes := join fieldSep (row.map writeField)++[rowTerm]

def meant (letter : UInt8) : UInt8 := ((escapes.find? fun e => e.2 = letter).map Prod.fst).getD letter

def unescape : Bool → Bytes → Bytes
  | _, [] => []
  | true, c::rest => meant c::unescape false rest
  | false, c::rest => if c = escByte then unescape true rest else c::unescape false rest

def readField (raw : Bytes) : Option Bytes := if raw = nullField then none else some (unescape false raw)

def loadRows : List (Option Bytes) → Bytes → Bool → Bytes → List (List (Option Bytes))
  | row, raw, _, [] => if row = [] ∧ raw = [] then [] else [row++[readField raw]]
  | row, raw, true, c::rest => loadRows row (raw++[c]) false rest
  | row, raw, false, c::rest =>
    if c = escByte then loadRows row (raw++[c]) true rest
    else if c = fieldSep then loadRows (row++[readField raw]) [] false rest
    else if c = rowTerm then (row++[readField raw])::loadRows [] [] false rest
    else loadRows row (raw++[c]) false rest

def loadData (text : Bytes) : List (List (Option Bytes)) := loadRows [] [] false text

theorem escapeCases (b) : escapeByte b = [b] ∧ b ≠ escByte ∧ b ≠ fieldSep ∧ b ≠ rowTerm ∨
    ∃ letter, escapeByte b = [escByte,letter] ∧ meant letter = b ∧ letter ≠ 78 := by
  unfold escapeByte
  cases found : escapes.find? fun e => e.1 = b with
  | none =>
    refine .inl ⟨rfl,?_,?_,?_⟩ <;> rintro rfl <;> cases found
  | some e =>
    have each : escapes.all (fun e => decide (meant e.2 = e.1 ∧ e.2 ≠ 78)) = true := by decide
    obtain ⟨stands,other⟩ := of_decide_eq_true (all_eq_true.mp each e (mem_of_find?_eq_some found))
    have mine : e.1 = b := by simpa using find?_some found
    exact .inr ⟨e.2,rfl,stands.trans mine,other⟩

theorem unescapeValue (v) : unescape false (escapeInto v) = v := by
  induction v with
  | nil => rfl
  | cons b v ih =>
    rw [escapeInto,flatMap_cons,←escapeInto]
    rcases escapeCases b with ⟨plain,other,_⟩ | ⟨letter,escaped,stands,_⟩
    · rw [plain,singleton_append,unescape,if_neg other,ih]
    · rw [escaped,cons_append,singleton_append,unescape,if_pos rfl,unescape,stands,ih]

theorem valueNotNull (v) : escapeInto v ≠ nullField := by
  cases v with
  | nil => simp [escapeInto,nullField]
  | cons b v =>
    rw [escapeInto,flatMap_cons]
    rcases escapeCases b with ⟨plain,other,_⟩ | ⟨letter,escaped,_,named⟩
    · rw [plain]
      exact fun same => other (List.cons.inj same).1
    · rw [escaped]
      exact fun same => named (List.cons.inj (List.cons.inj same).2).1

theorem readWritten (v) : readField (writeField v) = v := by
  cases v with
  | none => rfl
  | some v => rw [writeField,readField,if_neg (valueNotNull v),unescapeValue]

theorem loadField (v row raw rest) : loadRows row raw false (writeField v++rest) = loadRows row (raw++writeField v) false rest := by
  cases v with
  | none => simp [writeField,nullField,loadRows]
  | some v =>
    rw [writeField]
    induction v generalizing raw with
    | nil => rw [escapeInto,flatMap_nil,nil_append,append_nil]
    | cons b v ih =>
      rw [escapeInto,flatMap_cons,←escapeInto]
      rcases escapeCases b with ⟨plain,other,sep,term⟩ | ⟨letter,escaped,_,_⟩
      · rw [plain,append_assoc,singleton_append,loadRows,if_neg other,if_neg sep,if_neg term,ih,append_assoc]
      · rw [escaped,append_assoc,cons_append,singleton_append,loadRows,if_pos rfl,loadRows,ih]
        simp

theorem loadRow {row} (columns : row ≠ []) (done rest) :
    loadRows done [] false (writeRow row++rest) = (done++row)::loadRows [] [] false rest := by
  rw [writeRow,append_assoc,singleton_append]
  induction row generalizing done with
  | nil => exact absurd rfl columns
  | cons v row ih =>
    cases row with
    | nil =>
      rw [map_singleton,join,loadField,nil_append,loadRows]
      simp [rowTerm,escByte,fieldSep,readWritten]
    | cons w row =>
      rw [map_cons,map_cons,join,←map_cons,append_assoc,loadField,nil_append,cons_append,loadRows]
      simp only [show fieldSep ≠ escByte by decide,if_false,if_true,readWritten]
      rw [ih (cons_ne_nil _ _)]
      simp

/- What is written is read back: rows, columns, bytes and NULLs. -/
theorem loadDataRoundTrip (rows : List (List (Option Bytes))) (columns : ∀ row ∈ rows, row ≠ []) :
    loadData (rows.flatMap writeRow) = rows := by
  rw [loadData]
  induction rows with
  | nil => rfl
  | cons row rows ih =>
    rw [flatMap_cons,loadRow (columns row mem_cons_self),nil_append]
    exact congrArg _ (ih fun r mem => columns r (mem_cons_of_mem _ mem))

/- A NULL, an empty value, and the two bytes of the NULL mark as a value. -/
theorem loadDataNulls : loadData ([[none,some []],[some nullField,none]].flatMap writeRow) = [[none,some []],[some nullField,none]] :=
  loadDataRoundTrip _ (by simp)

end Replicare.MysqlLoadData
