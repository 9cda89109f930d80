import Mathlib.Data.List.Basic
import Mathlib.Algebra.Order.Ring.Int
import Replicare.Engine

/-! Compatibility of MySQL column types, as pre-flight judges a pair of columns. -/
namespace Replicare.MysqlTypes
open Engine

/- In ascending order of severity. -/
inductive CompatLevel where
  | identical
  | widen
  | risky
  | incompatible
  deriving DecidableEq, Repr

def CompatLevel.rank : CompatLevel → Nat
  | .identical => 0
  | .widen => 1
  | .risky => 2
  | .incompatible => 3

def CompatLevel.blocks (l : CompatLevel) : Bool := l == .incompatible

structure MyType where
  raw : String
  base : String
  unsigned : Bool
  args : List Int
  deriving DecidableEq, Repr

def isSpace (c : Char) : Bool :=
  c.toNat ∈ [0x20,0x85,0xa0,0x1680,0x2028,0x2029,0x202f,0x205f,0x3000] ||
    decide (9 ≤ c.toNat ∧ c.toNat ≤ 13) || decide (0x2000 ≤ c.toNat ∧ c.toNat ≤ 0x200a)

def trimSpace (s : List Char) : List Char := ((s.dropWhile isSpace).reverse.dropWhile isSpace).reverse

def contains (s part : List Char) : Bool := s.tails.any part.isPrefixOf

def digits (s : List Char) : Option Nat :=
  if s.isEmpty then none
  else s.foldlM (fun n c => if c.isDigit then some (10 * n + (c.toNat - '0'.toNat)) else none) 0

def atoi (s : List Char) : Option Int := do
  let n ← match s with
    | '-'::rest => (digits rest).map fun n => -(n : Int)
    | '+'::rest => (digits rest).map Int.ofNat
    | _ => (digits s).map Int.ofNat
  if -2^63 ≤ n ∧ n < 2^63 then some n else none

theorem atoiDigits {s} {n} (unsigned : ∀ rest, s ≠ '-'::rest ∧ s ≠ '+'::rest) (value : digits s = some n)
    (small : n < 2^63) : atoi s = some (n : Int) := by
  rw [atoi,value]
  · have fits : -2^63 ≤ Int.ofNat n ∧ Int.ofNat n < 2^63 := by
      rw [Int.ofNat_eq_natCast]
      omega
    rw [Option.map_some,Option.bind_eq_bind,Option.bind_some]
    beta_reduce
    rw [if_pos fits,Int.ofNat_eq_natCast]
  · exact fun rest => (unsigned rest).1
  · exact fun rest => (unsigned rest).2

def before (s : List Char) (c : Char) : List Char := s.takeWhile (· ≠ c)

def typeBody (raw : List Char) : List Char :=
  if ' ' ∈ raw ∧ ('(' ∉ raw ∨ (before raw ' ').length < (before raw '(').length) then before raw ' ' else raw

def parseMyType (s : String) : MyType :=
  let raw := trimSpace (s.toList.map Char.toLower)
  let body := typeBody raw
  let inner := before (body.drop ((before body '(').length+1)) ')'
  { raw := String.ofList raw
    base := String.ofList (before body '(')
    unsigned := contains raw "unsigned".toList
    args := if '(' ∈ body then (inner.splitOn ',').filterMap fun part => atoi (trimSpace part) else [] }

def MyType.arg (t : MyType) (i : Nat) (default : Int) : Int := (t.args[i]?).getD default

inductive Family where
  | int | decimal | float | bit | char | text | binary | blob | date | time | datetime | timestamp | year
  | enum | set | json | other
  deriving DecidableEq, Repr

def Family.name : Family → String
  | .int => "int" | .decimal => "decimal" | .float => "float" | .bit => "bit" | .char => "char" | .text => "text"
  | .binary => "binary" | .blob => "blob" | .date => "date" | .time => "time" | .datetime => "datetime"
  | .timestamp => "timestamp" | .year => "year" | .enum => "enum" | .set => "set" | .json => "json"
  | .other => "geometry-or-other"

def MyType.family (t : MyType) : Family :=
  if t.base ∈ ["tinyint","smallint","mediumint","int","integer","bigint"] then .int
  else if t.base ∈ ["decimal","numeric","dec","fixed"] then .decimal
  else if t.base ∈ ["float","double","real","double precision"] then .float
  else if t.base = "bit" then .bit
  else if t.base ∈ ["char","varchar"] then .char
  else if t.base ∈ ["tinytext","text","mediumtext","longtext"] then .text
  else if t.base ∈ ["binary","varbinary"] then .binary
  else if t.base ∈ ["tinyblob","blob","mediumblob","longblob"] then .blob
  else if t.base = "date" then .date
  else if t.base = "time" then .time
  else if t.base = "datetime" then .datetime
  else if t.base = "timestamp" then .timestamp
  else if t.base = "year" then .year
  else if t.base = "enum" then .enum
  else if t.base = "set" then .set
  else if t.base = "json" then .json
  else .other

def rankIn (ranks : List (String × Nat)) (base : String) : Nat := (ranks.lookup base).getD 0

def intRank := rankIn [("tinyint",1),("smallint",2),("mediumint",3),("int",4),("integer",4),("bigint",5)]
def textRank := rankIn [("tinytext",1),("text",2),("mediumtext",3),("longtext",4)]
def blobRank := rankIn [("tinyblob",1),("blob",2),("mediumblob",3),("longblob",4)]

def widenIf (wide : Bool) (msg : String) : CompatLevel × String := if wide then (.widen,"") else (.risky,msg)

def arrow (s t : MyType) : String := s.raw++" -> "++t.raw

def classifySameFamily (fam : Family) (s t : MyType) : CompatLevel × String :=
  let longer := decide (s.arg 0 0 ≤ t.arg 0 0)
  match fam with
  | .int =>
      if s.unsigned ≠ t.unsigned then (.risky,"integer signedness change ("++arrow s t++") may lose values")
      else widenIf (decide (intRank s.base ≤ intRank t.base)) ("integer narrowing "++arrow s t++" may overflow")
  | .decimal => widenIf (decide (s.arg 0 10 ≤ t.arg 0 10 ∧ s.arg 1 0 ≤ t.arg 1 0))
      ("decimal precision/scale narrowing "++arrow s t)
  | .float =>
      if s.base = "float" ∧ t.base ∈ ["double","real","double precision"] then (.widen,"")
      else if s.base = t.base then (.identical,"")
      else (.risky,"floating-point change "++arrow s t)
  | .char => widenIf longer ("string length narrowing "++arrow s t++" may truncate")
  | .text => widenIf (decide (textRank s.base ≤ textRank t.base)) ("text narrowing "++arrow s t++" may truncate")
  | .binary => widenIf longer ("binary length narrowing "++arrow s t++" may truncate")
  | .blob => widenIf (decide (blobRank s.base ≤ blobRank t.base)) ("blob narrowing "++arrow s t++" may truncate")
  | .datetime | .timestamp | .time => widenIf longer ("fractional-seconds precision narrowing "++arrow s t)
  | .enum | .set =>
      if s.raw = t.raw then (.identical,"") else (.risky,fam.name++" member-set change "++arrow s t)
  | _ => (.identical,"")

def Family.isNumeric (f : Family) : Bool := f ∈ [.int,.decimal,.float,.bit]
def Family.isStringish (f : Family) : Bool := f ∈ [.char,.text]
def Family.isTemporal (f : Family) : Bool := f ∈ [.date,.time,.datetime,.timestamp,.year]
def Family.isStructured (f : Family) : Bool := f ∈ [.json,.other]
def Family.isEnumSet (f : Family) : Bool := f ∈ [.enum,.set]
def Family.isBytes (f : Family) : Bool := f ∈ [.binary,.blob]

def classifyCrossFamily (sf tf : Family) : CompatLevel × String :=
  let msg := "cross-type change "++sf.name++" -> "++tf.name
  if sf.isNumeric && tf.isNumeric then (.risky,msg)
  else if sf.isStringish && tf.isStringish then (.widen,"")
  else if sf.isBytes && tf.isBytes then (.widen,"")
  else if sf.isTemporal && tf.isTemporal then (.risky,msg++" (temporal semantics differ)")
  else if (sf.isEnumSet && tf.isStringish) || (sf.isStringish && tf.isEnumSet) then (.risky,msg)
  else if sf.isStructured || tf.isStructured || sf.isEnumSet || tf.isEnumSet then
    (.incompatible,msg++" (structurally incompatible)")
  else if tf.isStringish then (.risky,msg)
  else (.incompatible,msg)

def classifyTypes (srcType tgtType : String) : CompatLevel × String :=
  let s := parseMyType srcType
  let t := parseMyType tgtType
  if s.raw = t.raw then (.identical,"")
  else if s.family = t.family then classifySameFamily s.family s t
  else classifyCrossFamily s.family t.family

def normCharset (c : String) : String :=
  let low := String.ofList (c.toList.map Char.toLower)
  if low = "utf8" then "utf8mb3" else low

def classifyCharset (src tgt : Column) : CompatLevel × String :=
  let sc := normCharset src.charset
  let tc := normCharset tgt.charset
  if sc = "" ∨ tc = "" ∨ sc = tc then (.identical,"")
  else if sc = "utf8mb4" ∧ tc = "utf8mb3" then
    (.risky,"charset narrowing utf8mb4 -> utf8mb3 truncates 4-byte characters")
  else if sc = "utf8mb3" ∧ tc = "utf8mb4" then (.widen,"")
  else (.risky,"charset change "++src.charset++" -> "++tgt.charset)

def classifyColumn (src tgt : Column) : CompatLevel × String :=
  let types := classifyTypes src.dataType tgt.dataType
  let charset := classifyCharset src tgt
  if types.1.rank < charset.1.rank then charset else types

theorem classifySame {src tgt} (type : tgt.dataType = src.dataType) (charset : tgt.charset = src.charset) :
    classifyColumn src tgt = (.identical,"") := by
  simp [classifyColumn,classifyTypes,classifyCharset,type,charset]

end Replicare.MysqlTypes
