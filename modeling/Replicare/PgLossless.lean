import Replicare.FixedPoint
import Replicare.TextReplace
import Replicare.TypeText

/-! Which pairs of Postgres types that pre-flight accepts keep every value. -/
namespace Replicare.PgLossless
open FixedPoint PgTypes TypeText List
open MysqlTypes (CompatLevel isSpace trimSpace)

inductive Width where
  | small | medium | big
  deriving DecidableEq

inductive Kind where
  | timestamp | time | interval
  deriving DecidableEq

inductive Canon where
  | int (w : Width)
  | numeric (mods : Option (Nat×Int))
  | text
  | varchar (length : Option Nat)
  | character (length : Nat)
  | byte
  | temporal (k : Kind) (precision : Option Nat)
  deriving DecidableEq

def Width.bits : Width → Nat
  | .small => 16
  | .medium => 32
  | .big => 64

def Width.name : Width → String
  | .small => "smallint"
  | .medium => "integer"
  | .big => "bigint"

def Kind.name : Kind → String
  | .timestamp => "timestamp"
  | .time => "time"
  | .interval => "interval"

def Kind.zone : Kind → String
  | .timestamp | .time => " without time zone"
  | .interval => ""

def Valid : Canon → Prop
  | .numeric (some (p,s)) => 1 ≤ p ∧ p ≤ 1000 ∧ -1000 ≤ s ∧ s ≤ 1000
  | .varchar (some n) | .character n => 1 ≤ n ∧ n ≤ 10485760
  | .temporal _ (some p) => p ≤ 6
  | _ => True

def one (before : String) (n : Nat) (after : String) : List Char := before.toList++ '('::(decimal n++ ')'::after.toList)

def signed (p s : Nat) : List Char := "numeric".toList++ '('::(decimal p++ ',':: '-'::(decimal s++[')']))

def Canon.print : Canon → List Char
  | .int w => w.name.toList
  | .numeric none => "numeric".toList
  | .numeric (some (p,.ofNat s)) => "numeric".toList++ '('::(decimal p++ ','::(decimal s++[')']))
  | .numeric (some (p,.negSucc s)) => signed p (s+1)
  | .text => "text".toList
  | .varchar none => "character varying".toList
  | .varchar (some n) => one "character varying" n ""
  | .character n => one "character" n ""
  | .byte => "\"char\"".toList
  | .temporal k none => k.name.toList++k.zone.toList
  | .temporal k (some p) => one k.name p k.zone

def Canon.parsed : Canon → PgType
  | .int w => ⟨w.name,[]⟩
  | .numeric none => ⟨"numeric",[]⟩
  | .numeric (some (p,.ofNat s)) => ⟨"numeric",[(p : Int),(s : Int)]⟩
  | .numeric (some (p,.negSucc s)) => ⟨String.ofList (signed p (s+1)),[]⟩
  | .text => ⟨"text",[]⟩
  | .varchar none => ⟨"character varying",[]⟩
  | .varchar (some n) => ⟨"character varying",[(n : Int)]⟩
  | .character n => ⟨"character",[(n : Int)]⟩
  | .byte => ⟨"\"char\"",[]⟩
  | .temporal k p => ⟨k.name++k.zone,(p.toList.map Int.ofNat)⟩

section Parse

def fixed (l : List Char) : Bool := l.all fun c => decide (c ≠ '(' ∧ c.toLower = c)
def opens (l : List Char) : Bool := fixed l && l.head?.any fun c => !isSpace c
def ends (l : List Char) : Bool := fixed l && l.getLast?.all fun c => !isSpace c

theorem fixedSpec {l} (is : fixed l = true) : '(' ∉ l ∧ ∀ c ∈ l, c.toLower = c := by
  have each := all_eq_true.mp is
  simp only [decide_eq_true_eq] at each
  exact ⟨fun mem => (each _ mem).1 rfl,fun c mem => (each c mem).2⟩

theorem opensSpec {l} (is : opens l = true) : fixed l = true ∧ ∃ c rest, l = c::rest ∧ isSpace c = false := by
  simp only [opens,Bool.and_eq_true,Option.any_eq_true,Bool.not_eq_true'] at is
  obtain ⟨is,c,first,plain⟩ := is
  obtain ⟨rest,shape⟩ := head?_eq_some_iff.mp first
  exact ⟨is,c,rest,shape,plain⟩

theorem endsSpec {l} (is : ends l = true) : fixed l = true ∧ ∀ c ∈ l.getLast?, isSpace c = false := by
  simp only [ends,Bool.and_eq_true,Option.all_eq_true,Bool.not_eq_true'] at is
  exact is

theorem parsePlain {l} (first : opens l = true) (last : ends l = true) : parseType (String.ofList l) = ⟨cleaned l,[]⟩ := by
  obtain ⟨is,c,rest,shape,plain⟩ := opensSpec first
  obtain ⟨none,lower⟩ := fixedSpec is
  have printed : Printed l := ⟨by simpa [shape] using plain,(endsSpec last).2,lower⟩
  have mods : firstMods l = [] := by
    have skip := @firstModsSkip _ [] none
    rwa [append_nil] at skip
  rw [printed.parse,stripModsNone none,mods]
  rfl

theorem printedMods {before mid after} (first : opens before = true) (last : ends after = true)
    (lower : ∀ c ∈ mid, c.toLower = c) :
    Printed (before++ '('::(mid++[')'])++after) := by
  obtain ⟨is,c,rest,rfl,plain⟩ := opensSpec first
  obtain ⟨is',tail⟩ := endsSpec last
  refine ⟨by simpa using plain,fun d final => ?_,fun d mem => ?_⟩
  · rw [getLast?_append] at final
    cases closing : after.getLast? with
    | none =>
      have split : c::rest++ '('::(mid++[')']) = (c::rest++ '('::mid)++[')'] := by simp
      rw [closing,split,getLast?_concat] at final
      cases final
      rfl
    | some e =>
      rw [closing] at final
      cases final
      exact tail d closing
  · simp only [mem_append,mem_cons,not_mem_nil,or_false] at mem
    rcases mem with (front | rfl | inside | rfl) | back
    · exact (fixedSpec is).2 d (mem_cons.mpr front)
    · rfl
    · exact lower d inside
    · rfl
    · exact (fixedSpec is').2 d back

theorem parseOne {before after} {n} (first : opens before.toList = true)
    (last : ends after.toList = true) (small : n < 2^63) :
    parseType (String.ofList (one before n after)) = ⟨cleaned (before.toList++after.toList),[(n : Int)]⟩ := by
  have shape : one before n after = before.toList++ '('::(decimal n++[')'])++after.toList := by simp [one]
  have read : modsAt ('('::(decimal n++[')'])++after.toList) = some ([n].map decimal,after.toList) := by
    simpa using modsOne n after.toList
  rw [shape,parseModded (printedMods first last fun c mem => (digitPlain (decimalDigit mem)).2.2.1)
    ⟨(fixedSpec (opensSpec first).1).1,(fixedSpec (endsSpec last).1).1⟩ read (by simpa using small)]
  rfl

theorem parseTwo {n m} (small : n < 2^63 ∧ m < 2^63) :
    parseType (String.ofList (Canon.print (.numeric (some (n,.ofNat m))))) = ⟨"numeric",[(n : Int),(m : Int)]⟩ := by
  have shape : Canon.print (.numeric (some (n,.ofNat m))) =
    "numeric".toList++ '('::(decimal n++ ','::decimal m++[')'])++[] := by
    rw [append_nil,append_assoc (decimal n)]
    rfl
  have read : modsAt ('('::(decimal n++ ','::decimal m++[')'])++[]) = some ([n,m].map decimal,[]) := by
    simpa using modsTwo n m []
  have lower : ∀ c ∈ decimal n++ ','::decimal m, c.toLower = c := by
    intro c mem
    rcases mem_append.mp mem with digit | rest
    · exact (digitPlain (decimalDigit digit)).2.2.1
    · rcases mem_cons.mp rest with rfl | digit
      · rfl
      · exact (digitPlain (decimalDigit digit)).2.2.1
  rw [shape,parseModded (printedMods (by decide) (by decide) lower) ⟨by decide,by decide⟩ read (by simpa using small)]
  rfl

theorem cleanedPlain {l} (some_ : l ≠ []) (plain : ∀ c ∈ l, isSpace c = false) : cleaned l = String.ofList l := by
  have ends_ : trimSpace l = l := trimmed (fun c mem => plain c (mem_of_mem_head? mem)) fun c mem =>
    plain c (mem_of_mem_getLast? mem)
  have whole : l.splitOnP isSpace = [l] := splitOnP_eq_singleton (by simpa using plain)
  rw [cleaned,ends_,fields,whole]
  simp [some_]

theorem parseMinus {before} (n m) (named : opens before = true ∧ before.all (fun c => !isSpace c) = true) :
    parseType (String.ofList (before++ '('::(decimal n++ ',':: '-'::(decimal m++[')'])))) =
      ⟨String.ofList (before++ '('::(decimal n++ ',':: '-'::(decimal m++[')']))),[]⟩ := by
  have each : ∀ c ∈ decimal n++ ',':: '-'::decimal m, isSpace c = false ∧ c.toLower = c ∧ c ≠ '(' := by
    have digit : ∀ k, ∀ c ∈ decimal k, isSpace c = false ∧ c.toLower = c ∧ c ≠ '(' := by
      intro k c mem
      have plain := digitPlain (decimalDigit mem)
      exact ⟨plain.1,plain.2.2.1,fun same => plain.2.2.2 (by simp [same])⟩
    intro c mem
    simp only [mem_append,mem_cons] at mem
    rcases mem with one | rfl | rfl | two
    · exact digit n c one
    · decide
    · decide
    · exact digit m c two
  have shape : before++ '('::(decimal n++ ',':: '-'::(decimal m++[')'])) =
    before++ '('::(decimal n++ ',':: '-'::decimal m++[')'])++[] := by
    rw [append_nil,append_assoc (decimal n)]
    rfl
  have rest : '(' ∉ decimal n++ ',':: '-'::(decimal m++[')']) := by
    intro mem
    have inside : '(' ∈ decimal n++ ',':: '-'::decimal m := by simpa using mem
    exact (each _ inside).2.2 rfl
  have printed := @printedMods before _ [] named.1 rfl fun c mem => (each c mem).2.1
  rw [←shape] at printed
  have spaceless : ∀ c ∈ before++ '('::(decimal n++ ',':: '-'::(decimal m++[')'])), isSpace c = false := by
    intro c mem
    rw [shape] at mem
    simp only [append_nil,mem_append,mem_cons,not_mem_nil,or_false] at mem each
    rcases mem with name | rfl | inside | rfl
    · simpa using all_eq_true.mp named.2 c name
    · decide
    · exact (each c inside).1
    · decide
  rw [parseUnread printed ⟨(fixedSpec (opensSpec named.1).1).1,rest⟩ (modsSigned n _),cleanedPlain (by simp) spaceless]

theorem parseSigned (n m) : parseType (String.ofList (signed n m)) = ⟨String.ofList (signed n m),[]⟩ :=
  parseMinus n m (by decide)

theorem parsedOf {c} (valid : Valid c) : parseType (String.ofList c.print) = c.parsed := by
  cases c with
  | int w => cases w <;> exact parsePlain (by decide) (by decide)
  | numeric mods =>
    rcases mods with _ | ⟨p,s⟩
    · exact parsePlain (by decide) (by decide)
    · cases s with
      | ofNat s =>
        obtain ⟨_,low,_,high⟩ := valid
        have scale : s ≤ 1000 := by simpa using high
        exact parseTwo ⟨by omega,by omega⟩
      | negSucc s => exact parseSigned p (s+1)
  | varchar n =>
    cases n with
    | none => exact parsePlain (by decide) (by decide)
    | some n => exact parseOne (by decide) (by decide) (by have high := valid.2; omega)
  | character n => exact parseOne (by decide) (by decide) (by have high := valid.2; omega)
  | temporal k p =>
    cases p with
    | none => cases k <;> exact parsePlain (by decide) (by decide)
    | some p =>
      have small : p < 2^63 := by
        have high : p ≤ 6 := valid
        omega
      cases k <;> exact parseOne (by decide) (by decide) small
  | _ => exact parsePlain (by decide) (by decide)

end Parse

section Family

def Canon.family : Canon → Family
  | .int _ => .int
  | .numeric (some (_,.negSucc _)) => .other
  | .numeric _ => .decimal
  | .text | .varchar _ | .character _ | .byte => .text
  | .temporal .timestamp _ => .timestamp
  | .temporal .time _ => .time
  | .temporal .interval _ => .interval

theorem familyOther {t : PgType} (inside : '(' ∈ t.base.toList) : t.family = .other := by
  have out : ∀ names : List String, (names.all fun n => !n.toList.contains '(') = true → t.base ∉ names := by
    intro names free mem
    have none := all_eq_true.mp free _ mem
    simp [inside] at none
  have differs : ∀ name : String, '(' ∉ name.toList → t.base ≠ name := fun name free same => free (same ▸ inside)
  simp only [PgType.family]
  iterate 4 rw [if_neg (out _ (by decide))]
  rw [if_neg (out _ (by decide)),if_neg (differs _ (by decide)),if_neg (differs _ (by decide))]
  iterate 4 rw [if_neg (out _ (by decide))]
  iterate 4 rw [if_neg (differs _ (by decide))]

theorem familyOf (c : Canon) : c.parsed.family = c.family := by
  have named : ∀ base fam, (⟨base,[]⟩ : PgType).family = fam → ∀ mods, (⟨base,mods⟩ : PgType).family = fam :=
    fun _ _ same _ => same
  cases c with
  | int w => cases w <;> decide
  | numeric mods =>
    rcases mods with _ | ⟨p,s⟩
    · decide
    · cases s with
      | ofNat s => exact named _ .decimal (by decide) _
      | negSucc s =>
        have inside : '(' ∈ signed p (s+1) := mem_append_right _ mem_cons_self
        exact familyOther (by rwa [Canon.parsed,String.toList_ofList])
  | text => decide
  | varchar n => cases n <;> exact named _ .text (by decide) _
  | character n => exact named _ .text (by decide) _
  | byte => decide
  | temporal k p =>
    cases k with
    | timestamp => exact named _ .timestamp (by decide) _
    | time => exact named _ .time (by decide) _
    | interval => exact named _ .interval (by decide) _

theorem decimalInjective {n m} (same : decimal n = decimal m) : n = m := by
  have values := congrArg (fun l => Nat.ofDigitChars 10 l 0) same
  simpa only [decimal,Nat.ofDigitChars_ten_toDigits] using values

theorem signedInjective {p q s t} (same : signed p s = signed q t) : p = q ∧ s = t := by
  have comma : ∀ n, ',' ∉ decimal n := fun n mem => (digitPlain (decimalDigit mem)).2.2.2 (by simp)
  have tail := (List.cons.inj (append_cancel_left same)).2
  have rest := TextReplace.firstMark (comma p) (comma q) tail
  have scales := append_cancel_right (List.cons.inj rest).2
  rw [rest] at tail
  exact ⟨decimalInjective (append_cancel_right tail),decimalInjective scales⟩

def reread (t : PgType) : Canon :=
  if t.base = "smallint" then .int .small
  else if t.base = "integer" then .int .medium
  else if t.base = "bigint" then .int .big
  else if t.base = "numeric" then .numeric ((t.mods[0]?).map fun p => (p.toNat,(t.mods[1]?).getD 0))
  else if t.base = "text" then .text
  else if t.base = "character varying" then .varchar (t.mods.head?.map Int.toNat)
  else if t.base = "character" then .character ((t.mods.head?.getD 0).toNat)
  else if t.base = "timestamp without time zone" then .temporal .timestamp (t.mods.head?.map Int.toNat)
  else if t.base = "time without time zone" then .temporal .time (t.mods.head?.map Int.toNat)
  else if t.base = "interval" then .temporal .interval (t.mods.head?.map Int.toNat)
  else .byte

theorem rereadParsed {c} (known : c.family ≠ .other) : reread c.parsed = c := by
  rcases c with (_ | _ | _) | (_ | ⟨p,s | s⟩) | _ | (_ | n) | n | _ | ⟨_ | _ | _,_ | p⟩ <;>
    first | exact absurd rfl known | simp [reread,Canon.parsed,Width.name,Kind.name,Kind.zone]

theorem otherSigned {c : Canon} (other : c.family = .other) : ∃ p s, c = .numeric (some (p,.negSucc s)) := by
  rcases c with w | (_ | ⟨p,s | s⟩) | _ | n | n | _ | ⟨_ | _ | _,p⟩ <;> first | exact ⟨p,s,rfl⟩ | cases other

theorem printInjective {s t : Canon} (valid : Valid s ∧ Valid t) (same : s.print = t.print) : s = t := by
  have parsed : s.parsed = t.parsed := by rw [←parsedOf valid.1,←parsedOf valid.2,same]
  have family : s.family = t.family := by rw [←familyOf,←familyOf,parsed]
  by_cases other : s.family = .other
  · obtain ⟨p,a,rfl⟩ := otherSigned other
    obtain ⟨q,b,rfl⟩ := otherSigned (family.symm.trans other)
    obtain ⟨rfl,scales⟩ := signedInjective same
    cases scales
    rfl
  · rw [←rereadParsed other,parsed,rereadParsed (family ▸ other)]

end Family

def Widens (s : Canon) : Canon → Prop
  | .int w => ∃ v, s = .int v ∧ v.bits ≤ w.bits
  | .numeric none => (∃ v, s = .int v) ∨ ∃ p a, s = .numeric (some (p,a)) ∧ 0 ≤ a
  | .numeric (some (q,b)) => (∃ v, s = .int v ∧ b = 0 ∧ 19 ≤ q) ∨ ∃ p a, s = .numeric (some (p,a)) ∧ 0 ≤ a ∧ p ≤ q ∧ a ≤ b
  | .text | .varchar none | .byte => True
  | .varchar (some n) | .character n => ∃ m, m ≤ n ∧ (s = .varchar (some m) ∨ s = .character m)
  | .temporal k q => ∃ p, s = .temporal k p ∧ (k = .interval ∨ p.getD 6 ≤ q.getD 6)

def Canon.limit : Canon → Int
  | .varchar (some n) | .character n => n
  | _ => -1

def Accepted (s t : Canon) : Prop :=
  (classifyTypes (String.ofList s.print) (String.ofList t.print)).1 ∈ [CompatLevel.identical,.widen]
instance (s t) : Decidable (Accepted s t) := by unfold Accepted; infer_instance

section Accept
variable {s t : Canon}

theorem limitOf (text : s.family = .text) : s.parsed.textLimit = s.limit := by
  rcases s with (_ | _ | _) | (_ | ⟨p,s | s⟩) | _ | (_ | n) | n | _ | ⟨_ | _ | _,p⟩ <;>
    first | (cases text; done) | simp [PgType.textLimit,Canon.parsed,Canon.limit,PgType.firstMod]

theorem widthOf (w) : (Canon.int w).parsed.intWidth = w.bits := by
  cases w <;> decide

theorem toBounded {n : Nat} (text : t.family = .text) (limit : t.limit = n)
    (accepted : (classifyToText s.parsed t.parsed).1 ∈ [CompatLevel.identical,.widen]) : ∃ m, m ≤ n ∧
      (s = .varchar (some m) ∨ s = .character m) := by
  rw [classifyToText,limitOf text,limit,if_neg (by omega)] at accepted
  split at accepted
  · rename_i inside
    obtain ⟨text,low,high⟩ := inside
    rw [familyOf] at text
    rw [limitOf text] at low high
    rcases s with w | (_ | ⟨p,s | s⟩) | _ | (_ | m) | m | _ | ⟨_ | _ | _,p⟩ <;>
      first | (cases text; done) | exact absurd low (by decide) | exact ⟨m,by simpa [Canon.limit] using high,by simp⟩
  · simp at accepted

theorem acceptedWidens (valid : Valid s ∧ Valid t) (accepted : Accepted s t) : s = t ∨ Widens s t := by
  by_cases other : s = t
  · exact .inl other
  · refine .inr ?_
    have texts : String.ofList s.print ≠ String.ofList t.print := by
      intro same
      exact other (printInjective valid (by simpa using congrArg String.toList same))
    rw [Accepted,classifyTypes,if_neg texts] at accepted
    simp only [parsedOf valid.1,parsedOf valid.2,familyOf] at accepted
    rcases t with w | (_ | ⟨q,b | b⟩) | _ |
      (_ | n) | n | _ | ⟨k,q⟩ <;> simp only [Canon.family,if_true,if_false,reduceCtorEq] at accepted
    · rcases s with v | (_ | ⟨p,a | a⟩) | _ | m | m | _ | ⟨_ | _ | _,p⟩ <;>
        try simp [classifyCrossFamily,unrecognized] at accepted
      simp only [classifySameFamily,widthOf] at accepted
      split at accepted
      · rename_i wide
        exact ⟨v,rfl,wide⟩
      · simp at accepted
    · rcases s with v | (_ | ⟨p,a | a⟩) | _ | m | m | _ | ⟨_ | _ | _,p⟩ <;>
        try simp [classifyCrossFamily,unrecognized] at accepted
      · exact .inl ⟨v,rfl⟩
      · exact absurd rfl other
      · exact .inr ⟨p,a,rfl,Int.natCast_nonneg a⟩
    · rcases s with v | (_ | ⟨p,a | a⟩) | _ | m | m | _ | ⟨_ | _ | _,p⟩ <;>
        try simp [classifyCrossFamily,unrecognized,classifySameFamily,classifyNumeric,Canon.parsed,PgType.hasMods,PgType.numericHoldsIntegers,PgType.numericPrecisionScale] at accepted
      · by_cases holds : b = 0 ∧ 19 ≤ q
        · exact .inl ⟨v,rfl,by simp [holds.1],holds.2⟩
        · simp [holds] at accepted
      · by_cases wide : p ≤ q ∧ a ≤ b
        · exact .inr ⟨p,a,rfl,Int.natCast_nonneg a,wide.1,Int.ofNat_le.mpr wide.2⟩
        · simp [wide] at accepted
    · rcases s with v | (_ | ⟨p,a | a⟩) | _ | m | m | _ | ⟨_ | _ | _,p⟩ <;>
        try simp [classifyCrossFamily,unrecognized,classifySameFamily] at accepted
    · trivial
    · trivial
    · exact toBounded rfl rfl accepted
    · exact toBounded rfl rfl accepted
    · trivial
    · have finer : ∀ (kind : Kind) {p : Option Nat},
        (classifyPrecision (Canon.temporal kind p).parsed (Canon.temporal kind q).parsed).1 ∈ [CompatLevel.identical,.widen] →
          p.getD 6 ≤ q.getD 6 := by
        intro kind p here
        rw [classifyPrecision] at here
        split at here
        · rename_i inside
          cases p <;> cases q <;> simp_all [Canon.parsed,PgType.firstMod]
        · simp at here
      rcases k with _ | _ | _ <;> rcases s with v | (_ | ⟨p,a | a⟩) | _ | m | m | _ | ⟨_ | _ | _,p⟩ <;>
        try simp [classifyCrossFamily,unrecognized] at accepted
      · exact ⟨p,rfl,.inr (finer .timestamp (by simpa [classifySameFamily] using accepted))⟩
      · exact ⟨p,rfl,.inr (finer .time (by simpa [classifySameFamily] using accepted))⟩
      · exact ⟨p,rfl,.inl rfl⟩

end Accept
inductive Value where
  | int (i : Int)
  | num (x : ℚ)
  | txt (s : List Char)
  | byte (b : UInt8)
  | temporal (k : Kind) (months days micros : Int)

def wholeDigits : Nat := 131072
def fractionDigits : Nat := 16383

def NumericHolds : Option (Nat×Int) → ℚ → Prop
  | none, x => ∃ a ≤ fractionDigits, Fits (wholeDigits+a) a x
  | some (p,a), x => Fits p a x

def Holds : Canon → Value → Prop
  | .int w, .int i => -2^(w.bits-1) ≤ i ∧ i < 2^(w.bits-1)
  | .numeric mods, .num x => NumericHolds mods x
  | .text, .txt _ | .varchar none, .txt _ | .byte, .byte _ => True
  | .varchar (some n), .txt s => s.length ≤ n
  | .character n, .txt s => s.length = n
  | .temporal k p, .temporal j _ _ micros => k = j ∧ (10 : Int)^(6-p.getD 6) ∣ micros
  | _, _ => False

structure Forms where
  form : Value → List Char
  width : Char → Nat
  positive : ∀ c, 0 < width c
  text : ∀ s, form (.txt s) = s
  negative : ∀ i < 0, 2 ≤ (form (.int i)).length
  below : ∀ x < 0, 2 ≤ (form (.num x)).length
  temporal : ∀ k m d u, 2 ≤ (form (.temporal k m d u)).length

def Kept (f : Forms) : Canon → Value → Prop
  | .numeric mods, .int i => NumericHolds mods i
  | .text, _ | .varchar none, _ => True
  | .varchar (some n), v | .character n, v => (f.form v).length ≤ n
  | .byte, .byte _ => True
  | .byte, v => ((f.form v).map f.width).sum ≤ 1
  | t, v => Holds t v

def Lossless (f : Forms) (s t : Canon) : Prop := ∀ v, Holds s v → Kept f t v

def Clear (f : Forms) (s : Canon) : Canon → Prop
  | .numeric (some (q,b)) => ∀ p a, s = .numeric (some (p,a)) → p-a ≤ q-b
  | .temporal .interval q => ∀ p, s = .temporal .interval p → p.getD 6 ≤ q.getD 6
  | .byte => s = .byte ∨ (s = .varchar (some 1) ∨ s = .character 1) ∧ ∀ c, f.width c = 1
  | _ => True

section Lossless
variable {f : Forms} {s t : Canon}

theorem losslessSelf (f) (s) : Lossless f s s ∧ Clear f s s := by
  constructor
  · intro v holds
    rcases s with w | (_ | ⟨p,a⟩) | _ | (_ | n) | n | _ | ⟨k,p⟩ <;> cases v <;>
      first | exact holds | trivial | exact (le_of_eq (congrArg List.length (f.text _))).trans (le_of_eq holds) |
        exact (le_of_eq (congrArg List.length (f.text _))).trans holds
  · rcases s with w | (_ | ⟨p,a⟩) | _ | (_ | n) | n | _ | ⟨_ | _ | _,p⟩ <;> first | trivial | simp [Clear]

theorem severalBytes {l : List Char} (long : 2 ≤ l.length) : ¬(l.map f.width).sum ≤ 1 := by
  rcases l with _ | ⟨c,_ | ⟨d,l⟩⟩
  · simp at long
  · simp at long
  · have one := f.positive c
    have two := f.positive d
    simp only [map_cons,sum_cons]
    omega

theorem singleByte {P : List Char → Prop} (all : ∀ l, l.length = 1 → P l) (only : ∀ l, P l → l.length ≤ 1) :
    (∀ l, P l → (l.map f.width).sum ≤ 1) ↔ ∀ c, f.width c = 1 := by
  constructor
  · intro fits c
    have one := fits [c] (all [c] rfl)
    have positive := f.positive c
    simp only [map_cons,map_nil,sum_cons,sum_nil] at one
    omega
  · intro narrow l holds
    rcases l with _ | ⟨c,_ | ⟨d,l⟩⟩
    · simp
    · simp [narrow c]
    · simpa using only _ holds

theorem textIntoByte (texts : ∀ v, Holds s v → ∃ l, v = .txt l) : Lossless f s .byte ↔ ∀ l, Holds s (.txt l) →
    (l.map f.width).sum ≤ 1 := by
  have kept : ∀ l, Kept f .byte (.txt l) ↔ (l.map f.width).sum ≤ 1 := by
    intro l
    rw [Kept,f.text]
    simp
  constructor
  · intro lossless l holds
    exact (kept l).mp (lossless _ holds)
  · intro all v holds
    obtain ⟨l,rfl⟩ := texts v holds
    exact (kept l).mpr (all l holds)

theorem intoByte (valid : Valid s) (other : s ≠ .byte) : Lossless f s .byte ↔ Clear f s .byte := by
  have long : ∀ v, Holds s v → (∀ b, v ≠ .byte b) → 2 ≤ (f.form v).length → ¬Lossless f s .byte := by
    intro v holds plain several lossless
    have kept := lossless v holds
    cases v with
    | byte b => exact plain b rfl
    | _ => exact severalBytes several kept
  have unclear : s ≠ .varchar (some 1) ∧ s ≠ .character 1 → ¬Clear f s .byte := by
    intro apart clear
    rcases clear with same | ⟨one,_⟩
    · exact other same
    · exact one.elim apart.1 apart.2
  rcases s with w | mods | _ | (_ | n) | n | _ | ⟨k,p⟩
  · refine iff_of_false (long (.int (-1)) ?_ (by simp) (f.negative _ (by decide))) (unclear (by simp))
    cases w <;> exact ⟨by decide,by decide⟩
  · have negative : ∀ {p : Nat} {a : Int}, 0 < p → Fits p a (-1*10^(-a)) := by
      intro p a positive
      refine ⟨-1,?_,by push_cast; rfl⟩
      rw [abs_neg,abs_one]
      exact one_lt_pow₀ (by decide) positive.ne'
    have minus : ∀ a : Int, (-1 : ℚ)*10^(-a) < 0 := by
      intro a
      have power : (0 : ℚ) < 10^(-a) := zpow_pos (by norm_num) _
      linarith
    rcases mods with _ | ⟨p,a⟩
    · exact iff_of_false (long (.num _) ⟨0,Nat.zero_le _,negative (by decide)⟩ (by simp) (f.below _ (minus _)))
        (unclear (by simp))
    · exact iff_of_false (long (.num _) (negative valid.1) (by simp) (f.below _ (minus _))) (unclear (by simp))
  · exact iff_of_false (long (.txt ['a','a']) trivial (by simp) (by simp [f.text])) (unclear (by simp))
  · exact iff_of_false (long (.txt ['a','a']) trivial (by simp) (by simp [f.text])) (unclear (by simp))
  · by_cases single : n = 1
    · subst single
      have texts : ∀ v, Holds (.varchar (some 1)) v → ∃ l, v = .txt l := by
        intro v holds
        cases v <;> first | exact ⟨_,rfl⟩ | cases holds
      refine (textIntoByte texts).trans
        ((singleByte (P := fun l => l.length ≤ 1) (fun l => le_of_eq) fun l holds => holds).trans ?_)
      simp [Clear]
    · have two : 2 ≤ n := by
        have low := valid.1
        omega
      exact iff_of_false (long (.txt ['a','a']) two (by simp) (by simp [f.text])) (unclear (by simp [single]))
  · by_cases single : n = 1
    · subst single
      have texts : ∀ v, Holds (.character 1) v → ∃ l, v = .txt l := by
        intro v holds
        cases v <;> first | exact ⟨_,rfl⟩ | cases holds
      refine (textIntoByte texts).trans
        ((singleByte (P := fun l => l.length = 1) (fun l same => same) fun l => le_of_eq).trans ?_)
      simp [Clear]
    · have two : 2 ≤ n := by
        have low := valid.1
        omega
      exact iff_of_false (long (.txt (List.replicate n 'a')) (length_replicate ..) (by simp)
        (by simpa [f.text] using two)) (unclear (by simp [single]))
  · exact absurd rfl other
  · exact iff_of_false (long (.temporal k 0 0 0) ⟨rfl,dvd_zero _⟩ (by simp) (f.temporal _ _ _ _)) (unclear (by simp))

theorem intNumeric {w i} (holds : Holds (.int w) (.int i)) {q} (wide : 19 ≤ q) : Fits q 0 i := by
  refine ⟨i,?_,by simp⟩
  have range : -2^63 ≤ i ∧ i < 2^63 := by
    obtain ⟨low,high⟩ := holds
    cases w <;> simp only [Width.bits] at low high <;> omega
  calc |i| ≤ 2^63 := abs_le.mpr ⟨range.1,range.2.le⟩
    _ < 10^19 := by norm_num
    _ ≤ 10^q := pow_le_pow_right₀ (by norm_num) wide

theorem boundedText {m n x} (wide : m ≤ n) (bounded : s = .varchar (some m) ∨ s = .character m) (holds : Holds s x) :
    (f.form x).length ≤ n := by
  have text : ∃ l, x = .txt l ∧ l.length ≤ m := by
    rcases bounded with rfl | rfl <;> cases x <;> first | exact ⟨_,rfl,holds⟩ | exact ⟨_,rfl,le_of_eq holds⟩ | cases holds
  obtain ⟨l,rfl,short⟩ := text
  rw [f.text]
  exact short.trans wide

theorem temporalIff {k p q} (valid : Valid (.temporal k p) ∧ Valid (.temporal k q)) :
    Lossless f (.temporal k p) (.temporal k q) ↔ p.getD 6 ≤ q.getD 6 := by
  have six : ∀ {p : Option Nat}, Valid (.temporal k p) → p.getD 6 ≤ 6 := by
    intro p valid
    cases p with
    | none => exact le_rfl
    | some p => exact valid
  constructor
  · intro lossless
    have exact_ := (lossless (.temporal k 0 0 (10^(6-p.getD 6))) ⟨rfl,dvd_refl _⟩).2
    have steps := (pow_dvd_pow_iff (by decide) (by simp [Int.isUnit_iff])).mp exact_
    have low := six valid.1
    omega
  · intro finer v holds
    cases v with
    | temporal j m d u => exact ⟨holds.1,(pow_dvd_pow _ (by omega)).trans holds.2⟩
    | _ => cases holds

theorem widensLossless (valid : Valid s ∧ Valid t) (widens : Widens s t) (other : t ≠ .byte) : Lossless f s t ↔
    Clear f s t := by
  rcases t with w | (_ | ⟨q,b⟩) | _ | (_ | n) | n | _ | ⟨k,q⟩
  · obtain ⟨v,rfl,wide⟩ := widens
    refine iff_of_true (fun x holds => ?_) trivial
    cases x with
    | int i =>
      have power : (2 : Int)^(v.bits-1) ≤ 2^(w.bits-1) := pow_le_pow_right₀ (by norm_num) (Nat.sub_le_sub_right wide 1)
      obtain ⟨low,high⟩ := holds
      exact ⟨by omega,by omega⟩
    | _ => cases holds
  · refine iff_of_true (fun x holds => ?_) trivial
    rcases widens with ⟨v,rfl⟩ | ⟨p,a,rfl,sign⟩
    · cases x with
      | int i => exact ⟨0,Nat.zero_le _,intNumeric holds (by decide)⟩
      | _ => cases holds
    · obtain ⟨n,rfl⟩ := Int.eq_ofNat_of_zero_le sign
      obtain ⟨_,low,_,high⟩ := valid.1
      cases x with
      | num x =>
        have few : n ≤ 1000 := by exact_mod_cast high
        exact ⟨n,few.trans (by decide),fitsWider le_rfl (by simp only [wholeDigits]; omega) holds⟩
      | _ => cases holds
  · rcases widens with ⟨v,rfl,rfl,wide⟩ | ⟨p,a,rfl,_,_,scale⟩
    · refine iff_of_true (fun x holds => ?_) (by simp [Clear])
      cases x with
      | int i => exact intNumeric holds wide
      | _ => cases holds
    · have sets : Lossless f (.numeric (some (p,a))) (.numeric (some (q,b))) ↔ ∀ x, Fits p a x → Fits q b x := by
        refine ⟨fun lossless x holds => lossless (.num x) holds,fun all x holds => ?_⟩
        cases x with
        | num x => exact all x holds
        | _ => cases holds
      rw [sets,fitsIff valid.1.1 scale]
      simp [Clear]
  · exact iff_of_true (fun _ _ => trivial) trivial
  · exact iff_of_true (fun _ _ => trivial) trivial
  · obtain ⟨m,wide,bounded⟩ := widens
    exact iff_of_true (fun x holds => boundedText wide bounded holds) trivial
  · obtain ⟨m,wide,bounded⟩ := widens
    exact iff_of_true (fun x holds => boundedText wide bounded holds) trivial
  · exact absurd rfl other
  · obtain ⟨p,rfl,finer⟩ := widens
    rw [temporalIff valid]
    rcases k with _ | _ | _
    · exact iff_of_true (finer.resolve_left (by simp)) trivial
    · exact iff_of_true (finer.resolve_left (by simp)) trivial
    · simp [Clear]

end Lossless

/- A database in UTF-8; of a number its sign and its digits are shown. -/
def shown (negative : Bool) (n : Nat) : List Char := if negative then '-'::decimal n else decimal n

theorem shownSigned (n) : 2 ≤ (shown true n).length := Nat.succ_le_succ (length_pos_iff.mpr (decimalSome n))

def plainForms : Forms where
  form
    | .int i => shown (i < 0) i.natAbs
    | .num x => shown (x < 0) x.num.natAbs
    | .txt s => s
    | .byte b => [Char.ofNat b.toNat]
    | .temporal _ _ _ u => ['0','0']++decimal u.natAbs
  width := Char.utf8Size
  positive := Char.utf8Size_pos
  text := fun _ => rfl
  negative := fun i below => by simpa [below] using shownSigned i.natAbs
  below := fun x below => by simpa [below] using shownSigned x.num.natAbs
  temporal := fun _ _ _ _ => by simp

end Replicare.PgLossless
