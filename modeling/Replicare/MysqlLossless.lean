import Mathlib.Data.List.Infix
import Mathlib.Data.List.TakeWhile
import Replicare.FixedPoint
import Replicare.TypeText

/-! Which pairs of MySQL types that pre-flight accepts keep every value, for columns of one
character set. -/
namespace Replicare.MysqlLossless
open FixedPoint MysqlTypes TypeText
open List hiding contains

inductive Rank where
  | tiny | small | medium | int | big
  deriving DecidableEq

inductive Size where
  | tiny | plain | medium | long
  deriving DecidableEq

inductive Kind where
  | datetime | timestamp | time
  deriving DecidableEq

inductive Canon where
  | int (r : Rank) (width : Option Nat) (unsigned : Bool)
  | decimal (p s : Nat)
  | bit (n : Nat)
  | chars (varying : Bool) (n : Nat)
  | text (k : Size)
  | bytes (varying : Bool) (n : Nat)
  | blob (k : Size)
  | temporal (k : Kind) (p : Nat)
  deriving DecidableEq

def Rank.bits : Rank → Nat
  | .tiny => 8
  | .small => 16
  | .medium => 24
  | .int => 32
  | .big => 64

def Rank.name : Rank → String
  | .tiny => "tinyint"
  | .small => "smallint"
  | .medium => "mediumint"
  | .int => "int"
  | .big => "bigint"

def Size.limit : Size → Nat
  | .tiny => 2^8-1
  | .plain => 2^16-1
  | .medium => 2^24-1
  | .long => 2^32-1

def Size.name : Size → String
  | .tiny => "tiny"
  | .plain => ""
  | .medium => "medium"
  | .long => "long"

def Kind.name : Kind → String
  | .datetime => "datetime"
  | .timestamp => "timestamp"
  | .time => "time"

def Valid : Canon → Prop
  | .int _ width _ => width.getD 0 ≤ 255
  | .decimal p s => 1 ≤ p ∧ p ≤ 65 ∧ s ≤ 30
  | .bit n => 1 ≤ n ∧ n ≤ 64
  | .chars _ n | .bytes _ n => n ≤ 65535
  | .temporal _ p => p ≤ 6
  | _ => True

def Canon.base : Canon → String
  | .int r _ _ => r.name
  | .decimal _ _ => "decimal"
  | .bit _ => "bit"
  | .chars varying _ => if varying then "varchar" else "char"
  | .text k => k.name++"text"
  | .bytes varying _ => if varying then "varbinary" else "binary"
  | .blob k => k.name++"blob"
  | .temporal k _ => k.name

def Canon.args : Canon → List Nat
  | .int _ width _ => width.toList
  | .decimal p s => [p,s]
  | .bit n | .chars _ n | .bytes _ n => [n]
  | .temporal _ p => if p = 0 then [] else [p]
  | _ => []

def Canon.suffix : Canon → List Char
  | .int _ _ true => ' '::"unsigned".toList
  | _ => []

def argText : List Nat → List Char
  | [] => []
  | [n] => TypeText.decimal n
  | n::m::rest => TypeText.decimal n++ ','::argText (m::rest)

def printed (base : List Char) (args : List Nat) (suffix : List Char) : List Char :=
  if args = [] then base++suffix else base++ '('::(argText args++ ')'::suffix)

def Canon.print (c : Canon) : List Char := printed c.base.toList c.args c.suffix

section Parse

theorem argTextChars {args c} (mem : c ∈ argText args) : c.isDigit = true ∨ c = ',' := by
  fun_induction argText args with
  | case1 => cases mem
  | case2 n => exact .inl (decimalDigit mem)
  | case3 n m rest ih =>
    rcases mem_append.mp mem with digit | more
    · exact .inl (decimalDigit digit)
    · rcases mem_cons.mp more with rfl | later
      · exact .inr rfl
      · exact ih later

theorem argTextPlain {args c} (mem : c ∈ argText args) : c.toLower = c ∧ c ∉ ['(',')',' '] := by
  rcases argTextChars mem with digit | rfl
  · have plain := digitPlain digit
    refine ⟨plain.2.2.1,fun bad => plain.2.2.2 ?_⟩
    simp only [mem_cons,not_mem_nil,or_false] at bad ⊢
    tauto
  · decide

theorem argTextSplit {args} (some_ : args ≠ []) : (argText args).splitOn ',' = args.map TypeText.decimal := by
  have comma : ∀ n, ',' ∉ TypeText.decimal n := fun n mem => (digitPlain (decimalDigit mem)).2.2.2 (by simp)
  fun_induction argText args with
  | case1 => exact absurd rfl some_
  | case2 n => exact splitOn_eq_singleton (comma n)
  | case3 n m rest ih =>
    rw [splitOn_append_cons_self_of_not_mem (comma n),ih (cons_ne_nil _ _)]
    rfl

theorem beforeHere {a b} {c} (free : c ∉ a) : before (a++c::b) c = a := by
  have pass : ∀ d ∈ a, decide (d ≠ c) = true := by
    intro d mem
    have other : d ≠ c := fun same => free (same ▸ mem)
    exact decide_eq_true other
  rw [before,takeWhile_append_of_pos pass]
  simp

theorem beforeNone {a} {c} (free : c ∉ a) : before a c = a := by
  refine takeWhile_eq_self_iff.mpr fun d mem => ?_
  have other : d ≠ c := fun same => free (same ▸ mem)
  exact decide_eq_true other

def plainName (l : List Char) : Bool :=
  l.head?.isSome && l.all fun c => decide (c.toLower = c ∧ isSpace c = false ∧ c ∉ ['(',')',' '])

theorem plainSpec {l} (is : plainName l = true) : l ≠ [] ∧ ∀ c ∈ l, c.toLower = c ∧ isSpace c = false ∧
    c ∉ ['(',')',' '] := by
  simp only [plainName,Bool.and_eq_true,all_eq_true,decide_eq_true_eq] at is
  refine ⟨?_,is.2⟩
  rintro rfl
  cases is.1

theorem plainFree {l c} (is : plainName l = true) (bad : c ∈ ['(',')',' ']) : c ∉ l :=
  fun mem => ((plainSpec is).2 c mem).2.2 bad

section Printed
variable {base suffix : List Char} {args : List Nat} (named : plainName base = true) (tail : suffix = [] ∨
    ∃ w, suffix = ' '::w ∧ plainName w = true)
include named tail

theorem bodyPrinted : typeBody (printed base args suffix) = if args = [] then base else printed base args suffix := by
  have blank : ' ' ∉ base := plainFree named (by simp)
  have paren : '(' ∉ base := plainFree named (by simp)
  by_cases none : args = []
  · rw [printed,if_pos none,if_pos none,typeBody]
    rcases tail with rfl | ⟨w,rfl,word⟩
    · rw [append_nil,if_neg fun both => blank both.1]
    · have free : '(' ∉ w := plainFree word (by simp)
      rw [if_pos ⟨by simp,.inl (by simp [paren,free])⟩,beforeHere blank]
  · rw [printed,if_neg none,if_neg none,typeBody,if_neg]
    rintro ⟨_,absent | shorter⟩
    · exact absent (by simp)
    · have pass : ∀ c ∈ base, decide (c ≠ ' ') = true := fun c mem => decide_eq_true fun same => blank (same ▸ mem)
      rw [beforeHere paren,before,takeWhile_append_of_pos pass,length_append] at shorter
      omega

theorem trimPrinted : trimSpace ((printed base args suffix).map Char.toLower) = printed base args suffix := by
  obtain ⟨filled,plain⟩ := plainSpec named
  obtain ⟨c,name,shape⟩ := exists_cons_of_ne_nil filled
  have lower : ∀ d ∈ printed base args suffix, d.toLower = d := by
    have ending : ∀ d ∈ suffix, d.toLower = d := by
      rcases tail with rfl | ⟨w,rfl,word⟩
      · simp
      · intro d mem
        rcases mem_cons.mp mem with rfl | inside
        · rfl
        · exact ((plainSpec word).2 d inside).1
    intro d mem
    by_cases none : args = [] <;> simp only [printed,none,if_true,if_false,mem_append,mem_cons] at mem
    · exact mem.elim (fun mem => (plain d mem).1) (ending d)
    · rcases mem with name | rfl | inside | rfl | last
      · exact (plain d name).1
      · rfl
      · exact (argTextPlain inside).1
      · rfl
      · exact ending d last
  have first : ∀ d ∈ (printed base args suffix).head?, isSpace d = false := by
    intro d mem
    have same : c = d := by by_cases none : args = [] <;> simpa [printed,none,shape] using mem
    rw [←same]
    exact (plain c (by simp [shape])).2.1
  have last : ∀ d ∈ (printed base args suffix).getLast?, isSpace d = false := by
    intro d mem
    rcases tail with rfl | ⟨w,rfl,word⟩
    · by_cases none : args = []
      · rw [printed,if_pos none,append_nil] at mem
        exact (plain d (mem_of_mem_getLast? mem)).2.1
      · have closing : printed base args [] = (base++ '('::argText args)++[')'] := by simp [printed,none]
        rw [closing,getLast?_concat] at mem
        cases mem
        decide
    · obtain ⟨some_,each⟩ := plainSpec word
      have ending : ∃ front, printed base args (' '::w) = front++w := by
        by_cases none : args = []
        · exact ⟨base++[' '],by simp [printed,none]⟩
        · exact ⟨base++ '('::(argText args++[')',' ']),by simp [printed,none]⟩
      obtain ⟨front,split⟩ := ending
      rw [split,getLast?_append_of_ne_nil _ some_] at mem
      exact (each d (mem_of_mem_getLast? mem)).2.1
  rw [map_congr_left lower,map_id']
  exact trimmed first last

theorem parsePrinted (small : ∀ n ∈ args, n < 2^63) : parseMyType (String.ofList (printed base args suffix)) =
    ⟨String.ofList (printed base args suffix),String.ofList base,contains
      (printed base args suffix) "unsigned".toList,args.map Int.ofNat⟩ := by
  have paren : '(' ∉ base := plainFree named (by simp)
  rw [parseMyType,String.toList_ofList]
  simp only [trimPrinted named tail,bodyPrinted named tail]
  by_cases none : args = []
  · simp only [if_pos none]
    rw [beforeNone paren,if_neg paren,none]
    rfl
  · have inner : ')' ∉ argText args := fun mem => (argTextPlain mem).2 (by simp)
    have rest : (printed base args suffix).drop (base.length+1) = argText args++ ')'::suffix := by
      rw [printed,if_neg none,drop_append]
      simp
    have front : before (printed base args suffix) '(' = base := by
      rw [printed,if_neg none]
      exact beforeHere paren
    have there : '(' ∈ printed base args suffix := by simp [printed,none]
    simp only [if_neg none,front,rest,beforeHere inner,if_pos there,argTextSplit none,atoiDecimals small]

end Printed

theorem parsedOf {c} (valid : Valid c) : parseMyType (String.ofList c.print) =
    ⟨String.ofList c.print,c.base,contains c.print "unsigned".toList,c.args.map Int.ofNat⟩ := by
  have named : plainName c.base.toList = true := by
    rcases c with ⟨_ | _ | _ | _ | _,w,u⟩ | _ | _ | ⟨_ | _,n⟩ | (_ | _ | _ | _) | ⟨_ | _,n⟩ |
      (_ | _ | _ | _) | ⟨_ | _ | _,p⟩ <;>
      simp only [Canon.base] <;> decide
  have tail : c.suffix = [] ∨ ∃ w, c.suffix = ' '::w ∧ plainName w = true := by
    rcases c with ⟨r,w,_ | _⟩ | _ | _ | _ | _ | _ | _ | _ <;> first | exact .inl rfl | exact .inr ⟨_,rfl,by decide⟩
  have small : ∀ n ∈ c.args, n < 2^63 := by
    intro n mem
    have bound : n ≤ 65535 := by
      rcases c with ⟨r,_ | w,u⟩ | ⟨p,s⟩ | _ | _ | _ | _ | _ | ⟨k,p⟩ <;> simp [Canon.args,Valid] at mem valid <;> omega
    omega
  have parsed := parsePrinted named tail small
  rwa [String.ofList_toList] at parsed

end Parse

section Family

def Canon.family : Canon → Family
  | .int _ _ _ => .int
  | .decimal _ _ => .decimal
  | .bit _ => .bit
  | .chars _ _ => .char
  | .text _ => .text
  | .bytes _ _ => .binary
  | .blob _ => .blob
  | .temporal .datetime _ => .datetime
  | .temporal .timestamp _ => .timestamp
  | .temporal .time _ => .time

def Canon.unsigned : Canon → Bool
  | .int _ _ u => u
  | _ => false

theorem familyOf (c : Canon) (raw unsigned args) : (⟨raw,c.base,unsigned,args⟩ : MyType).family = c.family := by
  have named : (⟨raw,c.base,unsigned,args⟩ : MyType).family = (⟨"",c.base,false,[]⟩ : MyType).family := rfl
  rw [named]
  rcases c with ⟨_ | _ | _ | _ | _,w,u⟩ | _ | _ | ⟨_ | _,n⟩ | (_ | _ | _ | _) | ⟨_ | _,n⟩ |
    (_ | _ | _ | _) | ⟨_ | _ | _,p⟩ <;> rfl

theorem containsIff {l part} : contains l part = true ↔ part <:+: l := by
  simp only [contains,any_eq_true,mem_tails, isPrefixOf_iff_prefix]
  constructor
  · rintro ⟨t,tail,starts⟩
    exact starts.isInfix.trans tail.isInfix
  · rintro ⟨a,b,same⟩
    exact ⟨part++b,⟨a,by rw [←same,append_assoc]⟩,⟨b,rfl⟩⟩

theorem unsignedOf (c : Canon) : contains c.print "unsigned".toList = c.unsigned := by
  cases flag : c.unsigned with
  | true =>
    have suffix : c.suffix = ' '::"unsigned".toList := by
      rcases c with ⟨r,w,_ | _⟩ | _ | _ | _ | _ | _ | _ | _ <;> first | rfl | cases flag
    refine containsIff.mpr (List.IsSuffix.isInfix ?_)
    rw [Canon.print,suffix,printed]
    split
    · exact ⟨c.base.toList++[' '],by simp⟩
    · exact ⟨c.base.toList++ '('::(argText c.args++[')',' ']),by simp⟩
  | false =>
    have suffix : c.suffix = [] := by
      rcases c with ⟨r,w,_ | _⟩ | _ | _ | _ | _ | _ | _ | _ <;> first | rfl | cases flag
    -- no name has both of these letters
    have letter : 'u' ∉ c.base.toList ∨ 'g' ∉ c.base.toList := by
      rcases c with ⟨_ | _ | _ | _ | _,w,u⟩ | _ | _ | ⟨_ | _,n⟩ | (_ | _ | _ | _) | ⟨_ | _,n⟩ |
        (_ | _ | _ | _) | ⟨_ | _ | _,p⟩ <;>
        simp only [Canon.base] <;> decide
    have other : ∀ d ∈ c.print, d ∈ c.base.toList ∨ d.isDigit = true ∨ d ∈ [',','(',')'] := by
      intro d mem
      by_cases none : c.args = [] <;>
        simp only [Canon.print,printed,none,if_true,if_false,suffix,append_nil,mem_append,mem_cons,not_mem_nil,or_false] at mem
      · exact .inl mem
      · rcases mem with name | rfl | inside | rfl
        · exact .inl name
        · simp
        · rcases argTextChars inside with digit | rfl
          · exact .inr (.inl digit)
          · simp
        · simp
    refine Bool.eq_false_iff.mpr fun there => ?_
    have inside := containsIff.mp there
    have u := other 'u' (inside.subset (by decide))
    have g := other 'g' (inside.subset (by decide))
    rcases letter with free | free
    · exact (u.resolve_left free).elim (by decide) (by decide)
    · exact (g.resolve_left free).elim (by decide) (by decide)

def shapes : List (String×(List Nat → Bool → Canon)) :=
  [Rank.tiny,.small,.medium,.int,.big].map (fun r => (r.name,fun a u => .int r a.head? u))++
  [Size.tiny,.plain,.medium,.long].flatMap
    (fun k => [(k.name++"text",fun _ _ => .text k),(k.name++"blob",fun _ _ => .blob k)])++
  [Kind.datetime,.timestamp,.time].map (fun k => (k.name,fun a _ => .temporal k (a.headD 0)))++
  [("decimal",fun a _ => .decimal (a.headD 0) ((a[1]?).getD 0)),("bit",fun a _ => .bit (a.headD 0)),
   ("char",fun a _ => .chars false (a.headD 0)),("varchar",fun a _ => .chars true (a.headD 0)),
   ("binary",fun a _ => .bytes false (a.headD 0)),("varbinary",fun a _ => .bytes true (a.headD 0))]

theorem shapeOf (c) : (shapes.lookup c.base).map (fun f => f c.args c.unsigned) = some c := by
  rcases c with ⟨_ | _ | _ | _ | _,_ | w,u⟩ | _ | _ | ⟨_ | _,n⟩ | (_ | _ | _ | _) | ⟨_ | _,n⟩ |
    (_ | _ | _ | _) | ⟨_ | _ | _,_ | p⟩ <;>
    rfl

theorem printInjective {s t : Canon} (valid : Valid s ∧ Valid t) (same : s.print = t.print) : s = t := by
  have parsed := (parsedOf valid.1).symm.trans
    ((congrArg (fun l => parseMyType (String.ofList l)) same).trans (parsedOf valid.2))
  have base : s.base = t.base := congrArg MyType.base parsed
  have args : s.args = t.args := by
    have listed : s.args.map Int.ofNat = t.args.map Int.ofNat := congrArg MyType.args parsed
    exact map_injective_iff.mpr (fun _ _ => Int.ofNat.inj) listed
  have unsigned : s.unsigned = t.unsigned := by rw [←unsignedOf,←unsignedOf,same]
  have one := shapeOf s
  rw [base,args,unsigned,shapeOf t] at one
  exact (Option.some.inj one).symm

end Family

def Widens (s : Canon) : Canon → Prop
  | .int r _ u => ∃ q w, s = .int q w u ∧ q.bits ≤ r.bits
  | .decimal q b => ∃ p a, s = .decimal p a ∧ p ≤ q ∧ a ≤ b
  | .bit _ => ∃ n, s = .bit n
  | .chars _ m => (∃ v n, s = .chars v n ∧ n ≤ m) ∨ ∃ k, s = .text k
  | .text k => (∃ v n, s = .chars v n) ∨ ∃ j, s = .text j ∧ j.limit ≤ k.limit
  | .bytes _ m => (∃ v n, s = .bytes v n ∧ n ≤ m) ∨ ∃ k, s = .blob k
  | .blob k => (∃ v n, s = .bytes v n) ∨ ∃ j, s = .blob j ∧ j.limit ≤ k.limit
  | .temporal k q => ∃ p, s = .temporal k p ∧ p ≤ q

def Accepted (s t : Canon) : Prop :=
  (classifyTypes (String.ofList s.print) (String.ofList t.print)).1 ∈ [CompatLevel.identical,.widen]
instance (s t) : Decidable (Accepted s t) := by unfold Accepted; infer_instance

theorem widenIfOk {wide} {msg} (accepted : (widenIf wide msg).1 ∈ [CompatLevel.identical,.widen]) : wide = true := by
  cases wide with
  | true => rfl
  | false => simp [widenIf] at accepted

section Accept
variable {s t : Canon}

theorem rankLe {q r : Rank} (le : intRank q.name ≤ intRank r.name) : q.bits ≤ r.bits := by
  revert le
  cases q <;> cases r <;> decide

theorem textLe {j k : Size} (le : textRank (j.name++"text") ≤ textRank (k.name++"text")) : j.limit ≤ k.limit := by
  revert le
  cases j <;> cases k <;> decide

theorem blobLe {j k : Size} (le : blobRank (j.name++"blob") ≤ blobRank (k.name++"blob")) : j.limit ≤ k.limit := by
  revert le
  cases j <;> cases k <;> decide

theorem precisionOf (raw base unsigned k p) :
    (⟨raw,base,unsigned,(Canon.temporal k p).args.map Int.ofNat⟩ : MyType).arg 0 0 = p := by
  cases p <;> rfl

theorem acceptedWidens (valid : Valid s ∧ Valid t) (accepted : Accepted s t) : s = t ∨ Widens s t := by
  by_cases other : s = t
  · exact .inl other
  · refine .inr ?_
    have texts : String.ofList s.print ≠ String.ofList t.print := by
      intro same
      exact other (printInjective valid (by simpa using congrArg String.toList same))
    rw [Accepted,classifyTypes,parsedOf valid.1,parsedOf valid.2] at accepted
    simp only [if_neg texts,familyOf,unsignedOf] at accepted
    rcases s with ⟨q,w,u⟩ | ⟨p,a⟩ | n | ⟨v,n⟩ | j | ⟨v,n⟩ | j | ⟨_ | _ | _,p⟩ <;> rcases t with ⟨q',w',u'⟩ | ⟨p',a'⟩
      | n' | ⟨v',n'⟩ | j' | ⟨v',n'⟩ | j' | ⟨_ | _ | _,p'⟩ <;>
      simp only [Canon.family,reduceCtorEq,if_true,if_false] at accepted <;> try exact absurd accepted (by decide)
    · simp only [classifySameFamily] at accepted
      split at accepted
      · exact absurd accepted (by simp)
      · rename_i sign
        obtain rfl : u = u' := not_not.mp sign
        exact ⟨q,w,rfl,rankLe (of_decide_eq_true (widenIfOk accepted))⟩
    · obtain ⟨precision,scale⟩ := of_decide_eq_true (widenIfOk accepted)
      exact ⟨p,a,rfl,Int.ofNat_le.mp precision,Int.ofNat_le.mp scale⟩
    · exact ⟨n,rfl⟩
    · exact .inl ⟨v,n,rfl,Int.ofNat_le.mp (of_decide_eq_true (widenIfOk accepted))⟩
    · exact .inl ⟨v,n,rfl⟩
    · exact .inr ⟨j,rfl⟩
    · exact .inr ⟨j,rfl,textLe (of_decide_eq_true (widenIfOk accepted))⟩
    · exact .inl ⟨v,n,rfl,Int.ofNat_le.mp (of_decide_eq_true (widenIfOk accepted))⟩
    · exact .inl ⟨v,n,rfl⟩
    · exact .inr ⟨j,rfl⟩
    · exact .inr ⟨j,rfl,blobLe (of_decide_eq_true (widenIfOk accepted))⟩
    all_goals
      have finer := of_decide_eq_true (widenIfOk accepted)
      rw [precisionOf,precisionOf] at finer
      exact ⟨p,rfl,Int.ofNat_le.mp finer⟩

end Accept
structure Charset where
  Symbol : Type
  width : Symbol → Nat
  blank : Symbol
  narrow : Symbol
  wide : Symbol
  positive : 0 < width narrow
  narrowest : ∀ c, width narrow ≤ width c
  widest : ∀ c, width c ≤ width wide
  short : width wide ≤ 4
  visible : wide ≠ blank

def Charset.weight (cs : Charset) (l : List cs.Symbol) : Nat := (l.map cs.width).sum

inductive Value (cs : Charset) where
  | int (i : Int)
  | dec (x : ℚ)
  | bits (n : Nat)
  | text (l : List cs.Symbol)
  | bytes (b : List UInt8)
  | temporal (k : Kind) (micros : Int)

def Holds (cs : Charset) : Canon → Value cs → Prop
  | .int r _ true, .int i => 0 ≤ i ∧ i < 2^r.bits
  | .int r _ false, .int i => -2^(r.bits-1) ≤ i ∧ i < 2^(r.bits-1)
  | .decimal p s, .dec x => Fits p s x
  | .bit n, .bits x => x < 2^n
  | .chars false n, .text l => l.length ≤ n ∧ l.getLast? ≠ some cs.blank
  | .chars true n, .text l => l.length ≤ n
  | .text k, .text l => cs.weight l ≤ k.limit
  | .bytes false n, .bytes b => b.length = n
  | .bytes true n, .bytes b => b.length ≤ n
  | .blob k, .bytes b => b.length ≤ k.limit
  | .temporal k p, .temporal j u => k = j ∧ (10 : Int)^(6-p) ∣ u
  | _, _ => False

def Lossless (cs : Charset) (s t : Canon) : Prop := ∀ v, Holds cs s v → Holds cs t v

def Clear (cs : Charset) (s : Canon) : Canon → Prop
  | .decimal q b => ∀ p a, s = .decimal p a → (p : Int)-a ≤ q-b
  | .bit m => ∀ n, s = .bit n → n ≤ m
  | .chars varying m => (∀ n, s = .chars true n → varying = true ∨ n = 0) ∧ ∀ k, s = .text k → varying = true ∧
    k.limit/cs.width cs.narrow ≤ m
  | .text k => ∀ v n, s = .chars v n → n*cs.width cs.wide ≤ k.limit
  | .bytes varying m => (∀ n, s = .bytes false n → varying = true ∨ n = m) ∧
    (∀ n, s = .bytes true n → varying = true ∨ m = 0) ∧
      ∀ k, s = .blob k → varying = true ∧ k.limit ≤ m
  | .blob k => ∀ v n, s = .bytes v n → n ≤ k.limit
  | _ => True

section Lossless
variable {cs : Charset} {s t : Canon}

theorem clearSelf (cs) (s) : Clear cs s s := by
  rcases s with ⟨r,w,u⟩ | ⟨p,a⟩ | n | ⟨_ | _,n⟩ | k | ⟨_ | _,n⟩ | k | ⟨k,p⟩ <;> simp [Clear]

theorem weightReplicate (n) (c : cs.Symbol) : cs.weight (List.replicate n c) = n*cs.width c := by
  simp [Charset.weight]

theorem weightBounds (l) : l.length*cs.width cs.narrow ≤ cs.weight l ∧ cs.weight l ≤ l.length*cs.width cs.wide := by
  induction l with
  | nil => simp [Charset.weight]
  | cons c l ih =>
    have low := cs.narrowest c
    have high := cs.widest c
    simp only [Charset.weight,map_cons,sum_cons,length_cons,Nat.succ_mul] at ih ⊢
    omega

theorem textLossless (stringish : s.family.isStringish = true) : Lossless cs s t ↔ ∀ l, Holds cs s (.text l) →
    Holds cs t (.text l) := by
  refine ⟨fun all l => all (.text l),fun all x holds => ?_⟩
  rcases s with ⟨r,w,u⟩ | ⟨p,a⟩ | n | ⟨_ | _,n⟩ | k | ⟨v,n⟩ | k | ⟨_ | _ | _,p⟩ <;> first | (cases stringish; done) |
    (cases x <;> first | exact all _ holds | cases holds)

theorem bytesLossless (bytes : s.family.isBytes = true) : Lossless cs s t ↔ ∀ b, Holds cs s (.bytes b) →
    Holds cs t (.bytes b) := by
  refine ⟨fun all l => all (.bytes l),fun all x holds => ?_⟩
  rcases s with ⟨r,w,u⟩ | ⟨p,a⟩ | n | ⟨v,n⟩ | k | ⟨_ | _,n⟩ | k | ⟨_ | _ | _,p⟩ <;> first | (cases bytes; done) |
    (cases x <;> first | exact all _ holds | cases holds)

theorem charsIff {v w n m} (room : n ≤ m) : Lossless cs (.chars v n) (.chars w m) ↔ v = true → w = true ∨ n = 0 := by
  rw [textLossless rfl]
  rcases v with _ | _ <;> rcases w with _ | _
  · exact iff_of_true (fun l holds => ⟨holds.1.trans room,holds.2⟩) (by simp)
  · exact iff_of_true (fun l holds => holds.1.trans room) (by simp)
  · constructor
    · -- a single blank is not given back
      intro all _
      by_cases none : n = 0
      · exact .inr none
      · exact absurd rfl (all [cs.blank] (Nat.one_le_iff_ne_zero.mpr none)).2
    · intro none l holds
      obtain rfl : n = 0 := by simpa using none
      obtain rfl : l = [] := length_eq_zero_iff.mp (Nat.le_zero.mp holds)
      exact ⟨Nat.zero_le m,by simp⟩
  · exact iff_of_true (fun l holds => le_trans holds room) (by simp)

theorem textChars {k w m} : Lossless cs (.text k) (.chars w m) ↔ w = true ∧ k.limit/cs.width cs.narrow ≤ m := by
  rw [textLossless rfl]
  cases w with
  | false =>
    refine iff_of_false (fun all => ?_) (by simp)
    have single : cs.weight [cs.blank] ≤ k.limit := by
      have four := (cs.widest cs.blank).trans cs.short
      have least : 4 ≤ k.limit := by cases k <;> decide
      simp only [Charset.weight,map_cons,map_nil,sum_cons,sum_nil]
      omega
    exact (all [cs.blank] single).2 rfl
  | true =>
    constructor
    · intro all
      refine ⟨rfl,?_⟩
      have full := all (List.replicate (k.limit/cs.width cs.narrow) cs.narrow) (by
        rw [Holds,weightReplicate]
        exact Nat.div_mul_le_self _ _)
      rwa [Holds,length_replicate] at full
    · intro room l holds
      have count : l.length ≤ k.limit/cs.width cs.narrow :=
        (Nat.le_div_iff_mul_le cs.positive).mpr ((weightBounds l).1.trans holds)
      exact count.trans room.2

theorem charsText {k v n} : Lossless cs (.chars v n) (.text k) ↔ n*cs.width cs.wide ≤ k.limit := by
  rw [textLossless rfl]
  constructor
  · intro all
    have full : Holds cs (.chars v n) (.text (List.replicate n cs.wide)) := by
      cases v with
      | true => exact le_of_eq (length_replicate ..)
      | false =>
        refine ⟨le_of_eq (length_replicate ..),fun last => cs.visible ?_⟩
        exact (eq_of_mem_replicate (mem_of_mem_getLast? last)).symm
    have fits := all _ full
    rwa [Holds,weightReplicate] at fits
  · intro room l holds
    have short : l.length ≤ n := by
      cases v with
      | true => exact holds
      | false => exact holds.1
    exact (weightBounds l).2.trans ((Nat.mul_le_mul_right _ short).trans room)

theorem bytesIff {v w n m} (room : n ≤ m) : Lossless cs (.bytes v n) (.bytes w m) ↔ w = true ∨
    (if v = true then m = 0 else n = m) := by
  rw [bytesLossless rfl]
  rcases v with _ | _ <;> rcases w with _ | _
  · constructor
    · intro all
      have full := all (List.replicate n 0) (length_replicate ..)
      rw [Holds,length_replicate] at full
      exact .inr full
    · intro same b holds
      have same : n = m := by simpa using same
      exact (show b.length = n from holds).trans same
  · exact iff_of_true (fun b holds => (le_of_eq holds).trans room) (by simp)
  · constructor
    · intro all
      exact .inr (all [] (Nat.zero_le n)).symm
    · intro none b holds
      obtain rfl : m = 0 := by simpa using none
      exact Nat.le_zero.mp (le_trans holds room)
  · exact iff_of_true (fun b holds => le_trans holds room) (by simp)

theorem blobBytes {k w m} : Lossless cs (.blob k) (.bytes w m) ↔ w = true ∧ k.limit ≤ m := by
  rw [bytesLossless rfl]
  cases w with
  | false =>
    refine iff_of_false (fun all => ?_) (by simp)
    have none : 0 = m := all [] (Nat.zero_le _)
    have one : 1 ≤ k.limit := by cases k <;> decide
    have single : 1 = m := all [0] one
    omega
  | true =>
    constructor
    · intro all
      have full := all (List.replicate k.limit 0) (le_of_eq (length_replicate ..))
      rw [Holds,length_replicate] at full
      exact ⟨rfl,full⟩
    · exact fun room b holds => le_trans holds room.2

theorem bytesBlob {k v n} : Lossless cs (.bytes v n) (.blob k) ↔ n ≤ k.limit := by
  rw [bytesLossless rfl]
  constructor
  · intro all
    have full := all (List.replicate n 0) (by cases v <;> simp [Holds])
    rwa [Holds,length_replicate] at full
  · intro room b holds
    have short : b.length ≤ n := by
      cases v with
      | true => exact holds
      | false => exact le_of_eq holds
    exact short.trans room

theorem widensLossless (valid : Valid s ∧ Valid t) (widens : Widens s t) : Lossless cs s t ↔ Clear cs s t := by
  rcases t with ⟨r,w,u⟩ | ⟨q,b⟩ | m | ⟨v,m⟩ | k | ⟨v,m⟩ | k | ⟨k,q⟩
  · obtain ⟨r',w',rfl,wide⟩ := widens
    refine iff_of_true (fun x holds => ?_) trivial
    cases x with
    | int i =>
      cases u with
      | true =>
        have power : (2 : Int)^r'.bits ≤ 2^r.bits := pow_le_pow_right₀ (by norm_num) wide
        exact ⟨holds.1,holds.2.trans_le power⟩
      | false =>
        have power : (2 : Int)^(r'.bits-1) ≤ 2^(r.bits-1) := pow_le_pow_right₀ (by norm_num) (Nat.sub_le_sub_right wide 1)
        obtain ⟨low,high⟩ := holds
        exact ⟨by omega,by omega⟩
    | _ => cases u <;> cases holds
  · obtain ⟨p,a,rfl,_,scale⟩ := widens
    have sets : Lossless cs (.decimal p a) (.decimal q b) ↔ ∀ x, Fits p a x → Fits q b x := by
      refine ⟨fun lossless x holds => lossless (.dec x) holds,fun all x holds => ?_⟩
      cases x with
      | dec x => exact all x holds
      | _ => cases holds
    rw [sets,fitsIff valid.1.1 (Int.ofNat_le.mpr scale)]
    simp [Clear]
  · obtain ⟨n,rfl⟩ := widens
    have clear : Clear cs (.bit n) (.bit m) ↔ n ≤ m := by simp [Clear]
    rw [clear]
    constructor
    · intro all
      by_contra more
      exact absurd (all (.bits (2^m)) (Nat.pow_lt_pow_right (by decide) (not_le.mp more))) (lt_irrefl (2^m))
    · intro room x holds
      cases x with
      | bits x => exact lt_of_lt_of_le holds (Nat.pow_le_pow_right (by decide) room)
      | _ => cases holds
  · rcases widens with ⟨v',n,rfl,room⟩ | ⟨k,rfl⟩
    · rw [charsIff room]
      cases v' <;> simp [Clear]
    · rw [textChars]
      simp [Clear]
  · rcases widens with ⟨v,n,rfl⟩ | ⟨j,rfl,wide⟩
    · rw [charsText]
      simp [Clear]
    · refine iff_of_true (fun x holds => ?_) (by simp [Clear])
      cases x with
      | text l => exact (show _ ≤ _ from holds).trans wide
      | _ => cases holds
  · rcases widens with ⟨v',n,rfl,room⟩ | ⟨k,rfl⟩
    · rw [bytesIff room]
      cases v' <;> simp [Clear]
    · rw [blobBytes]
      simp [Clear]
  · rcases widens with ⟨v,n,rfl⟩ | ⟨j,rfl,wide⟩
    · rw [bytesBlob]
      simp [Clear]
    · refine iff_of_true (fun x holds => ?_) (by simp [Clear])
      cases x with
      | bytes b => exact (show _ ≤ _ from holds).trans wide
      | _ => cases holds
  · obtain ⟨p,rfl,finer⟩ := widens
    refine iff_of_true (fun x holds => ?_) trivial
    cases x with
    | temporal j u => exact ⟨holds.1,(pow_dvd_pow _ (by omega)).trans holds.2⟩
    | _ => cases holds

end Lossless

theorem losslessColumnsIff (cs : Charset) {s t : Canon} (valid : Valid s ∧ Valid t) (accepted : Accepted s t) :
    Lossless cs s t ↔ Clear cs s t := by
  rcases acceptedWidens valid accepted with rfl | widens
  · exact iff_of_true (fun _ holds => holds) (clearSelf cs s)
  · exact widensLossless valid widens

def utf8mb4 : Charset where
  Symbol := Char
  width := Char.utf8Size
  blank := ' '
  narrow := 'a'
  wide := Char.ofNat 0x10000
  positive := Char.utf8Size_pos _
  narrowest := Char.utf8Size_pos
  widest := Char.utf8Size_le_four
  short := le_rfl
  visible := by decide

theorem losslessVarchar : Accepted (.chars true 63) (.text .tiny) ∧ Lossless utf8mb4 (.chars true 63) (.text .tiny) := by
  have accepted : Accepted (.chars true 63) (.text .tiny) := by decide
  refine ⟨accepted,(losslessColumnsIff (s := .chars true 63)
    (t := .text .tiny) utf8mb4 ⟨by simp [Valid],trivial⟩ accepted).mpr ?_⟩
  intro v n same
  cases same
  decide

theorem acceptedNarrows : (Accepted (.decimal 5 2) (.decimal 6 4) ∧ ¬Lossless utf8mb4 (.decimal 5 2) (.decimal 6 4)) ∧
    (Accepted (.bit 8) (.bit 1) ∧ ¬Lossless utf8mb4 (.bit 8) (.bit 1)) ∧
    (Accepted (.chars true 64) (.text .tiny) ∧ ¬Lossless utf8mb4 (.chars true 64) (.text .tiny)) ∧
    (Accepted (.chars true 1) (.chars false 1) ∧ ¬Lossless utf8mb4 (.chars true 1) (.chars false 1)) ∧
    Accepted (.bytes false 1) (.bytes false 2) ∧ ¬Lossless utf8mb4 (.bytes false 1) (.bytes false 2) := by
  refine ⟨⟨by decide,fun all => ?_⟩,⟨by decide,fun all => ?_⟩,⟨by decide,fun all => ?_⟩,⟨by decide,fun all =>
    ?_⟩,by decide,fun all => ?_⟩
  · have sets : ∀ x, Fits 5 2 x → Fits 6 4 x := fun x holds => all (.dec x) holds
    exact absurd ((fitsIff (by decide) (by decide)).mp sets) (by decide)
  · exact absurd (all (.bits 2) (by decide : 2 < 2^8)) (by decide : ¬2 < 2^1)
  · exact absurd (charsText.mp all) (by decide)
  · exact absurd ((charsIff le_rfl).mp all rfl) (by decide)
  · exact absurd ((bytesIff (by decide)).mp all) (by decide)

end Replicare.MysqlLossless
