import Mathlib.Data.List.Basic
import Mathlib.Data.Nat.Basic

/-! JSON text for tuples of strings and nulls. Writers differ in which characters they escape
and in the blanks after a comma; a reader takes back what any of them writes. -/
namespace Replicare.JsonText
open List

section Utf8

def encode (cs : List Char) : List UInt8 := cs.flatMap String.utf8EncodeChar

def runesFrom : Nat → List UInt8 → List (Option Char)
  | 0, _ => []
  | _, [] => []
  | fuel+1, b::rest =>
      match (b::rest).toByteArray.utf8DecodeChar? 0 with
      | some c => some c::runesFrom fuel ((b::rest).drop c.utf8Size)
      | none => none::runesFrom fuel rest

def runes (bytes : List UInt8) : List (Option Char) := runesFrom bytes.length bytes

def replacement : Char := '\ufffd'

theorem runesFromEncode {cs fuel} (enough : (encode cs).length ≤ fuel) : runesFrom fuel (encode cs) = cs.map some := by
  induction cs generalizing fuel with
  | nil => cases fuel <;> rfl
  | cons c cs ih =>
    have text : encode (c::cs) = String.utf8EncodeChar c++encode cs := flatMap_cons
    have size : (String.utf8EncodeChar c).length = c.utf8Size := String.length_utf8EncodeChar c
    have some_ : 0 < c.utf8Size := Char.utf8Size_pos c
    rw [text,length_append] at enough
    obtain ⟨fuel,rfl⟩ : ∃ less, fuel = less+1 := ⟨fuel-1,by omega⟩
    obtain ⟨b,rest,split⟩ : ∃ b rest, String.utf8EncodeChar c++encode cs = b::rest := by
      cases split : String.utf8EncodeChar c with
      | nil => rw [split] at size; simp at size; omega
      | cons b rest => exact ⟨b,rest++encode cs,rfl⟩
    have first : (b::rest).toByteArray.utf8DecodeChar? 0 = some c := by
      have core : ([c].utf8Encode++(encode cs).toByteArray).utf8DecodeChar? 0 = some c := utf8DecodeChar?_utf8Encode_singleton_append
      rw [← split,toByteArray_append]
      simpa [List.utf8Encode] using core
    have next : (b::rest).drop c.utf8Size = encode cs := by
      rw [← split,← size,drop_left]
    rw [text,split,runesFrom,first]
    dsimp only
    rw [next,ih (by omega),map_cons]

theorem runesEncode (cs) : runes (encode cs) = cs.map some := runesFromEncode (Nat.le_refl _)

end Utf8

section Text

def quote : Char := '\x22'
def slash : Char := '\x5c'

def hexDigit (n : Nat) : Char := Char.ofNat (if n < 10 then 48+n else 87+n)

def hexVal (c : Char) : Option Nat :=
  if 48 ≤ c.toNat ∧ c.toNat ≤ 57 then some (c.toNat-48)
  else if 97 ≤ c.toNat ∧ c.toNat ≤ 102 then some (c.toNat-87)
  else if 65 ≤ c.toNat ∧ c.toNat ≤ 70 then some (c.toNat-55)
  else none

def hex4 (n : Nat) : List Char := [hexDigit (n/4096),hexDigit (n/256%16),hexDigit (n/16%16),hexDigit (n%16)]

def short : List (Char × Char) :=
  [(quote,quote),(slash,slash),('/','/'),('b','\x08'),('f','\x0c'),('n','\x0a'),('r','\x0d'),('t','\x09')]

def unescape (e : Char) : Option Char := (short.find? fun p => decide (p.1 = e)).map Prod.snd

def letter (c : Char) : Option Char := (short.find? fun p => decide (p.2 = c ∧ c ≠ '/')).map Prod.fst

def writeChar (hexed : Char → Bool) (c : Char) : List Char :=
  match letter c with
  | some e => [slash,e]
  | none => if hexed c then slash:: 'u'::hex4 c.toNat else [c]

inductive Mode where
  | plain
  | escaped
  | hex (left n : Nat)

def push (c : Char) (read : Option (List Char × List Char)) : Option (List Char × List Char) := read.map fun p => (c::p.1,p.2)

def readBody : Mode → List Char → Option (List Char × List Char)
  | _, [] => none
  | .plain, c::rest =>
      if c = quote then some ([],rest)
      else if c = slash then readBody .escaped rest
      else if c.toNat < 32 then none
      else push c (readBody .plain rest)
  | .escaped, e::rest =>
      if e = 'u' then readBody (.hex 3 0) rest else (unescape e).bind fun c => push c (readBody .plain rest)
  | .hex 0 n, d::rest => (hexVal d).bind fun v => if (16*n+v).isValidChar then push (Char.ofNat (16*n+v)) (readBody .plain rest) else none
  | .hex (left+1) n, d::rest => (hexVal d).bind fun v => readBody (.hex left (16*n+v)) rest

def nullText : List Char := ['n','u','l','l']

def blank (c : Char) : Bool := decide (c ∈ [' ','\x09','\x0a','\x0d'])

def skip (text : List Char) : List Char := text.dropWhile blank

def readItem (text : List Char) : Option (Option (List Char) × List Char) :=
  if text.take 4 = nullText then some (none,text.drop 4)
  else if text.head? = some quote then (readBody .plain text.tail).map fun p => (some p.1,p.2)
  else none

def readItems : Nat → List Char → Option (List (Option (List Char)) × List Char)
  | 0, _ => none
  | fuel+1, text =>
      (readItem (skip text)).bind fun p =>
        if (skip p.2).head? = some ']' then some ([p.1],(skip p.2).tail)
        else if (skip p.2).head? = some ',' then (readItems fuel (skip p.2).tail).map fun q => (p.1::q.1,q.2)
        else none

def readTuple (text : List Char) : Option (Option (List (Option (List Char))) × List Char) :=
  if (skip text).take 4 = nullText then some (none,(skip text).drop 4)
  else if (skip text).head? = some '[' then
    if (skip (skip text).tail).head? = some ']' then some (some [],(skip (skip text).tail).tail)
    else (readItems text.length (skip text).tail).map fun p => (some p.1,p.2)
  else none

end Text

section Writer
variable {σ : Type*} (sep : List Char) (esc : σ → List Char)

def writeItem : Option (List σ) → List Char
  | none => nullText
  | some xs => quote::(xs.flatMap esc++[quote])

def writeItems : List (Option (List σ)) → List Char
  | [] => []
  | [x] => writeItem esc x
  | x::y::rest => writeItem esc x++(sep++writeItems (y::rest))

def writeTuple : Option (List (Option (List σ))) → List Char
  | none => nullText
  | some items => '['::(writeItems sep esc items++[']'])

end Writer

def Written (text : List Char) (c : Char) : Prop := ∀ rest, readBody .plain (text++rest) = push c (readBody .plain rest)

theorem writtenPlain {c} (other : c ≠ quote) (open_ : c ≠ slash) (high : 32 ≤ c.toNat) : Written [c] c := by
  intro rest
  rw [singleton_append,readBody,if_neg other,if_neg open_,if_neg (Nat.not_lt.mpr high)]

theorem writtenShort {e c} (letter : e ≠ 'u') (known : unescape e = some c) : Written [slash,e] c := by
  intro rest
  rw [cons_append,singleton_append,readBody,if_neg (by decide),if_pos rfl,readBody,if_neg letter,known]
  rfl

theorem hexValDigit : ∀ n < 16, hexVal (hexDigit n) = some n := by decide

theorem writtenHex {c} (low : c.toNat < 65536) : Written (slash:: 'u'::hex4 c.toNat) c := by
  intro rest
  have value : 16*(16*(16*(16*0+c.toNat/4096)+c.toNat/256%16)+c.toNat/16%16)+c.toNat%16 = c.toNat := by omega
  have valid : c.toNat.isValidChar := c.valid
  simp only [hex4,cons_append,nil_append]
  rw [readBody,if_neg (by decide),if_pos rfl,readBody,if_pos rfl]
  simp only [readBody,hexValDigit (c.toNat/4096) (by omega),hexValDigit (c.toNat/256%16) (by omega),hexValDigit (c.toNat/16%16) (by omega),
    hexValDigit (c.toNat%16) (by omega),Option.bind_some,value,if_pos valid,Char.ofNat_toNat]

theorem letterSound {c e} (found : letter c = some e) : e ≠ 'u' ∧ unescape e = some c := by
  have all : ∀ p ∈ short, p.2 ≠ '/' → p.1 ≠ 'u' ∧ unescape p.1 = some p.2 := by decide
  simp only [letter,Option.map_eq_some_iff] at found
  obtain ⟨p,here,rfl⟩ := found
  have same : p.2 = c ∧ c ≠ '/' := by simpa using find?_some here
  have known := all p (mem_of_find?_eq_some here) (same.1 ▸ same.2)
  rwa [same.1] at known

theorem writtenChar {hexed} (control : ∀ c, c.toNat < 32 → hexed c = true) (low : ∀ c, hexed c = true → c.toNat < 65536) (c) :
    Written (writeChar hexed c) c := by
  unfold writeChar
  split
  · rename_i e found
    exact writtenShort (letterSound found).1 (letterSound found).2
  · rename_i none_
    split
    · rename_i chosen
      exact writtenHex (low c chosen)
    · rename_i plain
      have other : ∀ d, letter d ≠ none → c ≠ d := fun d known same => known (same ▸ none_)
      refine writtenPlain (other quote (by decide)) (other slash (by decide)) ?_
      exact Nat.not_lt.mp fun less => plain (control c less)

section Round
variable {σ : Type*} {sep : List Char} {esc : σ → List Char} {val : σ → Char} (written : ∀ x, Written (esc x) (val x))
include written

theorem readBodyWritten (xs : List σ) (rest : List Char) : readBody .plain (xs.flatMap esc++quote::rest) = some (xs.map val,rest) := by
  induction xs with
  | nil => rw [flatMap_nil,nil_append,readBody,if_pos rfl,map_nil]
  | cons x xs ih =>
    rw [flatMap_cons,append_assoc,written x,ih]
    rfl

theorem readItemWritten (item : Option (List σ)) (rest : List Char) :
    readItem (writeItem esc item++rest) = some (item.map (List.map val),rest) := by
  cases item with
  | none => rfl
  | some xs =>
    have text : writeItem esc (some xs)++rest = quote::(xs.flatMap esc++quote::rest) := by simp [writeItem]
    have other : (quote::(xs.flatMap esc++quote::rest)).take 4 ≠ nullText := by
      rw [take_succ_cons]
      intro same
      exact absurd (List.cons.inj same).1 (by decide)
    rw [text,readItem,if_neg other,head?_cons,if_pos rfl,tail_cons,readBodyWritten written]
    rfl

omit written in
theorem skipItem (item) (rest) : skip (writeItem esc item++rest) = writeItem esc item++rest := by
  cases item with
  | none => exact dropWhile_cons_of_neg (by decide)
  | some xs => exact dropWhile_cons_of_neg (by decide)

omit written in
theorem skipEnd (c) (closed : blank c = false) (rest) : skip (c::rest) = c::rest :=
  dropWhile_cons_of_neg (by simp [closed])

omit written in
theorem skipBlanks {gap} (blanks : ∀ c ∈ gap, blank c = true) (rest) : skip (gap++rest) = skip rest := by
  rw [skip,dropWhile_append_of_pos blanks,skip]

variable (gap : List Char) (blanks : ∀ c ∈ gap, blank c = true)
include blanks

theorem readItemsWritten {items} (some_ : items ≠ []) (before) (early : ∀ c ∈ before, blank c = true)
    {fuel} (enough : items.length ≤ fuel) (rest) :
    readItems fuel (before++(writeItems (','::gap) esc items++ ']'::rest)) = some (items.map (Option.map (List.map val)),rest) := by
  induction items generalizing fuel before with
  | nil => exact absurd rfl some_
  | cons x items ih =>
    obtain ⟨fuel,rfl⟩ : ∃ less, fuel = less+1 := ⟨fuel-1,by simp at enough; omega⟩
    rw [readItems,skipBlanks early]
    cases items with
    | nil =>
      rw [writeItems,skipItem,readItemWritten written]
      rfl
    | cons y items =>
      have text : writeItems (','::gap) esc (x::y::items)++ ']'::rest =
        writeItem esc x++(','::(gap++(writeItems (','::gap) esc (y::items)++ ']'::rest))) := by
        simp [writeItems]
      have next := ih (cons_ne_nil _ _) gap blanks (Nat.le_of_succ_le_succ enough)
      rw [text,skipItem,readItemWritten written,Option.bind_some,skipEnd _ rfl,head?_cons,if_neg (by decide),if_pos rfl,tail_cons,next]
      rfl

omit written blanks in
theorem itemsLength (sep) (esc : σ → List Char) (items) : items.length ≤ (writeItems sep esc items).length := by
  have one : ∀ x : Option (List σ), 1 ≤ (writeItem esc x).length := by
    intro x
    cases x <;> simp [writeItem,nullText]
  induction items with
  | nil => simp
  | cons x items ih =>
    cases items with
    | nil => simpa [writeItems] using one x
    | cons y items =>
      have first := one x
      rw [writeItems,length_append,length_append,length_cons]
      omega

theorem readWritten (tuple) (rest) :
    readTuple (writeTuple (','::gap) esc tuple++rest) = some (tuple.map (List.map (Option.map (List.map val))),rest) := by
  cases tuple with
  | none => rfl
  | some items =>
    have text : writeTuple (','::gap) esc (some items)++rest = '['::(writeItems (','::gap) esc items++ ']'::rest) := by simp [writeTuple]
    have other : ('['::(writeItems (','::gap) esc items++ ']'::rest)).take 4 ≠ nullText := by
      rw [take_succ_cons]
      intro same
      exact absurd (List.cons.inj same).1 (by decide)
    rw [text,readTuple,skipEnd _ rfl,if_neg other,head?_cons,if_pos rfl,tail_cons]
    by_cases none_ : items = []
    · subst none_
      rfl
    · have first : (skip (writeItems (','::gap) esc items++ ']'::rest)).head? ≠ some ']' := by
        obtain ⟨x,more,rfl⟩ := exists_cons_of_ne_nil none_
        have starts : ∃ tail, writeItems (','::gap) esc (x::more)++ ']'::rest = writeItem esc x++tail := by
          cases more with
          | nil => exact ⟨']'::rest,rfl⟩
          | cons y more => exact ⟨(','::gap)++writeItems (','::gap) esc (y::more)++ ']'::rest,by simp [writeItems]⟩
        obtain ⟨tail,starts⟩ := starts
        rw [starts,skipItem]
        cases x <;> simp [writeItem,nullText,quote]
      have long : items.length ≤ ('['::(writeItems (','::gap) esc items++ ']'::rest)).length := by
        have short := itemsLength (','::gap) esc items
        rw [length_cons,length_append]
        omega
      have read := readItemsWritten written gap blanks none_ [] (by simp) long rest
      rw [nil_append] at read
      rw [if_neg first,read]
      rfl

end Round

end Replicare.JsonText
