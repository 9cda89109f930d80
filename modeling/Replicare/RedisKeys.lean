import Mathlib.Data.Fintype.Card
import Replicare.Engine
import Replicare.XorSpan

/-! The Redis keyspace as bytes: hash slots, the metadata key that lives in the slot of its
data key, the table of one brace-free tag for each slot, and the key selection. -/
namespace Replicare.RedisKeys
open Engine XorSpan List Function

def openBrace : UInt8 := 123
def closeBrace : UInt8 := 125

/- The NUL byte, then "rc:m:". -/
def metaPrefix : Bytes := [0,114,99,58,109,58]

def slotTag (key : Bytes) : Bytes :=
  match key.idxOf? openBrace with
  | none => key
  | some opening =>
    match (key.drop (opening+1)).idxOf? closeBrace with
    | none => key
    | some 0 => key
    | some close => (key.drop (opening+1)).take close

def hashSlots : Nat := 16384

def poly : UInt16 := 0x1021

def shiftOut (crc : UInt16) : UInt16 :=
  if crc &&& 0x8000 != 0 then crc <<< 1 ^^^ poly else crc <<< 1

def crc16Tab (i : UInt8) : UInt16 := shiftOut^[8] (i.toUInt16 <<< 8)

def crcStep (crc : UInt16) (b : UInt8) : UInt16 :=
  crc <<< 8 ^^^ crc16Tab ((crc >>> 8).toUInt8 ^^^ b)

def crc16 (s : Bytes) : UInt16 := s.foldl crcStep 0

def slot (s : Bytes) : Fin hashSlots := ⟨(crc16 s).toNat%hashSlots,Nat.mod_lt _ (by decide)⟩

def slotOf (key : Bytes) : Fin hashSlots := slot (slotTag key)

def itoa (i : Nat) : Bytes := (Nat.toDigits 10 i).map fun c => UInt8.ofNat c.toNat

structure Filling where
  table : Fin hashSlots → Bytes
  filled : Nat

def fillStep (f : Filling) (i : Nat) : Filling :=
  if f.table (slot (itoa i)) = [] then ⟨update f.table (slot (itoa i)) (itoa i),f.filled+1⟩ else f

def fillLoop (fuel i : Nat) (f : Filling) : Option Filling :=
  if f.filled < hashSlots then
    match fuel with
    | 0 => none
    | fuel+1 => fillLoop fuel (i+1) (fillStep f i)
  else some f

def unfilled : Filling := ⟨fun _ => [],0⟩

def fillBound : Nat := 2*10^6

def slotTagTable (fuel : Nat) : Fin hashSlots → Bytes := ((fillLoop fuel 0 unfilled).getD unfilled).table

@[irreducible] def slotToTag (s : Fin hashSlots) : Bytes := slotTagTable fillBound s

def metaKey (key : Bytes) : Bytes := metaPrefix++([openBrace]++(slotToTag (slotOf key)++([closeBrace]++key)))

def isMetaKey (key : Bytes) : Bool := [0,114,99,58].isPrefixOf key

def dataKeyFromMeta (mk : Bytes) : Option Bytes :=
  if metaPrefix.isPrefixOf mk then
    match mk.drop metaPrefix.length with
    | [] => none
    | first::rest =>
      if first != openBrace then none
      else ((first::rest).idxOf? closeBrace).map fun close => (first::rest).drop (close+1)
  else none

section Glob

def star : UInt8 := 42
def question : UInt8 := 63
def openClass : UInt8 := 91
def escape : UInt8 := 92
def closeClass : UInt8 := 93
def caret : UInt8 := 94
def dash : UInt8 := 45

def inRange (lo hi b : UInt8) : Bool := min lo hi ≤ b && b ≤ max lo hi

def classMatch (b : UInt8) : Bool → Bytes → Bool × Bytes
  | matched, [] => (matched,[])
  | matched, [c] => if c == closeClass then (matched,[]) else (matched || c == b,[])
  | matched, [c,d] =>
    if c == closeClass then (matched,[d])
    else if c == escape then classMatch b (matched || d == b) []
    else classMatch b (matched || c == b) [d]
  | matched, c::d::e::rest =>
    if c == closeClass then (matched,d::e::rest)
    else if c == escape then classMatch b (matched || d == b) (e::rest)
    else if d == dash && e != closeClass then classMatch b (matched || inRange c e b) rest
    else classMatch b (matched || c == b) (d::e::rest)

def globLoop : Nat → Bytes → Bytes → Bool
  | 0, _, s => s.isEmpty
  | _, [], s => s.isEmpty
  | fuel+1, c::rest, s =>
    if c == star then
      let after := rest.dropWhile (· == star)
      after.isEmpty || s.tails.any (globLoop fuel after)
    else
      match s with
      | [] => false
      | b::s =>
        if c == question then globLoop fuel rest s
        else if c == openClass then
          let neg := rest.head? == some caret
          let found := classMatch b false (if neg then rest.drop 1 else rest)
          found.1 != neg && globLoop fuel found.2 s
        else if c == escape then
          match rest with
          | [] => c == b && globLoop fuel [] s
          | d::rest => d == b && globLoop fuel rest s
        else c == b && globLoop fuel rest s

def globMatch (pattern s : Bytes) : Bool := globLoop pattern.length pattern s

end Glob

structure Selection where
  includes : List Bytes
  excludes : List Bytes
  deriving DecidableEq, Repr

def Selection.selects (sel : Selection) (key : Bytes) : Bool :=
  !isMetaKey key && !sel.excludes.any (globMatch · key) && (sel.includes.isEmpty || sel.includes.any (globMatch · key))

def chosen (sel : Option Selection) (key : Bytes) : Bool := sel.all fun s => s.selects key

section Checksum

theorem topBit (c : UInt16) : (c &&& 0x8000 != 0) = c.toNat.testBit 15 := by
  have bit : (c &&& 0x8000).toNat = (c.toNat.testBit 15).toNat*2^15 := by
    rw [UInt16.toNat_and]
    exact Nat.and_two_pow _ 15
  cases top : c.toNat.testBit 15 with
  | false =>
    rw [top] at bit
    have none : c &&& 0x8000 = 0 := UInt16.toNat_inj.mp (by simpa using bit)
    simp [none]
  | true =>
    rw [top] at bit
    have some : c &&& 0x8000 = 0x8000 := UInt16.toNat_inj.mp (by simpa using bit)
    simp [some]

theorem shiftLinear (a b : UInt16) : shiftOut (a ^^^ b) = shiftOut a ^^^ shiftOut b := by
  simp only [shiftOut,topBit,UInt16.toNat_xor,Nat.testBit_xor,UInt16.shiftLeft_xor]
  have cancel : a <<< 1 ^^^ b <<< 1 = a <<< 1 ^^^ poly ^^^ (b <<< 1 ^^^ poly) := by
    rw [UInt16.xor_assoc,UInt16.xor_comm (b <<< 1),←UInt16.xor_assoc poly,UInt16.xor_self,UInt16.zero_xor]
  cases a.toNat.testBit 15 <;> cases b.toNat.testBit 15
  · rfl
  · exact UInt16.xor_assoc _ _ _
  · show a <<< 1 ^^^ b <<< 1 ^^^ poly = a <<< 1 ^^^ poly ^^^ b <<< 1
    rw [UInt16.xor_assoc,UInt16.xor_comm (b <<< 1),←UInt16.xor_assoc]
  · exact cancel

theorem tabLinear (a b) : crc16Tab (a ^^^ b) = crc16Tab a ^^^ crc16Tab b := by
  rw [crc16Tab,UInt8.toUInt16_xor,UInt16.shiftLeft_xor,iterateXor shiftLinear]
  rfl

theorem crcStepLinear (a b : UInt16) (x y) : crcStep (a ^^^ b) (x ^^^ y) = crcStep a x ^^^ crcStep b y := by
  have index : (a >>> 8).toUInt8 ^^^ (b >>> 8).toUInt8 ^^^ (x ^^^ y) = (a >>> 8).toUInt8 ^^^ x ^^^ ((b >>> 8).toUInt8 ^^^ y) := by
    ac_rfl
  simp only [crcStep,UInt16.shiftLeft_xor,UInt16.shiftRight_xor,UInt16.toUInt8_xor]
  rw [index,tabLinear]
  ac_rfl

theorem crc16Xor {s t} (same : s.length = t.length) : crc16 (List.zipWith (· ^^^ ·) s t) = crc16 s ^^^ crc16 t := by
  have fold := foldXor crcStepLinear same 0 0
  rwa [UInt16.xor_self] at fold

def bitStep (crc : UInt16) (bit : Bool) : UInt16 :=
  if (crc &&& 0x8000 != 0) != bit then crc <<< 1 ^^^ poly else crc <<< 1

def messageBits (b : UInt8) : List Bool := [7,6,5,4,3,2,1,0].map fun i => b.toNat.testBit i

def crc16Bitwise (s : Bytes) : UInt16 := (s.flatMap messageBits).foldl bitStep 0

theorem bitStepShift (crc : UInt16) (bit) : bitStep crc bit = shiftOut crc ^^^ bitStep 0 bit := by
  have twice : crc <<< 1 ^^^ poly ^^^ poly = crc <<< 1 := by
    rw [UInt16.xor_assoc,UInt16.xor_self,UInt16.xor_zero]
  simp only [bitStep,shiftOut]
  cases bit <;> cases crc &&& 0x8000 != 0 <;> simp [twice]

theorem bitsAlone (bits : List Bool) (crc : UInt16) : bits.foldl bitStep crc = shiftOut^[bits.length] crc ^^^ bits.foldl bitStep 0 := by
  induction bits generalizing crc with
  | nil => exact UInt16.xor_zero.symm
  | cons bit bits ih =>
    have first : bits.foldl bitStep (bitStep 0 bit) = shiftOut^[bits.length] (bitStep 0 bit) ^^^ bits.foldl bitStep 0 := ih _
    rw [foldl_cons,ih,bitStepShift,iterateXor shiftLinear,foldl_cons,first,length_cons,Function.iterate_succ_apply,UInt16.xor_assoc]

theorem bitsTable (b : UInt8) : (messageBits b).foldl bitStep 0 = crc16Tab b := by
  have all : ∀ i : Fin 256, (messageBits (UInt8.ofNat i)).foldl bitStep 0 = crc16Tab (UInt8.ofNat i) := by
    decide +kernel
  have here := all ⟨b.toNat,b.toNat_lt⟩
  rwa [UInt8.ofNat_toNat] at here

theorem stepShifts (crc : UInt16) : crcStep crc 0 = shiftOut^[8] crc := by
  have span := spanBits (P := fun x => crcStep (UInt16.ofNat x) 0 = shiftOut^[8] (UInt16.ofNat x)) (n := 16) (by decide +kernel) ?_ ?_
  · have here := span crc.toNat crc.toNat_lt
    rwa [UInt16.ofNat_toNat] at here
  · intro a b left right
    have sum := crcStepLinear (UInt16.ofNat a) (UInt16.ofNat b) 0 0
    rw [UInt8.xor_self,left,right,←iterateXor shiftLinear] at sum
    rwa [UInt16.ofNat_xor]
  · decide +kernel

theorem crc16Table (s : Bytes) : crc16 s = crc16Bitwise s := by
  have byte : ∀ crc b, crcStep crc b = (messageBits b).foldl bitStep crc := by
    intro crc b
    have split := crcStepLinear crc 0 0 b
    rw [UInt16.xor_zero,UInt8.zero_xor] at split
    have alone : crcStep 0 b = crc16Tab b := by
      rw [crcStep]
      simp
    rw [split,stepShifts,alone,bitsAlone,bitsTable]
    rfl
  rw [crc16,crc16Bitwise]
  generalize (0 : UInt16) = crc
  induction s generalizing crc with
  | nil => rfl
  | cons b s ih => rw [foldl_cons,flatMap_cons,foldl_append,byte,ih]

end Checksum

section Reached

theorem itoaSnoc {n d} (positive : 0 < n) (digit : d < 10) : itoa (10*n+d) = itoa n++[UInt8.ofNat (48+d)] := by
  have byte : UInt8.ofNat (Nat.digitChar d).toNat = UInt8.ofNat (48+d) := by
    have all : ∀ d : Fin 10, UInt8.ofNat (Nat.digitChar d.val).toNat = UInt8.ofNat (48+d.val) := by decide
    exact all ⟨d,digit⟩
  rw [itoa,←Nat.toDigits_append_toDigits (by decide) positive digit,map_append,Nat.toDigits_of_lt_base digit,
    map_cons,map_nil,byte]
  rfl

def number (n : Nat) (ds : List UInt8) : Nat := ds.foldl (fun n d => 10*n+d.toNat) n

theorem itoaNumber {n ds} (positive : 0 < n) (digits : ∀ d ∈ ds, d < 8) :
    itoa (number n ds) = itoa n++ds.map (48 ^^^ ·) := by
  induction ds generalizing n with
  | nil => simp [number]
  | cons d ds ih =>
    have digit : d.toNat < 8 := digits d (.head _)
    have byte : UInt8.ofNat (48+d.toNat) = 48 ^^^ d := by
      have all : ∀ d : Fin 8, UInt8.ofNat (48+d.val) = 48 ^^^ UInt8.ofNat d.val := by decide
      simpa using all ⟨d.toNat,digit⟩
    have later := @ih (10*n+d.toNat) (by omega) fun e member => digits e (.tail _ member)
    rw [itoaSnoc positive (by omega),byte] at later
    rw [map_cons,append_cons]
    exact later

theorem numberBelow {n m ds} (below : n < m) (digits : ∀ d ∈ ds, d < 8) : number n ds < m*10^ds.length := by
  induction ds generalizing n m with
  | nil => simpa [number] using below
  | cons d ds ih =>
    have digit : d.toNat < 8 := digits d (.head _)
    have later := @ih (10*n+d.toNat) (10*m) (by omega) fun e member => digits e (.tail _ member)
    rw [length_cons,Nat.pow_succ',←Nat.mul_assoc,Nat.mul_comm m]
    exact later

def Spanned (x : Nat) : Prop :=
  ∃ ds : List UInt8, ds.length = 6 ∧ (∀ d ∈ ds, d < 8) ∧ (crc16 (0::ds)).toNat%2^14 = x

theorem zipBelow {s t : List UInt8} (left : ∀ d ∈ s, d < 8) (right : ∀ d ∈ t, d < 8) : ∀ d ∈ List.zipWith (· ^^^ ·) s t, d < 8 := by
  induction s generalizing t with
  | nil => simp
  | cons x s ih =>
    cases t with
    | nil => simp
    | cons y t =>
      have first : (x ^^^ y).toNat < 2^3 := by
        rw [UInt8.toNat_xor]
        exact Nat.xor_lt_two_pow (left x (.head _)) (right y (.head _))
      rw [zipWith_cons_cons,forall_mem_cons]
      exact ⟨first,ih (fun d member => left d (.tail _ member)) (fun d member => right d (.tail _ member))⟩

theorem spannedXor (a b : Nat) (left : Spanned a) (right : Spanned b) : Spanned (a ^^^ b) := by
  obtain ⟨s,sizeS,digitsS,rfl⟩ := left
  obtain ⟨t,sizeT,digitsT,rfl⟩ := right
  refine ⟨List.zipWith (· ^^^ ·) s t,by simp [sizeS,sizeT],zipBelow digitsS digitsT,?_⟩
  have sum := @crc16Xor (0::s) (0::t) (by simp [sizeS,sizeT])
  rw [zipWith_cons_cons,UInt8.xor_self] at sum
  rw [sum,UInt16.toNat_xor,Nat.xor_mod_two_pow]

def bitDigits : List (List UInt8) :=
  [[5,5,4,0,6,0],[1,7,1,6,2,0],[6,5,1,6,6,0],[0,5,6,2,6,0],[2,1,4,5,0,0],[3,1,4,2,0,0],[3,2,5,4,6,0],
   [0,4,1,3,2,0],[6,1,1,4,4,0],[6,4,5,4,2,0],[4,4,4,5,6,0],[1,7,1,4,0,0],[6,5,1,2,2,0],[3,4,1,1,2,0]]

theorem spannedBit (b) (small : b < 14) : Spanned (2^b) := by
  have all : ∀ b : Fin 14, (bitDigits.getD b []).length = 6 ∧ (∀ d ∈ bitDigits.getD b [], d < 8) ∧
      (crc16 (0::bitDigits.getD b [])).toNat%2^14 = 2^b.val := by
    decide +kernel
  exact ⟨_,all ⟨b,small⟩⟩

theorem spannedAll {x} (small : x < 2^14) : Spanned x :=
  spanBits ⟨[0,0,0,0,0,0],by decide +kernel⟩ spannedXor spannedBit x small

theorem zipReplicate (b : UInt8) (ds) : List.zipWith (· ^^^ ·) (List.replicate ds.length b) ds = ds.map (b ^^^ ·) := by
  induction ds with
  | nil => rfl
  | cons d ds ih => rw [length_cons,replicate_succ,zipWith_cons_cons,ih,map_cons]

theorem slotVal (s) : (slot s).val = (crc16 s).toNat%2^14 := rfl

theorem slotReached (s) : ∃ i < fillBound, slot (itoa i) = s := by
  have first : itoa 1 = [49^^^0] := by decide
  have word : s.val ^^^ (crc16 (49::List.replicate 6 48)).toNat%2^14 < 2^14 :=
    Nat.xor_lt_two_pow s.isLt (Nat.mod_lt _ (by decide))
  obtain ⟨ds,size,digits,sum⟩ := spannedAll word
  refine ⟨number 1 ds,?_,?_⟩
  · have below := @numberBelow 1 2 ds (by decide) digits
    rwa [size] at below
  · have text : itoa (number 1 ds) = List.zipWith (· ^^^ ·) (49::List.replicate 6 48) (0::ds) := by
      rw [itoaNumber (by decide) digits,first,zipWith_cons_cons,←size,zipReplicate]
      rfl
    apply Fin.ext
    rw [slotVal,text,crc16Xor (by simp [size]),UInt16.toNat_xor,Nat.xor_mod_two_pow,sum,Nat.xor_comm s.val,
      ←Nat.xor_assoc,Nat.xor_self,Nat.zero_xor]

end Reached

section Table
variable {f g : Filling} {i : Nat}

theorem itoaBrace {c} (brace : c = openBrace ∨ c = closeBrace) (i) : c ∉ itoa i := by
  intro member
  obtain ⟨digit,mem,rfl⟩ := mem_map.mp member
  have isDigit := Nat.isDigit_of_mem_toDigits (by decide) (by decide) mem
  have range : 48 ≤ digit.toNat ∧ digit.toNat ≤ 57 := by
    simpa [Char.isDigit,UInt32.le_iff_toNat_le] using isDigit
  have byte := brace.imp (congrArg UInt8.toNat) (congrArg UInt8.toNat)
  simp only [openBrace,closeBrace,UInt8.toNat_ofNat'] at byte
  have braces : UInt8.toNat 123 = 123 ∧ UInt8.toNat 125 = 125 := ⟨rfl,rfl⟩
  rw [braces.1,braces.2] at byte
  omega

structure Counted (i : Nat) (f : Filling) : Prop where
  count : f.filled = (Finset.univ.filter fun s => f.table s ≠ []).card
  tags : ∀ s, f.table s ≠ [] → slot (f.table s) = s ∧ ∃ j, f.table s = itoa j
  seen : ∀ j < i, f.table (slot (itoa j)) ≠ []

theorem itoaNonempty (i) : itoa i ≠ [] := by
  have some := @Nat.length_toDigits_pos 10 i
  intro none
  rw [itoa,map_eq_nil_iff] at none
  simp [none] at some

theorem stepCounted (counted : Counted i f) : Counted (i+1) (fillStep f i) := by
  by_cases free : f.table (slot (itoa i)) = []
  · have grown : (Finset.univ.filter fun s => update f.table (slot (itoa i)) (itoa i) s ≠ []) =
        insert (slot (itoa i)) (Finset.univ.filter fun s => f.table s ≠ []) := by
      ext s
      by_cases here : s = slot (itoa i)
      · simp [here,itoaNonempty]
      · simp [here]
    rw [fillStep,if_pos free]
    refine ⟨?_,?_,?_⟩
    · rw [grown,Finset.card_insert_of_notMem (by simp [free]),←counted.count]
    · intro s nonempty
      by_cases here : s = slot (itoa i)
      · subst here
        exact ⟨by simp only [update_self],i,by simp only [update_self]⟩
      · simp only [update_of_ne here] at nonempty ⊢
        exact counted.tags s nonempty
    · intro j below
      simp only
      by_cases here : slot (itoa j) = slot (itoa i)
      · rw [here,update_self]
        exact itoaNonempty i
      · rw [update_of_ne here]
        refine counted.seen j (lt_of_le_of_ne (Nat.lt_succ_iff.mp below) fun same => here (by rw [same]))
  · rw [fillStep,if_neg free]
    refine ⟨counted.count,counted.tags,fun j below => ?_⟩
    rcases Nat.lt_succ_iff_lt_or_eq.mp below with before | rfl
    · exact counted.seen j before
    · exact free

theorem fullIff (counted : Counted i f) : f.filled = hashSlots ↔ ∀ s, f.table s ≠ [] := by
  rw [counted.count]
  constructor
  · intro full s
    have all : (Finset.univ.filter fun s => f.table s ≠ []) = Finset.univ :=
      (Finset.card_eq_iff_eq_univ _).mp (full.trans (Fintype.card_fin _).symm)
    have member : s ∈ Finset.univ.filter fun s => f.table s ≠ [] := by
      rw [all]
      exact Finset.mem_univ s
    exact (Finset.mem_filter.mp member).2
  · intro all
    rw [Finset.filter_true_of_mem fun s _ => all s,Finset.card_univ,Fintype.card_fin]

theorem loopEnds {fuel} (enough : fillBound ≤ i+fuel) (counted : Counted i f) :
    ∃ g j, fillLoop fuel i f = some g ∧ Counted j g ∧ ∀ s, g.table s ≠ [] := by
  induction fuel generalizing i f with
  | zero =>
    have all : ∀ s, f.table s ≠ [] := by
      intro s
      obtain ⟨j,below,rfl⟩ := slotReached s
      exact counted.seen j (by omega)
    have full := (fullIff counted).mpr all
    exact ⟨f,i,by rw [fillLoop,if_neg (by omega)],counted,all⟩
  | succ fuel ih =>
    rw [fillLoop]
    split
    · exact ih (by omega) (stepCounted counted)
    · rename_i done
      have atMost : f.filled ≤ hashSlots := by
        rw [counted.count]
        exact (Finset.card_le_univ _).trans (Fintype.card_fin _).le
      exact ⟨f,i,rfl,counted,(fullIff counted).mp (by omega)⟩

theorem startCounted : Counted 0 unfilled := by
  refine ⟨?_,fun s nonempty => absurd rfl nonempty,fun j below => absurd below (Nat.not_lt_zero j)⟩
  simp [unfilled]

theorem tableFilled (fuel) (enough : fillBound ≤ fuel) : ∃ g, fillLoop fuel 0 unfilled = some g ∧
    ∀ s, slot (g.table s) = s ∧ g.table s ≠ [] ∧ openBrace ∉ g.table s ∧ closeBrace ∉ g.table s := by
  obtain ⟨g,j,ends,counted,all⟩ := @loopEnds unfilled 0 fuel (by omega) startCounted
  refine ⟨g,ends,fun s => ?_⟩
  obtain ⟨here,n,tag⟩ := counted.tags s (all s)
  refine ⟨here,all s,?_,?_⟩
  · rw [tag]
    exact itoaBrace (.inl rfl) n
  · rw [tag]
    exact itoaBrace (.inr rfl) n

theorem tagIn {fuel} (enough : fillBound ≤ fuel) (s) : slot (slotTagTable fuel s) = s ∧
    slotTagTable fuel s ≠ [] ∧ openBrace ∉ slotTagTable fuel s ∧ closeBrace ∉ slotTagTable fuel s := by
  obtain ⟨g,ends,tags⟩ := tableFilled fuel enough
  rw [slotTagTable,ends,Option.getD_some]
  exact tags s

theorem tagOf (s) : slot (slotToTag s) = s ∧ slotToTag s ≠ [] ∧ openBrace ∉ slotToTag s ∧ closeBrace ∉ slotToTag s := by
  unfold slotToTag
  exact tagIn (Nat.le_refl _) s

end Table

theorem indexAt {c : UInt8} {l rest} (absent : c ∉ l) : (l++c::rest).idxOf? c = some l.length := by
  induction l with
  | nil => simp [idxOf?_cons]
  | cons first l ih =>
    rw [mem_cons,not_or] at absent
    rw [cons_append,idxOf?_cons,ih absent.2]
    simp [Ne.symm absent.1]

theorem slotTagWrapped {front tag key} (noOpen : openBrace ∉ front) (nonempty : tag ≠ []) (noClose : closeBrace ∉ tag) :
    slotTag (front++openBrace::(tag++closeBrace::key)) = tag := by
  obtain ⟨first,more,rfl⟩ := exists_cons_of_ne_nil nonempty
  have rest : (front++openBrace::(first::more++closeBrace::key)).drop (front.length+1) = first::more++closeBrace::key := by
    rw [append_cons]
    exact drop_left' (by simp)
  rw [slotTag,indexAt noOpen]
  simp only [rest,indexAt noClose,length_cons]
  rw [←length_cons,take_left]

theorem dataKeyWrapped {tag key} (noClose : closeBrace ∉ tag) :
    dataKeyFromMeta (metaPrefix++openBrace::(tag++closeBrace::key)) = some key := by
  have start : metaPrefix.isPrefixOf (metaPrefix++openBrace::(tag++closeBrace::key)) = true :=
    isPrefixOf_iff_prefix.mpr (prefix_append _ _)
  have close : (openBrace::tag++closeBrace::key).idxOf? closeBrace = some (openBrace::tag).length := by
    apply indexAt
    rw [mem_cons,not_or]
    exact ⟨by decide,noClose⟩
  rw [dataKeyFromMeta,if_pos start,drop_left]
  simp only
  rw [if_neg (by simp),←cons_append,close,Option.map_some,append_cons]
  congr 1
  exact drop_left' (by simp)

theorem metaKeyEq (key) : metaKey key = metaPrefix++openBrace::(slotToTag (slotOf key)++closeBrace::key) := by
  simp only [metaKey,cons_append,nil_append]

theorem slotTagMeta (key) : slotTag (metaKey key) = slotToTag (slotOf key) := by
  obtain ⟨_,nonempty,_,noClose⟩ := tagOf (slotOf key)
  rw [metaKeyEq]
  exact slotTagWrapped (by decide) nonempty noClose

theorem dataKeyMeta (key) : dataKeyFromMeta (metaKey key) = some key := by
  obtain ⟨_,_,_,noClose⟩ := tagOf (slotOf key)
  rw [metaKeyEq]
  exact dataKeyWrapped noClose

theorem reservedUnselected (sel : Selection) {key : Bytes} (reserved : isMetaKey key = true) : sel.selects key = false := by
  simp [Selection.selects,reserved]

theorem metaReserved (key) : isMetaKey (metaKey key) = true := by
  rw [isMetaKey, isPrefixOf_iff_prefix,metaKeyEq]
  exact List.IsPrefix.trans ⟨[109,58],rfl⟩ (prefix_append metaPrefix _)

theorem metaKeysColocate : (∀ key, slotOf (metaKey key) = slotOf key) ∧ Function.Injective metaKey ∧
    (∀ key, dataKeyFromMeta (metaKey key) = some key) ∧ (∀ (sel : Selection) key, sel.selects (metaKey key) = false) ∧
    ∀ more, ∃ g, fillLoop (fillBound+more) 0 unfilled = some g ∧
      ∀ s, slot (g.table s) = s ∧ g.table s ≠ [] ∧ openBrace ∉ g.table s ∧ closeBrace ∉ g.table s := by
  refine ⟨?_,?_,dataKeyMeta,fun sel key => reservedUnselected sel (metaReserved key),?_⟩
  · intro key
    have tag := (tagOf (slotOf key)).1
    rw [←slotTagMeta] at tag
    exact tag
  · intro one two same
    have read := dataKeyMeta one
    rw [same,dataKeyMeta two] at read
    exact (Option.some.inj read).symm
  · intro more
    exact tableFilled _ (Nat.le_add_right _ _)

example : (slotOf [102,111,111]).val = 12182 ∧ slotOf [97,125,123,102,111,111,125,98] = slotOf [102,111,111] ∧
    slotTag [97,125,98] = [97,125,98] := by decide +kernel

end Replicare.RedisKeys
