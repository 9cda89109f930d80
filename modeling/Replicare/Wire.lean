import Mathlib.Algebra.Order.Ring.Nat
import Mathlib.Data.List.Infix

/-! Byte streams: big-endian numbers, readers that take an exact number of bytes, and what they
do on a stream that is cut off. -/
namespace Replicare.Wire
open List

def be : Nat → Nat → List UInt8
  | 0, _ => []
  | width+1, n => be width (n/256)++[UInt8.ofNat (n%256)]

def value (l : List UInt8) : Nat := l.foldl (fun acc b => acc*256+b.toNat) 0

theorem beLength (width n) : (be width n).length = width := by
  induction width generalizing n with
  | zero => rfl
  | succ width ih => simp [be,ih]

theorem valueBe (width n) : value (be width n) = n%256^width := by
  induction width generalizing n with
  | zero => simp [be,value,Nat.mod_one]
  | succ width ih =>
    have last : value (be width (n/256)++[UInt8.ofNat (n%256)]) = value (be width (n/256))*256+n%256 := by
      simp [value]
    rw [be,last,ih,Nat.pow_succ',Nat.mod_mul]
    omega

theorem valueOf {width n} (fits : n < 256^width) : value (be width n) = n := by
  rw [valueBe,Nat.mod_eq_of_lt fits]

theorem beInjective {width n m} (left : n < 256^width) (right : m < 256^width) (same : be width n = be width m) : n = m := by
  rw [←valueOf left,same,valueOf right]

theorem cutOut {a b c : List UInt8} {n m : Nat} (before : a.length = n) (size : b.length = m) : ((a++(b++c)).drop n).take m = b := by
  rw [drop_left' before,take_left' size]

theorem fieldCut {width a b x y} (left : a.length < 256^width) (right : b.length < 256^width)
    (same : be width a.length++(a++x) = be width b.length++(b++y)) : a = b ∧ x = y := by
  obtain ⟨sizes,rest⟩ := append_inj same (by rw [beLength,beLength])
  exact append_inj rest (beInjective left right sizes)

inductive Stop where
  | eof
  | unexpectedEOF
  deriving DecidableEq, Repr

abbrev Reader := StateT (List UInt8) (Except Stop)

def readFull (n : Nat) : Reader (List UInt8) := fun s =>
  if n ≤ s.length then .ok (s.take n,s.drop n) else if s.isEmpty then .error .eof else .error .unexpectedEOF

def torn {α : Type} (r : Reader α) : Reader α := fun s =>
  match r s with
  | .ok x => .ok x
  | .error _ => .error .unexpectedEOF

section Exact
variable {α β : Type} {r : Reader α} {code more : List UInt8} {a : α}

structure Exact (r : Reader α) (code : List UInt8) (a : α) : Prop where
  whole : ∀ rest, r (code++rest) = .ok (a,rest)
  cut : ∀ part, part <+: code → part ≠ code → r part = .error .unexpectedEOF

theorem readWhole {n} (size : code.length = n) (rest) : readFull n (code++rest) = .ok (code,rest) := by
  subst size
  simp [readFull]

theorem partShort {part} (begins : part <+: code) (proper : part ≠ code) : part.length < code.length :=
  lt_of_le_of_ne begins.length_le fun same => proper (begins.eq_of_length same)

theorem readCut {n part} (size : code.length = n) (begins : part <+: code) (proper : part ≠ code) :
    readFull n part = .error (if part.isEmpty then .eof else .unexpectedEOF) := by
  have short := partShort begins proper
  rw [readFull,if_neg (by omega)]
  split <;> rfl

theorem exactFull {n} (size : code.length = n) : Exact (torn (readFull n)) code code where
  whole rest := by rw [torn,readWhole size]
  cut part begins proper := by rw [torn,readCut size begins proper]

theorem exactPure (a : α) : Exact (pure a) [] a where
  whole _ := rfl
  cut _ begins proper := absurd (prefix_nil.mp begins) proper

theorem partAppend {part} (begins : part <+: code++more) (proper : part ≠ code++more) :
    part <+: code ∧ part ≠ code ∨ ∃ rest, part = code++rest ∧ rest <+: more ∧ rest ≠ more := by
  by_cases short : part.length < code.length
  · have early := prefix_of_prefix_length_le begins (prefix_append code more) (by omega)
    exact .inl ⟨early,fun same => by simp [same] at short⟩
  · have late := prefix_of_prefix_length_le (prefix_append code more) begins (by omega)
    obtain ⟨rest,rfl⟩ := late
    exact .inr ⟨rest,rfl,(prefix_append_right_inj code).mp begins,fun same => proper (by rw [same])⟩

theorem exactBind {f : α → Reader β} {b : β} (first : Exact r code a) (second : Exact (f a) more b) :
    Exact (r >>= f) (code++more) b where
  whole rest := by
    have step : (r >>= f) (code++more++rest) = (r (code++more++rest)).bind fun x => f x.1 x.2 := rfl
    rw [step,append_assoc,first.whole]
    exact second.whole rest
  cut part begins proper := by
    have step : (r >>= f) part = (r part).bind fun x => f x.1 x.2 := rfl
    rw [step]
    rcases partAppend begins proper with ⟨early,short⟩ | ⟨rest,rfl,late,short⟩
    · rw [first.cut part early short]
      rfl
    · rw [first.whole]
      exact second.cut rest late short

theorem exactMap (g : α → β) (first : Exact r code a) : Exact (r >>= fun x => pure (g x)) code (g a) := by
  have both := @exactBind _ _ r code [] a (fun x => pure (g x)) (g a) first (exactPure (g a))
  rwa [append_nil] at both

end Exact

section Join
variable {α : Type} {sep : α}

def join (sep : α) : List (List α) → List α
  | [] => []
  | [a] => a
  | a::b::rest => a++sep::join sep (b::rest)

theorem joinCount [DecidableEq α] (a) (l) : (join sep (a::l)).count sep = (a::l).flatten.count sep+l.length := by
  induction l generalizing a with
  | nil => simp [join]
  | cons b l ih =>
    rw [join,count_append,count_cons_self,ih,flatten_cons (l := a),count_append,length_cons]
    omega

theorem cutFirst {a b x y} (left : sep ∉ a) (right : sep ∉ b) (same : a++sep::x = b++sep::y) : a = b ∧ x = y := by
  induction a generalizing b with
  | nil =>
    cases b with
    | nil => exact ⟨rfl,(List.cons.inj same).2⟩
    | cons d b => exact absurd (.head _) ((List.cons.inj same).1 ▸ right)
  | cons c a ih =>
    rw [mem_cons,not_or] at left
    cases b with
    | nil => exact absurd (List.cons.inj same).1.symm left.1
    | cons d b =>
      rw [mem_cons,not_or] at right
      obtain ⟨first,later⟩ := List.cons.inj same
      obtain ⟨rfl,rest⟩ := ih left.2 right.2 later
      exact ⟨by rw [first],rest⟩

theorem joinFree {l m} (size : l.length = m.length) (left : ∀ a ∈ l, sep ∉ a) (right : ∀ a ∈ m, sep ∉ a)
    (same : join sep l = join sep m) : l = m := by
  induction l generalizing m with
  | nil => exact (length_eq_zero_iff.mp size.symm).symm
  | cons a l ih =>
    obtain ⟨b,m,rfl⟩ : ∃ b rest, m = b::rest := exists_cons_of_length_eq_add_one size.symm
    rw [forall_mem_cons] at left right
    cases l with
    | nil =>
      obtain rfl : m = [] := by simpa using size.symm
      exact congrArg (fun a => [a]) same
    | cons c l =>
      obtain ⟨d,m,rfl⟩ : ∃ d rest, m = d::rest := exists_cons_of_length_eq_add_one (by simpa using size.symm)
      obtain ⟨rfl,later⟩ := cutFirst left.1 right.1 same
      rw [ih (by simpa using size) left.2 right.2 later]

theorem joinShort {l m} (size : l.length = m.length) (few : l.length ≤ 1) (same : join sep l = join sep m) : l = m := by
  cases l with
  | nil => exact (length_eq_zero_iff.mp size.symm).symm
  | cons a l =>
    obtain rfl : l = [] := by simpa using few
    obtain ⟨b,rfl⟩ := length_eq_one_iff.mp size.symm
    exact congrArg (fun a => [a]) same

theorem joinUnique [DecidableEq α] {l m} (size : l.length = m.length) (free : ∀ a ∈ l, sep ∉ a)
    (same : join sep l = join sep m) : l = m := by
  refine joinFree size free ?_ same
  cases l with
  | nil => simp [length_eq_zero_iff.mp size.symm]
  | cons a l =>
    obtain ⟨b,m,rfl⟩ : ∃ b rest, m = b::rest := exists_cons_of_length_eq_add_one size.symm
    have counts := @joinCount _ sep _ b m
    rw [←same,joinCount] at counts
    have none : (a::l).flatten.count sep = 0 := by
      rw [count_eq_zero,mem_flatten]
      rintro ⟨part,member,inside⟩
      exact free part member inside
    have other : (b::m).flatten.count sep = 0 := by
      rw [length_cons,length_cons] at size
      omega
    rw [count_eq_zero,mem_flatten] at other
    exact fun part member inside => other ⟨part,member,inside⟩

theorem joinSwap {front back a b c d} (same : a++sep::b = c++sep::d) :
    join sep (front++a::b::back) = join sep (front++c::d::back) := by
  have tail : join sep (a::b::back) = join sep (c::d::back) := by
    cases back with
    | nil => exact same
    | cons e back =>
      have regroup : ∀ x y : List α, join sep (x::y::e::back) = (x++sep::y)++sep::join sep (e::back) := by
        intro x y
        simp [join]
      rw [regroup,regroup,same]
  induction front with
  | nil => exact tail
  | cons f front ih =>
    have later : ∀ x y : List α, join sep (f::front++x::y::back) = f++sep::join sep (front++x::y::back) := by
      intro x y
      cases front <;> rfl
    rw [later,later,ih]

end Join

end Replicare.Wire
