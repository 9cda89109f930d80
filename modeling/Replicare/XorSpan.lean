import Mathlib.Data.List.Basic
import Mathlib.Data.Nat.Bitwise

/-! Exclusive or: checksums whose step keeps it are linear in the text, and a property
that it keeps holds of every word once it holds of the single bits. -/
namespace Replicare.XorSpan

theorem foldXor {ω β} [XorOp ω] [XorOp β] {step : ω → β → ω}
    (linear : ∀ a b x y, step (a ^^^ b) (x ^^^ y) = step a x ^^^ step b y) {s t} (same : s.length = t.length) (a b : ω) :
    (List.zipWith (· ^^^ ·) s t).foldl step (a ^^^ b) = s.foldl step a ^^^ t.foldl step b := by
  induction s generalizing t a b with
  | nil =>
    obtain rfl : t = [] := by simpa using same.symm
    rfl
  | cons x s ih =>
    cases t with
    | nil => simp at same
    | cons y t =>
      rw [List.zipWith_cons_cons,List.foldl_cons,linear,ih (by simpa using same)]
      rfl

theorem iterateXor {ω} [XorOp ω] {f} (linear : ∀ a b, f (a ^^^ b) = f a ^^^ f b) (n) (a b : ω) :
    f^[n] (a ^^^ b) = f^[n] a ^^^ f^[n] b := by
  induction n generalizing a b with
  | zero => rfl
  | succ n ih => rw [Function.iterate_succ_apply,linear,ih,Function.iterate_succ_apply,Function.iterate_succ_apply]

theorem spanBits {P : Nat → Prop} (zero : P 0) (xor : ∀ a b, P a → P b → P (a ^^^ b)) {n : Nat} (bit : ∀ b < n, P (2^b)) :
    ∀ x < 2^n, P x := by
  induction n with
  | zero =>
    intro x small
    obtain rfl : x = 0 := by omega
    exact zero
  | succ n ih =>
    have low := ih fun b small => bit b (by omega)
    intro x small
    by_cases short : x < 2^n
    · exact low x short
    · have rest : x-2^n < 2^n := by
        rw [Nat.pow_succ] at small
        omega
      have split : x = 2^n ^^^ (x-2^n) := by
        have sum := Nat.two_pow_add_eq_or_of_lt rest 1
        have join : 2^n ^^^ (x-2^n) = 2^n ||| (x-2^n) := by
          apply Nat.eq_of_testBit_eq
          intro i
          rw [Nat.testBit_xor,Nat.testBit_or,Nat.testBit_two_pow]
          by_cases here : n = i
          · rw [←here,Nat.testBit_lt_two_pow rest]
            simp
          · simp [here]
        rw [join]
        rw [Nat.mul_one] at sum
        omega
      rw [split]
      exact xor _ _ (bit n (by omega)) (low _ rest)

end Replicare.XorSpan
