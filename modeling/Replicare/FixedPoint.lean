import Mathlib.Algebra.Order.Field.Power
import Mathlib.Tactic.Linarith

/-! Numbers with a precision and a scale: so many decimal digits, so many of them after the
point. -/
namespace Replicare.FixedPoint

def Fits (precision : Nat) (scale : Int) (x : ℚ) : Prop := ∃ k : Int, |k| < 10^precision ∧ x = k*10^(-scale)

variable {p q : Nat} {a b : Int} {x : ℚ}

theorem fitsWider (scale : a ≤ b) (whole : p-a ≤ q-b) (fits : Fits p a x) : Fits q b x := by
  obtain ⟨k,small,rfl⟩ := fits
  obtain ⟨d,rfl⟩ := Int.le.dest scale
  refine ⟨k*10^d,?_,?_⟩
  · have reach : p+d ≤ q := by omega
    calc |k*10^d| = |k| * 10^d := by rw [abs_mul,abs_pow]; rfl
      _ < 10^p*10^d := by gcongr
      _ = 10^(p+d) := (pow_add _ _ _).symm
      _ ≤ 10^q := pow_le_pow_right₀ (by norm_num) reach
  · push_cast
    rw [mul_assoc,←zpow_natCast,←zpow_add₀ (by norm_num)]
    congr 2
    omega

theorem fitsIff (positive : 0 < p) (scale : a ≤ b) : (∀ x, Fits p a x → Fits q b x) ↔ p-a ≤ q-b := by
  refine ⟨fun all => ?_,fun whole x => fitsWider scale whole⟩
  obtain ⟨d,rfl⟩ := Int.le.dest scale
  obtain ⟨n,rfl⟩ := Nat.exists_eq_succ_of_ne_zero positive.ne'
  have large : (10 : Int)^n ≤ 10^(n+1)-1 := by
    have one : (1 : Int) ≤ 10^n := one_le_pow₀ (by norm_num)
    rw [pow_succ]
    omega
  have nines : |(10 : Int)^(n+1)-1| < 10^(n+1) := by
    have one : (1 : Int) ≤ 10^(n+1) := one_le_pow₀ (by norm_num)
    rw [abs_of_nonneg (by omega)]
    omega
  obtain ⟨k,small,same⟩ := all _ ⟨10^(n+1)-1,nines,rfl⟩
  have value : k = (10^(n+1)-1)*10^d := by
    have scaled := congrArg (· * (10 : ℚ)^(a+d)) same
    simp only [mul_assoc,←zpow_add₀ (show (10 : ℚ) ≠ 0 by norm_num)] at scaled
    rw [show -a+(a+d) = d by omega,show -(a+d)+(a+d) = 0 by omega,zpow_zero,mul_one,zpow_natCast] at scaled
    exact_mod_cast scaled.symm
  have below : (10 : Int)^(n+d) < 10^q := by
    calc (10 : Int)^(n+d) = 10^n*10^d := pow_add _ _ _
      _ ≤ (10^(n+1)-1)*10^d := by gcongr
      _ = k := value.symm
      _ ≤ |k| := le_abs_self k
      _ < 10^q := small
  have exponents : n+d < q := (pow_lt_pow_iff_right₀ (by norm_num)).mp below
  omega

end Replicare.FixedPoint
