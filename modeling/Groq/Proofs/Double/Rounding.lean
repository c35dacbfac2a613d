/-
  Groq.Proofs.Double.Rounding — how far rounding moves a number.

  A result is shifted until it has 53 bits or the least exponent, and is rounded there; where rounding
  carries into one more bit it is shifted once more.
  Proved: a mantissa that has 53 bits but for zeros is not rounded (`round_exact`), and a number below
  `2 ^ k` is below `2 ^ (k + 1)` when it is rounded (`round_rounded`).
-/

import Groq.Proofs.Double.Packing

namespace Groq.Double

open Float.Model Float.Model.UnpackedFloat

theorem log2_shifted {m : Nat} (some : m ≠ 0) (n : Nat) : (m * 2 ^ n).log2 = m.log2 + n := by
  induction n with
  | zero => rw [Nat.pow_zero, Nat.mul_one, Nat.add_zero]
  | succ n ih =>
    have double : m * 2 ^ (n + 1) = 2 * (m * 2 ^ n) := by
      rw [Nat.pow_succ, ← Nat.mul_assoc, Nat.mul_comm]
    rw [double, Nat.log2_two_mul (Nat.mul_ne_zero some (Nat.two_pow_pos n).ne'), ih]
    rfl

section Shifts

variable {m n : Nat} {e k : Int} {a : Accuracy}

theorem shift_mantissa (em : ExtendedMantissa) (n : Nat) : (em >>> n).mantissa = em.mantissa / 2 ^ n := by
  induction n with
  | zero => exact (Nat.div_one _).symm
  | succ n ih =>
    change (em >>> n).mantissa / 2 = _
    rw [ih, Nat.div_div_eq_div_mul, Nat.pow_succ]

/-- Zeros that are shifted out leave nothing to round. -/
theorem shift_exact (m n : Nat) :
    ExtendedMantissa.ofMantissaAndAccuracy (m * 2 ^ n) .exact >>> n =
      ExtendedMantissa.ofMantissaAndAccuracy m .exact := by
  induction n generalizing m with
  | zero => exact congrArg (ExtendedMantissa.ofMantissaAndAccuracy · .exact) (Nat.mul_one m)
  | succ n ih =>
    have half : m * 2 ^ (n + 1) = m * 2 * 2 ^ n := by rw [Nat.pow_succ, Nat.mul_comm (2 ^ n), Nat.mul_assoc]
    change (ExtendedMantissa.ofMantissaAndAccuracy (m * 2 ^ (n + 1)) .exact >>> n).shiftRightOne = _
    rw [half, ih (m * 2)]
    simp [ExtendedMantissa.shiftRightOne, ExtendedMantissa.ofMantissaAndAccuracy]

theorem roundedMantissa_le (em : ExtendedMantissa) : em.roundedMantissa ≤ em.mantissa + 1 := by
  obtain ⟨m, round, sticky⟩ := em
  cases round <;> cases sticky <;>
    simp [ExtendedMantissa.roundedMantissa, ExtendedMantissa.accuracy, Accuracy.roundToNearestEven]
  omega

theorem le_roundedMantissa (em : ExtendedMantissa) : em.mantissa ≤ em.roundedMantissa := by
  obtain ⟨m, round, sticky⟩ := em
  cases round <;> cases sticky <;>
    simp [ExtendedMantissa.roundedMantissa, ExtendedMantissa.accuracy, Accuracy.roundToNearestEven]

theorem target_eq (m : Nat) (e : Int) :
    Format.binary64.targetExponent (totalExponent m e) = max (m.log2 + 1 + e - 53) (-1074) := rfl

theorem shifted_exponent :
    (shiftToTargetExponent Format.binary64 m e a).2 = max e (max (m.log2 + 1 + e - 53) (-1074)) := by
  unfold shiftToTargetExponent shiftToExponent
  rw [target_eq]
  dsimp only
  omega

theorem ofMantissa_mantissa : (ExtendedMantissa.ofMantissaAndAccuracy m a).mantissa = m := by
  unfold ExtendedMantissa.ofMantissaAndAccuracy
  split <;> rfl

theorem shifted_mantissa : (shiftToTargetExponent Format.binary64 m e a).1.mantissa =
    m / 2 ^ ((shiftToTargetExponent Format.binary64 m e a).2 - e).toNat := by
  rw [shifted_exponent]
  unfold shiftToTargetExponent shiftToExponent
  rw [target_eq]
  dsimp only
  rw [shift_mantissa, ofMantissa_mantissa]
  congr 2
  omega

/-- A mantissa that has the right number of bits, or too many by zeros, is not rounded. -/
theorem round_exact (s : Sign) (normal : m.log2 = 52) (low : -1074 ≤ e) (positive : 0 < m) :
    roundWithAccuracy Format.binary64 s (m * 2 ^ n) (e - n) .exact = .finite s m e positive := by
  have digits : (m * 2 ^ n).log2 = 52 + n := by
    rw [log2_shifted positive.ne', normal]
  have first : shiftToTargetExponent Format.binary64 (m * 2 ^ n) (e - n) .exact =
      (ExtendedMantissa.ofMantissaAndAccuracy m .exact, e) := by
    unfold shiftToTargetExponent shiftToExponent
    rw [target_eq, digits]
    have amount : (max (((52 + n : Nat) : Int) + 1 + (e - n) - 53) (-1074) - (e - n)).toNat = n := by omega
    dsimp only
    rw [amount, shift_exact]
    exact congrArg _ (by omega)
  have second : shiftToTargetExponent Format.binary64 m e .exact =
      (ExtendedMantissa.ofMantissaAndAccuracy m .exact, e) := by
    unfold shiftToTargetExponent shiftToExponent
    rw [target_eq, normal]
    have amount : (max (((52 : Nat) : Int) + 1 + e - 53) (-1074) - e).toNat = 0 := by omega
    dsimp only
    rw [amount]
    exact congrArg _ (by omega)
  have rounded : (ExtendedMantissa.ofMantissaAndAccuracy m .exact).roundedMantissa = m := rfl
  unfold roundWithAccuracy
  rw [first]
  dsimp only
  rw [rounded, second]
  exact dif_neg positive.ne'

end Shifts

/-- Packed, a number below `2 ^ k` in magnitude. -/
def Rounded (k : Int) : UnpackedFloat → Prop
  | .zero _ => True
  | .finite _ _ e _ => e + 53 ≤ k
  | .infinity _ | .notANumber => False

section Bounds

variable {m n : Nat} {e k : Int} {a : Accuracy}

theorem log2_le_of_lt {m n : Nat} (h : m < 2 ^ n) : m.log2 ≤ n - 1 := by
  by_cases zero : m = 0
  · subst zero
    simp
  · have := (Nat.log2_lt zero).mpr h
    omega

/-- Rounding may carry, but into one more bit only. -/
theorem round_rounded (s : Sign) (total : m.log2 + 1 + e ≤ k) (exponent : e ≤ k - 52) (least : -1022 ≤ k) :
    Rounded (k + 1) (roundWithAccuracy Format.binary64 s m e a) := by
  have first := shifted_exponent (m := m) (e := e) (a := a)
  have mantissa := shifted_mantissa (m := m) (e := e) (a := a)
  have carried := roundedMantissa_le (shiftToTargetExponent Format.binary64 m e a).1
  unfold roundWithAccuracy
  generalize shiftToTargetExponent Format.binary64 m e a = shifted at *
  obtain ⟨em, e₁⟩ := shifted
  dsimp only at *
  have bits : em.roundedMantissa.log2 + 1 + e₁ ≤ k + 1 := by
    have bound : em.roundedMantissa < 2 ^ ((k - e₁).toNat + 1) := by
      have whole : m < 2 ^ (k - e).toNat :=
        lt_of_lt_of_le Nat.lt_log2_self (Nat.pow_le_pow_right (by decide) (by omega))
      have cut : m / 2 ^ (e₁ - e).toNat < 2 ^ (k - e₁).toNat := by
        rw [Nat.div_lt_iff_lt_mul (Nat.two_pow_pos _), ← Nat.pow_add]
        rwa [show (k - e₁).toNat + (e₁ - e).toNat = (k - e).toNat by omega]
      rw [Nat.pow_succ]
      omega
    have := log2_le_of_lt bound
    omega
  have second := shifted_exponent (m := em.roundedMantissa) (e := e₁) (a := .exact)
  generalize shiftToTargetExponent Format.binary64 em.roundedMantissa e₁ .exact = shifted at *
  obtain ⟨em', e₂⟩ := shifted
  dsimp only at *
  split
  · trivial
  · unfold Rounded
    omega

end Bounds

/-- A whole number that has a double is made one by the processor. -/
theorem ofNat_small {n : Nat} (h : n < 2 ^ 53) :
    Float.ofNat n = n.toUInt64.toFloat * Float.ofBits 0x3FF0000000000000 := by
  unfold Float.ofNat OfScientific.ofScientific instOfScientificFloat
  dsimp only
  unfold Float.ofScientific
  rw [dif_pos ⟨h, by decide⟩]
  rfl

end Groq.Double
