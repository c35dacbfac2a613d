/-
  Groq.Proofs.Double.Sign — numbers that rounding does not make zero.

  A mantissa of 53 bits or more is cut to 53. Where rounding carries into one bit more, that bit leaves only
  zeros behind, of which the last is shifted out: so the mantissa is full again, and the exponent has moved by
  one at most (`round_normal`). Far from the ends of the range (`Normal`) a number keeps its sign through
  arithmetic.
  Proved: a whole number divided by a thousand is above, at or below zero as the whole number is
  (`ofInt_div_pos`, `ofInt_div_neg`), also where it has too many digits for a double.
-/

import Groq.Proofs.Double.Order
import Groq.Proofs.Double.Whole

namespace Groq.Double

open Float.Model Float.Model.UnpackedFloat

/-- A number of this sign with a full mantissa, its exponent between two bounds. -/
def Normal (s : Sign) (low high : Int) : UnpackedFloat → Prop
  | .finite t m e _ => t = s ∧ m.log2 = 52 ∧ low ≤ e ∧ e ≤ high
  | .zero _ | .infinity _ | .notANumber => False

section Operations

variable {s t : Sign} {m : Nat} {e low high low' high' : Int} {a : Accuracy} {u v : UnpackedFloat}

/-- Rounding fills the mantissa and moves the exponent by one at most. -/
theorem round_normal (s : Sign) (bits : 52 ≤ m.log2) (least : low ≤ m.log2 + e - 52) (most : m.log2 + e - 51 ≤ high)
    (range : -1074 ≤ low) : Normal s low high (roundWithAccuracy Format.binary64 s m e a) := by
  have first := shifted_exponent (m := m) (e := e) (a := a)
  have mantissa := shifted_mantissa (m := m) (e := e) (a := a)
  have lower := le_roundedMantissa (shiftToTargetExponent Format.binary64 m e a).1
  have upper := roundedMantissa_le (shiftToTargetExponent Format.binary64 m e a).1
  unfold roundWithAccuracy
  generalize shiftToTargetExponent Format.binary64 m e a = shifted at *
  obtain ⟨em, e₁⟩ := shifted
  dsimp only at *
  have some : m ≠ 0 := by
    rintro rfl
    exact absurd bits (by decide)
  have cut : 2 ^ 52 ≤ em.mantissa ∧ em.mantissa < 2 ^ 53 := by
    obtain ⟨from_, below⟩ := (Nat.log2_eq_iff some).mp rfl
    have amount : (e₁ - e).toNat = m.log2 - 52 := by omega
    rw [mantissa, amount, Nat.le_div_iff_mul_le (Nat.two_pow_pos _), Nat.div_lt_iff_lt_mul (Nat.two_pow_pos _),
      ← Nat.pow_add, ← Nat.pow_add]
    rw [show 52 + (m.log2 - 52) = m.log2 by omega, show 53 + (m.log2 - 52) = m.log2 + 1 by omega]
    exact ⟨from_, below⟩
  have second := shifted_exponent (m := em.roundedMantissa) (e := e₁) (a := .exact)
  have mantissa' := shifted_mantissa (m := em.roundedMantissa) (e := e₁) (a := .exact)
  generalize shiftToTargetExponent Format.binary64 em.roundedMantissa e₁ .exact = shifted at *
  obtain ⟨em', e₂⟩ := shifted
  dsimp only at *
  have final : em'.mantissa.log2 = 52 ∧ low ≤ e₂ ∧ e₂ ≤ high := by
    by_cases carried : em.roundedMantissa = 2 ^ 53
    · have digits : (2 ^ 53 : Nat).log2 = 53 := Nat.log2_two_pow
      have amount : (e₂ - e₁).toNat = 1 := by
        rw [carried, digits] at second
        omega
      rw [mantissa', amount, carried]
      exact ⟨by decide, by omega, by omega⟩
    · have digits : em.roundedMantissa.log2 = 52 := (Nat.log2_eq_iff (by omega)).mpr (by omega)
      have amount : (e₂ - e₁).toNat = 0 := by
        rw [digits] at second
        omega
      rw [mantissa', amount, Nat.pow_zero, Nat.div_one]
      exact ⟨digits, by omega, by omega⟩
  have nonzero : em'.mantissa ≠ 0 := by
    intro zero
    rw [zero] at final
    exact absurd final.1 (by decide)
  rw [dif_neg nonzero]
  exact ⟨rfl, final⟩

/-- Bits hold a full mantissa as it is. -/
theorem normal_pack (h : Normal s low high u) (least : -1074 ≤ low) (most : high ≤ 971) :
    Normal s low high (UnpackedFloat.unpack Format.binary64 (UnpackedFloat.pack Format.binary64 u)) := by
  cases u with
  | infinity | notANumber | zero => cases h
  | finite t m e positive =>
    have exponent := h.2.2
    rw [unpack_pack_normal t h.2.1 (by omega) (by omega)]
    exact h

theorem normal_neg (h : Normal s low high u) : Normal (-s) low high u.neg := by
  cases u with
  | infinity | notANumber | zero => cases h
  | finite t m e positive => exact ⟨congrArg Neg.neg h.1, h.2⟩

/-- The mantissas are divided after 53 bits have been put behind the first. -/
theorem normal_div (hu : Normal s low high u) (hv : Normal t low' high' v) (range : -1021 ≤ low - high') :
    Normal (s / t) (low - high' - 53) (high - low' - 51) (UnpackedFloat.div Format.binary64 u v) := by
  cases u with
  | infinity | notANumber | zero => cases hu
  | finite s m e mPositive =>
    cases v with
    | infinity | notANumber | zero => cases hv
    | finite t n d positive =>
      obtain ⟨rfl, mBits, mLow, mHigh⟩ := hu
      obtain ⟨rfl, nBits, nLow, nHigh⟩ := hv
      obtain ⟨mLeast, mBelow⟩ := (Nat.log2_eq_iff mPositive.ne').mp mBits
      obtain ⟨nLeast, nBelow⟩ := (Nat.log2_eq_iff positive.ne').mp nBits
      let target := min (e - d) (max ((m.log2 + 1 + e) - (n.log2 + 1 + d) - 53) (-1074))
      have shift : target = e - d - 53 := by
        have : (m.log2 : Int) = n.log2 := by rw [mBits, nBits]
        omega
      have quotient : 2 ^ 52 ≤ (m <<< (e - d - target).toNat) / n ∧ (m <<< (e - d - target).toNat) / n < 2 ^ 54 := by
        have amount : (e - d - target).toNat = 53 := by omega
        rw [amount, Nat.shiftLeft_eq, Nat.le_div_iff_mul_le positive, Nat.div_lt_iff_lt_mul positive]
        omega
      have bits : 52 ≤ ((m <<< (e - d - target).toNat) / n).log2 ∧ ((m <<< (e - d - target).toNat) / n).log2 ≤ 53 :=
        ⟨(Nat.le_log2 (by omega)).mpr quotient.1, log2_le_of_lt quotient.2⟩
      have least : low - high' - 53 ≤ ((m <<< (e - d - target).toNat) / n).log2 + target - 52 := by omega
      have most : ((m <<< (e - d - target).toNat) / n).log2 + target - 51 ≤ high - low' - 51 := by omega
      exact round_normal _ bits.1 least most (by omega)

end Operations

/-! ## Doubles -/

section Doubles

variable {x y : Float} {low high : Int}

theorem normal_ofNat {n : Nat} (positive : 0 < n) (bound : n < 2 ^ 60) :
    Normal .positive (-52) 9 (Float.ofNat n).toModel.unpack := by
  by_cases small : n < 2 ^ 53
  · obtain ⟨some, unpacked⟩ := unpack_ofNat positive small
    have width : n.log2 ≤ 52 := log2_le_of_lt small
    have digits : (n * 2 ^ (52 - n.log2)).log2 = 52 := by
      rw [log2_shifted positive.ne']
      omega
    rw [unpacked]
    exact ⟨rfl, digits, by omega, by omega⟩
  · have width : n.log2 ≤ 59 := log2_le_of_lt bound
    unfold Float.ofNat OfScientific.ofScientific instOfScientificFloat
    dsimp only
    unfold Float.ofScientific
    rw [dif_neg fun fits => small fits.1]
    refine normal_pack (u := UnpackedFloat.ofScientific Format.binary64 n 0) ?_ (by decide) (by decide)
    have least : ¬ (0 : Int) < -(2 ^ 11 + n.log2) := by omega
    have mantissa : Format.binary64.mantissaBits = 53 := rfl
    have shifted : (n <<< 53 * 10 ^ Int.toNat 0).log2 = n.log2 + 53 := by
      rw [Int.toNat_zero, Nat.pow_zero, Nat.mul_one, Nat.shiftLeft_eq, log2_shifted positive.ne']
    unfold UnpackedFloat.ofScientific
    rw [dif_neg positive.ne', if_neg (by decide), if_neg least, if_pos le_rfl]
    unfold UnpackedFloat.mul
    dsimp only
    rw [mantissa]
    generalize n <<< 53 * 10 ^ Int.toNat 0 = m at *
    exact round_normal _ (by omega) (by omega) (by omega) (by decide)

/-- The sign of a whole number that is not zero. -/
def signOfInt (n : Int) : Sign := signOf (decide (n < 0))

theorem normal_ofInt {n : Int} (nonzero : n ≠ 0) (bound : n.natAbs < 2 ^ 60) :
    Normal (signOfInt n) (-52) 9 (Float.ofInt n).toModel.unpack := by
  cases n with
  | ofNat n => exact normal_ofNat (Nat.pos_of_ne_zero fun zero => nonzero (congrArg Int.ofNat zero)) bound
  | negSucc n =>
    have magnitude := normal_ofNat n.succ_pos bound
    rw [signOfInt, decide_eq_true (Int.negSucc_lt_zero n)]
    exact normal_pack (normal_neg magnitude) (by decide) (by decide)

theorem Normal.thousandth {s : Sign} (h : Normal s low high x.toModel.unpack) (least : -900 ≤ low) (most : high ≤ 900) :
    Normal s (low - 10) (high - 8) (x / 1000).toModel.unpack := by
  have thousand : Normal .positive (-43) (-43) (1000 : Float).toModel.unpack := by
    rw [unpack_of_parts (p := ⟨false, 1000 * 2 ^ 43, -43⟩) (by decide +kernel)]
    exact ⟨rfl, by decide +kernel, by decide, by decide⟩
  have quotient := normal_pack (normal_div h thousand (by omega)) (by omega) (by omega)
  have sign : s / .positive = s := by cases s <;> rfl
  rw [sign] at quotient
  rw [show low - 10 = low - -43 - 53 by omega, show high - 8 = high - -43 - 51 by omega]
  exact quotient

theorem Normal.finite {s : Sign} {u : UnpackedFloat} (h : Normal s low high u) :
    ∃ m e positive, u = .finite s m e positive := by
  cases u with
  | infinity | notANumber | zero => cases h
  | finite t m e positive =>
    obtain ⟨rfl, -⟩ := h
    exact ⟨m, e, positive, rfl⟩

theorem Normal.pos (h : Normal .positive low high x.toModel.unpack) : 0 < x := by
  obtain ⟨m, e, positive, unpacked⟩ := h.finite
  rw [lt_iff, unpack_zero, unpacked]
  rfl

theorem Normal.lt_zero (h : Normal .negative low high x.toModel.unpack) : x < 0 := by
  obtain ⟨m, e, positive, unpacked⟩ := h.finite
  rw [lt_iff, unpack_zero, unpacked]
  rfl

theorem ofInt_div_pos {n : Int} (positive : 0 < n) (bound : n.natAbs < 2 ^ 60) : 0 < Float.ofInt n / 1000 := by
  have normal := (normal_ofInt positive.ne' bound).thousandth (by decide) (by decide)
  rw [signOfInt, decide_eq_false (Int.not_lt_of_ge positive.le)] at normal
  exact normal.pos

theorem ofInt_div_neg {n : Int} (negative : n < 0) (bound : n.natAbs < 2 ^ 60) : Float.ofInt n / 1000 < 0 := by
  have normal := (normal_ofInt negative.ne bound).thousandth (by decide) (by decide)
  rw [signOfInt, decide_eq_true negative] at normal
  exact normal.lt_zero

end Doubles

end Groq.Double
