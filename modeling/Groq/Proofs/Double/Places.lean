/-
  Groq.Proofs.Double.Places — rounding to decimal places keeps numbers finite.

  A number is made a decimal of at most 96 bits and 28 places, is rounded as such and is made a double
  again. `Scaled.Fits` is what every step keeps; it bounds the whole and the fraction that the double is
  put together from.
  Proved: what `roundTo` gives is finite (`roundTo_finite`), and so is a number rounded to the nearest
  whole one (`roundHalfAway_finite`).
-/

import Groq.Proofs.Double.Bounds

namespace Groq.Double

open Float.Model Float.Model.UnpackedFloat

/-! ## Decimals -/

section Decimals

variable {count digits scale : Nat} {exponent : Int}

theorem absorbHalves_lt (h : digits < capacity) : (absorbHalves count digits exponent).1 < capacity := by
  induction count generalizing digits exponent with
  | zero => exact h
  | succ count ih =>
    unfold absorbHalves
    split_ifs with even fits
    · exact ih (lt_of_le_of_lt (Nat.div_le_self _ _) h)
    · exact ih fits
    · exact ih (lt_of_le_of_lt (Nat.div_le_self _ _) h)

theorem absorbDoublings_lt (h : digits < capacity) : (absorbDoublings count digits exponent).1 < capacity := by
  induction count generalizing digits exponent with
  | zero => exact h
  | succ count ih =>
    unfold absorbDoublings
    split_ifs with fits
    · have even : capacity = capacity / 2 * 2 := by decide
      exact ih (by omega)
    · exact ih (lt_of_le_of_lt (Nat.div_le_self _ _) h)

theorem dropDigit_le (digits : Nat) : dropDigit digits ≤ digits := by
  unfold dropDigit
  split_ifs <;> omega

theorem shorten_le (count digits scale : Nat) :
    (shorten count digits scale).1 ≤ digits ∧ (shorten count digits scale).2 ≤ scale - count := by
  induction count generalizing digits scale with
  | zero => exact ⟨le_rfl, le_rfl⟩
  | succ count ih =>
    unfold shorten
    split_ifs
    · exact ⟨Nat.zero_le _, Nat.zero_le _⟩
    · obtain ⟨fewer, shorter⟩ := @ih (dropDigit digits) (scale - 1)
      exact ⟨fewer.trans (dropDigit_le digits), by omega⟩

theorem trim_le (scale digits : Nat) : (trim scale digits).1 ≤ digits ∧ (trim scale digits).2 ≤ scale := by
  induction scale generalizing digits with
  | zero => exact ⟨le_rfl, le_rfl⟩
  | succ scale ih =>
    unfold trim
    split_ifs
    · obtain ⟨fewer, shorter⟩ := @ih (dropDigit digits)
      exact ⟨fewer.trans (dropDigit_le digits), shorter.trans (Nat.le_succ scale)⟩
    · exact ⟨le_rfl, le_rfl⟩

theorem stripZeros_le (scale digits : Nat) :
    (stripZeros scale digits).1 ≤ digits ∧ (stripZeros scale digits).2 ≤ scale := by
  induction scale generalizing digits with
  | zero => exact ⟨le_rfl, le_rfl⟩
  | succ scale ih =>
    unfold stripZeros
    split_ifs
    · obtain ⟨fewer, shorter⟩ := @ih (digits / 10)
      exact ⟨fewer.trans (Nat.div_le_self _ _), shorter.trans (Nat.le_succ scale)⟩
    · exact ⟨le_rfl, le_rfl⟩

/-- What 96 bits and 28 places hold; zero may have any number of places. -/
def Scaled.Fits (d : Scaled) : Prop := d.digits = 0 ∨ d.digits ≤ capacity ∧ d.scale ≤ maxScale

theorem scaled_fits {p : Parts} {d : Scaled} (h : p.scaled? = some d) (mantissa : p.mantissa < capacity) : d.Fits := by
  unfold Parts.scaled? at h
  split at h
  · cases h
    exact .inl rfl
  · generalize absorbed : (if p.exponent < 0 then absorbHalves (-p.exponent).toNat p.mantissa p.exponent
      else absorbDoublings p.exponent.toNat p.mantissa p.exponent) = pair at h
    have digits : pair.1 < capacity := by
      rw [← absorbed]
      split_ifs
      · exact absorbHalves_lt mantissa
      · exact absorbDoublings_lt mantissa
    dsimp only at h
    split_ifs at h with large fits
    · cases h
      exact .inr ⟨fits.le, Nat.zero_le _⟩
    · cases h
      have short := shorten_le ((-pair.2).toNat - maxScale) pair.1 (-pair.2).toNat
      generalize shorten ((-pair.2).toNat - maxScale) pair.1 (-pair.2).toNat = first at *
      have trimmed := trim_le first.2 first.1
      generalize trim first.2 first.1 = second at *
      have stripped := stripZeros_le second.2 second.1
      exact .inr ⟨by dsimp only; omega, by dsimp only; omega⟩

theorem Scaled.Fits.round {d : Scaled} (h : d.Fits) (places : Nat) : (d.round places).Fits := by
  unfold Scaled.round
  by_cases zero : d.digits = 0
  · rw [if_pos zero]
    exact .inl zero
  rw [if_neg zero]
  by_cases short : d.scale ≤ places
  · rw [if_pos short]
    exact h
  rw [if_neg short]
  obtain ⟨digits, scale⟩ := h.resolve_left zero
  have cut := Nat.div_le_self d.digits (Nat.pow 10 (d.scale - places))
  refine .inr ⟨?_, by dsimp only; omega⟩
  dsimp only
  split_ifs with half
  · have unit : 1 < Nat.pow 10 (d.scale - places) := Nat.one_lt_pow (by omega) (by decide)
    have fewer := Nat.div_lt_self (Nat.pos_of_ne_zero zero) unit
    omega
  · omega

end Decimals

/-! ## Back to a double -/

section Back

variable {x : Float} {p : Parts}

theorem isFinite_ofBits {b : UInt64} (field : b.toNat / 2 ^ 52 % 2 ^ 11 < 2047) : (Float.ofBits b).isFinite = true := by
  have exponent : (@unpackExponent Format.binary64 b.toBitVec).toNat < 2047 := by
    rw [exponent_toNat]
    exact field
  have plain : Under 1024 (UnpackedFloat.unpack Format.binary64 b.toBitVec) :=
    under_unpack exponent (by omega) (by decide)
  have rounded : Rounded 1024 (UnpackedFloat.unpack Format.binary64 b.toBitVec) := by
    generalize UnpackedFloat.unpack Format.binary64 b.toBitVec = u at plain
    cases u with
    | infinity | notANumber => cases plain
    | zero => trivial
    | finite => exact plain.2
  exact Below.isFinite (k := 1024) (under_pack rounded (by decide) (by decide))

/-- A whole number of 53 bits makes a finite double. -/
theorem toFloat_finite (negative : Bool) {n : Nat} (h : n < 2 ^ 53) :
    (Parts.mk negative n 0).toFloat.isFinite = true := by
  unfold Parts.toFloat
  dsimp only
  have unit : hidden = 2 ^ 52 := rfl
  have sign : (if negative = true then Nat.pow 2 63 else 0) = 0 ∨
      (if negative = true then Nat.pow 2 63 else 0) = 2 ^ 63 := by
    cases negative
    · exact .inl rfl
    · exact .inr rfl
  rw [unit]
  generalize (if negative = true then Nat.pow 2 63 else 0) = top at *
  have up : min (52 - n.log2) (0 + 1074 : Int).toNat = 52 - n.log2 := by omega
  rw [up]
  have mantissa : n * Nat.pow 2 (52 - n.log2) < 2 ^ 53 := by
    have digits := log2_le_of_lt h
    calc n * 2 ^ (52 - n.log2) < 2 ^ (n.log2 + 1) * 2 ^ (52 - n.log2) :=
          Nat.mul_lt_mul_of_pos_right Nat.lt_log2_self (Nat.two_pow_pos _)
      _ = 2 ^ (n.log2 + 1 + (52 - n.log2)) := (Nat.pow_add _ _ _).symm
      _ ≤ 2 ^ 53 := Nat.pow_le_pow_right (by decide) (by omega)
  generalize n * Nat.pow 2 (52 - n.log2) = m at *
  apply isFinite_ofBits
  rw [UInt64.toNat_ofNat']
  split_ifs <;> omega

theorem roundHalfAway_finite (h : x.isFinite = true) : (roundHalfAway x).isFinite = true := by
  obtain ⟨p, found⟩ := parts_of_isFinite h
  unfold roundHalfAway
  rw [found]
  dsimp only
  split_ifs with large
  · exact h
  · have bound : p.mantissa < 2 ^ 53 := parts_lt found
    have whole : p.nearestWhole.natAbs ≤ p.mantissa := by
      have positive : 0 < Nat.pow 2 (-p.exponent).toNat := Nat.two_pow_pos _
      unfold Parts.nearestWhole
      rw [if_neg large]
      generalize Nat.pow 2 (-p.exponent).toNat = unit at *
      have half : (2 * p.mantissa + unit) / (2 * unit) ≤ p.mantissa := by
        rw [← Nat.lt_succ_iff, Nat.div_lt_iff_lt_mul (by omega), Nat.succ_mul p.mantissa, Nat.mul_left_comm]
        have := Nat.le_mul_of_pos_right p.mantissa positive
        omega
      dsimp only
      generalize (2 * p.mantissa + unit) / (2 * unit) = n at *
      unfold signed
      split_ifs <;> omega
    exact toFloat_finite _ (lt_of_le_of_lt whole bound)

theorem timesPower_tens : ∀ places ≤ maxScale, 0 < places →
    Below 96 (timesPower 1 10 places) ∧ AtLeast 3 (timesPower 1 10 places) ∧
      AtLeast 0 (Float.ofNat (Nat.pow 10 places)) := by
  decide +kernel

theorem finite_signed (negative : Bool) (h : x.isFinite = true) : (if negative then -x else x).isFinite = true := by
  cases negative
  · exact h
  · exact ((below_of_isFinite h).neg (by decide) (by decide)).isFinite

/-- The double of a decimal is finite. -/
theorem Scaled.Fits.toFloat_finite {d : Scaled} (h : d.Fits) : d.toFloat.isFinite = true := by
  have zero : Float.isFinite 0 = true := by decide +kernel
  unfold Scaled.toFloat
  dsimp only
  by_cases none : d.digits = 0
  · rw [if_pos none]
    split_ifs with places negative
    · exact zero
    · exact ((below_of_isFinite zero).neg (by decide) (by decide)).isFinite
    · exact zero
  rw [if_neg none]
  obtain ⟨digits, scale⟩ := h.resolve_left none
  have small : d.digits < 2 ^ 97 := lt_of_le_of_lt digits (by decide)
  by_cases whole : d.scale = 0
  · rw [if_pos whole]
    exact finite_signed _ (below_ofNat small (by decide) (by decide)).isFinite
  rw [if_neg whole]
  obtain ⟨powerBelow, powerLeast, unitLeast⟩ := timesPower_tens d.scale scale (Nat.pos_of_ne_zero whole)
  have wholeBelow : Below 100 (Float.ofNat (d.digits / Nat.pow 10 d.scale)) :=
    below_ofNat (lt_of_le_of_lt (Nat.div_le_self _ _) small) (by decide) (by decide)
  have partBelow : Below 100 (Float.ofNat (d.digits % Nat.pow 10 d.scale)) :=
    below_ofNat (lt_of_le_of_lt (Nat.mod_le _ _) small) (by decide) (by decide)
  have fractionBelow := partBelow.div unitLeast (by decide) (by decide)
  have sumBelow := (wholeBelow.mono (by decide)).add fractionBelow (by decide) (by decide)
  have productBelow := sumBelow.mul powerBelow (by decide) (by decide)
  have rounded := below_of_isFinite (roundHalfAway_finite productBelow.isFinite)
  split_ifs with exact negative negative
  · exact (wholeBelow.neg (by decide) (by decide)).isFinite
  · exact wholeBelow.isFinite
  · exact ((rounded.div powerLeast (by decide) (by decide)).neg (by decide) (by decide)).isFinite
  · exact (rounded.div powerLeast (by decide) (by decide)).isFinite

end Back

/-- A finite number is rounded to a finite one. -/
theorem roundTo_finite {x y : Float} {places : Nat} (h : roundTo x places = some y) : y.isFinite = true := by
  obtain ⟨p, found, rfl⟩ := Option.map_eq_some_iff.mp h
  split
  · rename_i d scaled
    have mantissa : p.mantissa < capacity := lt_of_lt_of_le (parts_lt found) (by decide)
    exact ((scaled_fits scaled mantissa).round places).toFloat_finite
  · exact isFinite_of_parts found

end Groq.Double
