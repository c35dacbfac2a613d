/-
  Groq.Proofs.Double.Whole — whole numbers up to 2^53 as doubles.

  A whole number has one double up to the sign of zero: the mantissa is shifted until it has 53 bits,
  which leaves one exponent (`parts_of_integer`). Making a double of the number shifts it the same way
  and rounds nothing off (`ofNat_parts`).
  Proved: the double made of the whole number of a double is that double again (`ofInt_integer`), but
  for the sign of zero.
-/

import Groq.Proofs.Double.Rounding

namespace Groq.Double

open Float.Model Float.Model.UnpackedFloat

/-- The parts of a whole number of at most 54 bits: the mantissa has 53. -/
def wholeParts (negative : Bool) (n : Nat) : Parts := ⟨negative, n * 2 ^ 52 / 2 ^ n.log2, n.log2 - 52⟩

/-- Shifted to a mantissa of 53 bits, the number leaves one exponent. -/
theorem wholeParts_eq {negative : Bool} {n m i j : Nat} {e : Int} (normal : m.log2 = 52)
    (shifted : n * 2 ^ j = m * 2 ^ i) (exponent : e = i - j) : wholeParts negative n = ⟨negative, m, e⟩ := by
  have positive : m ≠ 0 := by
    rintro rfl
    cases normal
  have some : n ≠ 0 := by
    rintro rfl
    exact Nat.mul_ne_zero positive (Nat.two_pow_pos i).ne' (shifted.symm.trans (Nat.zero_mul _))
  have digits : n.log2 + j = 52 + i := by
    rw [← log2_shifted some, shifted, log2_shifted positive, normal]
  have mantissa : n * 2 ^ 52 = m * 2 ^ n.log2 := by
    refine Nat.eq_of_mul_eq_mul_right (Nat.two_pow_pos j) ?_
    calc n * 2 ^ 52 * 2 ^ j = n * 2 ^ j * 2 ^ 52 := Nat.mul_right_comm _ _ _
      _ = m * (2 ^ 52 * 2 ^ i) := by rw [shifted, Nat.mul_assoc, Nat.mul_comm (2 ^ i)]
      _ = m * 2 ^ n.log2 * 2 ^ j := by rw [← Nat.pow_add, ← digits, Nat.pow_add, Nat.mul_assoc]
  unfold wholeParts
  rw [mantissa, Nat.mul_div_cancel _ (Nat.two_pow_pos _), exponent]
  congr 1
  omega

theorem parts_normal {x : Float} {p : Parts} (h : parts? x = some p) :
    p.mantissa.log2 = 52 ∨ p.mantissa < 2 ^ 52 ∧ p.exponent = -1074 := by
  have unit : hidden = 2 ^ 52 := rfl
  have fraction : x.toBits.toNat % 2 ^ 52 < 2 ^ 52 := Nat.mod_lt _ (Nat.two_pow_pos 52)
  unfold parts? at h
  rw [unit] at h
  dsimp only at h
  split_ifs at h
  · cases h
    exact .inr ⟨fraction, rfl⟩
  · cases h
    dsimp only
    exact .inl ((Nat.log2_eq_iff (by omega)).mpr (by omega))

theorem signed_eq {negative : Bool} {n : Nat} {k : Int} (h : signed negative n = k) (some : k ≠ 0) :
    negative = decide (k < 0) ∧ n = k.natAbs := by
  subst h
  cases negative
  · simp [signed]
  · have positive : n ≠ 0 := by
      rintro rfl
      exact some rfl
    simp [signed]
    omega

theorem signed_eq_zero (negative : Bool) (n : Nat) : signed negative n = 0 ↔ n = 0 := by
  unfold signed
  split_ifs <;> omega

section Integers

variable {x : Float} {n : Int} {p : Parts}

theorem integer_bound (h : integer? x = some n) : n.natAbs ≤ maxExact := by
  obtain ⟨n', -, bounded⟩ := Option.bind_eq_some_iff.mp h
  split at bounded
  · cases bounded
    assumption
  · cases bounded

/-- A whole number is the mantissa, shifted by the exponent. -/
theorem integer_parts (h : integer? x = some n) : ∃ p, parts? x = some p ∧
    ∃ k, signed p.negative k = n ∧ k * 2 ^ (-p.exponent).toNat = p.mantissa * 2 ^ p.exponent.toNat := by
  obtain ⟨n', whole, bounded⟩ := Option.bind_eq_some_iff.mp h
  obtain rfl : n' = n := by
    split at bounded
    · exact Option.some.inj bounded
    · cases bounded
  obtain ⟨p, found, value⟩ := Option.bind_eq_some_iff.mp whole
  refine ⟨p, found, ?_⟩
  split at value
  · rename_i large
    refine ⟨_, Option.some.inj value, ?_⟩
    rw [Int.toNat_of_nonpos (Int.neg_nonpos_of_nonneg large)]
    exact Nat.mul_one _
  · rename_i small
    dsimp only at value
    split at value
    · rename_i exact
      refine ⟨_, Option.some.inj value, ?_⟩
      rw [Int.toNat_of_nonpos (Int.le_of_not_le small), Nat.pow_zero, Nat.mul_one]
      exact Nat.div_mul_cancel (Nat.dvd_of_mod_eq_zero exact)
    · cases value

/-- A whole number that is not zero determines the parts. -/
theorem parts_of_integer (h : integer? x = some n) (nonzero : n ≠ 0) :
    parts? x = some (wholeParts (decide (n < 0)) n.natAbs) := by
  obtain ⟨⟨negative, m, e⟩, found, k, value, shifted⟩ := integer_parts h
  obtain ⟨rfl, rfl⟩ := signed_eq value nonzero
  have positive : 0 < n.natAbs := Int.natAbs_pos.mpr nonzero
  have normal : m.log2 = 52 := by
    refine (parts_normal found).resolve_right fun ⟨fewer, bottom⟩ => ?_
    dsimp only at fewer bottom shifted
    subst bottom
    have unit : 2 ^ 52 ≤ 2 ^ (-(-1074 : Int)).toNat := Nat.pow_le_pow_right (by decide) (by decide)
    have factor := Nat.le_mul_of_pos_left (2 ^ (-(-1074 : Int)).toNat) positive
    have same : m * 2 ^ (-1074 : Int).toNat = m := Nat.mul_one m
    omega
  have exponent : e = e.toNat - (-e).toNat := by omega
  rw [found, wholeParts_eq normal shifted exponent]

theorem mantissa_eq_zero (found : parts? x = some p) (h : integer? x = some n) : p.mantissa = 0 ↔ n = 0 := by
  obtain ⟨p', found', k, rfl, shifted⟩ := integer_parts h
  obtain rfl : p' = p := Option.some.inj (found'.symm.trans found)
  rw [signed_eq_zero]
  constructor
  · intro none
    rw [none, Nat.zero_mul] at shifted
    exact (Nat.mul_eq_zero.mp shifted).resolve_right (Nat.two_pow_pos _).ne'
  · intro none
    rw [none, Nat.zero_mul] at shifted
    exact (Nat.mul_eq_zero.mp shifted.symm).resolve_right (Nat.two_pow_pos _).ne'

end Integers

theorem unpack_one : (Float.ofBits 0x3FF0000000000000).toModel.unpack =
    .finite .positive (2 ^ 52) (-52) (by decide) := rfl

/-- Making a double of a number of 53 bits shifts it and rounds nothing off. -/
theorem unpack_ofUInt64 {n : UInt64} (positive : 0 < n.toNat) (h : n.toNat.log2 ≤ 52) :
    ∃ some, n.toFloat.toModel.unpack =
      .finite .positive (n.toNat * 2 ^ (52 - n.toNat.log2)) (-(52 - n.toNat.log2 : Nat)) some := by
  let shift := 52 - n.toNat.log2
  have digits : (n.toNat * 2 ^ shift).log2 = 52 := by
    rw [log2_shifted positive.ne']
    omega
  have some : 0 < n.toNat * 2 ^ shift := Nat.mul_pos positive (Nat.two_pow_pos _)
  have amount : (0 - Format.binary64.targetExponent (totalExponent n.toNat 0)).toNat = shift := by
    rw [target_eq]
    omega
  have rounded : UnpackedFloat.normalize Format.binary64 (n.toNat : Int) 0 .positive =
      .finite .positive (n.toNat * 2 ^ shift) (-(shift : Nat)) some := by
    unfold UnpackedFloat.normalize
    have above : compare (n.toNat : Int) 0 = .gt := Int.compare_eq_gt.mpr (by omega)
    rw [above]
    dsimp only
    unfold UnpackedFloat.round decreaseExponent
    dsimp only
    rw [Int.toNat_natCast, amount, Nat.shiftLeft_eq]
    have exact := round_exact (n := 0) .positive digits (show -1074 ≤ -(shift : Int) by omega) some
    simpa only [Nat.pow_zero, Nat.mul_one, Int.natCast_zero, Int.sub_zero, Int.zero_sub] using exact
  refine ⟨some, ?_⟩
  change UnpackedFloat.unpack Format.binary64 (UnpackedFloat.pack Format.binary64
    (UnpackedFloat.normalize Format.binary64 (n.toNat : Int) 0 .positive)) = _
  rw [rounded, unpack_pack_normal _ digits (by omega) (by omega)]

/-- So does making one of a natural number, which multiplies it by one. -/
theorem unpack_ofNat {n : Nat} (positive : 0 < n) (small : n < 2 ^ 53) :
    ∃ some, (Float.ofNat n).toModel.unpack =
      .finite .positive (n * 2 ^ (52 - n.log2)) (-((52 - n.log2 : Nat) : Int)) some := by
  have width : n.log2 ≤ 52 := log2_le_of_lt small
  have value : n.toUInt64.toNat = n := by
    rw [Nat.toUInt64_eq, UInt64.toNat_ofNat', Nat.mod_eq_of_lt (by omega)]
  obtain ⟨some, left⟩ := unpack_ofUInt64 (n := n.toUInt64) (by rwa [value]) (by rwa [value])
  rw [value] at some
  simp only [value] at left
  have digits : (n * 2 ^ (52 - n.log2)).log2 = 52 := by
    rw [log2_shifted positive.ne']
    omega
  have product := round_exact (n := 52) .positive digits (show -1074 ≤ -((52 - n.log2 : Nat) : Int) by omega) some
  refine ⟨some, ?_⟩
  rw [ofNat_small small]
  change UnpackedFloat.unpack Format.binary64 (UnpackedFloat.pack Format.binary64
    (UnpackedFloat.mul Format.binary64 n.toUInt64.toFloat.toModel.unpack
      (Float.ofBits 0x3FF0000000000000).toModel.unpack)) = _
  rw [left, unpack_one]
  change UnpackedFloat.unpack Format.binary64 (UnpackedFloat.pack Format.binary64
    (roundWithAccuracy Format.binary64 .positive (n * 2 ^ (52 - n.log2) * 2 ^ 52)
      (-((52 - n.log2 : Nat) : Int) - (52 : Nat)) .exact)) = _
  rw [product, unpack_pack_normal _ digits (by omega) (by omega)]

theorem ofNat_parts {n : Nat} (positive : 0 < n) (h : n ≤ maxExact) :
    parts? (Float.ofNat n) = some (wholeParts false n) := by
  by_cases top : n = maxExact
  · subst top
    decide +kernel
  · have small : n < 2 ^ 53 := lt_of_le_of_ne h top
    have width : n.log2 ≤ 52 := log2_le_of_lt small
    have digits : (n * 2 ^ (52 - n.log2)).log2 = 52 := by
      rw [log2_shifted positive.ne']
      omega
    obtain ⟨some, unpacked⟩ := unpack_ofNat positive small
    obtain ⟨negative, sign, found⟩ := parts_of_unpack unpacked
    cases negative with
    | true => cases sign
    | false =>
      rw [found, wholeParts_eq (e := -((52 - n.log2 : Nat) : Int)) (i := 0) digits (Nat.mul_one _).symm (by omega)]

/-- Only the sign differs. -/
theorem parts_neg {x : Float} {p : Parts} (h : parts? x = some p) (normal : p.mantissa.log2 = 52)
    (low : -1074 ≤ p.exponent) (high : p.exponent ≤ 971) :
    parts? (-x) = some ⟨!p.negative, p.mantissa, p.exponent⟩ := by
  have positive : p.mantissa ≠ 0 := by
    intro zero
    rw [zero] at normal
    cases normal
  have unpacked : (-x).toModel.unpack =
      .finite (-signOf p.negative) p.mantissa p.exponent (Nat.pos_of_ne_zero positive) := by
    change UnpackedFloat.unpack Format.binary64 (UnpackedFloat.pack Format.binary64 x.toModel.unpack.neg) = _
    rw [unpack_of_parts h, Parts.unpacked, dif_neg positive]
    exact unpack_pack_normal _ normal low high
  obtain ⟨negative, sign, found⟩ := parts_of_unpack unpacked
  rw [found]
  cases negative <;> cases h : p.negative <;> rw [h] at sign <;> first | rfl | cases sign

theorem ofInt_nonzero {x : Float} {n : Int} (h : integer? x = some n) (nonzero : n ≠ 0) : Float.ofInt n = x := by
  have parts := parts_of_integer h nonzero
  have magnitude := ofNat_parts (Int.natAbs_pos.mpr nonzero) (integer_bound h)
  cases n with
  | ofNat n => exact eq_of_parts magnitude parts
  | negSucc n =>
    refine eq_of_parts ?_ parts
    have bits : (n + 1).log2 ≤ 54 - 1 := log2_le_of_lt (lt_of_le_of_lt (integer_bound h) (by decide))
    have shape := parts_normal magnitude
    have normal : (wholeParts false (n + 1)).mantissa.log2 = 52 := by
      refine shape.resolve_right fun ⟨_, bottom⟩ => ?_
      change ((n + 1).log2 : Int) - 52 = -1074 at bottom
      omega
    rw [decide_eq_true (Int.negSucc_lt_zero n)]
    refine parts_neg magnitude normal ?_ ?_
    · change -1074 ≤ ((n + 1).log2 : Int) - 52
      omega
    · change ((n + 1).log2 : Int) - 52 ≤ 971
      omega

/-! ## Zero -/

theorem unpack_zero : (0 : Float).toModel.unpack = .zero .positive :=
  unpack_of_parts (p := ⟨false, 0, -1074⟩) (by decide +kernel)

section Zero

variable {x : Float} {n : Int} {p : Parts}

/-- Both zeros equal zero, and no other double does. -/
theorem beq_zero_of_parts (found : parts? x = some p) : (x == 0) = decide (p.mantissa = 0) := by
  change (x.toModel.unpack.compare (0 : Float).toModel.unpack == some .eq) = _
  rw [unpack_of_parts found, unpack_zero]
  unfold Parts.unpacked
  split
  · rename_i none
    rw [decide_eq_true none]
    rfl
  · rename_i some
    rw [decide_eq_false some]
    cases p.negative <;> rfl

theorem beq_zero (h : integer? x = some n) : (x == 0) = decide (n = 0) := by
  obtain ⟨p, found, -⟩ := integer_parts h
  rw [beq_zero_of_parts found]
  exact decide_eq_decide.mpr (mantissa_eq_zero found h)

theorem integer_of_zero (found : parts? x = some p) (zero : p.mantissa = 0) : integer? x = some 0 := by
  have none : (0 : Int).natAbs ≤ maxExact := Nat.zero_le _
  have value : whole? x = some 0 := by
    unfold whole?
    rw [found, Option.bind_eq_bind, Option.bind_some, zero]
    split
    · rw [Nat.zero_mul, (signed_eq_zero _ _).mpr rfl]
    · dsimp only
      rw [Nat.zero_mod, if_pos rfl, Nat.zero_div, (signed_eq_zero _ _).mpr rfl]
  unfold integer?
  rw [value, Option.bind_eq_bind, Option.bind_some, if_pos none]

theorem beq_self_of_parts (found : parts? x = some p) : (x == x) = true := by
  have none : parts? Float.nan = none := by decide +kernel
  refine Float.beq_self_iff.mpr ?_
  rintro rfl
  rw [none] at found
  cases found

/-- The double made of the whole number of a double. -/
theorem ofInt_integer (h : integer? x = some n) : Float.ofInt n = if x == 0 then 0 else x := by
  rw [beq_zero h]
  by_cases zero : n = 0
  · subst zero
    rfl
  · rw [decide_eq_false zero]
    exact ofInt_nonzero h zero

end Zero

end Groq.Double
