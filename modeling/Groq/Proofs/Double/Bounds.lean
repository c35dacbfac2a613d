/-
  Groq.Proofs.Double.Bounds — how large the results of arithmetic are.

  Bounds are powers of two: `Below k` holds of the doubles below `2 ^ k` in magnitude and `AtLeast k` of
  those that are not. A double below any bound is finite, and the finite ones are below `2 ^ 1024`.
  Proved: bounds on products, sums and quotients, one power of two above those of exact arithmetic
  (`Below.mul`, `Below.add`, `Below.div`), and on the doubles of whole numbers (`below_ofNat`).
-/

import Groq.Proofs.Double.Rounding

namespace Groq.Double

open Float.Model Float.Model.UnpackedFloat

/-- A number below `2 ^ k` in magnitude, as bits hold it. -/
def Under (k : Int) : UnpackedFloat → Prop
  | .zero _ => True
  | .finite _ m e _ => m.log2 < 53 ∧ e + 53 ≤ k
  | .infinity _ | .notANumber => False

/-- A number that is not below `2 ^ k` in magnitude. -/
def Least (k : Int) : UnpackedFloat → Prop
  | .finite _ m e _ => k ≤ m.log2 + e ∧ m.log2 < 53
  | .zero _ | .infinity _ | .notANumber => False

instance (k : Int) : DecidablePred (Under k)
  | .zero _ => .isTrue trivial
  | .finite _ m e _ => inferInstanceAs (Decidable (m.log2 < 53 ∧ e + 53 ≤ k))
  | .infinity _ | .notANumber => .isFalse id

instance (k : Int) : DecidablePred (Least k)
  | .finite _ m e _ => inferInstanceAs (Decidable (k ≤ m.log2 + e ∧ m.log2 < 53))
  | .zero _ | .infinity _ | .notANumber => .isFalse id

section Operations

variable {j k l : Int} {u v : UnpackedFloat}

theorem under_unpack {b : BitVec 64} (finite : (@unpackExponent Format.binary64 b).toNat < 2047)
    (field : (@unpackExponent Format.binary64 b).toNat ≤ k + 1022)
    (least : -1021 ≤ k) : Under k (UnpackedFloat.unpack Format.binary64 b) := by
  have noInfinity : ¬ @unpackExponent Format.binary64 b = -1#_ := by
    intro h
    rw [h] at finite
    exact absurd finite (by decide)
  have bias : Format.binary64.exponentBias = 1023 := rfl
  unfold UnpackedFloat.unpack
  dsimp only
  rw [if_neg noInfinity]
  split_ifs with zero none
  · trivial
  · have digits : _ ≤ 52 - 1 := log2_le_of_lt (@unpackMantissa Format.binary64 b).isLt
    have bottom : (@unpackExponent Format.binary64 b).toNat = 0 := congrArg BitVec.toNat zero
    rw [bottom, bias]
    exact ⟨by omega, by omega⟩
  · have digits : _ ≤ 53 - 1 := log2_le_of_lt (1#1 ++ @unpackMantissa Format.binary64 b).isLt
    rw [bias]
    exact ⟨by omega, by omega⟩

theorem under_pack (rounded : Rounded k u) (low : -1021 ≤ k) (high : k ≤ 1024) :
    Under k (UnpackedFloat.unpack Format.binary64 (UnpackedFloat.pack Format.binary64 u)) := by
  cases u with
  | infinity | notANumber => cases rounded
  | zero s =>
    apply under_unpack _ _ low
    · change (unpackExponent (packComponents Format.binary64 s 0 0)).toNat < _
      rw [unpackExponent_packComponents]
      decide
    · change ((unpackExponent (packComponents Format.binary64 s 0 0)).toNat : Int) ≤ _
      rw [unpackExponent_packComponents]
      change ((0 : Nat) : Int) ≤ _
      omega
  | finite s m e positive =>
    unfold Rounded at rounded
    have bias : Format.binary64.exponentBias = 1023 := rfl
    have fits : ¬ 2 ^ Format.binary64.exponentBits ≤ (e + (1023 : Nat) + (52 : Nat)).toNat + 1 := by
      have : 2 ^ Format.binary64.exponentBits = 2048 := rfl
      omega
    unfold UnpackedFloat.pack
    dsimp only
    rw [bias, if_neg fits]
    split_ifs with normal
    · have field : (BitVec.ofNat 11 (e + (1023 : Nat) + (52 : Nat)).toNat).toNat = (e + 1075).toNat := by
        rw [BitVec.toNat_ofNat, Nat.mod_eq_of_lt (by omega)]
        omega
      apply under_unpack _ _ low
      · rw [unpackExponent_packComponents, field]
        omega
      · rw [unpackExponent_packComponents, field]
        omega
    · apply under_unpack _ _ low
      · rw [unpackExponent_packComponents]
        decide
      · rw [unpackExponent_packComponents]
        change ((0 : Nat) : Int) ≤ _
        omega

theorem Under.mono (h : Under j u) (le : j ≤ k) : Under k u := by
  cases u with
  | infinity | notANumber => cases h
  | zero => trivial
  | finite s m e positive => exact ⟨h.1, h.2.trans le⟩

theorem rounded_mul (hu : Under j u) (hv : Under k v) (sum : j + k ≤ l) (low : -1022 ≤ l) :
    Rounded (l + 1) (UnpackedFloat.mul Format.binary64 u v) := by
  cases u with
  | infinity | notANumber => cases hu
  | zero =>
    cases v with
    | infinity | notANumber => cases hv
    | zero | finite => trivial
  | finite s m e _ =>
    cases v with
    | infinity | notANumber => cases hv
    | zero => trivial
    | finite t n d _ =>
      obtain ⟨mBits, mUnder⟩ := hu
      obtain ⟨nBits, nUnder⟩ := hv
      have product : m * n < 2 ^ (53 + 53) := by
        rw [Nat.pow_add]
        have lt {i : Nat} (bits : i.log2 < 53) : i < 2 ^ 53 :=
          lt_of_lt_of_le Nat.lt_log2_self (Nat.pow_le_pow_right (by decide) bits)
        exact Nat.mul_lt_mul_of_lt_of_lt (lt mBits) (lt nBits)
      have bits := log2_le_of_lt product
      exact round_rounded _ (by omega) (by omega) low

/-- A mantissa over an exponent that is low enough already is rounded, and zeros are added to any other. -/
theorem rounded_round (s : Sign) {m : Nat} {e : Int} (total : m.log2 + 1 + e ≤ k) (low : -1022 ≤ k) :
    Rounded (k + 1) (UnpackedFloat.round Format.binary64 s m e) := by
  let shift := (e - max (m.log2 + 1 + e - 53) (-1074)).toNat
  have bits : ((m <<< shift).log2 : Int) + 1 + (e - shift) ≤ k := by
    by_cases zero : m = 0
    · subst zero
      rw [Nat.zero_shiftLeft]
      change ((0 : Nat) : Int) + 1 + e ≤ k at total
      change ((0 : Nat) : Int) + 1 + (e - shift) ≤ k
      omega
    · rw [Nat.shiftLeft_eq, log2_shifted zero]
      omega
  have exponent : e - shift ≤ k - 52 := by omega
  exact round_rounded s bits exponent low

theorem rounded_normalize {m : Int} {n : Nat} {e : Int} (zero : Sign) (bound : m.natAbs < 2 ^ n)
    (total : n + e ≤ k) (least : 1 + e ≤ k) (low : -1022 ≤ k) :
    Rounded (k + 1) (UnpackedFloat.normalize Format.binary64 m e zero) := by
  unfold UnpackedFloat.normalize
  split
  · have := log2_le_of_lt (show (-m).toNat < 2 ^ n by omega)
    exact rounded_round _ (by omega) low
  · trivial
  · have := log2_le_of_lt (show m.toNat < 2 ^ n by omega)
    exact rounded_round _ (by omega) low

theorem shiftLeft_lt {m n shift : Nat} (bits : m.log2 < 53) (h : 53 + shift ≤ n) : m <<< shift < 2 ^ n := by
  have mantissa : m < 2 ^ 53 := lt_of_lt_of_le Nat.lt_log2_self (Nat.pow_le_pow_right (by decide) bits)
  calc m <<< shift = m * 2 ^ shift := Nat.shiftLeft_eq _ _
    _ < 2 ^ 53 * 2 ^ shift := Nat.mul_lt_mul_of_pos_right mantissa (Nat.two_pow_pos _)
    _ = 2 ^ (53 + shift) := (Nat.pow_add _ _ _).symm
    _ ≤ 2 ^ n := Nat.pow_le_pow_right (by decide) h

theorem natAbs_apply_add_le (s t : Sign) (m n : Nat) : (s.apply m + t.apply n).natAbs ≤ m + n := by
  cases s <;> cases t <;> simp only [Sign.apply] <;> omega

/-- Two numbers over one exponent have at most one bit more when they are added. -/
theorem rounded_add (hu : Under k u) (hv : Under k v) (low : -1021 ≤ k) :
    Rounded (k + 2) (UnpackedFloat.add Format.binary64 u v) := by
  cases u with
  | infinity | notANumber => cases hu
  | zero s =>
    cases v with
    | infinity | notANumber => cases hv
    | zero t => cases s <;> cases t <;> trivial
    | finite t n d _ => exact hv.2.trans (by omega)
  | finite s m e _ =>
    cases v with
    | infinity | notANumber => cases hv
    | zero => exact hu.2.trans (by omega)
    | finite t n d _ =>
      obtain ⟨mBits, mUnder⟩ := hu
      obtain ⟨nBits, nUnder⟩ := hv
      let least := min e d
      have hm : m <<< (e - least).toNat < 2 ^ (k - least).toNat := shiftLeft_lt mBits (by omega)
      have hn : n <<< (d - least).toNat < 2 ^ (k - least).toNat := shiftLeft_lt nBits (by omega)
      have bound := natAbs_apply_add_le s t (m <<< (e - least).toNat) (n <<< (d - least).toNat)
      have bits : _ < 2 ^ ((k - least).toNat + 1) := lt_of_le_of_lt bound (by rw [Nat.pow_succ]; omega)
      rw [show k + 2 = k + 1 + 1 by omega]
      exact rounded_normalize (k := k + 1) (e := least) .positive bits (by omega) (by omega) (by omega)

theorem rounded_div (hu : Under j u) (hv : Least k v) (low : -1022 ≤ j - k) :
    Rounded (j - k + 1) (UnpackedFloat.div Format.binary64 u v) := by
  cases v with
  | infinity | notANumber | zero => cases hv
  | finite t n d positive =>
    cases u with
    | infinity | notANumber => cases hu
    | zero => trivial
    | finite s m e _ =>
      obtain ⟨mBits, mUnder⟩ := hu
      obtain ⟨nLeast, nBits⟩ := hv
      let t := min (e - d) (max ((m.log2 + 1 + e) - (n.log2 + 1 + d) - 53) (-1074))
      have bits : (((m <<< (e - d - t).toNat) / n).log2 : Int) + 1 + t ≤ j - k := by
        have quotient : (m <<< (e - d - t).toNat) / n < 2 ^ (m.log2 + 1 + (e - d - t).toNat - n.log2) := by
          refine lt_of_le_of_lt (Nat.div_le_div_left (Nat.log2_self_le positive.ne') (Nat.two_pow_pos _)) ?_
          rw [Nat.div_lt_iff_lt_mul (Nat.two_pow_pos _), Nat.shiftLeft_eq, ← Nat.pow_add]
          refine lt_of_lt_of_le (Nat.mul_lt_mul_of_pos_right Nat.lt_log2_self (Nat.two_pow_pos _)) ?_
          rw [← Nat.pow_add]
          exact Nat.pow_le_pow_right (by decide) (by omega)
        have := log2_le_of_lt quotient
        omega
      have exponent : t ≤ j - k - 52 := by omega
      exact round_rounded _ bits exponent low

end Operations

/-! ## Doubles -/

/-- A number below `2 ^ k` in magnitude. -/
def Below (k : Int) (x : Float) : Prop := Under k x.toModel.unpack

/-- A number that is not below `2 ^ k` in magnitude. -/
def AtLeast (k : Int) (x : Float) : Prop := Least k x.toModel.unpack

instance (k : Int) (x : Float) : Decidable (Below k x) := inferInstanceAs (Decidable (Under k _))

instance (k : Int) (x : Float) : Decidable (AtLeast k x) := inferInstanceAs (Decidable (Least k _))

section Doubles

variable {j k : Int} {x y : Float}

theorem Below.mono (h : Below j x) (le : j ≤ k) : Below k x := Under.mono h le

/-- All doubles that are finite are below `2 ^ 1024`. -/
theorem below_of_isFinite (h : x.isFinite = true) : Below 1024 x := by
  let field := (@unpackExponent Format.binary64 x.toBits.toBitVec).toNat
  have width : field < 2 ^ 11 := BitVec.isLt _
  have notTop : field ≠ 2047 := by
    intro top
    change (UnpackedFloat.unpack Format.binary64 x.toBits.toBitVec).isFinite = true at h
    unfold UnpackedFloat.unpack at h
    dsimp only at h
    rw [if_pos (BitVec.eq_of_toNat_eq top)] at h
    split at h <;> cases h
  exact under_unpack (show field < 2047 by omega) (show (field : Int) ≤ _ by omega) (by decide)

theorem Below.isFinite (h : Below k x) : x.isFinite = true := by
  unfold Below at h
  change x.toModel.unpack.isFinite = true
  cases found : x.toModel.unpack with
  | infinity | notANumber =>
    rw [found] at h
    cases h
  | zero | finite => rfl

theorem Below.neg (h : Below k x) (low : -1021 ≤ k) (high : k ≤ 1024) : Below k (-x) := by
  refine under_pack ?_ low high
  unfold Below at h
  cases found : x.toModel.unpack with
  | infinity | notANumber =>
    rw [found] at h
    cases h
  | zero => trivial
  | finite =>
    rw [found] at h
    exact h.2

theorem Below.mul (hx : Below j x) (hy : Below k y) (low : -1022 ≤ j + k) (high : j + k ≤ 1023) :
    Below (j + k + 1) (x * y) :=
  under_pack (rounded_mul hx hy le_rfl low) (by omega) (by omega)

theorem Below.add (hx : Below k x) (hy : Below k y) (low : -1021 ≤ k) (high : k ≤ 1022) : Below (k + 2) (x + y) :=
  under_pack (rounded_add hx hy low) (by omega) (by omega)

theorem Below.div (hx : Below j x) (hy : AtLeast k y) (low : -1022 ≤ j - k) (high : j - k ≤ 1023) :
    Below (j - k + 1) (x / y) :=
  under_pack (rounded_div hx hy low) (by omega) (by omega)

theorem below_ofNat {n b : Nat} (h : n < 2 ^ b) (some : 0 < b) (bits : b ≤ 1000) : Below (b + 3) (Float.ofNat n) := by
  have digits := log2_le_of_lt h
  by_cases small : n < 2 ^ 53
  · rw [ofNat_small small]
    have whole : n.toUInt64.toNat = n := by
      rw [Nat.toUInt64_eq, UInt64.toNat_ofNat', Nat.mod_eq_of_lt (by omega)]
    have left : Below (b + 1) n.toUInt64.toFloat := by
      refine under_pack ?_ (by omega) (by omega)
      change Rounded _ (UnpackedFloat.normalize Format.binary64 (n.toUInt64.toNat : Int) 0 .positive)
      rw [whole]
      exact rounded_normalize (k := b) .positive h (by omega) (by omega) (by omega)
    have one : Below 1 (Float.ofBits 0x3FF0000000000000) := by decide
    exact left.mul one (by omega) (by omega)
  · unfold Float.ofNat OfScientific.ofScientific instOfScientificFloat
    dsimp only
    unfold Float.ofScientific
    rw [dif_neg fun fits => small fits.1]
    refine under_pack (u := UnpackedFloat.ofScientific Format.binary64 n 0) ?_ (by omega) (by omega)
    unfold UnpackedFloat.ofScientific
    split
    · trivial
    · rename_i positive
      have least : ¬ (0 : Int) < -(2 ^ 11 + n.log2) := by omega
      rw [if_neg (by decide), if_neg least, if_pos le_rfl]
      have width : Format.binary64.mantissaBits = 53 := rfl
      have shifted : (n <<< 53 * 10 ^ Int.toNat 0).log2 = n.log2 + 53 := by
        rw [Int.toNat_zero, Nat.pow_zero, Nat.mul_one, Nat.shiftLeft_eq, log2_shifted positive]
      unfold UnpackedFloat.mul
      dsimp only
      rw [width, show (b : Int) + 3 = b + 2 + 1 by omega]
      generalize n <<< 53 * 10 ^ Int.toNat 0 = m at *
      exact round_rounded _ (by omega) (by omega) (by omega)

end Doubles

end Groq.Double
