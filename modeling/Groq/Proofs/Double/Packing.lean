/-
  Groq.Proofs.Double.Packing — the parts of a double are those that arithmetic takes.

  Arithmetic unpacks the bits of a double into a sign, a mantissa and an exponent, works on these and
  packs what comes out. `parts?` reads the same three fields of the bits.
  Proved: unpacking a finite double gives its parts (`unpack_of_parts`, `parts_of_unpack`), a double is
  known by its parts (`eq_of_parts`), and a number with a mantissa of 53 bits is unpacked as it was
  packed (`unpack_pack_normal`).
-/

import Groq.Double.Rounding
import Mathlib

namespace Groq.Double

open Float.Model Float.Model.UnpackedFloat

/-! ## Fields of the bits -/

section Fields

variable (b : BitVec 64)

theorem exponent_toNat : (@unpackExponent Format.binary64 b).toNat = b.toNat / 2 ^ 52 % 2 ^ 11 := by
  simp [unpackExponent, BitVec.extractLsb, BitVec.extractLsb', Nat.shiftRight_eq_div_pow]

theorem mantissa_toNat : (@unpackMantissa Format.binary64 b).toNat = b.toNat % 2 ^ 52 := by
  simp [unpackMantissa, BitVec.extractLsb, BitVec.extractLsb']

theorem sign_toNat : (@unpackSign Format.binary64 b).toNat = b.toNat / 2 ^ 63 := by
  have bound : b.toNat < 2 ^ 64 := b.isLt
  simp [unpackSign, BitVec.extractLsb, BitVec.extractLsb', Nat.shiftRight_eq_div_pow]
  omega

theorem withHidden_toNat (m : BitVec 52) : (1#1 ++ m).toNat = 2 ^ 52 + m.toNat := by
  rw [BitVec.toNat_append, ← Nat.shiftLeft_add_eq_or_of_lt m.isLt]
  rfl

end Fields

def signOf (negative : Bool) : Sign := if negative then .negative else .positive

/-- The parts of a double, as arithmetic takes them. -/
def Parts.unpacked (p : Parts) : UnpackedFloat :=
  if h : p.mantissa = 0 then .zero (signOf p.negative)
  else .finite (signOf p.negative) p.mantissa p.exponent (Nat.pos_of_ne_zero h)

theorem unpackSign_eq (x : Float) :
    Sign.ofBitVec (@unpackSign Format.binary64 x.toBits.toBitVec) = signOf (isNegative x) := by
  have sign := sign_toNat x.toBits.toBitVec
  have top : x.toBits.toNat / Nat.pow 2 63 = x.toBits.toBitVec.toNat / 2 ^ 63 := rfl
  unfold Sign.ofBitVec signOf isNegative
  rw [top, ← sign]
  generalize @unpackSign Format.binary64 x.toBits.toBitVec = s
  obtain rfl | rfl : s = 0#1 ∨ s = 1#1 := by
    revert s
    decide
  · rfl
  · rfl

theorem finite_congr {s : Sign} {m m' : Nat} {e e' : Int} {h : 0 < m} {h' : 0 < m'} (mantissa : m = m')
    (exponent : e = e') : UnpackedFloat.finite s m e h = .finite s m' e' h' := by
  subst mantissa exponent
  rfl

theorem unpack_of_parts {x : Float} {p : Parts} (h : parts? x = some p) : x.toModel.unpack = p.unpacked := by
  have exponent : _ = x.toBits.toNat / hidden % Nat.pow 2 11 := exponent_toNat x.toBits.toBitVec
  have mantissa : _ = x.toBits.toNat % hidden := mantissa_toNat x.toBits.toBitVec
  change UnpackedFloat.unpack Format.binary64 x.toBits.toBitVec = _
  unfold UnpackedFloat.unpack
  unfold parts? at h
  dsimp only at h ⊢
  rw [← exponent, ← mantissa] at h
  rw [unpackSign_eq x]
  by_cases infinite : @unpackExponent Format.binary64 x.toBits.toBitVec = -1#11
  · rw [infinite, if_pos (by rfl)] at h
    cases h
  have noTop : _ ≠ Nat.pow 2 11 - 1 := fun h => infinite (BitVec.eq_of_toNat_eq h)
  rw [if_neg noTop] at h
  rw [if_neg infinite]
  by_cases small : @unpackExponent Format.binary64 x.toBits.toBitVec = 0#11
  · rw [small, if_pos (by rfl)] at h
    rw [if_pos small, small]
    cases h
    unfold Parts.unpacked
    dsimp only
    by_cases zero : @unpackMantissa Format.binary64 x.toBits.toBitVec = 0#52
    · have none : _ = 0 := congrArg BitVec.toNat zero
      rw [dif_pos zero, dif_pos none]
    · have some : _ ≠ 0 := fun h => zero (BitVec.eq_of_toNat_eq h)
      rw [dif_neg zero, dif_neg some]
      exact finite_congr rfl rfl
  · have large : _ ≠ 0 := fun h => small (BitVec.eq_of_toNat_eq h)
    rw [if_neg large] at h
    rw [if_neg small]
    cases h
    unfold Parts.unpacked
    dsimp only
    rw [dif_neg (by simp [hidden])]
    exact finite_congr (withHidden_toNat _) rfl

theorem unpack_of_no_parts {x : Float} (h : parts? x = none) : x.toModel.unpack.isFinite = false := by
  have exponent : _ = x.toBits.toNat / hidden % Nat.pow 2 11 := exponent_toNat x.toBits.toBitVec
  change (UnpackedFloat.unpack Format.binary64 x.toBits.toBitVec).isFinite = false
  unfold UnpackedFloat.unpack
  unfold parts? at h
  dsimp only at h ⊢
  rw [← exponent] at h
  split_ifs at h with infinite
  rw [if_pos (BitVec.eq_of_toNat_eq infinite)]
  split <;> rfl

/-- A finite number has parts, and they are those that arithmetic takes. -/
theorem parts_of_unpack {x : Float} {s : Sign} {m : Nat} {e : Int} {positive : 0 < m}
    (h : x.toModel.unpack = .finite s m e positive) :
    ∃ negative, signOf negative = s ∧ parts? x = some ⟨negative, m, e⟩ := by
  cases found : parts? x with
  | none =>
    have infinite := unpack_of_no_parts found
    rw [h] at infinite
    cases infinite
  | some p =>
    have unpacked := unpack_of_parts found
    rw [h] at unpacked
    unfold Parts.unpacked at unpacked
    split at unpacked
    · cases unpacked
    · cases unpacked
      exact ⟨_, rfl, rfl⟩

/-- The bits of a double, from its parts. -/
theorem bits_of_parts {x : Float} {p : Parts} (h : parts? x = some p) :
    x.toBits.toNat = (if p.negative then 2 ^ 63 else 0) +
      if p.mantissa < 2 ^ 52 then p.mantissa else (p.exponent + 1075).toNat * 2 ^ 52 + (p.mantissa - 2 ^ 52) := by
  have bound : x.toBits.toNat < 2 ^ 64 := UInt64.toNat_lt _
  have unit : hidden = 2 ^ 52 := rfl
  have fields : Nat.pow 2 11 = 2048 := rfl
  have top : Nat.pow 2 63 = 2 ^ 63 := rfl
  unfold parts? isNegative at h
  rw [unit, fields, top] at h
  dsimp only at h
  generalize x.toBits.toNat = bits at *
  have sign : (if (decide (bits / 2 ^ 63 = 1)) = true then 2 ^ 63 else 0) = bits / 2 ^ 63 * 2 ^ 63 := by
    have : bits / 2 ^ 63 < 2 := by omega
    by_cases h : bits / 2 ^ 63 = 1
    · rw [if_pos (decide_eq_true h), h, Nat.one_mul]
    · rw [if_neg (by simpa using h)]
      omega
  split_ifs at h with infinite small
  · cases h
    dsimp only
    rw [sign, if_pos (Nat.mod_lt _ (by decide))]
    omega
  · cases h
    dsimp only
    rw [sign, if_neg (by omega)]
    omega

section Finite

variable {x : Float} {p : Parts}

theorem parts_lt (h : parts? x = some p) : p.mantissa < 2 * hidden := by
  unfold parts? at h
  have fraction := Nat.mod_lt x.toBits.toNat (show 0 < hidden by decide)
  dsimp only at h
  split_ifs at h
  · cases h
    dsimp only
    omega
  · cases h
    dsimp only
    omega

theorem isFinite_of_parts (h : parts? x = some p) : x.isFinite = true := by
  change x.toModel.unpack.isFinite = true
  rw [unpack_of_parts h]
  unfold Parts.unpacked
  split <;> rfl

theorem parts_of_isFinite (h : x.isFinite = true) : ∃ p, parts? x = some p := by
  cases found : parts? x with
  | none =>
    have infinite : x.isFinite = false := unpack_of_no_parts found
    rw [h] at infinite
    cases infinite
  | some p => exact ⟨p, rfl⟩

end Finite

/-- A double is known by its parts. -/
theorem eq_of_parts {x y : Float} {p : Parts} (hx : parts? x = some p) (hy : parts? y = some p) : x = y :=
  Float.toBits_inj.mp (UInt64.toNat_inj.mp ((bits_of_parts hx).trans (bits_of_parts hy).symm))

theorem unpack_pack_normal (s : Sign) {m : Nat} {e : Int} {positive : 0 < m} (normal : m.log2 = 52) (low : -1074 ≤ e)
    (high : e ≤ 971) :
    UnpackedFloat.unpack Format.binary64 (UnpackedFloat.pack Format.binary64 (.finite s m e positive)) =
      .finite s m e positive := by
  have bias : Format.binary64.exponentBias = 1023 := rfl
  have biased : ((BitVec.ofNat 11 (e + (1023 : Nat) + (52 : Nat)).toNat).toNat : Int) = e + 1075 := by
    rw [BitVec.toNat_ofNat, Nat.mod_eq_of_lt (by omega)]
    omega
  have finite : ¬ 2 ^ Format.binary64.exponentBits ≤ (e + (1023 : Nat) + (52 : Nat)).toNat + 1 := by
    have : 2 ^ Format.binary64.exponentBits = 2048 := rfl
    omega
  have mantissa : (1#1 ++ BitVec.ofNat 52 m).toNat = m := by
    obtain ⟨low, high⟩ := (Nat.log2_eq_iff positive.ne').mp normal
    rw [withHidden_toNat, BitVec.toNat_ofNat]
    omega
  unfold UnpackedFloat.pack
  dsimp only
  have width : 52 + 1 = Format.binary64.mantissaBits := rfl
  rw [bias, if_neg finite, normal, if_pos width]
  unfold UnpackedFloat.unpack
  simp only [unpackExponent_packComponents, unpackMantissa_packComponents, unpackSign_packComponents,
    Sign.ofBitVec_toBitVec]
  rw [if_neg, if_neg]
  · apply finite_congr mantissa
    rw [bias, biased]
    omega
  · intro h
    rw [h] at biased
    change ((0 : Nat) : Int) = _ at biased
    omega
  · intro h
    rw [h] at biased
    change ((2047 : Nat) : Int) = _ at biased
    omega

end Groq.Double
