/-
  Groq.Proofs.Double.Order — doubles that are numbers are ordered.

  A double is compared by its sign, then by its exponent, then by its mantissa, with the infinities
  outermost. So it has a place in an order of triples, and comparing two doubles compares their places
  (`lt_iff_place`); only a NaN has none and is not ordered with anything.
  Proved: of two doubles at most one is less (`lt_asymm`), and of two numbers one of which is less, any
  third is above the one or below the other (`lt_or_lt`).
-/

import Groq.Double.Parts
import Mathlib

namespace Groq.Double

open Float.Model

/-- The place of a number: below or above zero, then how far from it. -/
def place : UnpackedFloat → ℤ ×ₗ ℤ ×ₗ ℤ
  | .infinity .negative => toLex (-2, toLex (0, 0))
  | .finite .negative m e _ => toLex (-1, toLex (-e, -m))
  | .finite .positive m e _ => toLex (1, toLex (e, m))
  | .infinity .positive => toLex (2, toLex (0, 0))
  | .zero _ | .notANumber => toLex (0, toLex (0, 0))

section Pairs

variable {d e : Int} {m n : Nat}

/-- Comparing exponents, then mantissas, is comparing pairs. -/
theorem then_eq_lt : (compare d e).then (compare m n) = .lt ↔ d < e ∨ d = e ∧ m < n := by
  rw [Ordering.then_eq_lt, compare_lt_iff_lt, compare_eq_iff_eq, compare_lt_iff_lt]

theorem then_eq_gt : (compare d e).then (compare m n) = .gt ↔ e < d ∨ d = e ∧ n < m := by
  rw [Ordering.then_eq_gt, compare_gt_iff_gt, compare_eq_iff_eq, compare_gt_iff_gt]

end Pairs

theorem lt_iff_place {a b : UnpackedFloat} (ha : a.isNaN = false) (hb : b.isNaN = false) :
    a.lt b = true ↔ place a < place b := by
  unfold UnpackedFloat.lt
  rw [beq_iff_eq]
  cases a with
  | notANumber => cases ha
  | infinity s | zero s =>
    cases b with
    | notANumber => cases hb
    | infinity t | zero t => cases s <;> cases t <;> decide
    | finite t n e _ => cases s <;> cases t <;> simp [UnpackedFloat.compare, place, Prod.Lex.toLex_lt_toLex]
  | finite s m d _ =>
    cases b with
    | notANumber => cases hb
    | infinity t | zero t => cases s <;> cases t <;> simp [UnpackedFloat.compare, place, Prod.Lex.toLex_lt_toLex]
    | finite t n e _ =>
      cases s <;> cases t <;>
        simp [UnpackedFloat.compare, place, Prod.Lex.toLex_lt_toLex, then_eq_lt, then_eq_gt]

/-- A NaN is less than nothing, and nothing is less than it. -/
theorem not_nan_of_lt {a b : UnpackedFloat} (h : a.lt b = true) : a.isNaN = false ∧ b.isNaN = false := by
  cases a with
  | notANumber => cases h
  | infinity s | zero s | finite s =>
    cases b with
    | notANumber => cases s <;> cases h
    | _ => exact ⟨rfl, rfl⟩

variable {x y z : Float}

theorem lt_iff : x < y ↔ x.toModel.unpack.lt y.toModel.unpack = true := by
  show decide (x.toModel < y.toModel) = true ↔ _
  rw [decide_eq_true_iff]
  rfl

theorem lt_asymm (h : x < y) : ¬ y < x := by
  rw [lt_iff] at *
  obtain ⟨hx, hy⟩ := not_nan_of_lt h
  rw [lt_iff_place hx hy] at h
  rw [lt_iff_place hy hx]
  exact not_lt_of_gt h

theorem not_lt_nan (hy : y.isNaN = true) : ¬ x < y ∧ ¬ y < x := by
  have nan : y.toModel.unpack.isNaN = true := hy
  rw [lt_iff, lt_iff]
  constructor
  · intro less
    rw [(not_nan_of_lt less).2] at nan
    cases nan
  · intro less
    rw [(not_nan_of_lt less).1] at nan
    cases nan

/-- A third number is above the lesser of two or below the greater. -/
theorem lt_or_lt (hy : y.isNaN = false) (h : x < z) : x < y ∨ y < z := by
  rw [lt_iff] at *
  rw [lt_iff]
  obtain ⟨hx, hz⟩ := not_nan_of_lt h
  have hy : y.toModel.unpack.isNaN = false := hy
  rw [lt_iff_place hx hy, lt_iff_place hy hz]
  rw [lt_iff_place hx hz] at h
  exact (lt_or_ge _ _).imp_right fun level => lt_of_le_of_lt level h

/-! ## Equal doubles -/

theorem beq_symm (h : (x == y) = true) : (y == x) = true := by
  rw [Float.beq_iff_ne_nan_and_eq] at *
  tauto

theorem not_lt_of_beq (h : (x == y) = true) : ¬ x < y := by
  intro less
  have equal : x.toModel.unpack.compare y.toModel.unpack = some .eq := beq_iff_eq.mp h
  rw [lt_iff, UnpackedFloat.lt, equal] at less
  cases less

theorem beq_trans (h : (x == y) = true) (h' : (y == z) = true) : (x == z) = true := by
  rw [Float.beq_iff_ne_nan_and_eq] at *
  grind

end Groq.Double
