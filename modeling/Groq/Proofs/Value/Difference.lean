/-
  Groq.Proofs.Value.Difference — what the difference of two instants says about their order.

  The difference is the count of nanoseconds between the instants, cut toward zero to milliseconds and divided by
  a thousand. A whole number of milliseconds may have too many digits for a double, but neither that nor the
  division makes it zero or changes its sign. So the difference is zero for instants that are less than a
  millisecond apart, and elsewhere above or below zero as the instants are ordered.
  Proved: so it is for just the instants that do not lie across midnight with a leap second between them
  that the count loses (`subtract_order`); those are shown to be closer than they are, or in the other order
  (`subtract_order_differs`).
-/

import Groq.Proofs.Double.Sign
import Groq.Proofs.Instant.Elapsed
import Groq.Value.Arithmetic
import Groq.Value.Equality

namespace Groq

/-- Less than a millisecond apart, a leap second that one of the two lies in being as long as any other. -/
def Instant.Near (a b : Instant) : Prop := (a.gap b).natAbs < 1000000

instance (a b : Instant) : Decidable (a.Near b) := inferInstanceAs (Decidable (_ < _))

namespace Value

section Difference

variable {a b : Instant} {x : Float} {n : Int}

theorem orderNumbers_seconds (bound : n.natAbs < 2 ^ 60) :
    orderNumbers? (Float.ofInt n / 1000) 0 = some (compare n 0) := by
  unfold orderNumbers?
  rcases lt_trichotomy n 0 with negative | rfl | positive
  · rw [if_pos (Double.ofInt_div_neg negative bound), compare_lt_iff_lt.mpr negative]
  · decide +kernel
  · have above := Double.ofInt_div_pos positive bound
    rw [if_neg (Double.lt_asymm above), if_pos above, compare_gt_iff_gt.mpr positive]

theorem order_difference (ha : a.Valid) (hb : b.Valid) :
    order? (subtract (dateTime a) (dateTime b)) (number 0) = some (Instant.cut (a.elapsed b)) := by
  have seconds := orderNumbers_seconds (Instant.millisSince_lt ha hb)
  rw [Instant.millisSince_eq, Instant.cut_millis] at seconds
  exact seconds

/-- The order of two instants, less than a millisecond apart being level. -/
theorem order_near (ha : a.Valid) (hb : b.Valid) :
    (if a.Near b then some .eq else order? (dateTime a) (dateTime b)) = some (Instant.cut (a.gap b)) := by
  have compared : order? (dateTime a) (dateTime b) = some (compare a b) := rfl
  rw [compared, ← Instant.compare_gap ha hb]
  exact (apply_ite some (a.Near b) Ordering.eq _).symm

/-- What equals zero is neither above nor below it, and NaN is neither. -/
theorem equals_number_iff {x y : Float} :
    equals (number x) (number y) = true ↔ order? (number x) (number y) = some .eq := by
  change (x == y || y == x) = true ↔ orderNumbers? x y = some .eq
  unfold orderNumbers?
  constructor
  · intro equal
    have left : (x == y) = true := (Bool.or_eq_true_iff.mp equal).elim id Double.beq_symm
    rw [if_neg (Double.not_lt_of_beq left), if_neg (Double.not_lt_of_beq (Double.beq_symm left)), if_pos left]
  · intro level
    split_ifs at level
    · cases level
    · cases level
    · rename_i equal
      exact Bool.or_eq_true_iff.mpr (.inl equal)

theorem equals_dateTime_iff : equals (dateTime a) (dateTime b) = true ↔ a = b := by
  change (a == b || b == a) = true ↔ a = b
  rw [Bool.or_eq_true, beq_iff_eq, beq_iff_eq, eq_comm (a := b), or_self]

end Difference

/-- The difference of two instants is zero where they are less than a millisecond apart, and elsewhere above or
    below zero as the first is later or earlier. It is so for just the instants that do not lie across midnight
    from each other, which on clocks is from a leap second at the end of a day to what is less than a second and a
    millisecond behind it. -/
theorem subtract_order {a b : Instant} (ha : a.Valid) (hb : b.Valid) :
    (order? (subtract (dateTime a) (dateTime b)) (number 0) =
        (if a.Near b then some .eq else order? (dateTime a) (dateTime b)) ↔
      ¬ a.AcrossMidnight b ∧ ¬ b.AcrossMidnight a) ∧
    (¬ a.AcrossMidnight b → ¬ b.AcrossMidnight a →
      (equals (subtract (dateTime a) (dateTime b)) (number 0) = true ↔ a.Near b)) ∧
    order? (dateTime a) (dateTime b) = some (compare (a.gap b) 0) ∧
    (equals (dateTime a) (dateTime b) = true ↔ a.gap b = 0) ∧
    (a.OnClock → b.OnClock → (a.AcrossMidnight b ↔
      a.isLeap = true ∧ a.secondOfDay = 86399 ∧ a.seconds < b.seconds ∧ b.gap a < 1001000000)) := by
  have order := order_difference ha hb
  have compared := Instant.compare_gap ha hb
  refine ⟨?order, fun apart apart' => ?zero, ?compared, ?same, Instant.acrossMidnight_iff⟩
  case order =>
    rw [order, order_near ha hb, Option.some.injEq]
    exact Instant.cut_elapsed ha hb
  case zero =>
    have level : equals (subtract (dateTime a) (dateTime b)) (number 0) = true ↔
        order? (subtract (dateTime a) (dateTime b)) (number 0) = some .eq := equals_number_iff
    rw [level, order, (Instant.cut_elapsed ha hb).mpr ⟨apart, apart'⟩, Option.some.injEq]
    exact Instant.cut_eq_iff
  case compared => exact congrArg some compared.symm
  case same =>
    rw [equals_dateTime_iff]
    constructor
    · rintro rfl
      exact Instant.gap_self a
    · intro none
      rw [none] at compared
      exact Instant.eq_of_compare compared.symm

/-- Behind the middle of a leap second at the end of a day: the second behind the first of the next day, which is not
    across midnight from it, and midnight, which is. -/
theorem subtract_order_leap :
    let leap : Instant := ⟨1483228799, 1500000000⟩
    let later : Instant := ⟨1483228801, 0⟩
    let midnight : Instant := ⟨1483228800, 0⟩
    later.gap leap = 1500000000 ∧ order? (subtract (dateTime later) (dateTime leap)) (number 0) = some .gt ∧
      equals (subtract (dateTime later) (dateTime leap)) (number 0) = false ∧
      midnight.gap leap = 500000000 ∧ leap.AcrossMidnight midnight := by
  intro leap later midnight
  have hlater : later.Valid := by decide
  have hleap : leap.OnClock := by decide
  have hmidnight : midnight.OnClock := by decide
  have apart : ¬ later.AcrossMidnight leap := by decide
  have apart' : ¬ leap.AcrossMidnight later := by decide
  have far : ¬ later.Near leap := by decide
  obtain ⟨order, zero, -⟩ := subtract_order hlater hleap.1
  have order := order.mpr ⟨apart, apart'⟩
  rw [if_neg far] at order
  obtain ⟨-, -, -, -, across⟩ := subtract_order hleap.1 hmidnight.1
  refine ⟨by decide, order, ?_, by decide, (across hleap hmidnight).mpr (by decide)⟩
  exact Bool.eq_false_iff.mpr fun none => far ((zero apart apart').mp none)

/-- Four tenths of a millisecond make no difference. From the midnight behind a leap second to the middle of that second
    half a second passes, although midnight is later; and half a millisecond behind midnight is level with the start of
    the leap second, although it is more than a second later. -/
theorem subtract_order_differs :
    (¬ ∀ a b : Instant, a.Valid → b.Valid →
      order? (subtract (dateTime a) (dateTime b)) (number 0) = order? (dateTime a) (dateTime b)) ∧
      order? (subtract (dateTime ⟨1483228799, 1500000000⟩) (dateTime ⟨1483228800, 0⟩)) (number 0) = some .gt ∧
      order? (dateTime ⟨1483228799, 1500000000⟩) (dateTime ⟨1483228800, 0⟩) = some .lt ∧
      order? (subtract (dateTime ⟨1483228800, 500000⟩) (dateTime ⟨1483228799, 1000000000⟩)) (number 0) = some .eq ∧
      Instant.gap ⟨1483228800, 500000⟩ ⟨1483228799, 1000000000⟩ = 1000500000 := by
  refine ⟨fun agrees => ?_, by decide +kernel, by decide, by decide +kernel, by decide⟩
  have tick := agrees ⟨1704067200, 400000⟩ ⟨1704067200, 0⟩ (by decide) (by decide)
  have none : order? (subtract (dateTime ⟨1704067200, 400000⟩) (dateTime ⟨1704067200, 0⟩)) (number 0) = some .eq := by
    decide +kernel
  rw [none] at tick
  exact absurd tick (by decide)

end Value

end Groq
