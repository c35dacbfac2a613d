/-
  Groq.Proofs.Instant.Range — instants stay within the calendar.

  An instant is valid where its second lies in the supported years and its nanoseconds within the
  second, leap seconds included.
  Proved: text is read as a valid instant (`ofText_valid`), moving a valid instant gives a valid one
  (`advance_valid`), and the milliseconds between two valid instants fit in 60 bits (`millisSince_lt`).
-/

import Groq.Instant.Text
import Groq.Proofs.Text.Digits
import Mathlib.Algebra.Order.Ring.Int

namespace Groq.Instant

def Valid (t : Instant) : Prop := t.inRange = true ∧ t.nanos < 2 * secondNanos

instance : DecidablePred Valid := fun t => inferInstanceAs (Decidable (t.inRange = true ∧ t.nanos < 2 * secondNanos))

theorem inRange_iff {t : Instant} :
    t.inRange = true ↔ -8334601228800 ≤ t.seconds ∧ t.seconds < 8210266876800 := by
  have first : startOfYear firstYear = -8334601228800 := by decide
  have last : startOfYear (lastYear + 1) = 8210266876800 := by decide
  unfold inRange
  rw [first, last, Bool.and_eq_true, decide_eq_true_eq, decide_eq_true_eq]

theorem isLeap_iff {t : Instant} : t.isLeap = true ↔ 1000000000 ≤ t.nanos := decide_eq_true_iff

theorem secondOfDay_eq (t : Instant) : (t.secondOfDay : Int) = t.seconds % 86400 :=
  Int.toNat_of_nonneg (Int.emod_nonneg _ (by decide))

/-! ## Reading -/

section Reading

variable {cs rest : List Char} {n count : Nat}

theorem takeNumber_lt (h : takeNumber? count cs = some (n, rest)) : n < 10 ^ count := by
  unfold takeNumber? at h
  dsimp only at h
  split at h
  · rename_i digits
    cases h
    have value := Text.decimalValue_lt (List.all_eq_true.mp digits.2)
    rwa [digits.1] at value
  · cases h

theorem takeFraction_lt (h : takeFraction? cs = some (n, rest)) : n < secondNanos := by
  unfold takeFraction? at h
  split at h
  · rename_i cs'
    dsimp only at h
    split at h
    · cases h
    · cases h
      let kept := (Text.takeDigits cs').1.take 9
      have digits : ∀ c ∈ kept, c.isDigit = true :=
        fun c mem => List.all_eq_true.mp List.all_takeWhile c (List.mem_of_mem_take mem)
      have short : kept.length ≤ 9 := List.length_take_le _ _
      calc Text.decimalValue kept * 10 ^ (9 - kept.length)
          < 10 ^ kept.length * 10 ^ (9 - kept.length) :=
            Nat.mul_lt_mul_of_pos_right (Text.decimalValue_lt digits) (Nat.pow_pos (by decide))
        _ = secondNanos := by
            rw [← Nat.pow_add, Nat.add_sub_cancel' short]
            rfl
  · cases h
    decide

theorem clock_lt {sign minutes : Int} (unit : sign.natAbs = 1) {hour minute : Nat}
    (h : (if rest = [] ∧ minute ≤ 59 ∧ hour ≤ 23 then some (sign * (60 * (hour : Int) + minute)) else none) =
      some minutes) : minutes.natAbs < 1440 := by
  split at h
  · rename_i clock
    cases h
    rw [Int.natAbs_mul, unit]
    omega
  · cases h

theorem offset_lt {minutes : Int} (h : offset? cs = some minutes) : minutes.natAbs < 1440 := by
  unfold offset? at h
  split at h
  · cases h
  · split at h
    · split at h
      · cases h
        decide
      · cases h
    · simp only [Option.bind_eq_bind] at h
      split at h
      · simp only [Option.bind_some, Option.bind_eq_some_iff] at h
        obtain ⟨_, -, _, -, _, -, h⟩ := h
        exact clock_lt rfl h
      · split at h
        · simp only [Option.bind_some, Option.bind_eq_some_iff] at h
          obtain ⟨_, -, _, -, _, -, h⟩ := h
          exact clock_lt rfl h
        · cases h

theorem monthLengths_le (year : Int) : ∀ length ∈ Date.monthLengths year, length ≤ 31 := by
  unfold Date.monthLengths
  cases Date.isLeapYear year <;> decide

theorem daysBeforeMonth_le (year : Int) {month : Nat} (h : month ≤ 12) : Date.daysBeforeMonth year month ≤ 366 := by
  unfold Date.daysBeforeMonth Date.monthLengths
  revert month
  cases Date.isLeapYear year <;> decide

theorem dayNumber_lt {d : Date} (valid : d.isValid = true) (year : d.year.natAbs < 10 ^ 4) :
    d.dayNumber.natAbs < 4 * 10 ^ 6 := by
  obtain ⟨⟨-, -⟩, known⟩ : (1 ≤ d.month ∧ 1 ≤ d.day) ∧ _ := by
    simpa only [Date.isValid, Bool.and_eq_true, decide_eq_true_eq] using valid
  split at known
  · rename_i length found
    obtain ⟨month, rfl⟩ := List.getElem?_eq_some_iff.mp found
    have day := monthLengths_le d.year _ (List.getElem_mem month)
    have before := daysBeforeMonth_le d.year (show d.month ≤ 12 from Nat.le_of_pred_lt month)
    have shown := of_decide_eq_true known
    unfold Date.dayNumber Date.daysBeforeYear
    dsimp only
    omega
  · cases known

theorem ofText_valid {s : String} {t : Instant} (h : ofText? s = some t) : t.Valid := by
  unfold ofText? ofChars? at h
  simp only [Option.bind_eq_bind, Option.bind_eq_some_iff] at h
  obtain ⟨⟨year, _⟩, hyear, _, -, ⟨month, _⟩, -, _, -, ⟨day, _⟩, -, _, -, ⟨hour, _⟩, -, _, -, ⟨minute, _⟩, -, _, -,
    ⟨second, _⟩, -, ⟨nanos, _⟩, hnanos, offset, hoffset, h⟩ := h
  have year := takeNumber_lt hyear
  have nanos := takeFraction_lt hnanos
  have offset := offset_lt hoffset
  unfold ofFields? at h
  dsimp only at h
  split at h
  · rename_i fields
    cases h
    have days := dayNumber_lt fields.1 (by dsimp only; omega)
    refine ⟨?_, ?_⟩
    · have unit : daySeconds = 86400 := rfl
      have epoch : epochDay = 719162 := rfl
      rw [inRange_iff, unit, epoch]
      dsimp only
      omega
    · dsimp only
      split <;> omega
  · cases h

end Reading

/-! ## Moving -/

theorem carry_nanos (seconds nanos : Int) : (carry seconds nanos).nanos < 2 * secondNanos := by
  unfold carry secondNanos
  dsimp only
  omega

theorem advance_valid {t later : Instant} {millis : Int} (h : t.advance? millis = some later) : later.Valid := by
  unfold advance? at h
  dsimp only at h
  split at h
  · rename_i inRange
    cases h
    refine ⟨inRange, ?_⟩
    unfold moved
    dsimp only
    have unit : secondNanos = 1000000000 := rfl
    split
    · split
      · exact carry_nanos _ _
      · split
        · exact carry_nanos _ _
        · dsimp only
          omega
    · exact carry_nanos _ _
  · cases h

/-- Wherever leap seconds are counted. -/
theorem millis_lt {a b : Instant} (ha : a.Valid) (hb : b.Valid) {passed : Int} (leap : passed.natAbs ≤ 1) :
    (((a.seconds - b.seconds + passed) * secondNanos + ((a.nanos : Int) - b.nanos)).tdiv 1000000).natAbs < 2 ^ 60 := by
  obtain ⟨aRange, aNanos⟩ := ha
  obtain ⟨bRange, bNanos⟩ := hb
  have unit : secondNanos = 1000000000 := rfl
  rw [inRange_iff] at aRange bRange
  rw [unit] at aNanos bNanos ⊢
  have bound : ((a.seconds - b.seconds + passed) * (1000000000 : Nat) + ((a.nanos : Int) - b.nanos)).natAbs <
      2 ^ 60 * 1000000 := by omega
  rw [Int.natAbs_tdiv]
  exact (Nat.div_lt_iff_lt_mul (by decide)).mpr bound

theorem millisSince_lt {a b : Instant} (ha : a.Valid) (hb : b.Valid) : (a.millisSince b).natAbs < 2 ^ 60 := by
  unfold millisSince
  apply millis_lt ha hb
  split
  · split <;> decide
  · decide
  · split <;> decide

end Groq.Instant
