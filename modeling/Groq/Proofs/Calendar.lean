/-
  Groq.Proofs.Calendar — every day has a date.

  The years before a day are counted off in groups of 400, 100, 4 and 1. The last century of 400 years and the
  last year of four may be a day longer than the others, and the quotients are capped so that this day stays with
  them (`year_spec`); the months of the year then are counted off one by one (`monthAndDay_spec`).
  Proved: the date of a day is one of the calendar (`isValid_ofDayNumber`), and its number is that of the day
  (`dayNumber_ofDayNumber`).
-/

import Groq.Calendar
import Mathlib.Algebra.BigOperators.Group.List.Basic
import Mathlib.Algebra.Order.Ring.Int

namespace Groq.Date

/-! ## Years -/

theorem isLeapYear_iff (year : Int) : isLeapYear year = true ↔ year % 4 = 0 ∧ (year % 100 ≠ 0 ∨ year % 400 = 0) := by
  simp [isLeapYear]

def yearLength (year : Int) : Nat := (monthLengths year).sum

theorem yearLength_eq (year : Int) : yearLength year = if isLeapYear year then 366 else 365 := by
  unfold yearLength monthLengths
  cases isLeapYear year <;> rfl

section Groups

variable {centuries groups years : Int}

theorem daysBeforeYear_groups (cycles : Int) (centuries_le : 0 ≤ centuries ∧ centuries ≤ 3)
    (groups_le : 0 ≤ groups ∧ groups ≤ 24) (years_le : 0 ≤ years ∧ years ≤ 3) :
    daysBeforeYear (cycles * 400 + centuries * 100 + groups * 4 + years + 1) =
      cycles * 146097 + centuries * 36524 + groups * 1461 + years * 365 := by
  unfold daysBeforeYear
  dsimp only
  omega

/-- The last of four years, but not of a century unless that is the last of four. -/
theorem isLeapYear_groups (cycles : Int) (centuries_le : 0 ≤ centuries ∧ centuries ≤ 3)
    (groups_le : 0 ≤ groups ∧ groups ≤ 24) (years_le : 0 ≤ years ∧ years ≤ 3) :
    isLeapYear (cycles * 400 + centuries * 100 + groups * 4 + years + 1) = true ↔
      years = 3 ∧ (groups ≠ 24 ∨ centuries = 3) := by
  rw [isLeapYear_iff]
  omega

end Groups

/-- The year of a day, and the days of that year before it. -/
theorem year_spec (n : Int) : ∃ year : Int, ∃ rest : Nat,
    ofDayNumber n = ⟨year, (monthAndDay 1 (monthLengths year) rest).1, (monthAndDay 1 (monthLengths year) rest).2⟩ ∧
      rest < yearLength year ∧ n = daysBeforeYear year + rest := by
  let cycles := n / 146097
  let inCycle := n % 146097
  let centuries := min (inCycle / 36524) 3
  let inCentury := inCycle - centuries * 36524
  let groups := inCentury / 1461
  let inGroup := inCentury % 1461
  let years := min (inGroup / 365) 3
  have centuries_le : 0 ≤ centuries ∧ centuries ≤ 3 := by omega
  have groups_le : 0 ≤ groups ∧ groups ≤ 24 := by omega
  have years_le : 0 ≤ years ∧ years ≤ 3 := by omega
  have before := daysBeforeYear_groups cycles centuries_le groups_le years_le
  have leap := isLeapYear_groups cycles centuries_le groups_le years_le
  refine ⟨cycles * 400 + centuries * 100 + groups * 4 + years + 1, (inGroup - years * 365).toNat, rfl, ?_, ?_⟩
  · rw [yearLength_eq]
    split
    · omega
    · rename_i common
      have common := mt leap.mpr common
      omega
  · rw [before]
    omega

/-! ## Months -/

/-- The month in whose days the rest falls, the days of the months before it taken away. -/
theorem monthAndDay_spec (month : Nat) {lengths : List Nat} {rest : Nat} (inside : rest < lengths.sum) :
    ∃ i length, monthAndDay month lengths rest = (month + i, rest - (lengths.take i).sum + 1) ∧
      lengths[i]? = some length ∧ (lengths.take i).sum ≤ rest ∧ rest < (lengths.take i).sum + length := by
  induction lengths generalizing month rest with
  | nil => exact absurd inside (Nat.not_lt_zero rest)
  | cons length later ih =>
    rw [List.sum_cons] at inside
    unfold monthAndDay
    split
    · rename_i here
      have short : rest < length := by
        rcases here with short | rfl
        · exact short
        · exact inside
      exact ⟨0, length, rfl, rfl, Nat.zero_le rest, (Nat.zero_add length).symm ▸ short⟩
    · rename_i there
      have remaining : rest - length < later.sum := by omega
      obtain ⟨i, length', found, stands, low, high⟩ := ih (month + 1) remaining
      refine ⟨i + 1, length', ?_, stands, ?_, ?_⟩
      · rw [found, List.take_succ_cons, List.sum_cons, Nat.sub_add_eq, Nat.add_right_comm, Nat.add_assoc]
      · rw [List.take_succ_cons, List.sum_cons]
        omega
      · rw [List.take_succ_cons, List.sum_cons]
        omega

theorem ofDayNumber_spec (n : Int) : (ofDayNumber n).isValid = true ∧ (ofDayNumber n).dayNumber = n := by
  obtain ⟨year, rest, date, inside, number⟩ := year_spec n
  obtain ⟨i, length, found, stands, low, high⟩ := monthAndDay_spec 1 inside
  have month : 1 + i - 1 = i := Nat.add_sub_cancel_left 1 i
  rw [date, found]
  dsimp only
  constructor
  · unfold isValid
    dsimp only
    rw [month, stands]
    simp only [Bool.and_eq_true, decide_eq_true_eq]
    omega
  · unfold dayNumber daysBeforeMonth
    dsimp only
    rw [month, ← List.sum_eq_foldl_nat, number]
    omega

theorem isValid_ofDayNumber (n : Int) : (ofDayNumber n).isValid = true := (ofDayNumber_spec n).1

theorem dayNumber_ofDayNumber (n : Int) : (ofDayNumber n).dayNumber = n := (ofDayNumber_spec n).2

end Groq.Date
