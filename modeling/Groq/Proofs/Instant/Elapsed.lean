/-
  Groq.Proofs.Instant.Elapsed — the time between two instants, and what is counted of it.

  A leap second comes behind the second it is counted in and before the next. So of two instants the time between
  is longer by a second where the earlier lies in a leap second and the later in another second (`gap`); leap
  seconds that neither lies in are unknown. What is counted (`elapsed`) goes by the times of day: a leap second
  counts where the other instant has a later one. Behind midnight it has an earlier one, and there the count is
  short of a second for each of the two that lies in a leap second.
  Proved: the gap orders instants as they are compared (`compare_gap`), and cut to milliseconds the count stands
  to zero as the gap does, except where it is short and the gap is less than a millisecond longer than
  what is missing; there it never does (`cut_elapsed`).
-/

import Groq.Proofs.Instant.Written
import Groq.Proofs.Value.KeyOrder

namespace Groq.Instant

/-! ## The time between -/

/-- The nanosecond at which `t` stands where the leap second that `other` lies in passes before the second behind it. -/
def clockBeside (other t : Instant) : Int :=
  (t.seconds + if other.isLeap ∧ other.seconds < t.seconds then 1 else 0) * secondNanos + t.nanos

/-- Nanoseconds from `b` to `a`, a leap second that one of them lies in being as long as any other. -/
def gap (a b : Instant) : Int := clockBeside b a - clockBeside a b

/-- How many of the two lie in a leap second. -/
def leaps (a b : Instant) : Nat := (if a.isLeap then 1 else 0) + if b.isLeap then 1 else 0

/-- With midnight between them and one in a leap second, from `a` to `b` passes less than a millisecond more than
    the leap seconds last that they lie in. -/
def AcrossMidnight (a b : Instant) : Prop :=
  a.seconds < b.seconds ∧ b.secondOfDay < a.secondOfDay ∧ 0 < leaps a b ∧
    gap b a < leaps a b * secondNanos + 1000000

instance (a b : Instant) : Decidable (AcrossMidnight a b) :=
  inferInstanceAs (Decidable (_ ∧ _ ∧ _ ∧ _))

section Gap

variable {a b : Instant}

theorem gap_swap (a b : Instant) : gap b a = -gap a b := by
  unfold gap
  omega

theorem gap_self (t : Instant) : gap t t = 0 := Int.sub_self _

theorem leaps_le (a b : Instant) : leaps a b ≤ 2 := by
  unfold leaps
  cases a.isLeap <;> cases b.isLeap <;> decide

theorem eq_of_compare (h : compare a b = .eq) : a = b := by
  obtain ⟨seconds, nanos⟩ := Ordering.then_eq_eq.mp (show (compare a.seconds b.seconds).then _ = _ from h)
  obtain ⟨s, n⟩ := a
  obtain ⟨s', n'⟩ := b
  rw [show s = s' from compare_eq_iff_eq.mp seconds, show n = n' from compare_eq_iff_eq.mp nanos]

/-- To a later second the leap second of the earlier instant passes. -/
theorem gap_of_later (later : a.seconds < b.seconds) : gap b a =
    (b.seconds - a.seconds + if a.isLeap then 1 else 0) * secondNanos + ((b.nanos : Int) - a.nanos) := by
  have behind : ¬ (b.isLeap ∧ b.seconds < a.seconds) := fun h => by omega
  unfold gap clockBeside
  rw [if_neg behind]
  simp only [later, and_true]
  ring

/-- From an earlier instant time passes. -/
theorem gap_pos (ha : a.Valid) (earlier : a.seconds < b.seconds ∨ a.seconds = b.seconds ∧ a.nanos < b.nanos) :
    0 < gap b a := by
  have unit : secondNanos = 1000000000 := rfl
  have aNanos := ha.2
  rcases earlier with later | ⟨level, before⟩
  · rw [gap_of_later later]
    rw [unit] at aNanos ⊢
    split
    · omega
    · rename_i ordinary
      have ordinary : ¬ 1000000000 ≤ a.nanos := fun leap => ordinary (isLeap_iff.mpr leap)
      omega
  · unfold gap clockBeside
    rw [level]
    simp only [Int.lt_irrefl, and_false, if_false]
    omega

/-- Two instants are compared as the time between them stands to zero. -/
theorem compare_gap (ha : a.Valid) (hb : b.Valid) : compare (gap a b) 0 = compare a b := by
  rcases h : compare a b with _ | _ | _
  · have past := gap_pos ha ((Value.instantOrder_eq_lt a b).mp h)
    rw [gap_swap] at past
    exact compare_lt_iff_lt.mpr (by omega)
  · rw [eq_of_compare h]
    exact compare_eq_iff_eq.mpr (gap_self b)
  · rw [Value.instantOrder_swap, Ordering.swap_eq_gt] at h
    exact compare_gt_iff_gt.mpr (gap_pos hb ((Value.instantOrder_eq_lt b a).mp h))

/-- On clocks it is a leap second at the end of a day, and less than a second and a millisecond behind it. -/
theorem acrossMidnight_iff (ha : a.OnClock) (hb : b.OnClock) : AcrossMidnight a b ↔
    a.isLeap = true ∧ a.secondOfDay = 86399 ∧ a.seconds < b.seconds ∧ gap b a < 1001000000 := by
  have unit : secondNanos = 1000000000 := rfl
  have aNanos := ha.1.2
  have aClock := secondOfDay_eq a
  have bClock := secondOfDay_eq b
  rw [unit] at aNanos
  constructor
  · rintro ⟨later, midnight, some, close⟩
    have two := leaps_le a b
    have apart := gap_of_later later
    rw [unit] at close apart
    -- Within two seconds of midnight no minute ends but the day's.
    have early : ¬ b.isLeap = true := fun h => by
      have minute := hb.2 h
      split at apart <;> omega
    by_cases h : a.isLeap = true
    · have minute := ha.2 h
      have one : leaps a b = 1 := by
        unfold leaps
        rw [if_pos h, if_neg early]
      rw [if_pos h] at apart
      rw [one] at close
      refine ⟨h, ?_, later, ?_⟩
      · omega
      · omega
    · have none : leaps a b = 0 := by
        unfold leaps
        rw [if_neg h, if_neg early]
      omega
  · rintro ⟨h, last, later, close⟩
    have apart := gap_of_later later
    rw [if_pos h, unit] at apart
    have early : ¬ b.isLeap = true := fun h => by
      have minute := hb.2 h
      omega
    have one : leaps a b = 1 := by
      unfold leaps
      rw [if_pos h, if_neg early]
    unfold AcrossMidnight
    rw [one, unit]
    refine ⟨later, ?_, Nat.one_pos, ?_⟩
    · omega
    · omega

end Gap

/-! ## The time counted -/

/-- The leap second that the times of day of `a` and `b` have between them. -/
def leapBetween (a b : Instant) : Int :=
  match compare a.secondOfDay b.secondOfDay with
  | .gt => if b.isLeap then 1 else 0
  | .eq => 0
  | .lt => if a.isLeap then -1 else 0

/-- Nanoseconds from `b` to `a` as they are counted before they are cut to milliseconds. -/
def elapsed (a b : Instant) : Int :=
  (a.seconds - b.seconds + leapBetween a b) * secondNanos + ((a.nanos : Int) - b.nanos)

/-- How so many nanoseconds stand to zero where less than a millisecond is nothing. -/
def cut (n : Int) : Ordering := if n.natAbs < 1000000 then .eq else compare n 0

section Elapsed

variable {a b : Instant} {n : Int}

theorem cut_millis (n : Int) : compare (n.tdiv 1000000) 0 = cut n := by
  unfold cut
  rcases lt_trichotomy n 0 with negative | rfl | positive
  · have upwards : n.tdiv 1000000 = -(-n / 1000000) := by
      rw [← Int.tdiv_eq_ediv_of_nonneg (by omega), Int.neg_tdiv, Int.neg_neg]
    rw [upwards, compare_lt_iff_lt.mpr negative]
    split
    · exact compare_eq_iff_eq.mpr (by omega)
    · exact compare_lt_iff_lt.mpr (by omega)
  · rfl
  · rw [Int.tdiv_eq_ediv_of_nonneg positive.le, compare_gt_iff_gt.mpr positive]
    split
    · exact compare_eq_iff_eq.mpr (by omega)
    · exact compare_gt_iff_gt.mpr (by omega)

theorem cut_eq_iff : cut n = .eq ↔ n.natAbs < 1000000 := by
  unfold cut
  split
  · rename_i near
    exact iff_of_true rfl near
  · rename_i far
    rw [compare_eq_iff_eq]
    omega

theorem cut_gt (h : 1000000 ≤ n) : cut n = .gt := by
  unfold cut
  rw [if_neg (by omega)]
  exact compare_gt_iff_gt.mpr (by omega)

theorem cut_ne_gt (h : n < 1000000) : cut n ≠ .gt := by
  unfold cut
  split
  · exact nofun
  · rw [compare_lt_iff_lt.mpr (show n < 0 by omega)]
    exact nofun

/-- Less some seconds, a count stands to zero as before where a millisecond is left of it. -/
theorem cut_sub_iff {short : Int} (positive : 0 < n) (second : 1000000000 ≤ short) :
    cut (n - short) = cut n ↔ short + 1000000 ≤ n := by
  constructor
  · intro same
    by_cases near : n < 1000000
    · rw [cut_eq_iff.mpr (show n.natAbs < 1000000 by omega), cut_eq_iff] at same
      omega
    · rw [cut_gt (show 1000000 ≤ n by omega)] at same
      by_contra less
      exact cut_ne_gt (by omega) same
  · intro left
    rw [cut_gt (show 1000000 ≤ n - short by omega), cut_gt (by omega)]

theorem cut_neg (n : Int) : cut (-n) = (cut n).swap := by
  unfold cut
  rw [Int.natAbs_neg]
  split
  · rfl
  · rw [← Std.OrientedOrd.eq_swap]
    rcases lt_trichotomy n 0 with negative | rfl | positive
    · rw [compare_gt_iff_gt.mpr negative, compare_gt_iff_gt.mpr (show -n > 0 by omega)]
    · rfl
    · rw [compare_lt_iff_lt.mpr positive, compare_lt_iff_lt.mpr (show -n < 0 by omega)]

theorem millisSince_eq (a b : Instant) : a.millisSince b = (elapsed a b).tdiv 1000000 := rfl

theorem elapsed_swap (a b : Instant) : elapsed b a = -elapsed a b := by
  have leap : leapBetween b a = -leapBetween a b := by
    unfold leapBetween
    rw [Std.OrientedOrd.eq_swap (a := b.secondOfDay)]
    cases compare a.secondOfDay b.secondOfDay with
    | lt => cases a.isLeap <;> rfl
    | eq => rfl
    | gt => cases b.isLeap <;> rfl
  unfold elapsed
  rw [leap]
  ring

/-- Within a second no leap second counts. -/
theorem elapsed_of_level (level : a.seconds = b.seconds) : elapsed b a = gap b a := by
  have clocks : compare b.secondOfDay a.secondOfDay = .eq := by
    unfold secondOfDay
    rw [level]
    exact compare_eq_iff_eq.mpr rfl
  unfold elapsed leapBetween gap clockBeside
  rw [clocks, level]
  simp only [Int.lt_irrefl, and_false, if_false]
  ring

/-- Towards a later time of day the leap second counts. -/
theorem elapsed_of_clock (later : a.seconds < b.seconds) (clock : a.secondOfDay < b.secondOfDay) :
    elapsed b a = gap b a := by
  unfold elapsed leapBetween
  rw [compare_gt_iff_gt.mpr clock, gap_of_later later]

/-- Behind midnight the leap seconds of both are missing. -/
theorem elapsed_of_midnight (later : a.seconds < b.seconds) (midnight : b.secondOfDay < a.secondOfDay) :
    elapsed b a = gap b a - leaps a b * secondNanos := by
  have missing : leapBetween b a = (if a.isLeap then 1 else 0) - (leaps a b : Int) := by
    unfold leapBetween leaps
    rw [compare_lt_iff_lt.mpr midnight]
    dsimp only
    cases a.isLeap <;> cases b.isLeap <;> rfl
  unfold elapsed
  rw [missing, gap_of_later later]
  ring

/-- A day lies between two seconds with the same time of day, and no leap second counts. -/
theorem elapsed_of_day (ha : a.Valid) (later : a.seconds < b.seconds) (same : a.secondOfDay = b.secondOfDay) :
    1000000 ≤ elapsed b a ∧ elapsed b a ≤ gap b a := by
  have unit : secondNanos = 1000000000 := rfl
  have aNanos := ha.2
  have aClock := secondOfDay_eq a
  have bClock := secondOfDay_eq b
  unfold elapsed leapBetween
  rw [compare_eq_iff_eq.mpr same.symm, gap_of_later later]
  dsimp only
  rw [unit] at aNanos ⊢
  constructor
  · omega
  · split <;> omega

/-- To a later second. By the times of day: only behind midnight the count is short. -/
theorem cut_elapsed_of_later (ha : a.Valid) (later : a.seconds < b.seconds) :
    cut (elapsed b a) = cut (gap b a) ↔ ¬ AcrossMidnight a b := by
  have past := gap_pos ha (.inl later)
  rcases lt_trichotomy a.secondOfDay b.secondOfDay with clock | same | midnight
  · rw [elapsed_of_clock later clock]
    exact iff_of_true rfl fun across => absurd across.2.1 (Nat.lt_asymm clock)
  · obtain ⟨day, longer⟩ := elapsed_of_day ha later same
    rw [cut_gt day, cut_gt (Int.le_trans day longer)]
    exact iff_of_true rfl fun across => absurd same (Nat.ne_of_gt across.2.1)
  · rw [elapsed_of_midnight later midnight]
    unfold AcrossMidnight
    rcases Nat.eq_zero_or_pos (leaps a b) with none | some
    · rw [none]
      exact iff_of_true (by simp) fun across => absurd across.2.2.1 (Nat.lt_irrefl 0)
    · have second : 1000000000 ≤ (leaps a b : Int) * secondNanos := by
        rw [show secondNanos = 1000000000 from rfl]
        omega
      rw [cut_sub_iff past second, ← Int.not_lt]
      exact not_congr ⟨fun close => ⟨later, midnight, some, close⟩, fun across => across.2.2.2⟩

/-- Cut to milliseconds, the count stands to zero as the gap just where midnight does not take the leap seconds away. -/
theorem cut_elapsed (ha : a.Valid) (hb : b.Valid) :
    cut (elapsed a b) = cut (gap a b) ↔ ¬ AcrossMidnight a b ∧ ¬ AcrossMidnight b a := by
  have not_across {a b : Instant} (h : ¬ a.seconds < b.seconds) : ¬ AcrossMidnight a b := fun across => h across.1
  rcases lt_trichotomy a.seconds b.seconds with later | level | earlier
  · rw [elapsed_swap b a, gap_swap b a, cut_neg, cut_neg, Ordering.swap_inj, cut_elapsed_of_later ha later]
    exact (and_iff_left (not_across (by omega))).symm
  · rw [elapsed_of_level level.symm]
    exact iff_of_true rfl ⟨not_across (by omega), not_across (by omega)⟩
  · rw [cut_elapsed_of_later hb earlier]
    exact (and_iff_right (not_across (by omega))).symm

end Elapsed

end Groq.Instant
