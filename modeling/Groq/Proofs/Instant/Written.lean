/-
  Groq.Proofs.Instant.Written — instants are read back from their text.

  Text is written field by field, each with as many digits as the reader takes, and a leap second as second 60
  of its minute. That takes an instant whose leap second ends a minute, as clocks show it (`OnClock`): what is read is
  such an instant, and stays one when it is moved. And it takes a year of four digits: any other is written
  with a sign, which the reader refuses.
  Proved: reading gives the instant whose text it is, or nothing where the year has a sign (`ofText_toText`).
-/

import Groq.Proofs.Calendar
import Groq.Proofs.Instant.Range

namespace Groq.Instant

/-! ## Digits -/

section Digits

variable {width n : Nat} {rest : List Char}

theorem padded_isDigit (width n : Nat) : ∀ c ∈ padded width n, c.isDigit = true := by
  intro c mem
  rcases List.mem_append.mp mem with zero | digit
  · rw [List.eq_of_mem_replicate zero]
    rfl
  · exact Nat.isDigit_of_mem_toDigits (by decide) (Nat.le_refl 10) digit

theorem length_padded (positive : 0 < width) (fits : n < 10 ^ width) : (padded width n).length = width := by
  have short : (Nat.toDigits 10 n).length ≤ width := (Nat.length_toDigits_le_iff (by decide) positive).mpr fits
  unfold padded
  dsimp only
  rw [List.length_append, List.length_replicate]
  omega

theorem decimalValue_zeros (count : Nat) (digits : List Char) :
    Text.decimalValue (List.replicate count '0' ++ digits) = Text.decimalValue digits := by
  induction count with
  | zero => rfl
  | succ count ih => exact ih

theorem decimalValue_padded (width n : Nat) : Text.decimalValue (padded width n) = n :=
  (decimalValue_zeros _ _).trans (Text.decimalValue_toDigits n)

/-- A number is read from its digits, whatever stands behind them. -/
theorem takeNumber_padded (positive : 0 < width) (fits : n < 10 ^ width) (rest : List Char) :
    takeNumber? width (padded width n ++ rest) = some (n, rest) := by
  have length := length_padded positive fits
  unfold takeNumber?
  dsimp only
  rw [List.take_left' length, List.drop_left' length,
    if_pos ⟨length, List.all_eq_true.mpr (padded_isDigit width n)⟩, decimalValue_padded]

theorem takeNumber_sign {c : Char} (sign : c.isDigit = false) (positive : 0 < width) (rest : List Char) :
    takeNumber? width (c :: rest) = none := by
  obtain ⟨count, rfl⟩ := Nat.exists_eq_add_one_of_ne_zero positive.ne'
  unfold takeNumber?
  dsimp only
  rw [if_neg]
  rintro ⟨-, digits⟩
  rw [List.take_succ_cons, List.all_cons, sign] at digits
  cases digits

theorem skip_self (c : Char) (rest : List Char) : skip? c (c :: rest) = some rest := if_pos rfl

theorem skipSeparator_T (rest : List Char) : skipSeparator? ('T' :: rest) = some rest := rfl

theorem takeFraction_padded (positive : 0 < width) (short : width ≤ 9) (fits : n < 10 ^ width) :
    takeFraction? ('.' :: padded width n ++ ['Z']) = some (n * 10 ^ (9 - width), ['Z']) := by
  have digits : Text.takeDigits (padded width n ++ ['Z']) = (padded width n, ['Z']) := by
    unfold Text.takeDigits
    rw [List.takeWhile_append_of_pos (padded_isDigit width n), List.dropWhile_append_of_pos (padded_isDigit width n)]
    exact Prod.ext (List.append_nil _) rfl
  have length := length_padded positive fits
  have nonempty : padded width n ≠ [] := by
    intro none
    rw [none] at length
    exact positive.ne length
  have all : (padded width n).take 9 = padded width n := List.take_of_length_le (length.le.trans short)
  rw [List.cons_append]
  simp only [takeFraction?, digits, if_neg nonempty, all, decimalValue_padded, length, Nat.pow_eq]

/-- The digits of a fraction are exact, whether there are none, 3, 6 or 9. -/
theorem takeFraction_nanos {nanos : Nat} (fits : nanos < secondNanos) :
    takeFraction? (fractionChars nanos ++ ['Z']) = some (nanos, ['Z']) := by
  have unit : secondNanos = 10 ^ 9 := rfl
  unfold fractionChars
  split_ifs with none millis micros
  · rw [none]
    rfl
  · rw [takeFraction_padded (by decide) (by decide) (by omega)]
    exact congrArg (fun n => some (n, ['Z'])) (Nat.div_mul_cancel (Nat.dvd_of_mod_eq_zero millis))
  · rw [takeFraction_padded (by decide) (by decide) (by omega)]
    exact congrArg (fun n => some (n, ['Z'])) (Nat.div_mul_cancel (Nat.dvd_of_mod_eq_zero micros))
  · rw [takeFraction_padded (by decide) (by decide) (by omega)]
    exact congrArg (fun n => some (n, ['Z'])) (Nat.mul_one nanos)

end Digits

/-! ## Instants that clocks show -/

/-- A leap second ends a minute. -/
def OnClock (t : Instant) : Prop := t.Valid ∧ (t.isLeap = true → t.seconds % 60 = 59)

instance : DecidablePred OnClock := fun t =>
  inferInstanceAs (Decidable (t.Valid ∧ (t.isLeap = true → t.seconds % 60 = 59)))

/-- Text has a leap second as second 60 of a minute, and offsets have whole minutes. -/
theorem ofText_onClock {s : String} {t : Instant} (h : ofText? s = some t) : t.OnClock := by
  refine ⟨ofText_valid h, fun leap => ?_⟩
  rw [isLeap_iff] at leap
  unfold ofText? ofChars? at h
  simp only [Option.bind_eq_bind, Option.bind_eq_some_iff] at h
  obtain ⟨_, -, _, -, _, -, _, -, _, -, _, -, ⟨hour, _⟩, -, _, -, ⟨minute, _⟩, -, _, -, ⟨second, _⟩, -,
    ⟨nanos, _⟩, hnanos, offset, -, h⟩ := h
  have short := takeFraction_lt hnanos
  have unit : secondNanos = 1000000000 := rfl
  have day : daySeconds = 86400 := rfl
  unfold ofFields? at h
  dsimp only at h
  split at h
  · rename_i fields
    cases h
    dsimp only at leap ⊢
    rw [unit] at leap short
    rw [day]
    split at leap
    · rename_i sixty
      rw [sixty]
      omega
    · omega
  · cases h

theorem carry_ordinary (seconds nanos : Int) : (carry seconds nanos).nanos < secondNanos := by
  unfold carry secondNanos
  dsimp only
  omega

/-- A leap second is left as it is or left behind. -/
theorem advance_onClock {t later : Instant} {millis : Int} (ht : t.OnClock) (h : t.advance? millis = some later) :
    later.OnClock := by
  refine ⟨advance_valid h, fun leap => ?_⟩
  rw [isLeap_iff] at leap
  have unit : secondNanos = 1000000000 := rfl
  have ordinary (seconds nanos : Int) : ¬ 1000000000 ≤ (carry seconds nanos).nanos :=
    Nat.not_le_of_lt (carry_ordinary seconds nanos)
  unfold advance? at h
  dsimp only at h
  split at h
  · cases h
    unfold moved at leap ⊢
    dsimp only at leap ⊢
    split_ifs at leap ⊢ with was
    · exact absurd leap (ordinary _ _)
    · exact absurd leap (ordinary _ _)
    · exact ht.2 was
    · exact absurd leap (ordinary _ _)
  · cases h

/-! ## Reading what is written -/

/-- A year that is written without a sign. -/
def FourDigitYear (t : Instant) : Prop := 0 ≤ t.date.year ∧ t.date.year ≤ 9999

instance : DecidablePred FourDigitYear := fun t =>
  inferInstanceAs (Decidable (0 ≤ t.date.year ∧ t.date.year ≤ 9999))

theorem date_lt {d : Date} (valid : d.isValid = true) : d.month < 10 ^ 2 ∧ d.day < 10 ^ 2 := by
  obtain ⟨-, known⟩ : (1 ≤ d.month ∧ 1 ≤ d.day) ∧ _ := by
    simpa only [Date.isValid, Bool.and_eq_true, decide_eq_true_eq] using valid
  split at known
  · rename_i length found
    obtain ⟨month, rfl⟩ := List.getElem?_eq_some_iff.mp found
    have day := monthLengths_le d.year _ (List.getElem_mem month)
    have months : d.month - 1 < 12 := month
    have shown := of_decide_eq_true known
    omega
  · cases known

/-- The fields of an instant, put together again. -/
theorem ofFields_self {t : Instant} (clock : t.OnClock) :
    ofFields? t.date (t.secondOfDay / 3600) (t.secondOfDay / 60 % 60) (t.secondOfDay % 60 + (if t.isLeap then 1 else 0))
      (if t.isLeap then t.nanos - secondNanos else t.nanos) 0 = some t := by
  have valid : t.date.isValid = true := Date.isValid_ofDayNumber _
  have number : t.date.dayNumber = t.seconds / daySeconds + epochDay := Date.dayNumber_ofDayNumber _
  have ofDay := secondOfDay_eq t
  have day : daySeconds = 86400 := rfl
  have unit : secondNanos = 1000000000 := rfl
  have ended := clock.2
  have same {s : Int} {n : Nat} (seconds : s = t.seconds) (nanos : n = t.nanos) : some (Instant.mk s n) = some t := by
    rw [seconds, nanos]
  unfold ofFields?
  cases leap : t.isLeap with
  | false =>
    simp only [if_neg Bool.false_ne_true, Nat.add_zero]
    rw [if_pos ⟨valid, by omega, by omega, by omega⟩, number, day]
    refine same ?_ ?_
    · omega
    · rw [if_neg (by omega), Nat.add_zero]
  | true =>
    have minuteEnd := ended leap
    have nanos := isLeap_iff.mp leap
    simp only [if_true]
    rw [if_pos ⟨valid, by omega, by omega, by omega⟩, number, day]
    refine same ?_ ?_
    · omega
    · rw [if_pos (by omega), unit]
      omega

theorem yearChars_short {year : Int} (short : 0 ≤ year ∧ year ≤ 9999) : yearChars year = padded 4 year.toNat :=
  if_pos short

theorem yearChars_signed {year : Int} (long : ¬ (0 ≤ year ∧ year ≤ 9999)) :
    ∃ c rest, yearChars year = c :: rest ∧ c.isDigit = false := by
  unfold yearChars
  rw [if_neg long]
  split
  · exact ⟨'-', _, rfl, rfl⟩
  · exact ⟨'+', _, rfl, rfl⟩

theorem ofText_toText {t : Instant} (clock : t.OnClock) :
    ofText? t.toText = if t.FourDigitYear then some t else none := by
  unfold ofText? toText
  rw [String.toList_ofList]
  by_cases short : t.FourDigitYear
  · rw [if_pos short]
    have whole := ofFields_self clock
    obtain ⟨month, day⟩ := date_lt (d := t.date) (Date.isValid_ofDayNumber _)
    have ofDay := secondOfDay_eq t
    have year : t.date.year.toNat < 10 ^ 4 := by
      have := short.2
      omega
    have same : ((t.date.year.toNat : Nat) : Int) = t.date.year := Int.toNat_of_nonneg short.1
    have hour : t.secondOfDay / 3600 < 10 ^ 2 := by omega
    have minute : t.secondOfDay / 60 % 60 < 10 ^ 2 := by omega
    have second : t.secondOfDay % 60 + (if t.isLeap then 1 else 0) < 10 ^ 2 := by
      split <;> omega
    have nanos : (if t.isLeap then t.nanos - secondNanos else t.nanos) < secondNanos := by
      have bound := clock.1.2
      split
      · omega
      · rename_i ordinary
        exact Nat.lt_of_not_le (fun long => ordinary (isLeap_iff.mpr long))
    unfold ofChars? toChars
    dsimp only
    rw [yearChars_short short]
    simp only [List.append_assoc, List.cons_append, takeNumber_padded (by decide) year,
      takeNumber_padded (by decide) month, takeNumber_padded (by decide) day, takeNumber_padded (by decide) hour,
      takeNumber_padded (by decide) minute, takeNumber_padded (by decide) second, takeFraction_nanos nanos, skip_self,
      skipSeparator_T, Option.bind_eq_bind, Option.bind_some, same]
    exact whole
  · rw [if_neg short]
    obtain ⟨c, rest, signed, sign⟩ := yearChars_signed short
    unfold ofChars? toChars
    dsimp only
    simp only [List.append_assoc, signed, List.cons_append, takeNumber_sign sign (show 0 < 4 by decide)]
    rfl

end Groq.Instant
