/-
  Groq.Proofs.Eval.Instants — the instants a query gets, and their text.

  An instant comes from the clock, from text, or from another that is moved by seconds. Leap seconds come from
  text alone and stay within their minute when moved, so every such instant has its leap second where clocks have
  it (`Produced.onClock`). Moving takes an instant to years that text has no four digits for.
  Proved: such an instant is read back from its text and equals it, both ways round, in a year of four digits;
  in any other it is neither (`dateTime_text`).
-/

import Groq.Eval.Call
import Groq.Proofs.Instant.Written
import Groq.Proofs.Value.Equality
import Groq.Value.Arithmetic

namespace Groq

open Value (dateTime string number)

/-- The instants of a query at the time `now`. -/
inductive Produced (now : Instant) : Instant → Prop
  | now : Produced now now
  | read {s : String} {t : Instant} : Call.toDateTime (string s) = dateTime t → Produced now t
  | later {t later : Instant} {seconds : Float} : Produced now t →
      Value.add (dateTime t) (number seconds) = dateTime later → Produced now later
  | earlier {t earlier : Instant} {seconds : Float} : Produced now t →
      Value.subtract (dateTime t) (number seconds) = dateTime earlier → Produced now earlier

section Produced

variable {now t later : Instant}

theorem toDateTime_eq_iff {s : String} : Call.toDateTime (string s) = dateTime t ↔ Instant.ofText? s = some t := by
  change ((Instant.ofText? s).map dateTime).getD .null = dateTime t ↔ _
  cases Instant.ofText? s with
  | none => exact iff_of_false nofun nofun
  | some read => simp only [Option.map_some, Option.getD_some, Value.dateTime.injEq, Option.some.injEq]

theorem shift_eq_iff {seconds : Float} : Value.shift t seconds = dateTime later ↔
    ((Double.parts? (seconds * 1000)).bind fun millis => t.advance? millis.nearestWhole) = some later := by
  unfold Value.shift
  cases (Double.parts? (seconds * 1000)).bind fun millis => t.advance? millis.nearestWhole with
  | none => exact iff_of_false nofun nofun
  | some moved => simp only [Value.dateTime.injEq, Option.some.injEq]

theorem add_seconds (t : Instant) (seconds : Float) :
    Value.add (dateTime t) (number seconds) = Value.shift t seconds := rfl

theorem shift_onClock {seconds : Float} (clock : t.OnClock) (h : Value.shift t seconds = dateTime later) :
    later.OnClock := by
  obtain ⟨millis, -, moved⟩ := Option.bind_eq_some_iff.mp (shift_eq_iff.mp h)
  exact Instant.advance_onClock clock moved

theorem Produced.onClock (clock : now.OnClock) (h : Produced now t) : t.OnClock := by
  induction h with
  | now => exact clock
  | read read => exact Instant.ofText_onClock (toDateTime_eq_iff.mp read)
  | later _ moved ih => exact shift_onClock ih moved
  | earlier _ moved ih => exact shift_onClock ih moved

/-! ## Text -/

theorem equals_text_iff (s : String) (t : Instant) :
    Value.equals (dateTime t) (string s) = true ↔ Instant.ofText? s = some t := by
  change (Value.readsAs s t || false) = true ↔ _
  rw [Bool.or_false]
  exact beq_iff_eq

/-- An instant is what its text is read as, and equals its text, where its year has four digits. The text of any
    other is read as nothing. -/
theorem dateTime_text (clock : now.OnClock) (produced : Produced now t) :
    Call.toDateTime (dateTime t).toPlainString = (if t.FourDigitYear then dateTime t else .null) ∧
      (Value.equals (dateTime t) (dateTime t).toPlainString = true ↔ t.FourDigitYear) ∧
      (Value.equals (dateTime t).toPlainString (dateTime t) = true ↔ t.FourDigitYear) := by
  have read := Instant.ofText_toText (produced.onClock clock)
  have text : (dateTime t).toPlainString = string t.toText := rfl
  have equal : Value.equals (dateTime t) (dateTime t).toPlainString = true ↔ t.FourDigitYear := by
    rw [text, equals_text_iff, read]
    split
    · rename_i short
      exact iff_of_true rfl short
    · rename_i long
      exact iff_of_false nofun long
  refine ⟨?_, equal, ?_⟩
  · rw [text]
    change ((Instant.ofText? t.toText).map dateTime).getD .null = _
    rw [read]
    split <;> rfl
  · rw [Value.equals_symm]
    exact equal

/-- A quarter of a second into a leap second, moved on within it. -/
theorem dateTime_text_leap :
    let now : Instant := ⟨1700000000, 0⟩
    let read : Instant := ⟨1483228799, 1250000000⟩
    let later : Instant := ⟨1483228799, 1750000000⟩
    now.OnClock ∧ Call.toDateTime (string "2016-12-31T23:59:60.25Z") = dateTime read ∧
      Value.add (dateTime read) (number 0.5) = dateTime later ∧
      Call.toDateTime (dateTime later).toPlainString = dateTime later := by
  intro now read later
  have clock : now.OnClock := by decide
  have first : Call.toDateTime (string "2016-12-31T23:59:60.25Z") = dateTime read :=
    toDateTime_eq_iff.mpr (by decide +kernel)
  have second : Value.add (dateTime read) (number 0.5) = dateTime later := by
    rw [add_seconds, shift_eq_iff]
    decide +kernel
  have text := (dateTime_text clock (.later (.read first) second)).1
  rw [if_pos (by decide)] at text
  exact ⟨clock, first, second, text⟩

/-- The second behind the year 9999. -/
theorem dateTime_text_differs : ¬ ∀ now t : Instant, now.OnClock → Produced now t →
    Call.toDateTime (dateTime t).toPlainString = dateTime t := by
  intro survives
  have last : Instant.OnClock ⟨253402300799, 0⟩ := by decide
  have moved : Value.add (dateTime ⟨253402300799, 0⟩) (number 1) = dateTime ⟨253402300800, 0⟩ := by
    rw [add_seconds, shift_eq_iff]
    decide +kernel
  have read := survives ⟨253402300799, 0⟩ ⟨253402300800, 0⟩ last (.later .now moved)
  exact absurd (toDateTime_eq_iff.mp read) (by decide +kernel)

end Produced

end Groq
