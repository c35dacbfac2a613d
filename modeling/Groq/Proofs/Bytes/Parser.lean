/-
  Groq.Proofs.Bytes.Parser — parsing bytes is parsing characters, and has no fault.

  By induction on the depth every level and every chain of traversals over bytes is in step with
  the one over characters, and so is every run of a parser, from what the runs before it left.
  Proved: for every text, all limits and every run, parsing by byte offsets has no fault and finds what
  `Parser.run` finds; given nine levels of depth for each character, that is what the recursion
  without bound finds; and a query does not parse if there is a character outside literals and
  comments that is neither ASCII nor blank (`parse_without_fault`).
-/

import Groq.Proofs.Bytes.Rules
import Groq.Proofs.Query.Ascii
import Groq.Proofs.Query.Depth

namespace Groq.Query

/-! ## The recursion -/

section Recursion

variable {source : List Char} (constant? : Expr → Option Value)

theorem inStep_level (depth : Nat) :
    (∀ l s b, Covers source s b → InStep source Eq (level constant? depth l s) (byteLevel source constant? depth l b)) ∧
    ∀ base s b n k, Covers source s b → SameOffset s.chars n k →
      InStep source Eq (follow constant? depth base (s.tail n)) (byteFollow source constant? depth base b s.chars k) := by
  induction depth with
  | zero =>
    refine ⟨fun l s b h => ?_, fun base s b n k h here => ?_⟩
    · unfold level byteLevel
      refine inStep_ite h.isEmpty (fun _ => inStep_failure) fun _ => ?_
      exact (inStep_exhausted .atLevel).remembered h
    · unfold follow byteFollow
      refine inStep_ite here.used_up (fun _ => inStep_pure rfl) fun _ => ?_
      exact inStep_exhausted .inTraversals
  | succ depth ih =>
    obtain ⟨levels, follows⟩ := ih
    refine ⟨fun l s b h => ?_, fun base s b n k h here => ?_⟩
    · unfold level byteLevel
      refine inStep_ite h.isEmpty (fun _ => inStep_failure) fun ne => ?_
      refine (inStep_rule levels (fun base t c covers => ?_) l h ne).remembered h
      rw [checked_bind covers.text]
      exact follows base t c 0 0 covers sameOffset_zero
    · unfold follow byteFollow
      refine inStep_ite here.used_up (fun _ => inStep_pure rfl) fun ne => ?_
      apply InStep.inTraversals
      refine (inStep_traversal levels constant? base h here ne).bind ?_
      rintro ⟨e, rest⟩ ⟨e', offset⟩ ⟨rfl, m, rfl, behind⟩
      exact follows e s b m offset h behind

end Recursion

/-! ## Runs -/

/-- A parser and a parser of bytes that hold the same. -/
structure SameParser (p : Parser) (q : ByteParser) : Prop where
  source : q.source = p.text
  limits : q.limits = p.limits
  spent : q.spent = p.spent
  memory : Alike p.text p.memory q.memory

/-- Ends that are alike are reported alike, and give back as much depth. -/
theorem SameParser.outcome {p : Parser} {q : ByteParser} (h : SameParser p q) {x : Except Exhausted (Option Expr)}
    {y : Except Stop (Option Expr)} (ends : SameEnd Eq x y) :
    q.outcome? y = some (p.outcome x) ∧ ByteParser.unreturned y = Parser.unreturned x := by
  cases ends with
  | found same =>
    cases same
    exact ⟨rfl, rfl⟩
  | missed =>
    refine ⟨?_, rfl⟩
    rw [ByteParser.outcome?, h.source]
    rfl
  | exhausted cause =>
    refine ⟨?_, ?_⟩
    · rw [ByteParser.outcome?, h.limits]
      rfl
    · cases cause with
      | atLevel => rfl
      | inTraversals => rfl

/-- A run has no fault, finds the same and leaves the same. -/
theorem SameParser.run {p : Parser} {q : ByteParser} (h : SameParser p q) :
    q.run.1 = some p.run.1 ∧ SameParser p.run.2 q.run.2 := by
  obtain ⟨source, limits, memory, spent⟩ := q
  obtain ⟨rfl, rfl, rfl, alike⟩ := h
  have same : SameParser p ⟨p.text, p.limits, memory, p.spent⟩ := ⟨rfl, rfl, rfl, alike⟩
  obtain ⟨ends, left⟩ := (inStep_level (constant? p.limits) (p.limits.parse - p.spent)).1 .pipe _ _ (Covers.whole p.text)
    p.memory memory alike
  obtain ⟨found, returned⟩ := same.outcome ends
  exact ⟨found, rfl, rfl, congrArg (p.spent + ·) returned, left⟩

namespace ByteParser

theorem sameParser_after (text : List Char) (limits : Limits) (runs : Nat) :
    SameParser (Parser.after text limits runs) (after text limits runs) := by
  induction runs with
  | zero => exact ⟨rfl, rfl, rfl, alike_empty⟩
  | succ runs ih => exact ih.run.2

end ByteParser

/-- Parsing by byte offsets has no fault: in every run it finds what parsing by characters finds. With nine
    levels of depth for each character no run comes to the end of its depth, and it finds what the
    recursion without bound finds. What is neither ASCII nor blank is in literals and comments,
    or the text does not parse. -/
theorem parse_without_fault (text : List Char) (limits : Limits) :
    (∀ runs, (ByteParser.after text limits runs).run.1 = some (Parser.after text limits runs).run.1) ∧
    IsRecursion (constant? limits) (readSpan (constant? limits)) (followSpan (constant? limits)) ∧
    (∀ runs, 9 * text.length + 8 ≤ limits.parse → (ByteParser.after text limits runs).run.1 =
      some ((Parser.ofText text limits).outcome (.ok (readSpan (constant? limits) .pipe ⟨0, text⟩).run.run))) ∧
    ∀ c ∈ outside .code text, Text.isBlank c = false → 128 ≤ c.toNat →
      ∃ cause, parse limits (String.ofList text) = .error cause := by
  have same (runs : Nat) : (ByteParser.after text limits runs).run.1 = some (Parser.after text limits runs).run.1 :=
    (ByteParser.sameParser_after text limits runs).run.1
  refine ⟨same, isRecursion_readSpan, fun runs deep => ?_, fun c hc blank ascii => ?_⟩
  · rw [same, Parser.run_deep deep]
    rfl
  · refine parse_nonAscii limits (String.ofList text) c ?_ blank ascii
    rw [String.toList_ofList]
    exact hc

/-- A literal may hold an `é`; a `ü` behind it may not stand there. -/
theorem parse_without_fault_literal :
    (9 * "'é'+ü".toList.length + 8 ≤ ({} : Limits).parse ∧
      (ByteParser.after "'é'+ü".toList {} 1).run.1 = some ((Parser.ofText "'é'+ü".toList {}).outcome
        (.ok (readSpan (constant? {}) .pipe ⟨0, "'é'+ü".toList⟩).run.run))) ∧
    ('ü' ∈ outside .code "'é'+ü".toList ∧ Text.isBlank 'ü' = false ∧ 128 ≤ ('ü').toNat) ∧
      ∃ cause, parse {} (String.ofList "'é'+ü".toList) = .error cause := by
  have deep : 9 * "'é'+ü".toList.length + 8 ≤ ({} : Limits).parse := by decide
  have outsideOf : 'ü' ∈ outside .code "'é'+ü".toList := by decide
  have blank : Text.isBlank 'ü' = false := by decide
  have large : 128 ≤ ('ü').toNat := by decide
  obtain ⟨-, -, found, other⟩ := parse_without_fault "'é'+ü".toList {}
  exact ⟨⟨deep, found 1 deep⟩, ⟨outsideOf, blank, large⟩, other 'ü' outsideOf blank large⟩

end Groq.Query
