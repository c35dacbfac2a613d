/-
  Groq.Proofs.Query.Plain — text outside literals, names and brackets.

  A text is plain from a mode on if it ends outside literals and is ASCII wherever it is outside them.
  Names are, and so are brackets; the bracket that closes another is the one that is waited for
  longest (`closeFrom_text`).
-/

import Groq.Proofs.Query.Operators
import Groq.Proofs.Query.Reading
import Groq.Proofs.Query.Writing

namespace Groq.Query

/-! ## Outside literals -/

/-- The mode behind a character, brackets apart. -/
def Mode.next (m : Mode) (c : Char) : Mode :=
  match m with
  | .escape quote => .literal quote
  | .literal quote => if c = '\\' then .escape quote else if c = quote then .code else .literal quote
  | .code => if c = '"' ∨ c = '\'' then .literal c else .code

def Mode.after (m : Mode) (cs : List Char) : Mode := cs.foldl Mode.next m

theorem next_code {c : Char} (h : isQuote c = false) : Mode.code.next c = .code := by
  simp only [isQuote, Bool.or_eq_false_iff, decide_eq_false_iff_not] at h
  exact if_neg (not_or.mpr h)

theorem after_unquoted {cs : List Char} (h : ∀ c ∈ cs, isQuote c = false) : Mode.code.after cs = .code := by
  induction cs with
  | nil => rfl
  | cons c rest ih =>
    rw [Mode.after, List.foldl_cons, next_code (h c List.mem_cons_self)]
    exact ih fun d hd => h d (List.mem_cons_of_mem _ hd)

/-- Read from the mode on, the text ends outside literals and is ASCII outside them. -/
def Plain (m : Mode) : List Char → Prop
  | [] => m = .code
  | c :: rest => (m = .code → c.toNat < 128) ∧ Plain (m.next c) rest

/-- An ASCII character that opens no literal. -/
def isBare (c : Char) : Bool := c != '"' && c != '\'' && c.toNat < 128

section Plain

variable {m : Mode} {cs x : List Char} {c : Char}

theorem Plain.of_append (h : Plain m (cs ++ x)) : Plain (m.after cs) x := by
  induction cs generalizing m with
  | nil => exact h
  | cons c rest ih => exact ih h.2

theorem isBare_of_isNameChar (h : isNameChar c = true) : isBare c = true := by
  obtain ⟨quote, -, -⟩ := plain_of_isNameChar h
  have ascii : c.toNat < 128 := by
    simp only [isNameChar, Char.isAlphanum, Bool.or_eq_true, decide_eq_true_eq] at h
    rcases h with (h | h) | rfl
    · have := code_of_isAlpha h
      omega
    · have := code_of_isDigit h
      omega
    · decide
  simp only [isQuote, Bool.or_eq_false_iff, decide_eq_false_iff_not] at quote
  simp [isBare, quote, ascii]

theorem name_isNameChar (cs : List Char) : ∀ c ∈ nameAt cs, isNameChar c = true := by
  intro c hc
  rcases cs with _ | ⟨d, cs⟩
  · cases hc
  · simp only [nameAt] at hc
    split at hc
    · rename_i begins
      rcases List.mem_cons.mp hc with rfl | hc
      · exact isNameChar_of_beginsName begins
      · exact List.all_eq_true.mp List.all_takeWhile c hc
    · cases hc

theorem nameAt_is_front (cs : List Char) : nameAt cs <+: cs := by
  rcases cs with _ | ⟨c, cs⟩
  · exact List.nil_prefix
  · simp only [nameAt]
    split
    · exact List.cons_prefix_cons.mpr ⟨rfl, List.takeWhile_prefix _⟩
    · exact List.nil_prefix

theorem nameAt_append_drop (cs : List Char) : nameAt cs ++ cs.drop (nameAt cs).length = cs :=
  List.prefix_iff_eq_append.mp (nameAt_is_front cs)

end Plain

/-! ## Brackets -/

/-- Only a closing bracket leaves nothing to wait for. -/
theorem step_closes {s next : Scan} {c : Char} (h : s.step? c = some next) (waiting : s.closers ≠ [])
    (done : next.closers = []) : isCloser c = true ∧ next.mode = .code := by
  unfold Scan.step? at h
  split at h
  · cases h
    exact absurd done waiting
  · repeat' split at h
    all_goals
      cases h
      exact absurd done waiting
  · rename_i code
    split at h
    · cases h
      exact absurd done waiting
    split at h
    · cases h
      cases done
    split at h
    · rename_i closer
      split at h
      · split at h
        · cases h
          exact ⟨closer, code⟩
        · cases h
      · cases h
    · cases h
      exact absurd done waiting

/-- The outermost of the brackets that are waited for stays the same while any is. -/
theorem step_outermost {s next : Scan} {c : Char} (h : s.step? c = some next) (waiting : s.closers ≠ []) :
    next.closers.getLast? = s.closers.getLast? ∨ next.closers = [] ∧ s.closers.getLast? = some c := by
  obtain ⟨closers, mode⟩ := s
  obtain ⟨closer, others, rfl⟩ := List.exists_cons_of_ne_nil waiting
  unfold Scan.step? at h
  split at h
  · cases h
    exact .inl rfl
  · repeat' split at h
    all_goals
      cases h
      exact .inl rfl
  · split at h
    · cases h
      exact .inl rfl
    split at h
    · cases h
      exact .inl rfl
    split at h
    · dsimp only at h
      split at h
      · rename_i same
        cases h
        rcases others with _ | ⟨next, others⟩
        · exact .inr ⟨rfl, congrArg some same.symm⟩
        · exact .inl rfl
      · cases h
    · cases h
      exact .inl rfl

/-- What a bracket encloses is followed by the one that closes it. -/
theorem closeFrom_text {s : Scan} {offset close : Nat} {cs : List Char} (h : closeFrom s offset cs = some close)
    (waiting : s.closers ≠ []) : ∃ inside c after, cs = inside ++ c :: after ∧ close = offset + inside.length ∧
      s.closers.getLast? = some c := by
  induction cs generalizing s offset with
  | nil => cases h
  | cons c cs ih =>
    simp only [closeFrom, Option.bind_eq_bind, Option.bind_eq_some_iff] at h
    obtain ⟨next, hstep, h⟩ := h
    split at h
    · rename_i done
      cases h
      refine ⟨[], c, cs, rfl, rfl, ?_⟩
      rcases step_outermost hstep waiting with same | ⟨-, last⟩
      · rw [done.1] at same
        exact absurd (List.getLast?_eq_none_iff.mp same.symm) waiting
      · exact last
    · rename_i more
      have still : next.closers ≠ [] := fun done => more ⟨done, (step_closes hstep waiting done).2⟩
      obtain ⟨inside, d, after, rfl, hclose, hd⟩ := ih h still
      refine ⟨c :: inside, d, after, rfl, ?_, ?_⟩
      · simp only [List.length_cons]
        omega
      · rcases step_outermost hstep waiting with same | ⟨none, -⟩
        · exact same.symm.trans hd
        · exact absurd none still

theorem isCloser_of_closerOf {c d : Char} (h : closerOf? c = some d) : isCloser d = true := by
  unfold closerOf? at h
  split at h
  · cases h
    rfl
  · cases h
    rfl
  · cases h
    rfl
  · cases h

theorem isBare_of_isCloser {c : Char} (h : isCloser c = true) : isBare c = true := by
  simp only [isCloser, Bool.or_eq_true, decide_eq_true_eq] at h
  rcases h with (rfl | rfl) | rfl <;> decide

theorem isBare_of_opener {c closer : Char} (h : closerOf? c = some closer) : isBare c = true := by
  unfold closerOf? at h
  split at h
  · decide
  · decide
  · decide
  · cases h

end Groq.Query
