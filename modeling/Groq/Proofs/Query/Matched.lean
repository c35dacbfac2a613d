/-
  Groq.Proofs.Query.Matched — when the brackets of a text match.

  A reader keeps the brackets that are open and whether it is in a literal, and the two have nothing to do with each
  other: literals are told by quotes and backslashes alone, and what a reading makes of the brackets it makes of those
  outside literals (`run_brackets`).
  Proved: a text has a surface just where its literals are closed and the brackets outside them match, two and two
  of a kind (`balanced_iff`). The normal form of a query has the literals of its lexemes and no others, all closed,
  and outside them the brackets of its other lexemes (`brackets_written`).
-/

import Mathlib
import Groq.Proofs.Query.Ascii
import Groq.Proofs.Query.Flat

namespace Groq.Query

/-! ## Readings -/

/-- Where a reading is behind a text, if every closing bracket in it is one that is waited for. -/
def Scan.run? (s : Scan) (cs : List Char) : Option Scan := cs.foldlM Scan.step? s

def isBracket (c : Char) : Bool := (closerOf? c).isSome || isCloser c

/-- The brackets of a text outside its literals. -/
def bracketsFrom (m : Mode) : List Char → List Char
  | [] => []
  | c :: rest =>
    let behind := bracketsFrom (m.next c) rest
    if m = .code ∧ isBracket c = true then c :: behind else behind

section Readings

variable {s s' : Scan} {m : Mode} {c d : Char} {cs : List Char}

theorem run_cons (s : Scan) (c : Char) (cs : List Char) : s.run? (c :: cs) = (s.step? c).bind (·.run? cs) := rfl

theorem run_behind (s : Scan) (cs x : List Char) : s.run? (cs ++ x) = (s.run? cs).bind (·.run? x) := List.foldlM_append

theorem surfaceFrom_isSome_iff {offset : Nat} {before : Option Char} :
    (surfaceFrom s offset before cs).isSome ↔ s.run? cs = some Scan.start := by
  induction cs generalizing s offset before with
  | nil =>
    by_cases hs : s = Scan.start
    · simp [surfaceFrom, Scan.run?, hs]
    · simp [surfaceFrom, Scan.run?, hs]
  | cons c rest ih =>
    rw [surfaceFrom, run_cons]
    rcases s.step? c with _ | next
    · simp
    · have further := @ih next (offset + 1) (some c)
      simp only [Option.bind_eq_bind, Option.bind_some]
      rw [← further]
      rcases surfaceFrom next (offset + 1) (some c) rest with _ | places
      · exact Iff.rfl
      · exact Iff.rfl

/-- What is no bracket, or is in a literal, leaves the brackets alone. -/
theorem step_bracketless (closers : List Char) (h : ¬ (m = .code ∧ isBracket c = true)) :
    (⟨closers, m⟩ : Scan).step? c = some ⟨closers, m.next c⟩ := by
  cases m with
  | escape quote => rfl
  | literal quote =>
    simp only [Scan.step?, Mode.next]
    split
    · rfl
    split
    · rfl
    · rfl
  | code =>
    have plain : ¬ isBracket c = true := fun hc => h ⟨rfl, hc⟩
    simp only [isBracket, Bool.or_eq_true, not_or, Bool.not_eq_true, Option.isSome_eq_false_iff,
      Option.isNone_iff_eq_none] at plain
    simp only [Scan.step?, Mode.next, plain]
    split
    · rfl
    · rfl

theorem unquoted_of_isBracket (h : isBracket c = true) : isQuote c = false := by
  rw [Bool.eq_false_iff]
  intro quote
  simp only [isQuote, Bool.or_eq_true, decide_eq_true_eq] at quote
  rcases quote with rfl | rfl
  · exact absurd h (by decide)
  · exact absurd h (by decide)

theorem step_opener (hd : closerOf? c = some d) (closers : List Char) :
    (⟨closers, .code⟩ : Scan).step? c = some ⟨d :: closers, .code⟩ := by
  have quote : isQuote c = false := unquoted_of_isBracket (by simp [isBracket, hd])
  simp only [isQuote, Bool.or_eq_false_iff, decide_eq_false_iff_not] at quote
  simp [Scan.step?, quote, hd]

/-- Outside literals a bracket opens one more, or closes the one that was opened last. -/
theorem step_bracket {closers : List Char} (h : isBracket c = true)
    (step : (⟨closers, .code⟩ : Scan).step? c = some s) :
    (∃ d, closerOf? c = some d ∧ s = ⟨d :: closers, .code⟩) ∨ ∃ outer, closers = c :: outer ∧ s = ⟨outer, .code⟩ := by
  rcases hd : closerOf? c with _ | d
  · have quote := unquoted_of_isBracket h
    have closer : isCloser c = true := by simpa [isBracket, hd] using h
    simp only [isQuote, Bool.or_eq_false_iff, decide_eq_false_iff_not] at quote
    simp only [Scan.step?, quote, or_self, if_false, hd, if_pos closer] at step
    split at step
    · split at step
      · rename_i same
        cases step
        exact .inr ⟨_, congrArg (· :: _) same.symm, rfl⟩
      · cases step
    · cases step
  · rw [step_opener hd] at step
    cases step
    exact .inl ⟨d, rfl, rfl⟩

theorem step_closing (h : isCloser c = true) (outer : List Char) :
    (⟨c :: outer, .code⟩ : Scan).step? c = some ⟨outer, .code⟩ := by
  simp only [isCloser, Bool.or_eq_true, decide_eq_true_eq] at h
  rcases h with (rfl | rfl) | rfl
  · rfl
  · rfl
  · rfl

/-- Only the bracket that closes it can be read under an open one and nowhere else. -/
theorem step_only_under (own : s.step? c = none) (h : (s.under [d]).step? c = some s') :
    s = Scan.start ∧ c = d ∧ s' = Scan.start := by
  obtain ⟨closers, mode⟩ := s
  by_cases bracket : mode = .code ∧ isBracket c = true
  · obtain ⟨rfl, hc⟩ := bracket
    rcases step_bracket hc h with ⟨e, he, -⟩ | ⟨outer, same, rfl⟩
    · rw [step_opener he] at own
      cases own
    · rcases closers with _ | ⟨e, closers⟩
      · cases same
        exact ⟨rfl, rfl, rfl⟩
      · cases same
        have opener : closerOf? c = none := by
          rcases hd : closerOf? c with _ | e
          · rfl
          · rw [step_opener hd] at own
            cases own
        rw [step_closing (by simpa [isBracket, opener] using hc)] at own
        cases own
  · rw [step_bracketless closers bracket] at own
    cases own

/-- A reading is in the mode that quotes and backslashes put it in, and its brackets are those outside literals. -/
theorem run_brackets (closers : List Char) (m : Mode) (cs : List Char) : (⟨closers, m⟩ : Scan).run? cs =
    ((⟨closers, .code⟩ : Scan).run? (bracketsFrom m cs)).map fun s => ⟨s.closers, m.after cs⟩ := by
  induction cs generalizing closers m with
  | nil => rfl
  | cons c rest ih =>
    have after : m.after (c :: rest) = (m.next c).after rest := rfl
    by_cases bracket : m = .code ∧ isBracket c = true
    · rw [bracketsFrom, if_pos bracket, run_cons, run_cons, after]
      obtain ⟨rfl, hc⟩ := bracket
      rcases step : (⟨closers, .code⟩ : Scan).step? c with _ | next
      · rfl
      · have code : next = ⟨next.closers, .code⟩ := by
          rcases step_bracket hc step with ⟨d, -, rfl⟩ | ⟨outer, -, rfl⟩
          · rfl
          · rfl
        rw [next_code (unquoted_of_isBracket hc), Option.bind_some, Option.bind_some, code]
        exact ih next.closers .code
    · rw [bracketsFrom, if_neg bracket, run_cons, step_bracketless closers bracket, after]
      exact ih closers (m.next c)

theorem run_mode (h : s.run? cs = some s') : s'.mode = s.mode.after cs := by
  have same := run_brackets s.closers s.mode cs
  rw [h] at same
  obtain ⟨read, -, rfl⟩ := Option.map_eq_some_iff.mp same.symm
  rfl

end Readings

/-! ## Matching brackets -/

/-- Brackets that match: every one that opens is closed by one of its kind, and what they enclose matches. -/
inductive Matched : List Char → Prop
  | nil : Matched []
  | pair {c d : Char} {inside behind : List Char} : closerOf? c = some d → Matched inside → Matched behind →
      Matched (c :: (inside ++ d :: behind))

/-- Brackets that close those that are open, and match between them. -/
def Closes : List Char → List Char → Prop
  | [], w => Matched w
  | d :: closers, w => ∃ inside behind, w = inside ++ d :: behind ∧ Matched inside ∧ Closes closers behind

section Matched

variable {s : Scan} {c d : Char} {closers w : List Char}

/-- Brackets that match leave those that are open as they are. -/
theorem Matched.run (h : Matched w) (closers : List Char) :
    (⟨closers, .code⟩ : Scan).run? w = some ⟨closers, .code⟩ := by
  induction h generalizing closers with
  | nil => rfl
  | @pair c d inside behind hd _ _ ih ih' =>
    rw [run_cons, step_opener hd, Option.bind_some, run_behind, ih, Option.bind_some, run_cons, step_closer hd,
      Option.bind_some]
    exact ih' closers

/-- A pair of brackets in front. -/
theorem Closes.bracketed {inside behind : List Char} (hd : closerOf? c = some d) (first : Matched inside)
    (h : Closes closers behind) : Closes closers (c :: (inside ++ d :: behind)) := by
  cases closers with
  | nil => exact .pair hd first h
  | cons e closers =>
    obtain ⟨next, after, rfl, second, h⟩ := h
    exact ⟨c :: (inside ++ d :: next), after, by simp, .pair hd first second, h⟩

/-- By induction on the brackets: one that opens is closed later by the one it makes the reader wait for. -/
theorem closes_of_run (brackets : ∀ c ∈ w, isBracket c = true) (h : (⟨closers, .code⟩ : Scan).run? w = some s)
    (done : s.closers = []) : Closes closers w := by
  induction w generalizing closers with
  | nil =>
    cases h
    obtain rfl : closers = [] := done
    exact .nil
  | cons c w ih =>
    obtain ⟨bracket, others⟩ := List.forall_mem_cons.mp brackets
    obtain ⟨next, step, h⟩ := Option.bind_eq_some_iff.mp h
    rcases step_bracket bracket step with ⟨d, hd, rfl⟩ | ⟨outer, rfl, rfl⟩
    · obtain ⟨inside, behind, rfl, first, closed⟩ := ih others h
      exact closed.bracketed hd first
    · exact ⟨[], w, rfl, .nil, ih others h⟩

theorem isBracket_bracketsFrom (m : Mode) (cs : List Char) : ∀ c ∈ bracketsFrom m cs, isBracket c = true := by
  induction cs generalizing m with
  | nil => exact List.forall_mem_nil _
  | cons c rest ih =>
    rw [bracketsFrom]
    split
    · rename_i bracket
      exact List.forall_mem_cons.mpr ⟨bracket.2, ih _⟩
    · exact ih _

/-- A text has a surface just where its literals are closed and the brackets outside them match. -/
theorem balanced_iff (cs : List Char) : Balanced cs ↔ Mode.code.after cs = .code ∧ Matched (bracketsFrom .code cs) := by
  have read : Scan.start.run? cs = _ := run_brackets [] .code cs
  unfold Balanced surface?
  rw [surfaceFrom_isSome_iff]
  constructor
  · intro h
    rw [h] at read
    obtain ⟨s, run, same⟩ := Option.map_eq_some_iff.mp read.symm
    obtain ⟨closers, mode⟩ := Scan.mk.injEq _ _ _ _ ▸ same
    exact ⟨mode, closes_of_run (isBracket_bracketsFrom .code cs) run closers⟩
  · rintro ⟨closed, matched⟩
    rw [read, matched.run, Option.map_some, closed]
    rfl

/-- An open literal leaves a text without a surface, though there is no bracket outside it. -/
example : surface? ['"', '('] = none ∧ bracketsFrom .code ['"', '('] = [] := by decide

end Matched

/-! ## Queries -/

/-- What lexemes are written with, literals apart. -/
def unquoted (ls : List Lexeme) : List Char := (ls.filter fun l => !l.isLiteral).flatMap Lexeme.text

section Queries

variable {quote : Char} {cs w : List Char} {ls : List Lexeme}

theorem after_append (m : Mode) (cs x : List Char) : m.after (cs ++ x) = (m.after cs).after x := List.foldl_append

theorem bracketsFrom_append (m : Mode) (cs x : List Char) :
    bracketsFrom m (cs ++ x) = bracketsFrom m cs ++ bracketsFrom (m.after cs) x := by
  induction cs generalizing m with
  | nil => rfl
  | cons c rest ih =>
    rw [List.cons_append, bracketsFrom, bracketsFrom, ih]
    split
    · rfl
    · rfl

theorem brackets_unquoted (h : ∀ c ∈ cs, isQuote c = false) : bracketsFrom .code cs = cs.filter isBracket := by
  induction cs with
  | nil => rfl
  | cons c rest ih =>
    obtain ⟨quote, others⟩ := List.forall_mem_cons.mp h
    rw [bracketsFrom, next_code quote, ih others, List.filter_cons]
    by_cases bracket : isBracket c = true
    · rw [if_pos ⟨rfl, bracket⟩, if_pos bracket]
    · rw [if_neg fun both => bracket both.2, if_neg bracket]

/-- The brackets in a literal are none of the text's, and its last quote closes it. -/
theorem alone_literalRest (h : literalRest? quote cs = some cs.length) :
    bracketsFrom (.literal quote) cs = [] ∧ (Mode.literal quote).after cs = .code := by
  have further {m m' : Mode} {c : Char} {rest : List Char} (ne : m ≠ .code) (next : m.next c = m')
      (behind : bracketsFrom m' rest = [] ∧ m'.after rest = .code) :
      bracketsFrom m (c :: rest) = [] ∧ m.after (c :: rest) = .code := by
    subst next
    rw [bracketsFrom, if_neg fun both => ne both.1]
    exact behind
  have literal : Mode.literal quote ≠ .code := by simp
  have escape : Mode.escape quote ≠ .code := by simp
  generalize hl : cs.length = length at h
  fun_induction literalRest? quote cs generalizing length with
  | case1 => cases h
  | case2 c rest ih =>
    obtain ⟨n, hn, rfl⟩ := Option.map_eq_some_iff.mp h
    have escaped : (Mode.literal quote).next '\\' = .escape quote := rfl
    have back : (Mode.escape quote).next c = .literal quote := rfl
    exact further literal escaped (further escape back (ih n (by simpa using hl) hn))
  | case3 => cases h
  | case4 rest plain =>
    cases h
    obtain rfl : rest = [] := List.length_eq_zero_iff.mp (by simpa using hl)
    exact further literal ((if_neg plain).trans (if_pos rfl)) ⟨rfl, rfl⟩
  | case5 c rest plain other ih =>
    obtain ⟨n, hn, rfl⟩ := Option.map_eq_some_iff.mp h
    exact further literal ((if_neg plain).trans (if_neg other)) (ih n (by simpa using hl) hn)

theorem alone_literal (h : literalLength? w = some w.length) :
    bracketsFrom .code w = [] ∧ Mode.code.after w = .code := by
  rcases w with _ | ⟨c, w⟩
  · cases h
  · simp only [literalLength?] at h
    split at h
    · rename_i quote
      obtain ⟨n, hn, length⟩ := Option.map_eq_some_iff.mp h
      obtain rfl : n = w.length := by simpa using length
      have plain : ¬ (Mode.code = .code ∧ isBracket c = true) := by
        rcases quote with rfl | rfl
        · decide
        · decide
      have opened : Mode.code.next c = .literal c := if_pos quote
      rw [bracketsFrom, if_neg plain, Mode.after, List.foldl_cons, opened]
      exact alone_literalRest hn
    · cases h

/-- A reader is behind a literal as in front of it. -/
theorem run_literal (h : literalLength? w = some w.length) (closers : List Char) :
    (⟨closers, .code⟩ : Scan).run? w = some ⟨closers, .code⟩ := by
  obtain ⟨brackets, closed⟩ := alone_literal h
  rw [run_brackets, brackets, closed]
  rfl

/-- A literal is copied up to the quote that ends it for a reader of its text. -/
theorem takeLiteral_rest {opened position : Nat} {done text after : List Char}
    (h : takeLiteral quote opened position done cs = .ok (text, after)) :
    ∃ body, text = done.reverse ++ body ∧ literalRest? quote body = some body.length := by
  fun_induction takeLiteral quote opened position done cs with
  | case1 => cases h
  | case2 => cases h
  | case3 => cases h
  | case4 position done c rest plain ih =>
    obtain ⟨body, rfl, length⟩ := ih h
    refine ⟨'\\' :: c :: body, by simp, ?_⟩
    rw [literalRest?, length]
    rfl
  | case5 position done rest plain =>
    cases h
    refine ⟨[quote], by simp, ?_⟩
    rw [literalRest?, if_pos rfl]
    · rfl
    · exact plain
  | case6 position done c rest plain other ih =>
    obtain ⟨body, rfl, length⟩ := ih h
    refine ⟨c :: body, by simp, ?_⟩
    rw [literalRest?, if_neg other, length]
    · rfl
    · exact plain

/-- Every literal that a query is cut into is one as a whole. -/
theorem literal_of_lexemes {position : Nat} (h : lexemesFrom position cs = .ok ls) :
    ∀ l ∈ ls, l.isLiteral = true → literalLength? l.text = some l.text.length := by
  fun_induction lexemesFrom position cs generalizing ls with
  | case1 =>
    cases h
    exact List.forall_mem_nil _
  | case2 => cases h
  | case3 position c rest quote text after hl shorter ih =>
    obtain ⟨more, hmore, rfl⟩ := map_ok h
    obtain ⟨body, rfl, length⟩ := takeLiteral_rest hl
    have whole : literalLength? (c :: body) = some (c :: body).length := by
      rw [literalLength?, if_pos (by simpa [isQuote] using quote), length]
      rfl
    exact List.forall_mem_cons.mpr ⟨fun _ => whole, ih hmore⟩
  | case4 position c rest quote slashes comment =>
    rename_i ih
    exact ih h
  | case5 position c rest quote slashes blank ih => exact ih h
  | case6 position c rest quote slashes blank word letters =>
    rename_i ih
    obtain ⟨more, hmore, rfl⟩ := map_ok h
    exact List.forall_mem_cons.mpr ⟨fun kind => absurd kind Bool.false_ne_true, ih hmore⟩
  | case7 position c rest quote slashes blank word digit text =>
    rename_i ih
    obtain ⟨more, hmore, rfl⟩ := map_ok h
    exact List.forall_mem_cons.mpr ⟨fun kind => absurd kind Bool.false_ne_true, ih hmore⟩
  | case8 position c rest quote slashes blank word digit ih =>
    obtain ⟨more, hmore, rfl⟩ := map_ok h
    exact List.forall_mem_cons.mpr ⟨fun kind => absurd kind Bool.false_ne_true, ih hmore⟩

/-- The literals of what is written are closed, and outside them it has the brackets of the other lexemes. -/
theorem brackets_written (operand spaced : Bool) (whole : ∀ l ∈ ls, l.Whole)
    (literal : ∀ l ∈ ls, l.isLiteral = true → literalLength? l.text = some l.text.length) :
    Mode.code.after (writeFrom operand spaced ls) = .code ∧
      bracketsFrom .code (writeFrom operand spaced ls) = (unquoted ls).filter isBracket := by
  induction ls generalizing operand spaced with
  | nil => exact ⟨rfl, rfl⟩
  | cons l rest ih =>
    obtain ⟨first, others⟩ := List.forall_mem_cons.mp whole
    obtain ⟨firstLiteral, otherLiterals⟩ := List.forall_mem_cons.mp literal
    obtain ⟨before, behind, operand', spaced', written, spaces⟩ := writeFrom_cons operand spaced l rest
    obtain ⟨closed, brackets⟩ := ih operand' spaced' others otherLiterals
    have padding {cs : List Char} (h : ∀ c ∈ cs, c ∈ before ++ behind) :
        Mode.code.after cs = .code ∧ bracketsFrom .code cs = [] := by
      have quotes : ∀ c ∈ cs, isQuote c = false := by
        intro c hc
        rw [spaces c (h c hc)]
        rfl
      refine ⟨after_unquoted quotes, ?_⟩
      rw [brackets_unquoted quotes, List.filter_eq_nil_iff]
      intro c hc
      rw [spaces c (h c hc)]
      decide
    have text : Mode.code.after l.text = .code ∧
        bracketsFrom .code l.text ++ (unquoted rest).filter isBracket = (unquoted (l :: rest)).filter isBracket := by
      cases l with
      | literal w =>
        obtain ⟨brackets, closed⟩ := alone_literal (firstLiteral rfl)
        refine ⟨closed, ?_⟩
        rw [brackets]
        rfl
      | _ =>
        refine ⟨after_unquoted first, ?_⟩
        rw [brackets_unquoted first, ← List.filter_append]
        rfl
    obtain ⟨front, frontBrackets⟩ := padding fun c hc => List.mem_append_left _ hc
    obtain ⟨back, backBrackets⟩ := padding fun c hc => List.mem_append_right _ hc
    rw [written]
    simp only [after_append, bracketsFrom_append, front, frontBrackets, back, backBrackets, text.1, closed, brackets,
      List.nil_append, text.2, and_self]

end Queries

end Groq.Query
