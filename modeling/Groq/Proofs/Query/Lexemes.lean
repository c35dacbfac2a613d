/-
  Groq.Proofs.Query.Lexemes — how a text is cut into lexemes where more text follows.

  A text is closed where it is cut into the same lexemes whatever comes after it, as long as that
  begins with a character that cannot go on with a word or a comment.
  Proved: every text that can be cut is closed, or ends in a comment that is open (`lexemes_append`),
  and it is cut the same way wherever it begins (`lexemesFrom_position`).
-/

import Groq.Proofs.Query.Munch
import Groq.Query.Normal

namespace Groq.Query

/-! ## Characters -/

theorem alphabeticRanges_ascii : ∃ more, Text.alphabeticRanges = (0x41, 0x5A) :: (0x61, 0x7A) :: more := ⟨_, rfl⟩

theorem numericRanges_ascii : ∃ more, Text.numericRanges = (0x30, 0x39) :: more := ⟨_, rfl⟩

theorem isAlphabetic_of_isAlpha {c : Char} (h : c.isAlpha = true) : Text.isAlphabetic c = true := by
  obtain ⟨more, ranges⟩ := alphabeticRanges_ascii
  unfold Text.isAlphabetic
  rw [ranges]
  rcases code_of_isAlpha h with ⟨lo, hi⟩ | ⟨lo, hi⟩
  · simp [Text.inRanges, hi, Nat.not_lt.mpr lo]
  · have hlo : ¬ c.toNat < 0x41 := by omega
    simp [Text.inRanges, hi, hlo, Nat.not_lt.mpr lo]

theorem isNumeric_of_isDigit {c : Char} (h : c.isDigit = true) : Text.isNumeric c = true := by
  obtain ⟨more, ranges⟩ := numericRanges_ascii
  obtain ⟨lo, hi⟩ := code_of_isDigit h
  unfold Text.isNumeric
  rw [ranges]
  simp [Text.inRanges, hi, Nat.not_lt.mpr lo]

theorem isAlphabetic_of_isDigit {c : Char} (h : c.isDigit = true) : Text.isAlphabetic c = false := by
  obtain ⟨more, ranges⟩ := alphabeticRanges_ascii
  have below : c.toNat < 0x41 := by
    have := code_of_isDigit h
    omega
  unfold Text.isAlphabetic
  rw [ranges]
  simp [Text.inRanges, below]

theorem isBlank_of_code {c : Char} (lo : 33 ≤ c.toNat) (hi : c.toNat < 128) : Text.isBlank c = false := by
  have tab : ¬ c.toNat < 9 := by omega
  have line : ¬ c.toNat ≤ 13 := by omega
  have space : ¬ c.toNat < 32 := by omega
  have blank : ¬ c.toNat ≤ 32 := by omega
  have control : c.toNat < 133 := by omega
  simp [Text.isBlank, Text.blankRanges, Text.inRanges, tab, line, space, blank, control]

theorem beginsWord_of_beginsName {c : Char} (h : beginsName c = true) : beginsWord c = true := by
  simp only [beginsName, beginsWord, Bool.or_eq_true] at h ⊢
  exact h.imp_left isAlphabetic_of_isAlpha

theorem beginsWord_of_isDigit {c : Char} (h : c.isDigit = true) : beginsWord c = false := by
  have ne : c ≠ '_' := by
    rintro rfl
    cases h
  simp [beginsWord, isAlphabetic_of_isDigit h, ne]

theorem isWordChar_of_isNameChar {c : Char} (h : isNameChar c = true) : isWordChar c = true := by
  simp only [isNameChar, Char.isAlphanum, isWordChar, Text.isAlphanumeric, Bool.or_eq_true] at h ⊢
  rcases h with (h | h) | h
  · exact .inl (.inl (isAlphabetic_of_isAlpha h))
  · exact .inl (.inr (isNumeric_of_isDigit h))
  · exact .inr h

/-- A character of names is no quote, no blank and does not begin a comment. -/
theorem plain_of_isNameChar {c : Char} (h : isNameChar c = true) :
    isQuote c = false ∧ c ≠ '/' ∧ Text.isBlank c = false := by
  have code : 48 ≤ c.toNat ∧ c.toNat < 128 := by
    simp only [isNameChar, Char.isAlphanum, Bool.or_eq_true, decide_eq_true_eq] at h
    rcases h with (h | h) | rfl
    · have := code_of_isAlpha h
      omega
    · have := code_of_isDigit h
      omega
    · decide
  refine ⟨?_, ?_, isBlank_of_code (by omega) code.2⟩
  · simp only [isQuote, Bool.or_eq_false_iff, decide_eq_false_iff_not]
    refine ⟨?_, ?_⟩
    · rintro rfl
      exact absurd code.1 (by decide)
    · rintro rfl
      exact absurd code.1 (by decide)
  · rintro rfl
    exact absurd code.1 (by decide)

theorem isWordChar_of_beginsWord {c : Char} (h : beginsWord c = true) : isWordChar c = true := by
  simp only [beginsWord, isWordChar, Text.isAlphanumeric, Bool.or_eq_true] at h ⊢
  exact h.imp_left .inl

/-- A character that is a lexeme of its own, wherever no comment begins. -/
def isMark (c : Char) : Bool := !isQuote c && !Text.isBlank c && !beginsWord c && !c.isDigit

/-- May what begins like this not go on with a word or make a comment? -/
def Stops (cs : List Char) : Prop := ∀ c rest, cs = c :: rest → isWordChar c = false ∧ c ≠ '/'

theorem stops_nil : Stops [] := nofun

theorem stops_cons {c : Char} {rest : List Char} (word : isWordChar c = false) (slash : c ≠ '/') : Stops (c :: rest) := by
  intro d tail h
  cases h
  exact ⟨word, slash⟩

/-! ## Cutting -/

section Lexemes

variable {position : Nat} {c : Char} {rest x : List Char}

theorem lexemes_blank (h : Text.isBlank c = true) (hq : isQuote c = false) (hs : c ≠ '/') :
    lexemesFrom position (c :: rest) = lexemesFrom (position + 1) rest := by
  rw [lexemesFrom]
  simp [hq, hs, h]

theorem lexemes_literal {text after : List Char} (hq : isQuote c = true)
    (h : takeLiteral c position (position + 1) [c] rest = .ok (text, after)) :
    lexemesFrom position (c :: rest) = (lexemesFrom (position + text.length) after).map (.literal text :: ·) := by
  rw [lexemesFrom]
  simp only [hq, if_true]
  split
  · rename_i e he
    rw [h] at he
    cases he
  · rename_i he
    rw [h] at he
    cases he
    rfl

theorem lexemes_word (hq : isQuote c = false) (hs : c ≠ '/') (hb : Text.isBlank c = false) (hw : beginsWord c = true) :
    lexemesFrom position (c :: rest) =
      (lexemesFrom (position + (rest.takeWhile isWordChar).length + 1) (rest.dropWhile isWordChar)).map
        (.word (c :: rest.takeWhile isWordChar) :: ·) := by
  rw [lexemesFrom]
  simp [hq, hs, hb, hw, Nat.add_assoc]

theorem lexemes_number (hq : isQuote c = false) (hs : c ≠ '/') (hb : Text.isBlank c = false)
    (hw : beginsWord c = false) (hd : c.isDigit = true) : lexemesFrom position (c :: rest) =
      (lexemesFrom (position + (rest.takeWhile isWordChar).length + 1) (rest.dropWhile isWordChar)).map
        (.number (c :: rest.takeWhile isWordChar) :: ·) := by
  rw [lexemesFrom]
  simp [hq, hs, hb, hw, hd, Nat.add_assoc]

theorem lexemes_mark (mark : isMark c = true) (hs : c = '/' → rest.head? ≠ some '/') :
    lexemesFrom position (c :: rest) = (lexemesFrom (position + 1) rest).map (.mark c :: ·) := by
  simp only [isMark, Bool.and_eq_true, Bool.not_eq_true'] at mark
  obtain ⟨⟨⟨quote, blank⟩, word⟩, digit⟩ := mark
  have comment : ¬ (c = '/' ∧ rest.head? = some '/') := fun h => hs h.1 h.2
  rw [lexemesFrom]
  simp [quote, comment, blank, word, digit]

theorem lexemes_comment (hs : rest.head? = some '/') : lexemesFrom position ('/' :: rest) =
    lexemesFrom (position + 1 + (rest.takeWhile (· != '\n')).length) (rest.dropWhile (· != '\n')) := by
  rw [lexemesFrom]
  simp [isQuote, hs]

/-- Is the text cut into these lexemes, wherever it begins? -/
def Cuts (cs : List Char) (ls : List Lexeme) : Prop := ∀ position, lexemesFrom position cs = .ok ls

theorem cuts_mark {ls : List Lexeme} (mark : isMark c = true)
    (comment : c = '/' → x.head? ≠ some '/') (h : Cuts x ls) : Cuts (c :: x) (.mark c :: ls) := by
  intro position
  rw [lexemes_mark mark comment, h]
  rfl

end Lexemes

/-! ## What comes after -/

theorem takeLiteral_append {quote : Char} {opened position : Nat} {done cs text after : List Char}
    (h : takeLiteral quote opened position done cs = .ok (text, after)) (x : List Char) :
    takeLiteral quote opened position done (cs ++ x) = .ok (text, after ++ x) ∧
      text.length + after.length = done.length + cs.length := by
  fun_induction takeLiteral quote opened position done cs with
  | case1 => cases h
  | case2 => cases h
  | case3 => cases h
  | case4 position done c rest plain ih =>
    obtain ⟨ha, hl⟩ := ih h
    simp only [List.cons_append, takeLiteral, if_neg plain, List.length_cons] at ha hl ⊢
    exact ⟨ha, by omega⟩
  | case5 position done rest plain =>
    cases h
    refine ⟨?_, by simp only [List.length_reverse, List.length_cons]; omega⟩
    rw [List.cons_append, takeLiteral, if_pos rfl]
    exact plain
  | case6 position done c rest plain other ih =>
    obtain ⟨ha, hl⟩ := ih h
    refine ⟨?_, by simp only [List.length_cons] at hl ⊢; omega⟩
    rw [List.cons_append, takeLiteral, if_neg other]
    · exact ha
    · exact plain

/-- Cut the same way whatever follows that stops it. -/
def Closed (position : Nat) (cs : List Char) (ls : List Lexeme) : Prop :=
  ∀ x, Stops x → lexemesFrom position (cs ++ x) = (lexemesFrom (position + cs.length) x).map (ls ++ ·)

/-- Ends in a comment, so that what follows on the same line is part of it. -/
def Open (position : Nat) (cs : List Char) (ls : List Lexeme) : Prop :=
  cs ≠ [] ∧ ∀ x, (∀ c ∈ x, c ≠ '\n') → lexemesFrom position (cs ++ x) = .ok ls

/-- Lexemes in front, whether or not what follows them is closed. -/
theorem closed_or_open {position position' : Nat} {cs middle : List Char} (first : List Lexeme) {ls : List Lexeme}
    (hcs : cs ≠ [])
    (length : position' + middle.length = position + cs.length)
    (step : ∀ x, Stops x ∨ middle ≠ [] →
      lexemesFrom position (cs ++ x) = (lexemesFrom position' (middle ++ x)).map (first ++ ·))
    (h : Closed position' middle ls ∨ Open position' middle ls) :
    Closed position cs (first ++ ls) ∨ Open position cs (first ++ ls) := by
  rcases h with closed | ⟨hne, opened⟩
  · left
    intro x hx
    rw [step x (.inl hx), closed x hx, length]
    rcases lexemesFrom (position + cs.length) x with e | more
    · rfl
    · simp [Except.map]
  · right
    refine ⟨hcs, fun x hx => ?_⟩
    rw [step x (.inr hne), opened x hx]
    rfl

theorem takeWhile_length_add (p : Char → Bool) (cs : List Char) :
    (cs.takeWhile p).length + (cs.dropWhile p).length = cs.length := by
  rw [← List.length_append, List.takeWhile_append_dropWhile]

theorem map_ok {α β ε : Type} {f : α → β} {r : Except ε α} {b : β} (h : r.map f = .ok b) : ∃ a, r = .ok a ∧ f a = b := by
  rcases r with e | a
  · cases h
  · exact ⟨a, rfl, Except.ok.inj h⟩

theorem map_nil_append {α ε : Type} (r : Except ε (List α)) : r.map ([] ++ ·) = r := by
  rcases r with e | a <;> rfl

/-- A run of word characters goes no further into what stops it. -/
theorem run_split {cs x : List Char} (h : Stops x ∨ cs.dropWhile isWordChar ≠ []) :
    (cs ++ x).takeWhile isWordChar = cs.takeWhile isWordChar ∧
      (cs ++ x).dropWhile isWordChar = cs.dropWhile isWordChar ++ x := by
  refine takeWhile_append_of_stop fun whole c tail hx => ?_
  rcases h with stops | goesOn
  · exact (stops c tail hx).1
  · exact absurd whole goesOn

theorem open_comment {position : Nat} {cs : List Char} (slash : cs.head? = some '/')
    (line : cs.dropWhile (· != '\n') = []) : Open position ('/' :: cs) [] := by
  refine ⟨List.cons_ne_nil _ _, fun x hx => ?_⟩
  have head : (cs ++ x).head? = some '/' := by simp [List.head?_append, slash]
  have swallowed : (cs ++ x).dropWhile (· != '\n') = [] := by
    have all : ∀ c ∈ x, (c != '\n') = true := fun c hc => by simpa using hx c hc
    have none : (x ++ []).dropWhile (· != '\n') = [].dropWhile (· != '\n') := List.dropWhile_append_of_pos all
    rw [List.append_nil] at none
    rw [List.dropWhile_append, line, none]
    rfl
  rw [List.cons_append, lexemes_comment head, swallowed, lexemesFrom]

/-- Every text is closed or ends in a comment. -/
theorem lexemes_append {position : Nat} {cs : List Char} {ls : List Lexeme} (h : lexemesFrom position cs = .ok ls) :
    Closed position cs ls ∨ Open position cs ls := by
  fun_induction lexemesFrom position cs generalizing ls with
  | case1 position =>
    cases h
    left
    intro x _
    exact (map_nil_append _).symm
  | case2 => cases h
  | case3 position c rest quote text after hl shorter ih =>
    obtain ⟨more, hmore, rfl⟩ := map_ok h
    refine closed_or_open [.literal text] (List.cons_ne_nil _ _) ?_ (fun x _ => ?_) (ih hmore)
    · have := (takeLiteral_append hl []).2
      simp only [List.length_cons, List.length_nil] at this ⊢
      omega
    · exact lexemes_literal quote (takeLiteral_append hl x).1
  | case4 position c rest quote slashes comment =>
    rename_i ih
    obtain ⟨rfl, hs⟩ := slashes
    have head (x : List Char) : (rest ++ x).head? = some '/' := by simp [List.head?_append, hs]
    by_cases line : rest.dropWhile (· != '\n') = []
    · rw [line, lexemesFrom] at h
      cases h
      exact .inr (open_comment hs line)
    · refine closed_or_open [] (List.cons_ne_nil _ _) ?_ (fun x _ => ?_) (ih h)
      · have := takeWhile_length_add (· != '\n') rest
        simp only [comment, List.length_cons]
        omega
      · have both : (rest ++ x).takeWhile (· != '\n') = rest.takeWhile (· != '\n') ∧
            (rest ++ x).dropWhile (· != '\n') = rest.dropWhile (· != '\n') ++ x :=
          takeWhile_append_of_stop fun h => absurd h line
        rw [List.cons_append, lexemes_comment (head x), both.1, both.2, map_nil_append]
  | case5 position c rest quote slashes blank ih =>
    have hs : c ≠ '/' := by
      rintro rfl
      exact absurd blank (by decide)
    refine closed_or_open [] (List.cons_ne_nil _ _) (by simp only [List.length_cons]; omega) (fun x _ => ?_) (ih h)
    rw [List.cons_append, lexemes_blank blank (by simpa using quote) hs, map_nil_append]
  | case6 position c rest quote slashes blank word letters =>
    rename_i ih
    obtain ⟨more, hmore, rfl⟩ := map_ok h
    have hs : c ≠ '/' := by
      rintro rfl
      exact absurd word (by decide)
    refine closed_or_open [.word letters] (List.cons_ne_nil _ _) ?_ (fun x hx => ?_) (ih hmore)
    · have := takeWhile_length_add isWordChar rest
      simp only [letters, List.length_cons]
      omega
    · have both := run_split hx
      rw [List.cons_append, lexemes_word (by simpa using quote) hs (by simpa using blank) word, both.1, both.2]
      rfl
  | case7 position c rest quote slashes blank word digit text =>
    rename_i ih
    obtain ⟨more, hmore, rfl⟩ := map_ok h
    have hs : c ≠ '/' := by
      rintro rfl
      exact absurd digit (by decide)
    refine closed_or_open [.number text] (List.cons_ne_nil _ _) ?_ (fun x hx => ?_) (ih hmore)
    · have := takeWhile_length_add isWordChar rest
      simp only [text, List.length_cons]
      omega
    · have both := run_split hx
      rw [List.cons_append, lexemes_number (by simpa using quote) hs (by simpa using blank) (by simpa using word) digit,
        both.1, both.2]
      rfl
  | case8 position c rest quote slashes blank word digit ih =>
    obtain ⟨more, hmore, rfl⟩ := map_ok h
    refine closed_or_open [.mark c] (List.cons_ne_nil _ _) (by simp only [List.length_cons]; omega) (fun x hx => ?_)
      (ih hmore)
    rw [List.cons_append, lexemes_mark (by simp [isMark, quote, blank, word, digit])]
    · rfl
    · rintro rfl hhead
      rcases rest with _ | ⟨d, rest⟩
      · obtain ⟨tail, rfl⟩ := List.head?_eq_some_iff.mp hhead
        exact (hx.resolve_right fun ne => ne rfl) '/' tail rfl |>.2 rfl
      · exact slashes ⟨rfl, hhead⟩

/-! ## Where it begins -/

theorem takeLiteral_position {quote : Char} {opened position : Nat} {done cs : List Char} {r : List Char × List Char}
    (h : takeLiteral quote opened position done cs = .ok r) (opened' position' : Nat) :
    takeLiteral quote opened' position' done cs = .ok r := by
  fun_induction takeLiteral quote opened position done cs generalizing position' with
  | case1 => cases h
  | case2 => cases h
  | case3 => cases h
  | case4 position done c rest plain ih =>
    rw [takeLiteral, if_neg plain]
    exact ih h _
  | case5 position done rest plain =>
    rw [takeLiteral, if_pos rfl]
    · exact h
    · exact plain
  | case6 position done c rest plain other ih =>
    rw [takeLiteral, if_neg other]
    · exact ih h _
    · exact plain

/-- Positions are in the errors only. -/
theorem lexemesFrom_position {position : Nat} {cs : List Char} {ls : List Lexeme} (h : lexemesFrom position cs = .ok ls)
    (position' : Nat) : lexemesFrom position' cs = .ok ls := by
  fun_induction lexemesFrom position cs generalizing position' ls with
  | case1 =>
    rw [lexemesFrom]
    exact h
  | case2 => cases h
  | case3 position c rest quote text after hl shorter ih =>
    obtain ⟨more, hmore, rfl⟩ := map_ok h
    rw [lexemes_literal quote (takeLiteral_position hl _ _), ih hmore]
    rfl
  | case4 position c rest quote slashes comment =>
    rename_i ih
    obtain ⟨rfl, hs⟩ := slashes
    rw [lexemes_comment hs]
    exact ih h _
  | case5 position c rest quote slashes blank ih =>
    have hs : c ≠ '/' := by
      rintro rfl
      exact absurd blank (by decide)
    rw [lexemes_blank blank (by simpa using quote) hs]
    exact ih h _
  | case6 position c rest quote slashes blank word letters =>
    rename_i ih
    obtain ⟨more, hmore, rfl⟩ := map_ok h
    have hs : c ≠ '/' := by
      rintro rfl
      exact absurd word (by decide)
    rw [lexemes_word (by simpa using quote) hs (by simpa using blank) word, ih hmore]
    rfl
  | case7 position c rest quote slashes blank word digit text =>
    rename_i ih
    obtain ⟨more, hmore, rfl⟩ := map_ok h
    have hs : c ≠ '/' := by
      rintro rfl
      exact absurd digit (by decide)
    rw [lexemes_number (by simpa using quote) hs (by simpa using blank) (by simpa using word) digit, ih hmore]
    rfl
  | case8 position c rest quote slashes blank word digit ih =>
    obtain ⟨more, hmore, rfl⟩ := map_ok h
    have hs : c = '/' → rest.head? ≠ some '/' := fun hc hhead => slashes ⟨hc, hhead⟩
    rw [lexemes_mark (by simp [isMark, quote, blank, word, digit]) hs, ih hmore]
    rfl

end Groq.Query
