/-
  Groq.Proofs.Query.Stability — the normal form of a query that parses.

  A host may keep the normal form in place of the query if it parses to the same tree. Cutting a
  normal form again joins the words and numbers that blanks kept apart in the query; where the text is
  smooth nothing else changes, and what is joined is written as it was. There is one exception: words
  behind an operator word may make another one together (`runsStand`).
  Proved: the normal form of a query that parses is its own normal form just where this does not
  happen, and there it parses to the same tree (`parse_normal`); where it happens it need not
  (`parse_normal_differs`).
-/

import Mathlib
import Groq.Proofs.Query.Ascii
import Groq.Proofs.Query.Idempotence

namespace Groq.Query

/-! ## Lexemes in front of text -/

/-- What a lexeme is made of, and what is cut off where it is written in front of other text: of a word or
    a number all that goes on with it. -/
def Lexeme.Formed : Lexeme → Prop
  | .literal text => Mode.code.after text = .code ∧ (∃ quote, isQuote quote = true ∧ text.head? = some quote ∧ text.getLast? = some quote) ∧
      ∀ x ls, Cuts x ls → Cuts (text ++ x) (.literal text :: ls)
  | .word letters => (∃ c, beginsWord c = true ∧ letters.head? = some c) ∧ (∀ c ∈ letters, isWordChar c = true) ∧
      ∀ x ls, Cuts (x.dropWhile isWordChar) ls → Cuts (letters ++ x) (.word (letters ++ x.takeWhile isWordChar) :: ls)
  | .number text => (∃ c, c.isDigit = true ∧ text.head? = some c) ∧ (∀ c ∈ text, isWordChar c = true) ∧
      ∀ x ls, Cuts (x.dropWhile isWordChar) ls → Cuts (text ++ x) (.number (text ++ x.takeWhile isWordChar) :: ls)
  | .mark c => isMark c = true

theorem cuts_space {x : List Char} {ls : List Lexeme} (h : Cuts x ls) : Cuts (' ' :: x) ls := by
  intro position
  rw [lexemes_space]
  exact h _

theorem takeLiteral_last {quote : Char} {opened position : Nat} {done cs text after : List Char}
    (h : takeLiteral quote opened position done cs = .ok (text, after)) : text.getLast? = some quote := by
  fun_induction takeLiteral quote opened position done cs with
  | case1 => cases h
  | case2 => cases h
  | case3 => cases h
  | case4 position done c rest plain ih => exact ih h
  | case5 position done rest plain =>
    cases h
    simp
  | case6 position done c rest plain other ih => exact ih h

section Runs

variable {c : Char} {rest : List Char} (quote : isQuote c = false) (slash : c ≠ '/') (blank : Text.isBlank c = false)

theorem isWordChar_takeWhile (cs : List Char) : ∀ d ∈ cs.takeWhile isWordChar, isWordChar d = true :=
  fun d hd => List.all_eq_true.mp List.all_takeWhile d hd

include quote slash blank

theorem formed_word (begins : beginsWord c = true) : (Lexeme.word (c :: rest.takeWhile isWordChar)).Formed := by
  refine ⟨⟨c, begins, rfl⟩, List.forall_mem_cons.mpr ⟨isWordChar_of_beginsWord begins, isWordChar_takeWhile rest⟩, ?_⟩
  intro x ls h position
  rw [List.cons_append, lexemes_word quote slash blank begins, List.takeWhile_append_of_pos (isWordChar_takeWhile rest),
    List.dropWhile_append_of_pos (isWordChar_takeWhile rest), h]
  rfl

theorem formed_number (begins : beginsWord c = false) (digit : c.isDigit = true) :
    (Lexeme.number (c :: rest.takeWhile isWordChar)).Formed := by
  have word := isWordChar_of_isNameChar (isNameChar_of_isDigit digit)
  refine ⟨⟨c, digit, rfl⟩, List.forall_mem_cons.mpr ⟨word, isWordChar_takeWhile rest⟩, ?_⟩
  intro x ls h position
  rw [List.cons_append, lexemes_number quote slash blank begins digit, List.takeWhile_append_of_pos (isWordChar_takeWhile rest),
    List.dropWhile_append_of_pos (isWordChar_takeWhile rest), h]
  rfl

end Runs

theorem formed_literal {quote : Char} (hq : isQuote quote = true) {position : Nat} {rest text after : List Char}
    (h : takeLiteral quote position (position + 1) [quote] rest = .ok (text, after)) : (Lexeme.literal text).Formed := by
  obtain ⟨-, body, hbody, -, closed⟩ := outside_literal h
  have opened : Mode.code.next quote = .literal quote := if_pos (by simpa [isQuote] using hq)
  refine ⟨?_, ⟨quote, hq, by rw [hbody]; rfl, takeLiteral_last h⟩, ?_⟩
  · rw [hbody, List.reverse_singleton, Mode.after, List.singleton_append, List.foldl_cons, opened]
    exact closed
  · intro x ls hx position'
    have stands := stands_literal_of_cut hq h position' x (by cases x <;> rfl)
    rw [hx] at stands
    exact stands

theorem formed_of_lexemes {position : Nat} {cs : List Char} {ls : List Lexeme} (h : lexemesFrom position cs = .ok ls) :
    ∀ l ∈ ls, l.Formed := by
  fun_induction lexemesFrom position cs generalizing ls with
  | case1 =>
    cases h
    exact List.forall_mem_nil _
  | case2 => cases h
  | case3 position c rest quote text after hl shorter ih =>
    obtain ⟨more, hmore, rfl⟩ := map_ok h
    exact List.forall_mem_cons.mpr ⟨formed_literal quote hl, ih hmore⟩
  | case4 position c rest quote slashes comment =>
    rename_i ih
    exact ih h
  | case5 position c rest quote slashes blank ih => exact ih h
  | case6 position c rest quote slashes blank word letters =>
    rename_i ih
    obtain ⟨more, hmore, rfl⟩ := map_ok h
    have slash : c ≠ '/' := by
      rintro rfl
      exact absurd word (by decide)
    exact List.forall_mem_cons.mpr ⟨formed_word (by simpa using quote) slash (by simpa using blank) word, ih hmore⟩
  | case7 position c rest quote slashes blank word digit text =>
    rename_i ih
    obtain ⟨more, hmore, rfl⟩ := map_ok h
    have slash : c ≠ '/' := by
      rintro rfl
      exact absurd digit (by decide)
    have first : (Lexeme.number (c :: rest.takeWhile isWordChar)).Formed :=
      formed_number (by simpa using quote) slash (by simpa using blank) (by simpa using word) digit
    exact List.forall_mem_cons.mpr ⟨first, ih hmore⟩
  | case8 position c rest quote slashes blank word digit ih =>
    obtain ⟨more, hmore, rfl⟩ := map_ok h
    exact List.forall_mem_cons.mpr ⟨by simp [Lexeme.Formed, isMark, quote, blank, word, digit], ih hmore⟩

/-! ## Cutting again -/

/-- The word at the beginning, if any, is written there as it is: it is no operator word, or the space
    behind it is there already. -/
def runStands (cs : List Char) : Bool :=
  !isKeyword (cs.takeWhile isWordChar) || (cs.dropWhile isWordChar).head? = some ' '

/-- Does every word behind an operator word stand as it is written? -/
def runsStand (operand : Bool) : List Lexeme → Bool
  | [] => true
  | .word letters :: rest =>
    (!(operand && isKeyword letters) || runStands (writeFrom true true rest)) && runsStand true rest
  | lexeme :: rest => runsStand lexeme.endsOperand rest

/-- Is what is written for the lexemes written the same once more? -/
def StandsFrom (operand spaced : Bool) (ls : List Lexeme) : Prop :=
  runsStand operand ls = true ∧ (operand = true → spaced = true → runStands (writeFrom operand spaced ls) = true)

/-- A text can be cut, and is written as it was just where `same`. -/
def Recut (operand spaced : Bool) (text : List Char) (same : Prop) : Prop :=
  ∃ ls, Cuts text ls ∧ (writeFrom operand spaced ls = text ↔ same)

/-- A text behind a word can be cut. A space that it begins with may have been written with the word already. -/
def RecutBehindWord (text : List Char) (same : Prop) : Prop :=
  ∃ ls, Cuts text ls ∧ (writeFrom true false ls = text ↔ same) ∧
    ∀ x, text = ' ' :: x → (writeFrom true true ls = x ↔ same)

/-- Where an operand has ended, a space shows it, or a character that ends one and is no word. -/
def Shows (operand spaced : Bool) (before : Option Char) : Prop :=
  operand = true → spaced = true ∨ ∃ c, before = some c ∧ endsMark c = true

section Characters

variable {c : Char} {cs : List Char}

theorem isWordChar_of_mark (mark : isMark c = true) (ascii : c.toNat < 128) : isWordChar c = false := by
  simp only [isMark, Bool.and_eq_true, Bool.not_eq_true'] at mark
  obtain ⟨⟨-, word⟩, digit⟩ := mark
  obtain ⟨more, ranges⟩ : ∃ more, Text.numericRanges = (0x30, 0x39) :: (0xB2, 0xB3) :: more := ⟨_, rfl⟩
  have numeric : Text.isNumeric c = false := by
    have outside : ¬ (0x30 ≤ c.toNat ∧ c.toNat ≤ 0x39) := by
      intro inside
      have : c.isDigit = true := by
        simp only [Char.isDigit, Bool.and_eq_true, decide_eq_true_eq, UInt32.le_iff_toNat_le, ge_iff_le]
        exact inside
      rw [this] at digit
      cases digit
    unfold Text.isNumeric
    rw [ranges]
    simp only [Text.inRanges]
    split
    · rfl
    · have above : ¬ c.toNat ≤ 0x39 := by omega
      have below : c.toNat < 0xB2 := by omega
      simp [above, below]
  simp only [beginsWord, Bool.or_eq_false_iff] at word
  simp [isWordChar, Text.isAlphanumeric, word, numeric]

/-- A mark that ends an operand shows it. -/
theorem endsMark_of_mark (mark : isMark c = true) (ascii : c.toNat < 128) (h : (Lexeme.mark c).endsOperand = true) :
    endsMark c = true := by
  have word := isWordChar_of_mark mark ascii
  simp only [isWordChar, Bool.or_eq_false_iff] at word
  simp only [Lexeme.endsOperand, word.1, Bool.false_or] at h
  simp only [endsMark, isCloser, Bool.or_eq_true, decide_eq_true_eq] at h ⊢
  rcases h with (((rfl | rfl) | rfl) | rfl) | rfl <;> simp

theorem keyword_begins {w : List Char} (h : isKeyword w = true) : ∃ c, w.head? = some c ∧ c.isDigit = false := by
  simp only [isKeyword, Bool.or_eq_true, decide_eq_true_eq] at h
  rcases h with ((rfl | rfl) | rfl) | rfl
  · exact ⟨'i', rfl, rfl⟩
  · exact ⟨'m', rfl, rfl⟩
  · exact ⟨'a', rfl, rfl⟩
  · exact ⟨'d', rfl, rfl⟩

theorem runStands_of_outside (h : isWordChar c = false) : runStands (c :: cs) = true := by
  simp only [runStands, List.takeWhile_cons, h]
  rfl

end Characters

section Steps

variable {before : Option Char} {x letters text : List Char} {c : Char} {same : Prop}

theorem dropWhile_outside (h : isWordChar c = false) : (c :: x).dropWhile isWordChar = c :: x := by
  simp [h]

/-- The front of a text is cut into one lexeme that is written as it is. -/
theorem recut_front {l : Lexeme} (written : ∀ o s ls, writeFrom o s (l :: ls) = l.text ++ writeFrom l.endsOperand false ls)
    (cut : ∀ ls, Cuts x ls → Cuts (l.text ++ x) (l :: ls)) (h : Recut l.endsOperand false x same)
    (hc : l.text.head? = some c) (outside : isWordChar c = false) (space : c ≠ ' ') :
    (∀ o s, Recut o s (l.text ++ x) same) ∧ RecutBehindWord ((l.text ++ x).dropWhile isWordChar) same := by
  obtain ⟨ls, cuts, again⟩ := h
  obtain ⟨tail, htail⟩ := List.head?_eq_some_iff.mp hc
  have same (o s : Bool) : writeFrom o s (l :: ls) = l.text ++ x ↔ same := by
    rw [written, List.append_cancel_left_eq]
    exact again
  have whole : (l.text ++ x).dropWhile isWordChar = l.text ++ x := by
    rw [htail]
    exact dropWhile_outside outside
  refine ⟨fun o s => ⟨l :: ls, cut ls cuts, same o s⟩, ?_⟩
  rw [whole]
  refine ⟨l :: ls, cut ls cuts, same true false, fun y hy => ?_⟩
  rw [htail] at hy
  exact absurd (List.cons.inj hy).1 space

/-- An operator word between its spaces. -/
theorem recut_keyword (formed : (Lexeme.word letters).Formed) (keyword : isKeyword letters = true) (h : Recut true true x same) :
    Recut true true (letters ++ ' ' :: x) same ∧ RecutBehindWord (' ' :: (letters ++ ' ' :: x)) same := by
  obtain ⟨ls, cuts, again⟩ := h
  have space : isWordChar ' ' = false := by decide
  have cut : Cuts (letters ++ ' ' :: x) (.word letters :: ls) := by
    have split := formed.2.2 (' ' :: x) ls (by simpa [space] using cuts_space cuts)
    simpa [space] using split
  have written : writeFrom true true (.word letters :: ls) = letters ++ ' ' :: x ↔ same := by
    simp only [writeFrom, keyword]
    simpa using again
  refine ⟨⟨_, cut, written⟩, .word letters :: ls, cuts_space cut, ?_, fun y hy => ?_⟩
  · simp only [writeFrom, keyword]
    simpa using again
  · cases hy
    exact written

theorem smooth_behind_word (word : ∀ c ∈ letters, isWordChar c = true) (h : Smooth .code before (letters ++ x)) :
    ∃ before, Smooth .code before x := by
  have behind := h.of_append
  rw [after_unquoted fun c hc => isQuote_of_isWordChar (word c hc)] at behind
  exact ⟨_, behind⟩

theorem run_in_front (word : ∀ c ∈ letters, isWordChar c = true) :
    (letters ++ x).takeWhile isWordChar = letters ++ x.takeWhile isWordChar ∧
      (letters ++ x).dropWhile isWordChar = x.dropWhile isWordChar :=
  ⟨List.takeWhile_append_of_pos word, List.dropWhile_append_of_pos word⟩

theorem run_append_rest (letters x : List Char) :
    letters ++ x = (letters ++ x.takeWhile isWordChar) ++ x.dropWhile isWordChar := by
  rw [List.append_assoc, List.takeWhile_append_dropWhile]

/-- A word takes in what goes on with it. Behind an operator word it may have become one. -/
theorem recut_word {o s : Bool} (formed : (Lexeme.word letters).Formed) (state : o = true → s = true)
    (h : RecutBehindWord (x.dropWhile isWordChar) same) :
    Recut o s (letters ++ x) (same ∧ (o = true → s = true → runStands (letters ++ x) = true)) := by
  obtain ⟨ls, cuts, again, spaced⟩ := h
  obtain ⟨front, behind⟩ := run_in_front (x := x) formed.2.1
  refine ⟨_, formed.2.2 x ls cuts, ?_⟩
  have asName (name : (o && isKeyword (letters ++ x.takeWhile isWordChar)) = false) :
      writeFrom o s (.word (letters ++ x.takeWhile isWordChar) :: ls) = letters ++ x ↔ same := by
    have written : writeFrom o s (.word (letters ++ x.takeWhile isWordChar) :: ls) =
        (letters ++ x.takeWhile isWordChar) ++ writeFrom true false ls := by simp [writeFrom, name]
    rw [written, run_append_rest letters x, List.append_cancel_left_eq]
    exact again
  rcases o with _ | _
  · rw [asName rfl]
    simp
  · obtain rfl := state rfl
    rcases keyword : isKeyword (letters ++ x.takeWhile isWordChar) with _ | _
    · have stands : runStands (letters ++ x) = true := by simp [runStands, front, keyword]
      rw [asName keyword]
      simp [stands]
    · have written : writeFrom true true (.word (letters ++ x.takeWhile isWordChar) :: ls) =
          (letters ++ x.takeWhile isWordChar) ++ ' ' :: writeFrom true true ls := by simp [writeFrom, keyword]
      have stands : runStands (letters ++ x) = true ↔ ∃ tail, x.dropWhile isWordChar = ' ' :: tail := by
        simp [runStands, front, keyword, behind, List.head?_eq_some_iff]
      rw [written, run_append_rest letters x, List.append_cancel_left_eq, ← run_append_rest]
      constructor
      · intro text
        exact ⟨(spaced _ text.symm).mp rfl, fun _ _ => stands.mpr ⟨_, text.symm⟩⟩
      · rintro ⟨hsame, hstands⟩
        obtain ⟨tail, text⟩ := stands.mp (hstands rfl rfl)
        rw [text, (spaced tail text).mpr hsame]

theorem recut_number {o s : Bool} (formed : (Lexeme.number text).Formed) (h : RecutBehindWord (x.dropWhile isWordChar) same) :
    Recut o s (text ++ x) same := by
  obtain ⟨ls, cuts, again, -⟩ := h
  refine ⟨_, formed.2.2 x ls cuts, ?_⟩
  have written : writeFrom o s (.number (text ++ x.takeWhile isWordChar) :: ls) =
      (text ++ x.takeWhile isWordChar) ++ writeFrom true false ls := rfl
  rw [written, run_append_rest text x, List.append_cancel_left_eq]
  exact again

/-- A number is no operator word. -/
theorem runStands_of_number (formed : (Lexeme.number text).Formed) : runStands (text ++ x) = true := by
  obtain ⟨c, digit, hc⟩ := formed.1
  obtain ⟨tail, rfl⟩ := List.head?_eq_some_iff.mp hc
  have word := isWordChar_of_isNameChar (isNameChar_of_isDigit digit)
  unfold runStands
  rcases keyword : isKeyword ((c :: tail ++ x).takeWhile isWordChar) with _ | _
  · rfl
  · obtain ⟨d, hd, other⟩ := keyword_begins keyword
    rw [List.cons_append, List.takeWhile_cons, if_pos word] at hd
    cases hd
    exact absurd (digit.symm.trans other) nofun

end Steps

/-- Where it is smooth what is written for the lexemes can be cut again: from where an operand has ended or
    none has, and behind a word that goes on with the beginning. -/
structure Recuts (ls : List Lexeme) : Prop where
  anywhere : ∀ o s before, Smooth .code before (writeFrom o s ls) → Shows o s before →
    Recut o s (writeFrom o s ls) (StandsFrom o s ls)
  behindWord : ∀ before, Smooth .code before (writeFrom true false ls) →
    RecutBehindWord ((writeFrom true false ls).dropWhile isWordChar) (runsStand true ls = true)

namespace Recuts

variable {rest : List Lexeme} {text letters : List Char} {c : Char}

theorem nil : Recuts [] := by
  have none : Cuts [] [] := fun _ => by rw [lexemesFrom]
  refine ⟨fun o s _ _ _ => ⟨[], none, ?_⟩, fun _ _ => ⟨[], none, ?_, fun x h => ?_⟩⟩
  · simp [StandsFrom, runsStand, writeFrom, runStands, isKeyword]
  · simp [writeFrom, runsStand]
  · cases h

/-- Behind a lexeme that is no word. -/
theorem unspaced (h : Recuts rest) {operand : Bool} {before : Option Char}
    (smooth : Smooth .code before (writeFrom operand false rest)) (shows : Shows operand false before) :
    Recut operand false (writeFrom operand false rest) (runsStand operand rest = true) := by
  obtain ⟨ls, cuts, same⟩ := h.anywhere operand false before smooth shows
  exact ⟨ls, cuts, by simpa [StandsFrom] using same⟩

/-- A lexeme that is written as it is and begins with no word character. -/
theorem front {l : Lexeme} (written : ∀ o s ls, writeFrom o s (l :: ls) = l.text ++ writeFrom l.endsOperand false ls)
    (runs : ∀ o, runsStand o (l :: rest) = runsStand l.endsOperand rest)
    (hc : l.text.head? = some c) (outside : isWordChar c = false) (space : c ≠ ' ')
    (step : ∀ before, Smooth .code before (l.text ++ writeFrom l.endsOperand false rest) →
      (∀ ls, Cuts (writeFrom l.endsOperand false rest) ls → Cuts (l.text ++ writeFrom l.endsOperand false rest) (l :: ls)) ∧
        Recut l.endsOperand false (writeFrom l.endsOperand false rest) (runsStand l.endsOperand rest = true)) :
    Recuts (l :: rest) := by
  refine ⟨fun o s before smooth _ => ?_, fun before smooth => ?_⟩
  · rw [written] at smooth ⊢
    obtain ⟨cut, h⟩ := step before smooth
    obtain ⟨ls, cuts, same⟩ := (recut_front written cut h hc outside space).1 o s
    refine ⟨ls, cuts, same.trans ?_⟩
    have stands : runStands (l.text ++ writeFrom l.endsOperand false rest) = true := by
      obtain ⟨tail, htail⟩ := List.head?_eq_some_iff.mp hc
      rw [htail]
      exact runStands_of_outside outside
    simp [StandsFrom, runs, written, stands]
  · rw [written] at smooth ⊢
    obtain ⟨cut, h⟩ := step before smooth
    rw [runs]
    exact (recut_front written cut h hc outside space).2

theorem literal (formed : (Lexeme.literal text).Formed) (h : Recuts rest) : Recuts (.literal text :: rest) := by
  obtain ⟨closed, ⟨quote, hq, head, last⟩, cut⟩ := formed
  have outside : isWordChar quote = false := by
    rcases word : isWordChar quote with _ | _
    · rfl
    · exact absurd (hq.symm.trans (isQuote_of_isWordChar word)) nofun
  have space : quote ≠ ' ' := by
    rintro rfl
    cases hq
  refine front (fun _ _ _ => rfl) (fun _ => rfl) head outside space fun before smooth => ⟨cut _, ?_⟩
  have behind := smooth.of_append
  rw [show Mode.code.after (Lexeme.literal text).text = .code from closed,
    show (Lexeme.literal text).text.getLast? = some quote from last] at behind
  exact h.unspaced behind fun _ => .inr ⟨quote, rfl, by simp [endsMark, hq]⟩

theorem mark (formed : isMark c = true) (h : Recuts rest) : Recuts (.mark c :: rest) := by
  by_cases ascii : c.toNat < 128
  · have quote : isQuote c = false := by
      simp only [isMark, Bool.and_eq_true, Bool.not_eq_true'] at formed
      exact formed.1.1.1
    have space : c ≠ ' ' := by
      rintro rfl
      exact absurd formed (by decide)
    refine front (fun _ _ _ => rfl) (fun _ => rfl) rfl (isWordChar_of_mark formed ascii) space fun before smooth => ?_
    have behind := smooth.2
    rw [next_code quote] at behind
    refine ⟨fun ls => cuts_mark formed fun slash comment => ?_, h.unspaced behind fun ends => ?_⟩
    · obtain ⟨tail, htail⟩ := List.head?_eq_some_iff.mp comment
      have apart := behind
      rw [htail] at apart
      have := (apart.1 rfl).2 c rfl
      rw [slash] at this
      cases this
    · exact .inr ⟨c, rfl, endsMark_of_mark formed ascii ends⟩
  · have never {o s : Bool} {before : Option Char} (smooth : Smooth .code before (writeFrom o s (.mark c :: rest))) : False :=
      ascii (smooth.1 rfl).1
    exact ⟨fun o s before smooth _ => (never smooth).elim, fun before smooth => (never smooth).elim⟩

theorem number (formed : (Lexeme.number text).Formed) (h : Recuts rest) : Recuts (.number text :: rest) := by
  have behind {before : Option Char} (smooth : Smooth .code before (text ++ writeFrom true false rest)) :
      RecutBehindWord ((writeFrom true false rest).dropWhile isWordChar) (runsStand true rest = true) := by
    obtain ⟨before, smooth⟩ := smooth_behind_word formed.2.1 smooth
    exact h.behindWord before smooth
  refine ⟨fun o s before smooth _ => ?_, fun before smooth => ?_⟩
  · obtain ⟨ls, cuts, same⟩ := recut_number (o := o) (s := s) formed (behind smooth)
    refine ⟨ls, cuts, same.trans ?_⟩
    have stands : runStands (writeFrom o s (.number text :: rest)) = true := runStands_of_number formed
    have runs : runsStand o (.number text :: rest) = runsStand true rest := rfl
    simp [StandsFrom, runs, stands]
  · show RecutBehindWord ((text ++ writeFrom true false rest).dropWhile isWordChar) _
    rw [(run_in_front formed.2.1).2]
    exact behind smooth

theorem keyword (formed : (Lexeme.word letters).Formed) (keyword : isKeyword letters = true) (h : Recuts rest)
    {before : Option Char} (smooth : Smooth .code before (letters ++ ' ' :: writeFrom true true rest)) :
    Recut true true (letters ++ ' ' :: writeFrom true true rest) (runsStand true (.word letters :: rest) = true) ∧
      RecutBehindWord (' ' :: (letters ++ ' ' :: writeFrom true true rest)) (runsStand true (.word letters :: rest) = true) := by
  obtain ⟨before, smooth⟩ := smooth_behind_word formed.2.1 smooth
  have behind : Smooth .code (some ' ') (writeFrom true true rest) := smooth.2
  have recut := h.anywhere true true (some ' ') behind fun _ => .inl rfl
  have same : StandsFrom true true rest ↔ runsStand true (.word letters :: rest) = true := by
    simp [StandsFrom, runsStand, keyword, and_comm]
  rw [same] at recut
  exact recut_keyword formed keyword recut

theorem word (formed : (Lexeme.word letters).Formed) (h : Recuts rest) : Recuts (.word letters :: rest) := by
  have outside : isWordChar ' ' = false := by decide
  have behind {before : Option Char} (smooth : Smooth .code before (letters ++ writeFrom true false rest)) :
      RecutBehindWord ((writeFrom true false rest).dropWhile isWordChar) (runsStand true rest = true) := by
    obtain ⟨before, smooth⟩ := smooth_behind_word formed.2.1 smooth
    exact h.behindWord before smooth
  refine ⟨fun o s before smooth shows => ?_, fun before smooth => ?_⟩
  · rcases operator : o && isKeyword letters with _ | _
    · have text : writeFrom o s (.word letters :: rest) = letters ++ writeFrom true false rest := by simp [writeFrom, operator]
      have runs : runsStand o (.word letters :: rest) = runsStand true rest := by simp [runsStand, operator]
      rw [StandsFrom, runs, text]
      rw [text] at smooth
      refine recut_word formed (fun ho => ?_) (behind smooth)
      -- Directly behind the end of an operand that is no word the first letter would clash.
      rcases shows ho with spaced | ⟨d, hd, ends⟩
      · exact spaced
      · obtain ⟨c, begins, hc⟩ := formed.1
        obtain ⟨tail, rfl⟩ := List.head?_eq_some_iff.mp hc
        have apart := (smooth.1 rfl).2 d hd
        simp [clashes, ends, begins] at apart
    · obtain ⟨rfl, keyword⟩ := Bool.and_eq_true_iff.mp operator
      have spaced : writeFrom true true (.word letters :: rest) = letters ++ ' ' :: writeFrom true true rest := by
        simp [writeFrom, keyword]
      have unspaced : writeFrom true false (.word letters :: rest) = ' ' :: (letters ++ ' ' :: writeFrom true true rest) := by
        simp [writeFrom, keyword]
      cases s with
      | true =>
        have stands : runStands (letters ++ ' ' :: writeFrom true true rest) = true := by
          simp [runStands, (run_in_front formed.2.1).2, outside]
        rw [StandsFrom, spaced, stands]
        rw [spaced] at smooth
        simpa using (Recuts.keyword formed keyword h smooth).1
      | false =>
        rw [StandsFrom, unspaced]
        rw [unspaced] at smooth
        obtain ⟨ls, cuts, same, -⟩ := (Recuts.keyword formed keyword h smooth.2).2
        exact ⟨ls, cuts, by simpa using same⟩
  · rcases keyword : isKeyword letters with _ | _
    · have text : writeFrom true false (.word letters :: rest) = letters ++ writeFrom true false rest := by
        simp [writeFrom, keyword]
      have runs : runsStand true (.word letters :: rest) = runsStand true rest := by simp [runsStand, keyword]
      rw [text] at smooth ⊢
      rw [runs, (run_in_front formed.2.1).2]
      exact behind smooth
    · have text : writeFrom true false (.word letters :: rest) = ' ' :: (letters ++ ' ' :: writeFrom true true rest) := by
        simp [writeFrom, keyword]
      rw [text] at smooth ⊢
      rw [dropWhile_outside outside]
      exact (Recuts.keyword formed keyword h smooth.2).2

end Recuts

/-- By induction on the lexemes: where the text is smooth, cutting it again only joins words and numbers. -/
theorem recuts_of_formed {ls : List Lexeme} (formed : ∀ l ∈ ls, l.Formed) : Recuts ls := by
  induction ls with
  | nil => exact .nil
  | cons l rest ih =>
    obtain ⟨first, others⟩ := List.forall_mem_cons.mp formed
    cases l with
    | literal text => exact .literal first (ih others)
    | word letters => exact .word first (ih others)
    | number text => exact .number first (ih others)
    | mark c => exact .mark first (ih others)

/-! ## Queries that parse -/

/-- The normal form of a query that parses is its own normal form where every word behind an operator word
    stands as it is written, and only there; and there it parses to the tree of the query. -/
theorem parse_normal (limits : Limits) (query n : String) (e : Expr) (ls : List Lexeme) (accepted : parse limits query = .ok e)
    (cut : lexemes query.toList = .ok ls) (normal : normalize query = .ok n) :
    (normalize n = .ok n ↔ runsStand false ls = true) ∧ (runsStand false ls = true → parse limits n = .ok e) := by
  have written : n = String.ofList (writeFrom false false ls) :=
    Except.ok.inj (normal.symm.trans (normalize_of_lexemes cut))
  have smooth : Smooth .code none (writeFrom false false ls) := by
    rw [← String.ofList_toList (s := query)] at accepted
    obtain ⟨m, hm, hr⟩ := parse_ok accepted
    unfold normalizeChars at hm
    rw [cut] at hm
    cases hm
    exact reading_smooth hr
  obtain ⟨again, cuts, same⟩ := (recuts_of_formed (formed_of_lexemes cut)).anywhere false false none smooth nofun
  have stands : StandsFrom false false ls ↔ runsStand false ls = true := by simp [StandsFrom]
  rw [stands] at same
  have cutAgain : lexemes n.toList = .ok again := by
    rw [written, String.toList_ofList]
    exact cuts 0
  have idempotent : normalize n = .ok n ↔ runsStand false ls = true := by
    rw [normalize_of_lexemes cutAgain, written, ← same]
    constructor
    · intro h
      exact String.ofList_injective (Except.ok.inj h)
    · intro h
      rw [h]
  refine ⟨idempotent, fun hs => ?_⟩
  have asQuery : normalizeChars query.toList = .ok (writeFrom false false ls) := by
    unfold normalizeChars
    rw [cut]
    rfl
  have asNormal : normalizeChars n.toList = .ok (writeFrom false false ls) := by
    unfold normalizeChars
    rw [cutAgain, ← same.mpr hs]
    rfl
  rw [← String.ofList_toList (s := query), parse_of_normal asQuery] at accepted
  rw [← String.ofList_toList (s := n), parse_of_normal asNormal]
  exact accepted

set_option maxRecDepth 4000 in
/-- Behind a bracket two words may make an operator word: it is a name there. -/
theorem parse_normal_in : parse {} "x in [ a sc ]" = .ok (.binary .isIn (.ownField "x") (.array [.item (.ownField "asc")])) ∧
    lexemes "x in [ a sc ]".toList =
      .ok [.word ['x'], .word ['i', 'n'], .mark '[', .word ['a'], .word ['s', 'c'], .mark ']'] ∧
    normalize "x in [ a sc ]" = .ok "x in [asc]" ∧
    normalize "x in [asc]" = .ok "x in [asc]" ∧
    parse {} "x in [asc]" = .ok (.binary .isIn (.ownField "x") (.array [.item (.ownField "asc")])) := by
  have cut : lexemes "x in [ a sc ]".toList =
      .ok [.word ['x'], .word ['i', 'n'], .mark '[', .word ['a'], .word ['s', 'c'], .mark ']'] := by cbv
  have accepted : parse {} "x in [ a sc ]" = .ok (.binary .isIn (.ownField "x") (.array [.item (.ownField "asc")])) :=
    parse_of_lexemes cut rfl
  have normal : normalize "x in [ a sc ]" = .ok "x in [asc]" := (normalize_of_lexemes cut).trans rfl
  obtain ⟨stable, parses⟩ := parse_normal {} "x in [ a sc ]" "x in [asc]" _ _ accepted cut normal
  exact ⟨accepted, cut, normal, stable.mpr (by decide), parses (by decide)⟩

set_option maxRecDepth 4000 in
/-- Behind an operator word they are another operator word in the normal form, and that does not parse. -/
theorem parse_normal_differs : ¬ ∀ (limits : Limits) (query n : String) (e : Expr),
    parse limits query = .ok e → normalize query = .ok n → parse limits n = .ok e := by
  intro stable
  have cut : lexemes "x in a sc".toList = .ok [.word ['x'], .word ['i', 'n'], .word ['a'], .word ['s', 'c']] := by cbv
  have cutAgain : lexemes "x in asc".toList = .ok [.word ['x'], .word ['i', 'n'], .word ['a', 's', 'c']] := by cbv
  have accepted : parse {} "x in a sc" = .ok (.binary .isIn (.ownField "x") (.ownField "asc")) := parse_of_lexemes cut rfl
  have kept := stable {} "x in a sc" "x in asc" _ accepted ((normalize_of_lexemes cut).trans rfl)
  have spaced : normalizeChars "x in asc".toList = .ok "x in asc ".toList := by
    unfold normalizeChars
    rw [cutAgain]
    rfl
  have refused : parse {} (String.ofList "x in asc".toList) = .error (.noMatch "x in asc ") :=
    (parse_of_bounded (r := none) spaced rfl).trans rfl
  cases refused.symm.trans kept

end Groq.Query
