/-
  Groq.Proofs.Query.Idempotence — when a normal form is its own normal form.

  Writing puts lexemes side by side that blanks or a comment kept apart in the query. Cutting the
  normal form gives the same lexemes again where none of them runs on into what stands behind it:
  a word or number into word characters, a slash into a second one (`apart`).
  Proved: then the normal form is cut into the same lexemes, and is its own normal form
  (`normalize_again`). Without that it need not be: two words run together can be an operator that
  neither of them was (`normalize_twice_differs`), and two slashes are a comment.
-/

import Mathlib.Data.List.Basic
import Groq.Proofs.Query.Lexemes

namespace Groq.Query

/-! ## Lexemes in a row -/

/-- Does a lexeme go on with a character directly behind it? A second slash makes a comment of the first. -/
def Lexeme.runsOn : Lexeme → Char → Bool
  | .literal _, _ => false
  | .word _, c => isWordChar c
  | .number _, c => isWordChar c
  | .mark d, c => d = '/' && c = '/'

def Lexeme.stopsBefore (l : Lexeme) (cs : List Char) : Bool := !cs.head?.any l.runsOn

/-- Does every lexeme stop where the next is written? Behind an operator word stands a space. -/
def apart (operand : Bool) : List Lexeme → Bool
  | [] => true
  | lexeme :: rest =>
    match lexeme with
    | .word letters =>
      if operand && isKeyword letters then apart true rest
      else (Lexeme.word letters).stopsBefore (writeFrom true false rest) && apart true rest
    | lexeme => lexeme.stopsBefore (writeFrom lexeme.endsOperand false rest) && apart lexeme.endsOperand rest

/-- Is a lexeme cut off first wherever it stands before something it does not run on into? -/
def Lexeme.Stands (l : Lexeme) : Prop := ∀ position x, l.stopsBefore x = true →
  lexemesFrom position (l.text ++ x) = (lexemesFrom (position + l.text.length) x).map (l :: ·)

/-! ## Cutting once -/

/-- A literal ends at its closing quote, whatever stands behind it. -/
theorem takeLiteral_front {quote : Char} {opened position : Nat} {done cs text after : List Char}
    (h : takeLiteral quote opened position done cs = .ok (text, after)) :
    ∃ body, text = done.reverse ++ body ∧
      ∀ x, takeLiteral quote opened position done (body ++ x) = .ok (text, x) := by
  fun_induction takeLiteral quote opened position done cs with
  | case1 => cases h
  | case2 => cases h
  | case3 => cases h
  | case4 position done c rest plain ih =>
    obtain ⟨body, rfl, hbody⟩ := ih h
    refine ⟨'\\' :: c :: body, by simp, ?_⟩
    intro x
    rw [List.cons_append, List.cons_append, takeLiteral, if_neg plain]
    exact hbody x
  | case5 position done rest plain =>
    cases h
    refine ⟨[quote], by simp, ?_⟩
    intro x
    rw [List.singleton_append, takeLiteral, if_pos rfl]
    exact plain
  | case6 position done c rest plain other ih =>
    obtain ⟨body, rfl, hbody⟩ := ih h
    refine ⟨c :: body, by simp, ?_⟩
    intro x
    rw [List.cons_append, takeLiteral, if_neg other]
    · exact hbody x
    · exact plain

theorem stands_literal_of_cut {quote : Char} (hq : isQuote quote = true) {position : Nat} {rest text after : List Char}
    (h : takeLiteral quote position (position + 1) [quote] rest = .ok (text, after)) : (Lexeme.literal text).Stands := by
  obtain ⟨body, rfl, hbody⟩ := takeLiteral_front h
  intro position' x _
  exact lexemes_literal hq (takeLiteral_position (hbody x) position' (position' + 1))

/-- A run of word characters stops before what does not go on with it. -/
theorem run_stops {cs x : List Char} (word : ∀ c ∈ cs, isWordChar c = true) (stop : x.head?.any isWordChar = false) :
    (cs ++ x).takeWhile isWordChar = cs ∧ (cs ++ x).dropWhile isWordChar = x := by
  induction cs with
  | nil =>
    rcases x with _ | ⟨d, x⟩
    · exact ⟨rfl, rfl⟩
    · have stop : isWordChar d = false := stop
      simp [stop]
  | cons c cs ih =>
    obtain ⟨ht, hd⟩ := ih fun d hd => word d (List.mem_cons_of_mem _ hd)
    simp [word c List.mem_cons_self, ht, hd]

section Words

variable {c : Char} {rest : List Char} (quote : isQuote c = false) (slash : c ≠ '/') (blank : Text.isBlank c = false)

include quote slash blank

theorem stands_word (begins : beginsWord c = true) : (Lexeme.word (c :: rest.takeWhile isWordChar)).Stands := by
  intro position x stops
  have stops : (!x.head?.any isWordChar) = true := stops
  have stop : x.head?.any isWordChar = false := by simpa using stops
  obtain ⟨front, behind⟩ := run_stops (fun d hd => List.all_eq_true.mp List.all_takeWhile d hd) stop
  show lexemesFrom position (c :: (rest.takeWhile isWordChar ++ x)) = _
  rw [lexemes_word quote slash blank begins, front, behind]
  rfl

theorem stands_number_of_cut (begins : beginsWord c = false) (digit : c.isDigit = true) :
    (Lexeme.number (c :: rest.takeWhile isWordChar)).Stands := by
  intro position x stops
  have stops : (!x.head?.any isWordChar) = true := stops
  have stop : x.head?.any isWordChar = false := by simpa using stops
  obtain ⟨front, behind⟩ := run_stops (fun d hd => List.all_eq_true.mp List.all_takeWhile d hd) stop
  show lexemesFrom position (c :: (rest.takeWhile isWordChar ++ x)) = _
  rw [lexemes_number quote slash blank begins digit, front, behind]
  rfl

end Words

theorem stands_mark {c : Char} (mark : isMark c = true) : (Lexeme.mark c).Stands := by
  intro position x stops
  show lexemesFrom position (c :: x) = _
  apply lexemes_mark mark
  intro hc hx
  subst hc
  simp [Lexeme.stopsBefore, Lexeme.runsOn, hx] at stops

/-- What a text is cut into are lexemes that stand by themselves. -/
theorem stands_of_lexemes {position : Nat} {cs : List Char} {ls : List Lexeme} (h : lexemesFrom position cs = .ok ls) :
    ∀ l ∈ ls, l.Stands := by
  fun_induction lexemesFrom position cs generalizing ls with
  | case1 =>
    cases h
    exact List.forall_mem_nil _
  | case2 => cases h
  | case3 position c rest quote text after hl shorter ih =>
    obtain ⟨more, hmore, rfl⟩ := map_ok h
    exact List.forall_mem_cons.mpr ⟨stands_literal_of_cut quote hl, ih hmore⟩
  | case4 position c rest quote slashes comment =>
    rename_i ih
    exact ih h
  | case5 position c rest quote slashes blank ih => exact ih h
  | case6 position c rest quote slashes blank word letters =>
    rename_i ih
    obtain ⟨more, hmore, rfl⟩ := map_ok h
    have slash : c ≠ '/' := by
      rintro rfl
      exact absurd word (by decide)
    have first : (Lexeme.word (c :: rest.takeWhile isWordChar)).Stands :=
      stands_word (by simpa using quote) slash (by simpa using blank) word
    exact List.forall_mem_cons.mpr ⟨first, ih hmore⟩
  | case7 position c rest quote slashes blank word digit text =>
    rename_i ih
    obtain ⟨more, hmore, rfl⟩ := map_ok h
    have slash : c ≠ '/' := by
      rintro rfl
      exact absurd digit (by decide)
    have first : (Lexeme.number (c :: rest.takeWhile isWordChar)).Stands :=
      stands_number_of_cut (by simpa using quote) slash (by simpa using blank) (by simpa using word) digit
    exact List.forall_mem_cons.mpr ⟨first, ih hmore⟩
  | case8 position c rest quote slashes blank word digit ih =>
    obtain ⟨more, hmore, rfl⟩ := map_ok h
    have first : (Lexeme.mark c).Stands := stands_mark (by simp [isMark, quote, blank, word, digit])
    exact List.forall_mem_cons.mpr ⟨first, ih hmore⟩

/-! ## Cutting again -/

theorem lexemes_space (position : Nat) (x : List Char) : lexemesFrom position (' ' :: x) = lexemesFrom (position + 1) x :=
  lexemes_blank (by decide) (by decide) (by decide)

/-- By induction on the lexemes: each is cut off where it stops, and the spaces around operator words fall away. -/
theorem lexemes_written {ls : List Lexeme} {operand spaced : Bool} (stands : ∀ l ∈ ls, l.Stands)
    (h : apart operand ls = true) (position : Nat) :
    lexemesFrom position (writeFrom operand spaced ls) = .ok ls := by
  induction ls generalizing operand spaced position with
  | nil =>
    unfold writeFrom
    rw [lexemesFrom]
  | cons l rest ih =>
    obtain ⟨first, others⟩ := List.forall_mem_cons.mp stands
    have cut {o s : Bool} (h : (l.stopsBefore (writeFrom o s rest) && apart o rest) = true) (position : Nat) :
        lexemesFrom position (l.text ++ writeFrom o s rest) = .ok (l :: rest) := by
      obtain ⟨stops, h⟩ := Bool.and_eq_true_iff.mp h
      rw [first position _ stops, ih others h]
      rfl
    cases l with
    | word letters =>
      simp only [apart, writeFrom] at h ⊢
      split at h
      · rename_i keyword
        rw [if_pos keyword]
        have behind (position : Nat) :
            lexemesFrom position (letters ++ ' ' :: writeFrom true true rest) = .ok (.word letters :: rest) := by
          have stops : (Lexeme.word letters).stopsBefore (' ' :: writeFrom true true rest) = true := rfl
          have split := first position _ stops
          rw [lexemes_space, ih others h] at split
          exact split
        cases spaced with
        | true => exact behind position
        | false =>
          show lexemesFrom position (' ' :: (letters ++ _)) = _
          rw [lexemes_space]
          exact behind (position + 1)
      · rename_i name
        rw [if_neg name]
        exact cut h position
    | literal text => exact cut h position
    | number text => exact cut h position
    | mark c => exact cut h position

theorem normalize_of_lexemes {query : String} {ls : List Lexeme} (cut : lexemes query.toList = .ok ls) :
    normalize query = .ok (String.ofList (writeFrom false false ls)) := by
  unfold normalize normalizeChars
  rw [cut]
  rfl

/-- A query whose lexemes stop where they are written keeps them, and its normal form, when it is
    brought to normal form again. -/
theorem normalize_again (query : String) (ls : List Lexeme) (n : String) (cut : lexemes query.toList = .ok ls)
    (stops : apart false ls = true) (normal : normalize query = .ok n) :
    lexemes n.toList = .ok ls ∧ normalize n = .ok n := by
  have written : n = String.ofList (writeFrom false false ls) :=
    Except.ok.inj (normal.symm.trans (normalize_of_lexemes cut))
  have again : lexemes n.toList = .ok ls := by
    rw [written, String.toList_ofList]
    exact lexemes_written (stands_of_lexemes cut) stops 0
  refine ⟨again, ?_⟩
  rw [normalize_of_lexemes again, ← written]

set_option maxRecDepth 4000 in
/-- An operator word and a string stay apart without the blanks and the comment around them. -/
theorem normalize_again_in : normalize "x  in 'a b'//" = .ok "x in 'a b'" ∧
    lexemes "x in 'a b'".toList = .ok [.word ['x'], .word ['i', 'n'], .literal ['\'', 'a', ' ', 'b', '\'']] ∧
    normalize "x in 'a b'" = .ok "x in 'a b'" := by
  have cut : lexemes "x  in 'a b'//".toList =
      .ok [.word ['x'], .word ['i', 'n'], .literal ['\'', 'a', ' ', 'b', '\'']] := by cbv
  have normal : normalize "x  in 'a b'//" = .ok "x in 'a b'" := (normalize_of_lexemes cut).trans rfl
  exact ⟨normal, normalize_again "x  in 'a b'//" _ "x in 'a b'" cut (by decide) normal⟩

set_option maxRecDepth 4000 in
/-- Two words run together can be an operator that neither was. -/
theorem normalize_twice_differs : ¬ ∀ query n, normalize query = .ok n → normalize n = .ok n := by
  intro idempotent
  have cut : lexemes "x in a sc".toList = .ok [.word ['x'], .word ['i', 'n'], .word ['a'], .word ['s', 'c']] := by cbv
  have cutAgain : lexemes "x in asc".toList = .ok [.word ['x'], .word ['i', 'n'], .word ['a', 's', 'c']] := by cbv
  have again := idempotent "x in a sc" "x in asc" ((normalize_of_lexemes cut).trans rfl)
  have spaced : normalize "x in asc" = .ok "x in asc " := (normalize_of_lexemes cutAgain).trans rfl
  exact absurd (Except.ok.inj (spaced.symm.trans again)) (by decide)

end Groq.Query
