/-
  Groq.Proofs.Query.Ascii — a query is ASCII outside literals and comments, or does not parse.

  `outside` reads a query as the lexer does and leaves out literals and comments. Of what is left
  only blanks fall away before parsing (`cut_lexemes`), and the lexemes written one after the
  other have the rest outside literals again (`plain_lexemes`).
  Proved: a query with a character outside literals and comments that is neither ASCII nor blank
  does not parse (`parse_nonAscii`).
-/

import Groq.Proofs.Query.Memory
import Groq.Proofs.Query.Seams

namespace Groq.Query

/-! ## Lexemes -/

/-- A literal goes to its closing quote, and no other lexeme has quotes. -/
def Lexeme.Whole : Lexeme → Prop
  | .literal text => Mode.code.after text = .code
  | lexeme => ∀ c ∈ lexeme.text, isQuote c = false

def Lexeme.isLiteral : Lexeme → Bool
  | .literal _ => true
  | _ => false

/-- Text without quotes in front of other text. -/
theorem Plain.of_unquoted {cs x : List Char} (quotes : ∀ c ∈ cs, isQuote c = false) (h : Plain .code (cs ++ x)) :
    (∀ c ∈ cs, c.toNat < 128) ∧ Plain .code x := by
  induction cs with
  | nil => exact ⟨nofun, h⟩
  | cons c rest ih =>
    obtain ⟨ascii, h⟩ := h
    rw [next_code (quotes c List.mem_cons_self)] at h
    obtain ⟨others, hx⟩ := ih (fun d hd => quotes d (List.mem_cons_of_mem _ hd)) h
    exact ⟨List.forall_mem_cons.mpr ⟨ascii rfl, others⟩, hx⟩

/-- A lexeme is written as it is, with spaces around it or none. -/
theorem writeFrom_cons (operand spaced : Bool) (l : Lexeme) (rest : List Lexeme) : ∃ before behind operand' spaced',
    writeFrom operand spaced (l :: rest) = before ++ (l.text ++ (behind ++ writeFrom operand' spaced' rest)) ∧
      ∀ c ∈ before ++ behind, c = ' ' := by
  cases l with
  | word letters =>
    simp only [writeFrom]
    split
    · refine ⟨if spaced then [] else [' '], [' '], true, true, ?_, ?_⟩
      · simp [Lexeme.text]
      · cases spaced <;> simp
    · exact ⟨[], [], true, false, rfl, List.forall_mem_nil _⟩
  | literal text => exact ⟨[], [], _, _, rfl, List.forall_mem_nil _⟩
  | number text => exact ⟨[], [], _, _, rfl, List.forall_mem_nil _⟩
  | mark c => exact ⟨[], [], _, _, rfl, List.forall_mem_nil _⟩

/-- Where the lexemes written one after the other are plain, so are words, numbers and marks. -/
theorem plain_lexemes {ls : List Lexeme} {operand spaced : Bool} (whole : ∀ l ∈ ls, l.Whole)
    (h : Plain .code (writeFrom operand spaced ls)) :
    ∀ l ∈ ls, l.isLiteral = false → ∀ c ∈ l.text, c.toNat < 128 := by
  induction ls generalizing operand spaced with
  | nil => exact nofun
  | cons l rest ih =>
    obtain ⟨first, others⟩ := List.forall_mem_cons.mp whole
    obtain ⟨before, behind, operand', spaced', written, spaces⟩ := writeFrom_cons operand spaced l rest
    have unquoted {cs : List Char} (h : ∀ c ∈ cs, c ∈ before ++ behind) : ∀ c ∈ cs, isQuote c = false := by
      intro c hc
      rw [spaces c (h c hc)]
      rfl
    rw [written] at h
    have h := (Plain.of_unquoted (unquoted fun c hc => List.mem_append_left _ hc) h).2
    have further (h : Plain .code (behind ++ writeFrom operand' spaced' rest)) :=
      ih others (Plain.of_unquoted (unquoted fun c hc => List.mem_append_right _ hc) h).2
    cases l with
    | literal text =>
      have closed : Mode.code.after text = .code := first
      have rest := h.of_append
      rw [show Mode.code.after (Lexeme.literal text).text = .code from closed] at rest
      exact List.forall_mem_cons.mpr ⟨nofun, further rest⟩
    | _ =>
      obtain ⟨ascii, rest⟩ := Plain.of_unquoted first h
      exact List.forall_mem_cons.mpr ⟨fun _ => ascii, further rest⟩

/-! ## Queries -/

/-- Where a reader of a query is. -/
inductive Region where
  | code
  | comment
  | literal (quote : Char)
  /-- Behind a backslash in a literal. -/
  | escape (quote : Char)
  deriving DecidableEq, Repr

/-- The characters of a query outside literals and comments. A line break ends a comment and is not in it. -/
def outside : Region → List Char → List Char
  | _, [] => []
  | .code, c :: rest =>
    if isQuote c then outside (.literal c) rest
    else if c = '/' ∧ rest.head? = some '/' then outside .comment rest
    else c :: outside .code rest
  | .comment, c :: rest => if c = '\n' then c :: outside .code rest else outside .comment rest
  | .literal quote, c :: rest =>
    if c = '\\' then outside (.escape quote) rest
    else if c = quote then outside .code rest
    else outside (.literal quote) rest
  | .escape quote, _ :: rest => outside (.literal quote) rest

theorem outside_comment (cs : List Char) : outside .comment cs = outside .code (cs.dropWhile (· != '\n')) := by
  induction cs with
  | nil => rfl
  | cons c rest ih =>
    by_cases h : c = '\n'
    · subst h
      rfl
    · simp only [outside, List.dropWhile_cons, bne_iff_ne, ne_eq, h, not_false_eq_true, if_true]
      exact ih

theorem isQuote_of_isWordChar {c : Char} (h : isWordChar c = true) : isQuote c = false := by
  rw [Bool.eq_false_iff]
  intro quote
  simp only [isQuote, Bool.or_eq_true, decide_eq_true_eq] at quote
  rcases quote with rfl | rfl
  · exact absurd h (by decide)
  · exact absurd h (by decide)

theorem outside_word (cs : List Char) :
    outside .code cs = cs.takeWhile isWordChar ++ outside .code (cs.dropWhile isWordChar) := by
  induction cs with
  | nil => rfl
  | cons c rest ih =>
    by_cases h : isWordChar c = true
    · have quote := isQuote_of_isWordChar h
      have slash : c ≠ '/' := by
        rintro rfl
        exact absurd h (by decide)
      rw [List.takeWhile_cons, if_pos h, List.dropWhile_cons, if_pos h, List.cons_append, ← ih]
      simp [outside, quote, slash]
    · rw [List.takeWhile_cons, if_neg h, List.dropWhile_cons, if_neg h]
      rfl

/-- A literal is left out up to its closing quote. -/
theorem outside_literal {quote : Char} {opened position : Nat} {done cs text after : List Char}
    (h : takeLiteral quote opened position done cs = .ok (text, after)) :
    outside (.literal quote) cs = outside .code after ∧
      ∃ body, text = done.reverse ++ body ∧ cs = body ++ after ∧ (Mode.literal quote).after body = .code := by
  fun_induction takeLiteral quote opened position done cs with
  | case1 => cases h
  | case2 => cases h
  | case3 => cases h
  | case4 position done c rest plain ih =>
    obtain ⟨ho, body, rfl, rfl, hbody⟩ := ih h
    exact ⟨ho, '\\' :: c :: body, by simp, rfl, hbody⟩
  | case5 position done rest plain =>
    cases h
    have closed : (Mode.literal quote).next quote = .code := (if_neg plain).trans (if_pos rfl)
    refine ⟨?_, [quote], by simp, rfl, closed⟩
    rw [outside, if_neg plain, if_pos rfl]
  | case6 position done c rest plain other ih =>
    obtain ⟨ho, body, rfl, rfl, hbody⟩ := ih h
    have inside : (Mode.literal quote).next c = .literal quote := (if_neg plain).trans (if_neg other)
    refine ⟨?_, c :: body, by simp, rfl, ?_⟩
    · rw [outside, if_neg plain, if_neg other]
      exact ho
    · rw [Mode.after, List.foldl_cons, inside]
      exact hbody

/-- The lexemes are whole, and hold what a text has outside literals and comments, blanks apart. -/
structure Cut (cs : List Char) (ls : List Lexeme) : Prop where
  whole : ∀ l ∈ ls, l.Whole
  kept : ∀ c ∈ outside .code cs, Text.isBlank c = true ∨ ∃ l ∈ ls, l.isLiteral = false ∧ c ∈ l.text

/-- Some lexemes more, for what stands in front. -/
theorem Cut.extend {cs rest : List Char} {ls : List Lexeme} (h : Cut rest ls) (front : List Char)
    (first : List Lexeme) (text : outside .code cs = front ++ outside .code rest) (whole : ∀ l ∈ first, l.Whole)
    (kept : ∀ c ∈ front, Text.isBlank c = true ∨ ∃ l ∈ first, l.isLiteral = false ∧ c ∈ l.text) :
    Cut cs (first ++ ls) := by
  constructor
  · intro l mem
    rcases List.mem_append.mp mem with mem | mem
    · exact whole l mem
    · exact h.whole l mem
  · intro c hc
    rw [text] at hc
    rcases List.mem_append.mp hc with hc | hc
    · rcases kept c hc with blank | ⟨l, mem, inside⟩
      · exact .inl blank
      · exact .inr ⟨l, List.mem_append_left _ mem, inside⟩
    · rcases h.kept c hc with blank | ⟨l, mem, inside⟩
      · exact .inl blank
      · exact .inr ⟨l, List.mem_append_right _ mem, inside⟩

/-- Cutting leaves out blanks, and nothing else that is outside literals and comments. -/
theorem cut_lexemes {position : Nat} {cs : List Char} {ls : List Lexeme} (h : lexemesFrom position cs = .ok ls) :
    Cut cs ls := by
  have run {c : Char} {rest : List Char} {more : List Lexeme} {l : Lexeme} (word : isWordChar c = true)
      (text : l.text = c :: rest.takeWhile isWordChar) (kind : l.isLiteral = false)
      (whole : (∀ d ∈ l.text, isQuote d = false) → l.Whole) (h : Cut (rest.dropWhile isWordChar) more) :
      Cut (c :: rest) (l :: more) := by
    have front : (c :: rest).takeWhile isWordChar = l.text := by rw [List.takeWhile_cons, if_pos word, text]
    have behind : (c :: rest).dropWhile isWordChar = rest.dropWhile isWordChar := by
      rw [List.dropWhile_cons, if_pos word]
    have split := outside_word (c :: rest)
    rw [front, behind] at split
    refine h.extend l.text [l] split (List.forall_mem_singleton.mpr (whole ?_)) ?_
    · intro d hd
      rw [← front] at hd
      exact isQuote_of_isWordChar (List.all_eq_true.mp List.all_takeWhile d hd)
    · intro d hd
      exact .inr ⟨l, List.mem_singleton_self l, kind, hd⟩
  fun_induction lexemesFrom position cs generalizing ls with
  | case1 =>
    cases h
    exact ⟨List.forall_mem_nil _, List.forall_mem_nil _⟩
  | case2 => cases h
  | case3 position c rest quote text after hl shorter ih =>
    obtain ⟨more, hmore, rfl⟩ := map_ok h
    obtain ⟨left, body, hbody, -, closed⟩ := outside_literal hl
    have whole : (Lexeme.literal text).Whole := by
      have opened : Mode.code.next c = .literal c := if_pos (by simpa [isQuote] using quote)
      show Mode.code.after text = .code
      rw [hbody, List.reverse_singleton, Mode.after, List.singleton_append, List.foldl_cons, opened]
      exact closed
    refine (ih hmore).extend [] [.literal text] ?_ (List.forall_mem_singleton.mpr whole) (List.forall_mem_nil _)
    rw [outside, if_pos quote, left]
    rfl
  | case4 position c rest quote slashes comment =>
    rename_i ih
    refine (ih h).extend [] [] ?_ (List.forall_mem_nil _) (List.forall_mem_nil _)
    rw [outside, if_neg quote, if_pos slashes, outside_comment]
    rfl
  | case5 position c rest quote slashes blank ih =>
    refine (ih h).extend [c] [] ?_ (List.forall_mem_nil _) ?_
    · rw [outside, if_neg quote, if_neg slashes]
      rfl
    · exact List.forall_mem_singleton.mpr (.inl blank)
  | case6 position c rest quote slashes blank word letters =>
    rename_i ih
    obtain ⟨more, hmore, rfl⟩ := map_ok h
    exact run (isWordChar_of_beginsWord word) rfl rfl (fun h => h) (ih hmore)
  | case7 position c rest quote slashes blank word digit text =>
    rename_i ih
    obtain ⟨more, hmore, rfl⟩ := map_ok h
    exact run (isWordChar_of_isNameChar (isNameChar_of_isDigit digit)) rfl rfl (fun h => h) (ih hmore)
  | case8 position c rest quote slashes blank word digit ih =>
    obtain ⟨more, hmore, rfl⟩ := map_ok h
    have whole : (Lexeme.mark c).Whole := by
      intro d hd
      rw [List.mem_singleton.mp hd]
      simpa using quote
    refine (ih hmore).extend [c] [.mark c] ?_ (List.forall_mem_singleton.mpr whole) ?_
    · rw [outside, if_neg quote, if_neg slashes]
      rfl
    · intro d hd
      exact .inr ⟨.mark c, List.mem_singleton_self _, rfl, hd⟩

/-- A query with a character outside literals and comments that is neither ASCII nor blank does not parse. -/
theorem parse_nonAscii (limits : Limits) (query : String) (c : Char) (hc : c ∈ outside .code query.toList)
    (blank : Text.isBlank c = false) (ascii : 128 ≤ c.toNat) : ∃ cause, parse limits query = .error cause := by
  rcases h : parse limits query with cause | e
  · exact ⟨cause, rfl⟩
  · rw [← String.ofList_toList (s := query)] at h
    obtain ⟨n, hn, hr⟩ := parse_ok h
    obtain ⟨ls, hl, rfl⟩ := map_ok hn
    have cut := cut_lexemes hl
    rcases cut.kept c hc with hblank | ⟨l, mem, literal, inside⟩
    · exact absurd (hblank.symm.trans blank) nofun
    · have := plain_lexemes cut.whole (reading_plain hr) l mem literal c inside
      omega

end Groq.Query
