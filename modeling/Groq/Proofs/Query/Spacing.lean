/-
  Groq.Proofs.Query.Spacing — an operator set off by blanks between two operands.

  The operands are queries without comments that parse to an operand on their own. Blanks are gone
  before parsing, so an operator has to be told apart by its own characters: a star next to a star
  is not, and a word is one only where the lexer sees an operand end and no operator begin. It
  does not see the end of one in `->` or in `*`, and in front of a word of operator letters the word
  that is meant as an operator leaves that one to be another.
  Proved: everywhere else the query parses to the operator's node over both trees
  (`parse_spaced`); the arrow is a case where it does not (`arrow_before_word`).
-/

import Mathlib
import Groq.Proofs.Query.Ascii
import Groq.Proofs.Query.Precedence

namespace Groq.Query

/-! ## Comments -/

/-- Does a comment begin in a text that is read in this mode? -/
def hasComment (m : Mode) : List Char → Bool
  | [] => false
  | c :: rest => m = .code && c = '/' && rest.head? = some '/' || hasComment (m.next c) rest

theorem hasComment_behind {m : Mode} {cs x : List Char} (h : hasComment m (cs ++ x) = false) :
    hasComment (m.after cs) x = false := by
  induction cs generalizing m with
  | nil => exact h
  | cons c rest ih => exact ih (Bool.or_eq_false_iff.mp h).2

theorem hasComment_before {m : Mode} {cs x : List Char} (hx : x.head? ≠ some '/') (h : hasComment m cs = false)
    (behind : ∀ m, hasComment m x = false) : hasComment m (cs ++ x) = false := by
  induction cs generalizing m with
  | nil => exact behind m
  | cons c rest ih =>
    obtain ⟨here, further⟩ := Bool.or_eq_false_iff.mp h
    refine Bool.or_eq_false_iff.mpr ⟨?_, ih further⟩
    rcases rest with _ | ⟨d, rest⟩
    · simp [hx]
    · exact here

/-- A text without comments is cut up to where the code goes on. -/
theorem after_lexemes {position : Nat} {cs : List Char} {ls : List Lexeme} (h : lexemesFrom position cs = .ok ls)
    (hc : hasComment .code cs = false) : Mode.code.after cs = .code := by
  have behind (front : List Char) {rest : List Char} (hf : Mode.code.after front = .code) (hc : hasComment .code (front ++ rest) = false)
      (ih : hasComment .code rest = false → Mode.code.after rest = .code) : Mode.code.after (front ++ rest) = .code := by
    have further := hasComment_behind hc
    rw [hf] at further
    rw [Mode.after, List.foldl_append]
    show Mode.after (Mode.code.after front) rest = _
    rw [hf]
    exact ih further
  have run {c : Char} {rest : List Char} (word : isWordChar c = true) (hc : hasComment .code (c :: rest) = false)
      (ih : hasComment .code (rest.dropWhile isWordChar) = false →
        Mode.code.after (rest.dropWhile isWordChar) = .code) : Mode.code.after (c :: rest) = .code := by
    have split : c :: rest = c :: rest.takeWhile isWordChar ++ rest.dropWhile isWordChar := by
      rw [List.cons_append, List.takeWhile_append_dropWhile]
    rw [split] at hc ⊢
    refine behind _ (after_unquoted ?_) hc ih
    intro d hd
    rcases List.mem_cons.mp hd with rfl | hd
    · exact isQuote_of_isWordChar word
    · exact isQuote_of_isWordChar (List.all_eq_true.mp List.all_takeWhile d hd)
  have single {c : Char} {rest : List Char} (quote : ¬ isQuote c = true) (hc : hasComment .code (c :: rest) = false)
      (ih : hasComment .code rest = false → Mode.code.after rest = .code) : Mode.code.after (c :: rest) = .code := by
    refine behind [c] (after_unquoted ?_) hc ih
    intro d hd
    rw [List.mem_singleton.mp hd]
    simpa using quote
  fun_induction lexemesFrom position cs generalizing ls with
  | case1 => rfl
  | case2 => cases h
  | case3 position c rest quote text after hl shorter ih =>
    obtain ⟨more, hmore, -⟩ := map_ok h
    obtain ⟨-, body, -, rfl, closed⟩ := outside_literal hl
    have opened : Mode.code.next c = .literal c := if_pos (by simpa [isQuote] using quote)
    refine behind (c :: body) ?_ hc (ih hmore)
    rw [Mode.after, List.foldl_cons, opened]
    exact closed
  | case4 position c rest quote slashes comment =>
    simp [hasComment, slashes.1, slashes.2] at hc
  | case5 position c rest quote slashes blank ih => exact single quote hc (ih h)
  | case6 position c rest quote slashes blank word letters =>
    rename_i ih
    obtain ⟨more, hmore, -⟩ := map_ok h
    exact run (isWordChar_of_beginsWord word) hc (ih hmore)
  | case7 position c rest quote slashes blank word digit text =>
    rename_i ih
    obtain ⟨more, hmore, -⟩ := map_ok h
    exact run (isWordChar_of_isNameChar (isNameChar_of_isDigit digit)) hc (ih hmore)
  | case8 position c rest quote slashes blank word digit ih =>
    obtain ⟨more, hmore, -⟩ := map_ok h
    exact single quote hc (ih hmore)

/-- A text without comments is closed: a quote behind it would otherwise be part of a comment. -/
theorem closed_of_commentless {position : Nat} {cs : List Char} {ls : List Lexeme}
    (h : lexemesFrom position cs = .ok ls) (hc : hasComment .code cs = false) : Closed position cs ls := by
  rcases lexemes_append h with closed | ⟨-, opened⟩
  · exact closed
  · have quoted : lexemesFrom position (cs ++ ['"']) = .ok ls := opened _ (by simp)
    have commentless : hasComment .code (cs ++ ['"']) = false := by
      apply hasComment_before (by simp) hc
      intro m
      simp [hasComment]
    have unclosed := after_lexemes quoted commentless
    rw [Mode.after, List.foldl_append] at unclosed
    have here : (Mode.code.after cs).next '"' = .code := unclosed
    rw [after_lexemes h hc] at here
    cases here

/-! ## The last character of an operand -/

/-- May this be the last character of an operand? -/
def endsPart (c : Char) : Bool :=
  isNameChar c || c = '"' || c = '\'' || isCloser c || c = '@' || c = '^' || c = '*' || c = '>'

/-- Up to `rest` a text ends like an operand. -/
def EndsPart (cs rest : List Char) : Prop := ∃ front c, cs = front ++ c :: rest ∧ endsPart c = true

section Ends

variable {cs rest : List Char}

theorem EndsPart.behind (front : List Char) (h : EndsPart cs rest) : EndsPart (front ++ cs) rest := by
  obtain ⟨before, c, rfl, hc⟩ := h
  exact ⟨front ++ before, c, by simp, hc⟩

theorem endsPart_single {c : Char} (hc : endsPart c = true) : EndsPart (c :: rest) rest := ⟨[], c, rfl, hc⟩

theorem endsPart_of_isNameChar {c : Char} (h : isNameChar c = true) : endsPart c = true := by
  simp [endsPart, h]

/-- A text of name characters, not empty, in front of another. -/
theorem endsPart_name (ne : nameAt cs ≠ []) : EndsPart cs (cs.drop (nameAt cs).length) := by
  obtain ⟨front, c, split⟩ := (List.eq_nil_or_concat (nameAt cs)).resolve_left ne
  have hc : isNameChar c = true := name_isNameChar cs c (by rw [split]; simp)
  refine ⟨front, c, ?_, endsPart_of_isNameChar hc⟩
  have whole := nameAt_append_drop cs
  rw [split] at whole ⊢
  simpa using whole.symm

theorem endsPart_bracket (h : bracketRest? cs = some rest) : EndsPart cs rest := by
  obtain ⟨close, hc, rfl⟩ := Option.map_eq_some_iff.mp h
  rcases cs with _ | ⟨c, cs⟩
  · cases hc
  · obtain ⟨closer, ho, hc⟩ := Option.bind_eq_some_iff.mp hc
    obtain ⟨inside, d, after, rfl, hclose, last⟩ := closeFrom_text hc (List.cons_ne_nil _ _)
    cases last
    refine ⟨c :: inside, closer, ?_, by simp [endsPart, isCloser_of_closerOf ho]⟩
    simp [hclose, Nat.add_comm 1]

theorem endsPart_literal {length : Nat} (h : literalLength? cs = some length) : EndsPart cs (cs.drop length) := by
  rcases cs with _ | ⟨c, cs⟩
  · cases h
  · simp only [literalLength?] at h
    split at h
    · rename_i quote
      obtain ⟨n, hn, rfl⟩ := Option.map_eq_some_iff.mp h
      obtain ⟨body, after, rfl, rfl⟩ := literalRest_text hn
      refine ⟨c :: body, c, by simp, ?_⟩
      rcases quote with rfl | rfl
      · rfl
      · rfl
    · cases h

theorem endsPart_numeral {n : Double.Numeral} (h : Double.numeral? cs = some (n, rest)) : EndsPart cs rest := by
  obtain ⟨c, w, rfl, -, spelled⟩ := numeral_spelled h
  obtain ⟨front, d, split⟩ := (List.eq_nil_or_concat (c :: w)).resolve_left (List.cons_ne_nil _ _)
  refine ⟨front, d, ?_, endsPart_of_isNameChar (spelled.2 d ?_)⟩
  · rw [split]
    simp
  · rw [split]
    simp

theorem endsPart_parents (cs : List Char) : EndsPart ('^' :: cs) (cs.drop (2 * countParents cs)) := by
  fun_induction countParents cs with
  | case1 rest ih =>
    rw [Nat.mul_add, List.drop_succ_cons, List.drop_succ_cons]
    exact ih.behind ['^', '.']
  | case2 => exact endsPart_single rfl

theorem endsPart_named (ne : nameAt cs ≠ []) (h : namedRest? cs = some rest) : EndsPart cs rest := by
  unfold namedRest? at h
  dsimp only at h
  have call (front : List Char) {after : List Char} (text : cs.drop (nameAt cs).length = front ++ after)
      (h : bracketRest? after = some rest) : EndsPart cs rest := by
    rw [← nameAt_append_drop cs, text]
    exact ((endsPart_bracket h).behind front).behind (nameAt cs)
  split at h
  · rename_i tail text
    split at h
    · cases h
    · refine call (':' :: ':' :: nameAt tail) ?_ h
      rw [text, List.cons_append, List.cons_append, nameAt_append_drop]
  · exact call [] rfl h
  · cases h
    exact endsPart_name ne

theorem endsPart_operand (h : operandRest? cs = some rest) : EndsPart cs rest := by
  rcases cs with _ | ⟨c, cs⟩
  · cases h
  simp only [operandRest?] at h
  split at h
  · obtain ⟨length, hl, rfl⟩ := Option.map_eq_some_iff.mp h
    exact endsPart_literal hl
  split at h
  · obtain ⟨⟨n, after⟩, hn, rfl⟩ := Option.map_eq_some_iff.mp h
    exact endsPart_numeral hn
  split at h
  · split at h
    · cases h
    · rename_i ne
      cases h
      exact (endsPart_name ne).behind [c]
  split at h
  · rename_i this
    subst this
    cases h
    exact endsPart_single rfl
  split at h
  · rename_i parent
    subst parent
    cases h
    exact endsPart_parents cs
  split at h
  · rename_i everything
    subst everything
    cases h
    exact endsPart_single rfl
  split at h
  · exact endsPart_bracket h
  split at h
  · rename_i name
    exact endsPart_named (by simp [nameAt, name]) h
  · cases h

theorem endsPart_traversal (h : traversalRest? cs = some rest) : EndsPart cs rest := by
  unfold traversalRest? at h
  split at h
  · split at h
    · cases h
    · rename_i ne
      cases h
      exact (endsPart_name ne).behind ['.']
  · rename_i cs
    cases h
    by_cases ne : nameAt cs = []
    · rw [ne]
      exact (endsPart_single rfl).behind ['-']
    · exact (endsPart_name ne).behind ['-', '>']
  · exact endsPart_bracket h
  · exact endsPart_bracket h
  · cases h

/-- By induction on what a reader from the left meets: an operand and its traversals each end so. -/
theorem last_of_operators {expects : Expects} {offset : Nat} {ops : List (Nat × Operator)}
    (h : Operators expects offset cs ops) (none : ops = []) : ∀ c, cs.getLast? = some c → endsPart c = true := by
  have extend {cs rest : List Char} (part : EndsPart cs rest)
      (ih : ∀ c, rest.getLast? = some c → endsPart c = true) : ∀ c, cs.getLast? = some c → endsPart c = true := by
    obtain ⟨front, d, rfl, hd⟩ := part
    intro c hc
    rw [List.getLast?_append, List.getLast?_cons] at hc
    rcases hl : rest.getLast? with _ | e
    · rw [hl] at hc
      cases hc
      exact hd
    · rw [hl] at hc
      cases hc
      exact ih _ hl
  induction h with
  | done => exact nofun
  | @sign offset d cs ops _ h ih =>
    obtain ⟨e, rest, rfl⟩ := List.exists_cons_of_ne_nil h.ne_nil
    intro c hc
    rw [List.getLast?_cons_cons] at hc
    exact ih none c hc
  | operand hr _ ih => exact extend (endsPart_operand hr) (ih none)
  | traversal hr _ ih => exact extend (endsPart_traversal hr) (ih none)
  | operator => cases none

end Ends

/-- No operator would go on into the first character of an operand, stars apart. -/
theorem first_of_operators {offset : Nat} {cs : List Char} {ops : List (Nat × Operator)}
    (h : Operators .operand offset cs ops) : ∀ c, cs.head? = some c → c ≠ '=' ∧ c ≠ '>' := by
  intro c hc
  obtain ⟨tail, rfl⟩ := List.head?_eq_some_iff.mp hc
  cases h with
  | sign hs _ =>
    rcases hs with rfl | rfl | rfl
    all_goals decide
  | operand hr _ =>
    refine ⟨?_, ?_⟩
    · rintro rfl
      cases hr
    · rintro rfl
      cases hr

/-! ## Behind the last lexeme -/

/-- What is a lexeme of its own is such a mark. -/
theorem isMark_of_lexemes {position : Nat} {cs : List Char} {ls : List Lexeme} (h : lexemesFrom position cs = .ok ls)
    {c : Char} (mem : .mark c ∈ ls) : isMark c = true := by
  fun_induction lexemesFrom position cs generalizing ls with
  | case1 =>
    cases h
    cases mem
  | case2 => cases h
  | case3 position d rest quote text after hl shorter ih =>
    obtain ⟨more, hmore, rfl⟩ := map_ok h
    exact ih hmore (List.mem_of_ne_of_mem (by simp) mem)
  | case4 position d rest quote slashes comment =>
    rename_i ih
    exact ih h mem
  | case5 position d rest quote slashes blank ih => exact ih h mem
  | case6 position d rest quote slashes blank word letters =>
    rename_i ih
    obtain ⟨more, hmore, rfl⟩ := map_ok h
    exact ih hmore (List.mem_of_ne_of_mem (by simp) mem)
  | case7 position d rest quote slashes blank word digit text =>
    rename_i ih
    obtain ⟨more, hmore, rfl⟩ := map_ok h
    exact ih hmore (List.mem_of_ne_of_mem (by simp) mem)
  | case8 position d rest quote slashes blank word digit ih =>
    obtain ⟨more, hmore, rfl⟩ := map_ok h
    rcases List.mem_cons.mp mem with same | mem
    · cases same
      simp [isMark, quote, blank, word, digit]
    · exact ih hmore mem

/-- Where the writer stands behind some lexemes shows in their text: only a space leaves it spaced,
    and only a mark that ends no operand leaves it outside one. -/
theorem writeFrom_last (operand spaced : Bool) {ls : List Lexeme} (ne : ls ≠ []) : ∃ operand' spaced',
    (∀ more, writeFrom operand spaced (ls ++ more) = writeFrom operand spaced ls ++ writeFrom operand' spaced' more) ∧
    (spaced' = true → (writeFrom operand spaced ls).getLast? = some ' ') ∧
    (operand' = false → ∃ c, (writeFrom operand spaced ls).getLast? = some c ∧ .mark c ∈ ls ∧
      (Lexeme.mark c).endsOperand = false) := by
  have keeps {front text : List Char} {c : Char} (h : text.getLast? = some c) : (front ++ text).getLast? = some c := by
    rw [List.getLast?_append, h]
    rfl
  induction ls generalizing operand spaced with
  | nil => exact absurd rfl ne
  | cons l rest ih =>
    -- What the first lexeme adds in front, and where it leaves the writer.
    obtain ⟨front, o, s, step, hs, ho⟩ : ∃ front o s,
        (∀ more, writeFrom operand spaced (l :: more) = front ++ writeFrom o s more) ∧
        (s = true → front.getLast? = some ' ') ∧
        (o = false → ∃ c, front.getLast? = some c ∧ l = .mark c ∧ (Lexeme.mark c).endsOperand = false) := by
      cases l with
      | word letters =>
        by_cases keyword : (operand && isKeyword letters) = true
        · refine ⟨(if spaced then [] else [' ']) ++ letters ++ [' '], true, true, ?_, ?_, by simp⟩
          · intro more
            simp [writeFrom, keyword]
          · intro _
            simp
        · refine ⟨letters, true, false, ?_, by simp, by simp⟩
          intro more
          simp [writeFrom, keyword]
      | literal text => exact ⟨text, true, false, fun _ => rfl, by simp, by simp⟩
      | number text => exact ⟨text, true, false, fun _ => rfl, by simp, by simp⟩
      | mark c => exact ⟨[c], (Lexeme.mark c).endsOperand, false, fun _ => rfl, by simp, fun h => ⟨c, rfl, rfl, h⟩⟩
    rcases rest with _ | ⟨l', rest⟩
    · have text : writeFrom operand spaced [l] = front := by
        rw [step, writeFrom, List.append_nil]
      refine ⟨o, s, ?_, ?_, ?_⟩
      · intro more
        rw [text]
        exact step more
      · rw [text]
        exact hs
      · intro outside
        obtain ⟨c, last, rfl, mark⟩ := ho outside
        rw [text]
        exact ⟨c, last, List.mem_singleton_self _, mark⟩
    · obtain ⟨o', s', split, spaces, marks⟩ := ih o s (List.cons_ne_nil l' rest)
      refine ⟨o', s', ?_, ?_, ?_⟩
      · intro more
        rw [List.cons_append, step, step, split, List.append_assoc]
      · intro h
        rw [step]
        exact keeps (spaces h)
      · intro h
        obtain ⟨c, last, mem, mark⟩ := marks h
        rw [step]
        exact ⟨c, keeps last, List.mem_cons_of_mem _ mem, mark⟩

/-- The lexer takes a mark that ends an operand for the end of one, stars and arrows apart. -/
theorem endsOperand_of_endsPart {c : Char} (mark : isMark c = true) (h : endsPart c = true) (star : c ≠ '*')
    (arrow : c ≠ '>') : (Lexeme.mark c).endsOperand = true := by
  simp only [isMark, Bool.and_eq_true, Bool.not_eq_true'] at mark
  obtain ⟨⟨⟨quote, -⟩, word⟩, digit⟩ := mark
  simp only [endsPart, isCloser, Bool.or_eq_true, decide_eq_true_eq] at h
  rcases h with ((((((name | rfl) | rfl) | closer) | rfl) | rfl) | rfl) | rfl
  · simp only [isNameChar, Char.isAlphanum, Bool.or_eq_true, decide_eq_true_eq] at name
    rcases name with (alpha | hdigit) | rfl
    · rw [beginsWord, isAlphabetic_of_isAlpha alpha] at word
      cases word
    · rw [digit] at hdigit
      cases hdigit
    · cases word
  · cases quote
  · cases quote
  · rcases closer with (rfl | rfl) | rfl
    all_goals decide
  · decide
  · decide
  · exact absurd rfl star
  · exact absurd rfl arrow

/-- May a text of lexemes begin with an operator that is a word? -/
def beginsKeyword : List Lexeme → Bool
  | .word letters :: _ => isKeyword letters
  | _ => false

/-- Behind an operand only words of operator letters are written in another way. -/
theorem writeFrom_operand {ls : List Lexeme} (h : beginsKeyword ls = false) (operand spaced operand' spaced' : Bool) :
    writeFrom operand spaced ls = writeFrom operand' spaced' ls := by
  rcases ls with _ | ⟨l, rest⟩
  · rfl
  cases l with
  | word letters =>
    have name : isKeyword letters = false := h
    simp [writeFrom, name]
  | literal text => rfl
  | number text => rfl
  | mark c => rfl

/-! ## Operators between operands -/

/-- A query without comments that parses to an operand: what the lexer cuts it into is written with
    no sign in front and no operator in it. -/
structure LoneOperand (limits : Limits) where
  text : List Char
  tree : Expr
  lexemes : List Lexeme
  commentless : hasComment .code text = false
  cut : Query.lexemes text = .ok lexemes
  parses : parse limits (String.ofList text) = .ok tree
  unsigned : Unsigned (writeFrom false false lexemes)
  plain : Operators .operand 0 (writeFrom false false lexemes) []

namespace LoneOperand

variable {limits : Limits} (o : LoneOperand limits)

def normal : List Char := writeFrom false false o.lexemes

theorem reads : reading (constant? limits) .pipe o.normal = some o.tree := by
  obtain ⟨n, hn, hr⟩ := parse_ok o.parses
  unfold normalizeChars at hn
  rw [o.cut] at hn
  cases hn
  exact hr

theorem surface : (surface? o.normal).isSome := surface_of_pipe o.reads

/-- At every level an operand is what it is on its own. -/
theorem reads_at (l : Level) : reading (constant? limits) l o.normal = some o.tree := by
  have operand : reading (constant? limits) .operand o.normal = some o.tree :=
    reading_operand o.plain o.unsigned o.reads
  exact reading_weaken o.surface o.unsigned operand (Nat.zero_le _)

theorem last {c : Char} (hc : o.normal.getLast? = some c) : endsPart c = true := last_of_operators o.plain rfl c hc

theorem lexemes_ne_nil : o.lexemes ≠ [] := by
  intro empty
  have ne := o.plain.ne_nil
  rw [empty] at ne
  exact ne rfl

/-- Behind an operand that ends in no star and no arrow the writer sees the end of an operand. -/
theorem written_before (word : Bool) (h : word = true → o.normal.getLast? ≠ some '*' ∧ o.normal.getLast? ≠ some '>') :
    ∃ operand spaced, (word = true → operand = true ∧ spaced = false) ∧
      ∀ more, writeFrom false false (o.lexemes ++ more) = o.normal ++ writeFrom operand spaced more := by
  obtain ⟨operand, spaced, split, spaces, marks⟩ := writeFrom_last false false o.lexemes_ne_nil
  refine ⟨operand, spaced, ?_, split⟩
  intro hword
  obtain ⟨star, arrow⟩ := h hword
  refine ⟨?_, ?_⟩
  · by_cases inside : operand = true
    · exact inside
    · obtain ⟨c, hc, mem, outside⟩ := marks (by simpa using inside)
      have ends : (Lexeme.mark c).endsOperand = true := by
        apply endsOperand_of_endsPart (isMark_of_lexemes o.cut mem) (o.last hc)
        · rintro rfl
          exact star hc
        · rintro rfl
          exact arrow hc
      exact absurd (ends.symm.trans outside) nofun
  · by_cases inside : spaced = true
    · exact absurd (o.last (spaces inside)) (by decide)
    · simpa using inside

end LoneOperand

section Spaced

variable {limits : Limits} (first second : LoneOperand limits) (c : Connective)

/-- The query with the operator between the operands, a blank on either side. -/
def spacedQuery : List Char := first.text ++ (' ' :: c.symbol ++ ' ' :: second.text)

/-- What keeps an operator from being told apart: a star before or behind a single star; for a word,
    an operand before it that ends in `*` or `->`, or one behind it that begins with such a word. -/
structure ToldApart : Prop where
  stars : c = .binary .multiply → first.normal.getLast? ≠ some '*' ∧ second.normal.head? ≠ some '*'
  ends : c.isWord = true → first.normal.getLast? ≠ some '*' ∧ first.normal.getLast? ≠ some '>'
  begins : c.isWord = true → beginsKeyword second.lexemes = false

variable {first second c}

theorem normalize_spaced (h : ToldApart first second c) : normalizeChars (spacedQuery first second c) =
    .ok (first.normal ++ ((Operator.connective c).text ++ second.normal)) := by
  have cut : lexemes (spacedQuery first second c) = .ok (first.lexemes ++ (c.lexemes ++ second.lexemes)) := by
    have closed : Closed 0 first.text first.lexemes := closed_of_commentless first.cut first.commentless
    have stops : Stops (' ' :: c.symbol ++ ' ' :: second.text) := stops_cons (by decide) (by decide)
    unfold lexemes spacedQuery
    rw [closed _ stops, lexemes_connective, lexemesFrom_position second.cut]
    rfl
  obtain ⟨operand, spaced, state, split⟩ := first.written_before c.isWord h.ends
  have behind : writeFrom c.isWord c.isWord second.lexemes = second.normal := by
    rcases word : c.isWord with _ | _
    · rfl
    · exact writeFrom_operand (h.begins word) true true false false
  unfold normalizeChars
  rw [cut]
  show Except.ok _ = _
  rw [split, written_connective c state, behind]

/-- An operator between blanks makes its node of the operands on either side, where it is told apart. -/
theorem parse_spaced (h : ToldApart first second c) :
    parse limits (String.ofList (spacedQuery first second c)) = .error (.tooDeep limits.parse) ∨
      parse limits (String.ofList (spacedQuery first second c)) = .ok (c.apply first.tree second.tree) := by
  obtain ⟨r, hr⟩ : ∃ r, c.level.infix? = some r := by
    rcases c with _ | _ | op
    · exact ⟨_, rfl⟩
    · exact ⟨_, rfl⟩
    · cases op <;> exact ⟨_, rfl⟩
  have before : ∀ d, first.normal.getLast? = some d → d ≠ '=' ∧ d ≠ '-' := by
    intro d hd
    have ends := first.last hd
    refine ⟨?_, ?_⟩
    · rintro rfl
      cases ends
    · rintro rfl
      cases ends
  have found := find_beside hr before (first_of_operators second.plain) h.stars
  have joined := reading_join_of_found hr first.surface second.surface found
    (first.reads_at _) (second.reads_at _)
  have whole : (surface? (first.normal ++ ((Operator.connective c).text ++ second.normal))).isSome := by
    obtain ⟨places, hp, -⟩ := surface_join (.connective c) first.surface second.surface
    rw [hp]
    rfl
  have unsigned : Unsigned (first.normal ++ ((Operator.connective c).text ++ second.normal)) := by
    obtain ⟨d, rest, text⟩ := List.exists_cons_of_ne_nil first.plain.ne_nil
    intro e he
    apply first.unsigned e
    rw [show first.normal = d :: rest from text] at he
    rw [text]
    exact he
  have read : reading (constant? limits) .pipe (first.normal ++ ((Operator.connective c).text ++ second.normal)) =
      some (c.apply first.tree second.tree) := by
    apply Level.weaken (fun l loose read => reading_of_tighter loose whole unsigned read) joined
    cases c.level <;> decide
  rcases parse_reads limits (normalize_spaced h) with deep | reads
  · exact .inl deep
  · rw [read] at reads
    exact .inr reads

end Spaced

/-! ## An arrow before an operator -/

def arrowOperand : LoneOperand {} where
  text := ['a', '-', '>']
  tree := .deref (.ownField "a")
  lexemes := [.word ['a'], .mark '-', .mark '>']
  commentless := rfl
  cut := by cbv
  parses := parse_of_lexemes (by cbv) rfl
  unsigned := by
    intro c hc
    cases hc
    decide
  plain := .operand rfl (.traversal rfl .done)

def letterOperand : LoneOperand {} where
  text := ['b']
  tree := .ownField "b"
  lexemes := [.word ['b']]
  commentless := rfl
  cut := by cbv
  parses := parse_of_lexemes (by cbv) rfl
  unsigned := by
    intro c hc
    cases hc
    decide
  plain := .operand rfl .done

/-- A minus sign is told apart behind an arrow. -/
theorem parse_spaced_arrow : ToldApart arrowOperand letterOperand (.binary .subtract) ∧
    (parse {} "a-> - b" = .error (.tooDeep 256) ∨
      parse {} "a-> - b" = .ok (.binary .subtract (.deref (.ownField "a")) (.ownField "b"))) := by
  have apart : ToldApart arrowOperand letterOperand (.binary .subtract) := ⟨nofun, nofun, nofun⟩
  have query : String.ofList (spacedQuery arrowOperand letterOperand (.binary .subtract)) = "a-> - b" := rfl
  have result := parse_spaced apart
  rw [query] at result
  exact ⟨apart, result⟩

set_option maxRecDepth 4000 in
/-- A word is not: behind the arrow it is the beginning of a name. -/
theorem arrow_before_word : ¬ ∀ (limits : Limits) (first second : LoneOperand limits) (c : Connective),
    parse limits (String.ofList (spacedQuery first second c)) = .error (.tooDeep limits.parse) ∨
      parse limits (String.ofList (spacedQuery first second c)) = .ok (c.apply first.tree second.tree) := by
  intro always
  have cut : lexemes "a-> in b".toList = .ok [.word ['a'], .mark '-', .mark '>', .word ['i', 'n'], .word ['b']] := by cbv
  have parses : parse {} "a-> in b" = .ok (.field (.deref (.ownField "a")) "inb") := parse_of_lexemes cut rfl
  rcases always {} arrowOperand letterOperand (.binary .isIn) with deep | apart
  · exact absurd (parses.symm.trans deep) nofun
  · exact absurd (Except.ok.inj (parses.symm.trans apart)) nofun

end Groq.Query
