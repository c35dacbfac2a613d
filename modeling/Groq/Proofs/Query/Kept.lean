/-
  Groq.Proofs.Query.Kept — what the normal form of a query has of the query, and what it adds.

  The normal form is the texts of the lexemes, one after the other, with spaces around operator words.
  Outside literals no lexeme has a blank, so those spaces are all the blanks there are.
  Proved: a query has no normal form just where it is at fault; otherwise its normal form without the spaces
  outside literals is what is kept of the query, and every such space stands alone and beside an operator
  word (`normalize_keeps`).
-/

import Groq.Proofs.Query.Idempotence
import Groq.Proofs.Query.Regions
import Mathlib.Data.Nat.Find

namespace Groq.Query

/-! ## Spaces -/

/-- A text without the spaces outside its literals. A normal form has no comments: its literals are told by
    their quotes alone. -/
def unspaced (m : Mode) : List Char → List Char
  | [] => []
  | c :: rest =>
    let behind := unspaced (m.next c) rest
    if m = .code ∧ c = ' ' then behind else c :: behind

/-- An operator word stands directly before or behind, with a space on its other side too. -/
def BesideKeyword (front behind : List Char) : Prop :=
  ∃ letters, isKeyword letters = true ∧ (' ' :: letters <:+ front ∨ letters ++ [' '] <+: behind)

/-- Behind `before`, which ends outside literals: blanks outside literals are spaces behind other text, one at a
    time, beside operator words. -/
def SpacedFrom (before text : List Char) : Prop :=
  ∀ front c behind, text = front ++ c :: behind → Mode.code.after front = .code → Text.isBlank c = true →
    c = ' ' ∧ before ++ front ≠ [] ∧ behind.head? ≠ some ' ' ∧ BesideKeyword (before ++ front) behind

def SingleSpaced (text : List Char) : Prop := SpacedFrom [] text

/-- Every blank of a text read in this mode is in a literal. -/
def BlanksInside (m : Mode) (text : List Char) : Prop :=
  ∀ front c behind, text = front ++ c :: behind → m.after front = .code → Text.isBlank c = false

theorem BlanksInside.cons {m : Mode} {c : Char} {rest : List Char} (here : m = .code → Text.isBlank c = false)
    (h : BlanksInside (m.next c) rest) : BlanksInside m (c :: rest) := by
  rintro (_ | ⟨d, front⟩) e behind text code
  · cases text
    exact here code
  · cases text
    exact h front e behind rfl code

theorem blanksInside_nil (m : Mode) : BlanksInside m [] := by
  rintro (_ | ⟨d, front⟩) e behind text
  · cases text
  · cases text

theorem BlanksInside.tail {m : Mode} {c : Char} {rest : List Char} (h : BlanksInside m (c :: rest)) :
    BlanksInside (m.next c) rest := by
  rintro front d behind rfl code
  exact h (c :: front) d behind rfl code

theorem unspaced_append {m : Mode} {cs : List Char} (inside : BlanksInside m cs) (x : List Char) :
    unspaced m (cs ++ x) = cs ++ unspaced (m.after cs) x := by
  induction cs generalizing m with
  | nil => rfl
  | cons c rest ih =>
    have kept : ¬ (m = .code ∧ c = ' ') := by
      rintro ⟨code, rfl⟩
      exact absurd (inside [] ' ' rest rfl code) (by decide)
    rw [List.cons_append, unspaced, if_neg kept, ih inside.tail]
    rfl

/-- Text in front, where what it adds is spaced as well. -/
theorem SpacedFrom.append {before cs x : List Char} (whole : Mode.code.after cs = .code)
    (first : ∀ front c behind, cs = front ++ c :: behind → Mode.code.after front = .code → Text.isBlank c = true →
      c = ' ' ∧ before ++ front ≠ [] ∧ (behind ++ x).head? ≠ some ' ' ∧ BesideKeyword (before ++ front) (behind ++ x))
    (h : SpacedFrom (before ++ cs) x) : SpacedFrom before (cs ++ x) := by
  intro front c behind text code blank
  rcases List.append_eq_append_iff.mp text with ⟨more, rfl, hx⟩ | ⟨more, rfl, hbehind⟩
  · rw [← List.append_assoc]
    have inside : (Mode.code.after cs).after more = .code := by
      rwa [Mode.after, List.foldl_append] at code
    rw [whole] at inside
    exact h more c behind hx inside blank
  · rcases more with _ | ⟨d, more⟩
    · rw [List.append_nil] at *
      have := h [] c behind hbehind.symm rfl blank
      rwa [List.append_nil] at this
    · cases hbehind
      exact first front c more rfl code blank

theorem SpacedFrom.behind {before cs x : List Char} (whole : Mode.code.after cs = .code) (inside : BlanksInside .code cs)
    (h : SpacedFrom (before ++ cs) x) : SpacedFrom before (cs ++ x) := by
  refine h.append whole fun front c behind text code blank => ?_
  exact absurd (blank.symm.trans (inside front c behind text code)) nofun

theorem SpacedFrom.space {before x : List Char} (ne : before ≠ []) (head : x.head? ≠ some ' ')
    (beside : BesideKeyword before x) (h : SpacedFrom (before ++ [' ']) x) : SpacedFrom before (' ' :: x) := by
  refine SpacedFrom.append (rfl : Mode.code.after [' '] = .code) ?_ h
  rintro (_ | ⟨d, front⟩) c behind text _ _
  · cases text
    rw [List.append_nil]
    exact ⟨rfl, ne, head, beside⟩
  · simp at text

/-! ## Lexemes -/

/-- A lexeme does not begin with a blank, ends outside literals, and has no blank outside them. -/
structure Lexeme.Solid (l : Lexeme) : Prop where
  begins : ∃ c rest, l.text = c :: rest ∧ Text.isBlank c = false
  whole : Mode.code.after l.text = .code
  inside : BlanksInside .code l.text

/-- Behind its opening quote a literal stays one up to its last character. -/
theorem literal_inside {quote : Char} {opened position : Nat} {done cs text after : List Char}
    (h : takeLiteral quote opened position done cs = .ok (text, after)) :
    ∃ body, text = done.reverse ++ body ∧ (Mode.literal quote).after body = .code ∧ BlanksInside (.literal quote) body := by
  fun_induction takeLiteral quote opened position done cs with
  | case1 => cases h
  | case2 => cases h
  | case3 => cases h
  | case4 position done c rest plain ih =>
    obtain ⟨body, rfl, whole, inside⟩ := ih h
    have escaped : BlanksInside (.escape quote) (c :: body) := .cons (by simp) inside
    exact ⟨'\\' :: c :: body, by simp, whole, .cons (by simp) escaped⟩
  | case5 position done rest plain =>
    cases h
    have closed : (Mode.literal quote).next quote = .code := (if_neg plain).trans (if_pos rfl)
    exact ⟨[quote], by simp, closed, .cons (by simp) (blanksInside_nil _)⟩
  | case6 position done c rest plain other ih =>
    obtain ⟨body, rfl, whole, inside⟩ := ih h
    have stays : (Mode.literal quote).next c = .literal quote := (if_neg plain).trans (if_neg other)
    refine ⟨c :: body, by simp, ?_, .cons (by simp) ?_⟩
    · rw [Mode.after, List.foldl_cons, stays]
      exact whole
    · rw [stays]
      exact inside

theorem solid_plain {l : Lexeme} {c : Char} {rest : List Char} (text : l.text = c :: rest)
    (plain : ∀ d ∈ c :: rest, isQuote d = false ∧ Text.isBlank d = false) : l.Solid := by
  refine ⟨⟨c, rest, text, (plain c List.mem_cons_self).2⟩, ?_, ?_⟩
  · rw [text]
    exact after_unquoted fun d hd => (plain d hd).1
  · rw [text]
    intro front d behind split _
    exact (plain d (split ▸ List.mem_append_right _ List.mem_cons_self)).2

theorem solid_run {l : Lexeme} {c : Char} {rest : List Char} (word : isWordChar c = true)
    (text : l.text = c :: rest.takeWhile isWordChar) : l.Solid := by
  refine solid_plain text fun d hd => ?_
  have run : isWordChar d = true := by
    rcases List.mem_cons.mp hd with rfl | hd
    · exact word
    · exact List.all_eq_true.mp List.all_takeWhile d hd
  exact ⟨isQuote_of_isWordChar run, isBlank_of_isWordChar run⟩

theorem solid_of_lexemes {position : Nat} {cs : List Char} {ls : List Lexeme} (h : lexemesFrom position cs = .ok ls) :
    ∀ l ∈ ls, l.Solid := by
  fun_induction lexemesFrom position cs generalizing ls with
  | case1 =>
    cases h
    exact List.forall_mem_nil _
  | case2 => cases h
  | case3 position c rest quote text after hl shorter ih =>
    obtain ⟨more, hmore, rfl⟩ := map_ok h
    obtain ⟨body, rfl, whole, inside⟩ := literal_inside hl
    have blank : Text.isBlank c = false := isBlank_of_isQuote quote
    have opened : Mode.code.next c = .literal c := if_pos (by simpa [isQuote] using quote)
    have first : (Lexeme.literal ([c].reverse ++ body)).Solid := by
      refine ⟨⟨c, body, rfl, blank⟩, ?_, .cons (fun _ => blank) (opened ▸ inside)⟩
      show Mode.after (Mode.code.next c) body = .code
      rw [opened, whole]
    exact List.forall_mem_cons.mpr ⟨first, ih hmore⟩
  | case4 position c rest quote slashes comment =>
    rename_i ih
    exact ih h
  | case5 position c rest quote slashes blank ih => exact ih h
  | case6 position c rest quote slashes blank word letters =>
    rename_i ih
    obtain ⟨more, hmore, rfl⟩ := map_ok h
    exact List.forall_mem_cons.mpr ⟨solid_run (isWordChar_of_beginsWord word) rfl, ih hmore⟩
  | case7 position c rest quote slashes blank word digit text =>
    rename_i ih
    obtain ⟨more, hmore, rfl⟩ := map_ok h
    exact List.forall_mem_cons.mpr ⟨solid_run (isWordChar_of_isNameChar (isNameChar_of_isDigit digit)) rfl, ih hmore⟩
  | case8 position c rest quote slashes blank word digit ih =>
    obtain ⟨more, hmore, rfl⟩ := map_ok h
    have first : (Lexeme.mark c).Solid :=
      solid_plain rfl (List.forall_mem_singleton.mpr ⟨by simpa using quote, by simpa using blank⟩)
    exact List.forall_mem_cons.mpr ⟨first, ih hmore⟩

/-! ## Writing -/

theorem unspaced_spaces {cs : List Char} (h : ∀ c ∈ cs, c = ' ') (x : List Char) :
    unspaced .code (cs ++ x) = unspaced .code x := by
  induction cs with
  | nil => rfl
  | cons c cs ih =>
    obtain ⟨rfl, others⟩ := List.forall_mem_cons.mp h
    rw [List.cons_append, unspaced, if_pos ⟨rfl, rfl⟩]
    exact ih others

/-- The lexemes are written without blanks outside literals, spaces apart. -/
theorem unspaced_written {ls : List Lexeme} (operand spaced : Bool) (solid : ∀ l ∈ ls, l.Solid) :
    unspaced .code (writeFrom operand spaced ls) = ls.flatMap Lexeme.text := by
  induction ls generalizing operand spaced with
  | nil => rfl
  | cons l rest ih =>
    obtain ⟨first, others⟩ := List.forall_mem_cons.mp solid
    obtain ⟨before, behind, operand', spaced', written, spaces⟩ := writeFrom_cons operand spaced l rest
    rw [written, unspaced_spaces fun c hc => spaces c (List.mem_append_left _ hc), unspaced_append first.inside, first.whole,
      unspaced_spaces fun c hc => spaces c (List.mem_append_right _ hc), ih operand' spaced' others]
    rfl

theorem Lexeme.Solid.head {l : Lexeme} (solid : l.Solid) (x : List Char) : (l.text ++ x).head? ≠ some ' ' := by
  obtain ⟨c, rest, text, blank⟩ := solid.begins
  rw [text]
  rintro ⟨rfl⟩
  exact absurd blank (by decide)

/-- Behind a space no further one is written. -/
theorem head_written {ls : List Lexeme} (operand : Bool) (solid : ∀ l ∈ ls, l.Solid) :
    (writeFrom operand true ls).head? ≠ some ' ' := by
  rcases ls with _ | ⟨l, rest⟩
  · simp [writeFrom]
  · have begins (x : List Char) : (l.text ++ x).head? ≠ some ' ' := (solid l List.mem_cons_self).head x
    cases l with
    | word letters =>
      simp only [writeFrom]
      split
      · exact begins _
      · exact begins _
    | _ => exact begins _

/-- By induction on the lexemes. An operand stands behind some text; and where the writer has just put a space, the
    text before ends in it. -/
theorem spaced_written {ls : List Lexeme} {operand spaced : Bool} {before : List Char} (solid : ∀ l ∈ ls, l.Solid)
    (text : operand = true → before ≠ []) (space : spaced = true → [' '] <:+ before) :
    SpacedFrom before (writeFrom operand spaced ls) := by
  induction ls generalizing operand spaced before with
  | nil =>
    intro front c behind h
    simp [writeFrom] at h
  | cons l rest ih =>
    obtain ⟨first, others⟩ := List.forall_mem_cons.mp solid
    obtain ⟨c, tail, begins, -⟩ := first.begins
    have plain (o : Bool) : SpacedFrom before (l.text ++ writeFrom o false rest) := by
      refine .behind first.whole first.inside (ih others (fun _ => ?_) (by simp))
      rw [begins]
      exact List.append_ne_nil_of_right_ne_nil _ (List.cons_ne_nil _ _)
    cases l with
    | word letters =>
      simp only [writeFrom]
      split
      · rename_i keyword
        obtain ⟨operand, isKeyword⟩ := Bool.and_eq_true_iff.mp keyword
        have word {before : List Char} (space : [' '] <:+ before) :
            SpacedFrom before (letters ++ ' ' :: writeFrom true true rest) := by
          obtain ⟨more, rfl⟩ := space
          have beside : BesideKeyword (more ++ [' '] ++ letters) (writeFrom true true rest) :=
            ⟨letters, isKeyword, .inl ⟨more, by simp⟩⟩
          refine .behind first.whole first.inside (.space (by simp) (head_written true others) beside ?_)
          exact ih others (fun _ => by simp) fun _ => List.suffix_append _ _
        cases spaced with
        | true => exact word (space rfl)
        | false =>
          have beside : BesideKeyword before (letters ++ ' ' :: writeFrom true true rest) :=
            ⟨letters, isKeyword, .inr ⟨writeFrom true true rest, by simp⟩⟩
          exact .space (text operand) (first.head _) beside (word (List.suffix_append _ _))
      · exact plain true
    | _ => exact plain _

/-! ## Queries -/

theorem normalize_error_iff {query : String} {e : LexicalError} : normalize query = .error e ↔ Fault query.toList e := by
  rw [← lexemes_error_iff]
  unfold normalize normalizeChars
  rcases lexemes query.toList with e' | ls
  · simp [Except.map]
  · exact iff_of_false nofun nofun

theorem fault_iff {cs : List Char} : (∃ e, Fault cs e) ↔ ∃ p, EscapeFrom .code cs p ∨ UnclosedFrom .code cs p := by
  constructor
  · rintro ⟨e, fault⟩
    cases e with
    | unsupportedEscape p => exact ⟨p, .inl fault.1⟩
    | unterminatedString p => exact ⟨p, .inr fault.1⟩
  · rintro ⟨p, some⟩
    classical
    by_cases escape : ∃ i, EscapeFrom .code cs i
    · exact ⟨.unsupportedEscape (Nat.find escape), Nat.find_spec escape, fun i less => Nat.find_min escape less⟩
    · have none : ∀ i, ¬ EscapeFrom .code cs i := not_exists.mp escape
      exact ⟨.unterminatedString p, some.resolve_left (none p), none⟩

/-- A query is refused just for a `\u` escape in a literal or a literal that is not closed, whichever is met first.
    Otherwise its normal form has the literals and the code of the query, and single spaces beside operator words. -/
theorem normalize_keeps (query : String) :
    ((∃ e, normalize query = .error e) ↔
      ∃ p, EscapeFrom .code query.toList p ∨ UnclosedFrom .code query.toList p) ∧
    (∀ e, normalize query = .error e ↔ Fault query.toList e) ∧
    ∀ n, normalize query = .ok n → unspaced .code n.toList = kept query.toList ∧ SingleSpaced n.toList := by
  refine ⟨?_, fun e => normalize_error_iff, fun n h => ?_⟩
  · rw [← fault_iff]
    exact exists_congr fun e => normalize_error_iff
  · obtain ⟨text, htext, rfl⟩ := map_ok h
    obtain ⟨ls, cut, rfl⟩ := map_ok htext
    rw [String.toList_ofList]
    have solid : ∀ l ∈ ls, l.Solid := solid_of_lexemes cut
    exact ⟨(unspaced_written false false solid).trans (lexemes_kept cut), spaced_written solid nofun nofun⟩

set_option maxRecDepth 4000 in
/-- A literal with an escaped quote and slashes in it, and a comment behind it. -/
theorem normalize_keeps_literal : normalize "x in'\\' //'//y\n  asc" = .ok "x in '\\' //' asc " ∧
    unspaced .code "x in '\\' //' asc ".toList = kept "x in'\\' //'//y\n  asc".toList ∧
    SingleSpaced "x in '\\' //' asc ".toList := by
  have cut : lexemes "x in'\\' //'//y\n  asc".toList = .ok [.word ['x'], .word ['i', 'n'],
      .literal ['\'', '\\', '\'', ' ', '/', '/', '\''], .word ['a', 's', 'c']] := by cbv
  have normal : normalize "x in'\\' //'//y\n  asc" = .ok "x in '\\' //' asc " := (normalize_of_lexemes cut).trans rfl
  exact ⟨normal, (normalize_keeps _).2.2 _ normal⟩

end Groq.Query
