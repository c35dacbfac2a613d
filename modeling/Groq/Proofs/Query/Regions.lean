/-
  Groq.Proofs.Query.Regions — a query read one character after the other.

  A reader from the left is in code, in a comment or in a literal, and one character with the one behind it
  says where it is next (`Region.next`). A query is at fault where that reader meets a `\u` escape in a
  literal, or the end of the query in a literal (`Fault`). What it keeps are literals as they are written
  and code without its blanks (`keptFrom`). The lexer cuts off whole literals, comments and words instead.
  Proved: it fails with the first fault and with nothing else (`lexemes_error_iff`), and the texts of its lexemes
  are what is kept (`lexemes_kept`).
-/

import Groq.Proofs.Query.Ascii

namespace Groq.Text

/-! ## Blanks are in no word -/

theorem inRanges_mem {ranges : List (Nat × Nat)} {n : Nat} (h : inRanges ranges n = true) :
    ∃ r ∈ ranges, r.1 ≤ n ∧ n ≤ r.2 := by
  induction ranges with
  | nil => cases h
  | cons r rest ih =>
    unfold inRanges at h
    split at h
    · cases h
    · rename_i lo
      rcases Bool.or_eq_true_iff.mp h with hi | later
      · exact ⟨r, List.mem_cons_self, Nat.not_lt.mp lo, of_decide_eq_true hi⟩
      · obtain ⟨r', mem, inside⟩ := ih later
        exact ⟨r', List.mem_cons_of_mem _ mem, inside⟩

/-- No range of one table meets one of the other. -/
def apartRanges (left right : List (Nat × Nat)) : Bool :=
  left.all fun r => right.all fun q => r.2 < q.1 || q.2 < r.1

theorem not_inRanges_of_apart {left right : List (Nat × Nat)} {n : Nat} (apart : apartRanges left right = true)
    (h : inRanges left n = true) : inRanges right n = false := by
  rw [Bool.eq_false_iff]
  intro h'
  obtain ⟨r, hr, lo, hi⟩ := inRanges_mem h
  obtain ⟨q, hq, lo', hi'⟩ := inRanges_mem h'
  have := List.all_eq_true.mp (List.all_eq_true.mp apart r hr) q hq
  simp only [Bool.or_eq_true, decide_eq_true_eq] at this
  omega

theorem isAlphanumeric_of_isBlank {c : Char} (h : isBlank c = true) : isAlphanumeric c = false := by
  have letters : apartRanges blankRanges alphabeticRanges = true := by decide +kernel
  have numbers : apartRanges blankRanges numericRanges = true := by decide +kernel
  exact Bool.or_eq_false_iff.mpr ⟨not_inRanges_of_apart letters h, not_inRanges_of_apart numbers h⟩

end Groq.Text

namespace Groq.Query

theorem isWordChar_of_isBlank {c : Char} (h : Text.isBlank c = true) : isWordChar c = false := by
  refine Bool.or_eq_false_iff.mpr ⟨Text.isAlphanumeric_of_isBlank h, decide_eq_false ?_⟩
  rintro rfl
  exact absurd h (by decide)

theorem isBlank_of_isWordChar {c : Char} (h : isWordChar c = true) : Text.isBlank c = false := by
  rw [Bool.eq_false_iff]
  intro blank
  exact absurd (h.symm.trans (isWordChar_of_isBlank blank)) nofun

theorem slash_of_isWordChar {c : Char} (h : isWordChar c = true) : c ≠ '/' := by
  rintro rfl
  exact absurd h (by decide)

theorem slash_of_isBlank {c : Char} (h : Text.isBlank c = true) : c ≠ '/' := by
  rintro rfl
  exact absurd h (by decide)

theorem isQuote_of_isBlank {c : Char} (h : Text.isBlank c = true) : isQuote c = false := by
  rw [Bool.eq_false_iff]
  intro quote
  simp only [isQuote, Bool.or_eq_true, decide_eq_true_eq] at quote
  rcases quote with rfl | rfl
  · exact absurd h (by decide)
  · exact absurd h (by decide)

theorem isBlank_of_isQuote {c : Char} (h : isQuote c = true) : Text.isBlank c = false := by
  rw [Bool.eq_false_iff]
  intro blank
  exact absurd (h.symm.trans (isQuote_of_isBlank blank)) nofun

/-! ## Regions -/

/-- Where a reader in `r` is behind `c`. A comment begins at the first of two slashes, so `ahead`, the character
    behind `c`, is known as well. -/
def Region.next (r : Region) (c : Char) (ahead : Option Char) : Region :=
  match r with
  | .code => if isQuote c then .literal c else if c = '/' ∧ ahead = some '/' then .comment else .code
  | .comment => if c = '\n' then .code else .comment
  | .literal quote => if c = '\\' then .escape quote else if c = quote then .code else .literal quote
  | .escape quote => .literal quote

theorem next_plain {c : Char} {ahead : Option Char} (quote : isQuote c = false) (comment : ¬ (c = '/' ∧ ahead = some '/')) :
    Region.code.next c ahead = .code := by
  simp [Region.next, quote, comment]

def Region.inLiteral : Region → Bool
  | .literal _ => true
  | .escape _ => true
  | _ => false

/-- Where a reader who begins in `r` is behind the first characters of a text. -/
def regionFrom (r : Region) : List Char → Nat → Region
  | c :: rest, n + 1 => regionFrom (r.next c rest.head?) rest n
  | _, _ => r

@[simp] theorem regionFrom_zero (r : Region) (cs : List Char) : regionFrom r cs 0 = r := by
  cases cs <;> rfl

/-- At this position of a literal stands a backslash, which is not escaped itself, and then `u`. -/
def EscapeFrom (r : Region) (cs : List Char) (p : Nat) : Prop :=
  (∃ quote, regionFrom r cs p = .literal quote) ∧ cs[p]? = some '\\' ∧ cs[p + 1]? = some 'u'

/-- At this position a literal is opened that goes on up to the end. -/
def UnclosedFrom (r : Region) (cs : List Char) (p : Nat) : Prop :=
  regionFrom r cs p = .code ∧ (∃ quote, cs[p]? = some quote ∧ isQuote quote = true) ∧
    ∀ i, p < i → i ≤ cs.length → (regionFrom r cs i).inLiteral = true

/-- What a reader meets first: that a literal is not closed shows at the end only. -/
def Fault (cs : List Char) : LexicalError → Prop
  | .unsupportedEscape p => EscapeFrom .code cs p ∧ ∀ i < p, ¬ EscapeFrom .code cs i
  | .unterminatedString p => UnclosedFrom .code cs p ∧ ∀ i, ¬ EscapeFrom .code cs i

/-- Is `c`, between the regions `r` and `next`, part of a literal, or of the code and no blank? -/
def keeps (r next : Region) (c : Char) : Bool :=
  match r with
  | .code => next != .comment && !Text.isBlank c
  | .comment => false
  | .literal _ => true
  | .escape _ => true

/-- The characters of a text in order, without comments, and without blanks outside literals. -/
def keptFrom (r : Region) : List Char → List Char
  | [] => []
  | c :: rest =>
    let next := r.next c rest.head?
    if keeps r next c then c :: keptFrom next rest else keptFrom next rest

def kept (cs : List Char) : List Char := keptFrom .code cs

theorem fault_unique {cs : List Char} {e e' : LexicalError} (h : Fault cs e) (h' : Fault cs e') : e = e' := by
  cases e with
  | unsupportedEscape p =>
    cases e' with
    | unsupportedEscape p' =>
      have below : ¬ p' < p := fun less => h.2 p' less h'.1
      have above : ¬ p < p' := fun less => h'.2 p less h.1
      rw [show p = p' by omega]
    | unterminatedString p' => exact absurd h.1 (h'.2 p)
  | unterminatedString p =>
    cases e' with
    | unsupportedEscape p' => exact absurd h'.1 (h.2 p')
    | unterminatedString p' =>
      -- Behind the first of two such quotes the reader is in a literal, so it opens none at the second.
      have first {p p' : Nat} (h : UnclosedFrom .code cs p) (h' : UnclosedFrom .code cs p') : ¬ p < p' := by
        intro less
        obtain ⟨quote, inside, -⟩ := h'.2.1
        obtain ⟨bound, -⟩ := List.getElem?_eq_some_iff.mp inside
        have literal := h.2.2 p' less (Nat.le_of_lt bound)
        rw [h'.1] at literal
        cases literal
      have below := first h.1 h'.1
      have above := first h'.1 h.1
      rw [show p = p' by omega]

/-! ## Reading until a fault -/

def beginsEscape (r : Region) (c : Char) (ahead : Option Char) : Bool :=
  match r with
  | .literal _ => c = '\\' && ahead = some 'u'
  | _ => false

/-- What is kept of the text from `position` on, or the first fault in it. The literal that is being read was
    opened at `opened`. -/
def gather (opened position : Nat) (r : Region) : List Char → Except LexicalError (List Char)
  | [] => if r.inLiteral then .error (.unterminatedString opened) else .ok []
  | c :: rest =>
    if beginsEscape r c rest.head? then .error (.unsupportedEscape position)
    else
      let next := r.next c rest.head?
      (gather (if r.inLiteral then opened else position) (position + 1) next rest).map
        (if keeps r next c then (c :: ·) else (·))

section Gather

variable {opened opened' position : Nat} {r : Region} {c : Char} {cs rest : List Char}

theorem map_map {α β γ ε : Type} (f : α → β) (g : β → γ) (x : Except ε α) :
    (x.map f).map g = x.map fun a => g (f a) := by
  rcases x with e | a <;> rfl

theorem map_self {α ε : Type} (x : Except ε α) : (x.map fun a => a) = x := by
  rcases x with e | a <;> rfl

/-- Outside literals it does not matter where one was opened. -/
theorem gather_opened (h : r.inLiteral = false) (cs : List Char) :
    gather opened position r cs = gather opened' position r cs := by
  cases cs with
  | nil => simp [gather, h]
  | cons c rest => simp [gather, h]

theorem gather_code (quote : isQuote c = false) (comment : ¬ (c = '/' ∧ rest.head? = some '/')) :
    gather opened position .code (c :: rest) = (gather position (position + 1) .code rest).map
      (if Text.isBlank c then (·) else (c :: ·)) := by
  cases blank : Text.isBlank c <;>
    simp [gather, beginsEscape, next_plain quote comment, keeps, Region.inLiteral, blank]

/-- A text of code without blanks, in front of another. -/
theorem gather_solid {word x : List Char} (solid : ∀ c ∈ word, isWordChar c = true) :
    gather opened position .code (word ++ x) =
      (gather opened (position + word.length) .code x).map (word ++ ·) := by
  induction word generalizing opened position with
  | nil => exact (map_self _).symm
  | cons c word ih =>
    obtain ⟨hc, solid⟩ := List.forall_mem_cons.mp solid
    rw [List.cons_append, gather_code (isQuote_of_isWordChar hc) (fun h => slash_of_isWordChar hc h.1),
      isBlank_of_isWordChar hc, ih solid, gather_opened rfl x, map_map, List.length_cons, Nat.add_assoc, Nat.add_comm 1]
    rfl

/-- A comment is left out up to the end of its line. -/
theorem gather_comment (cs : List Char) : gather opened position .comment cs =
    gather opened' (position + (cs.takeWhile (· != '\n')).length) .code (cs.dropWhile (· != '\n')) := by
  induction cs generalizing opened position with
  | nil => rfl
  | cons c rest ih =>
    by_cases line : c = '\n'
    · subst line
      rfl
    · have next : Region.comment.next c rest.head? = .comment := if_neg line
      have step : gather opened position .comment (c :: rest) = gather position (position + 1) .comment rest := by
        simp only [gather, beginsEscape, next, keeps, Region.inLiteral]
        exact map_self _
      rw [step, ih, List.takeWhile_cons, List.dropWhile_cons, if_pos (by simpa using line), if_pos (by simpa using line),
        List.length_cons, Nat.add_assoc, Nat.add_comm 1]

section Literal

variable {quote : Char} {done text after : List Char} {e : LexicalError}

theorem gather_inside (plain : c ≠ '\\') (other : c ≠ quote) : gather opened position (.literal quote) (c :: rest) =
    (gather opened (position + 1) (.literal quote) rest).map (c :: ·) := by
  simp [gather, beginsEscape, plain, other, Region.next, keeps, Region.inLiteral]

theorem gather_close (plain : quote ≠ '\\') : gather opened position (.literal quote) (quote :: rest) =
    (gather opened (position + 1) .code rest).map (quote :: ·) := by
  simp [gather, beginsEscape, plain, Region.next, keeps, Region.inLiteral]

theorem gather_escape (plain : c ≠ 'u') : gather opened position (.literal quote) ('\\' :: c :: rest) =
    (gather opened (position + 2) (.literal quote) rest).map fun kept => '\\' :: c :: kept := by
  simp [gather, beginsEscape, plain, Region.next, keeps, Region.inLiteral, map_map]

/-- The lexer fails in a literal with the fault a reader meets there. -/
theorem gather_unclosed (h : takeLiteral quote opened position done cs = .error e) :
    gather opened position (.literal quote) cs = .error e := by
  fun_induction takeLiteral quote opened position done cs with
  | case1 =>
    cases h
    rfl
  | case2 =>
    cases h
    rfl
  | case3 =>
    cases h
    rfl
  | case4 position done c rest plain ih =>
    rw [gather_escape plain, ih h]
    rfl
  | case5 => cases h
  | case6 position done c rest plain other ih =>
    rw [gather_inside plain other, ih h]
    rfl

/-- A literal is kept as the lexer takes it. -/
theorem gather_literal (h : takeLiteral quote opened position done cs = .ok (text, after)) :
    ∃ body, text = done.reverse ++ body ∧ gather opened position (.literal quote) cs =
      (gather opened (position + body.length) .code after).map (body ++ ·) := by
  fun_induction takeLiteral quote opened position done cs with
  | case1 => cases h
  | case2 => cases h
  | case3 => cases h
  | case4 position done c rest plain ih =>
    obtain ⟨body, rfl, hbody⟩ := ih h
    refine ⟨'\\' :: c :: body, by simp, ?_⟩
    rw [gather_escape plain, hbody, map_map, show position + 2 + body.length = position + (body.length + 2) by omega]
    rfl
  | case5 position done rest plain =>
    cases h
    exact ⟨[quote], by simp, gather_close plain⟩
  | case6 position done c rest plain other ih =>
    obtain ⟨body, rfl, hbody⟩ := ih h
    refine ⟨c :: body, by simp, ?_⟩
    rw [gather_inside plain other, hbody, map_map, show position + 1 + body.length = position + (body.length + 1) by omega]
    rfl

end Literal

theorem gather_open (quote : isQuote c = true) : gather opened position .code (c :: rest) =
    (gather position (position + 1) (.literal c) rest).map (c :: ·) := by
  simp [gather, beginsEscape, quote, Region.next, keeps, Region.inLiteral, isBlank_of_isQuote quote]

/-- A run of word characters is kept whole. -/
theorem gather_run (word : isWordChar c = true) : gather opened position .code (c :: rest) =
    (gather opened (position + (c :: rest.takeWhile isWordChar).length) .code (rest.dropWhile isWordChar)).map
      (c :: rest.takeWhile isWordChar ++ ·) := by
  have solid : ∀ d ∈ c :: rest.takeWhile isWordChar, isWordChar d = true :=
    List.forall_mem_cons.mpr ⟨word, fun d hd => List.all_eq_true.mp List.all_takeWhile d hd⟩
  rw [← gather_solid solid, List.cons_append, List.takeWhile_append_dropWhile]

/-- The lexer says of a text what a reader of it finds. -/
theorem lexemes_gather (position : Nat) (cs : List Char) :
    (lexemesFrom position cs).map (·.flatMap Lexeme.text) = gather position position .code cs := by
  fun_induction lexemesFrom position cs with
  | case1 => rfl
  | case2 position c rest quote e he =>
    rw [gather_open quote, gather_unclosed he]
    rfl
  | case3 position c rest quote text after hl shorter ih =>
    obtain ⟨body, rfl, hbody⟩ := gather_literal hl
    rw [gather_open quote, hbody, map_map, map_map]
    rw [gather_opened rfl after, show position + 1 + body.length = position + ([c].reverse ++ body).length by simp; omega,
      ← ih, map_map]
    rfl
  | case4 position c rest quote slashes comment ih =>
    obtain ⟨rfl, ahead⟩ := slashes
    have step : gather position position .code ('/' :: rest) = gather position (position + 1) .comment rest := by
      simp [gather, beginsEscape, Region.next, isQuote, ahead, keeps, Region.inLiteral, map_self]
    rw [step, gather_comment, ih]
  | case5 position c rest quote slashes blank ih =>
    rw [gather_code (by simpa using quote) slashes, if_pos blank, map_self, gather_opened rfl, ih]
  | case6 position c rest quote slashes blank word letters ih =>
    rw [gather_run (isWordChar_of_beginsWord word), gather_opened rfl, ← ih, map_map, map_map]
    rfl
  | case7 position c rest quote slashes blank word digit text ih =>
    rw [gather_run (isWordChar_of_isNameChar (isNameChar_of_isDigit digit)), gather_opened rfl, ← ih, map_map, map_map]
    rfl
  | case8 position c rest quote slashes blank word digit ih =>
    rw [gather_code (by simpa using quote) slashes, if_neg blank, gather_opened rfl, ← ih, map_map, map_map]
    rfl

/-! ## Where the faults are -/

theorem no_escape_nil (i : Nat) : ¬ EscapeFrom r [] i := by
  rintro ⟨-, h, -⟩
  cases h

theorem escape_zero : EscapeFrom r (c :: rest) 0 ↔ beginsEscape r c rest.head? = true := by
  cases r <;> simp [EscapeFrom, regionFrom, beginsEscape, List.head?_eq_getElem?]

theorem no_escape_cons (here : beginsEscape r c rest.head? = false)
    (behind : ∀ i, ¬ EscapeFrom (r.next c rest.head?) rest i) : ∀ i, ¬ EscapeFrom r (c :: rest) i
  | 0 => fun h => absurd (here.symm.trans (escape_zero.mp h)) nofun
  | i + 1 => behind i

theorem literal_cons (here : r.inLiteral = true)
    (behind : ∀ i ≤ rest.length, (regionFrom (r.next c rest.head?) rest i).inLiteral = true) :
    ∀ i ≤ (c :: rest).length, (regionFrom r (c :: rest) i).inLiteral = true
  | 0, _ => here
  | i + 1, bound => behind i (Nat.le_of_succ_le_succ bound)

theorem unclosed_succ {i : Nat} (h : UnclosedFrom (r.next c rest.head?) rest i) : UnclosedFrom r (c :: rest) (i + 1) := by
  refine ⟨h.1, h.2.1, fun j behind bound => ?_⟩
  obtain ⟨j, rfl⟩ := Nat.exists_eq_succ_of_ne_zero (Nat.ne_of_gt (Nat.lt_of_le_of_lt (Nat.zero_le _) behind))
  exact h.2.2 j (Nat.lt_of_succ_lt_succ behind) (Nat.le_of_succ_le_succ bound)

/-- Only a quote leads into a literal. -/
theorem opens_literal {ahead : Option Char} (outside : r.inLiteral = false) (inside : (r.next c ahead).inLiteral = true) :
    r = .code ∧ isQuote c = true := by
  cases r with
  | code =>
    unfold Region.next at inside
    dsimp only at inside
    split at inside
    · exact ⟨rfl, ‹_›⟩
    · split at inside <;> cases inside
  | comment =>
    unfold Region.next at inside
    dsimp only at inside
    split at inside <;> cases inside
  | literal | escape => cases outside

theorem gather_cons (plain : beginsEscape r c rest.head? = false) : gather opened position r (c :: rest) =
    (gather (if r.inLiteral then opened else position) (position + 1) (r.next c rest.head?) rest).map
      (if keeps r (r.next c rest.head?) c then (c :: ·) else (·)) := by
  simp [gather, plain]

theorem map_error {α β ε : Type} {f : α → β} {x : Except ε α} {e : ε} (h : x.map f = .error e) : x = .error e := by
  rcases x with e' | a
  · cases h
    rfl
  · cases h

theorem gather_ok {text : List Char} (h : gather opened position r cs = .ok text) :
    text = keptFrom r cs ∧ (∀ i, ¬ EscapeFrom r cs i) ∧ (regionFrom r cs cs.length).inLiteral = false := by
  induction cs generalizing opened position r text with
  | nil =>
    unfold gather at h
    split at h
    · cases h
    · rename_i outside
      cases h
      exact ⟨rfl, no_escape_nil, by simpa [regionFrom] using outside⟩
  | cons c rest ih =>
    cases plain : beginsEscape r c rest.head? with
    | true => simp [gather, plain] at h
    | false =>
      rw [gather_cons plain] at h
      obtain ⟨behind, hbehind, rfl⟩ := map_ok h
      obtain ⟨rfl, none, outside⟩ := ih hbehind
      refine ⟨?_, no_escape_cons plain none, outside⟩
      rw [keptFrom]
      split <;> rfl

/-- By induction on the text; `opened` is where a literal was opened in front of it. -/
theorem gather_error {e : LexicalError} (h : gather opened position r cs = .error e) :
    (∃ i, e = .unsupportedEscape (position + i) ∧ EscapeFrom r cs i ∧ ∀ j < i, ¬ EscapeFrom r cs j) ∨
      (∀ i, ¬ EscapeFrom r cs i) ∧ ((∃ i, e = .unterminatedString (position + i) ∧ UnclosedFrom r cs i) ∨
        e = .unterminatedString opened ∧ ∀ i ≤ cs.length, (regionFrom r cs i).inLiteral = true) := by
  induction cs generalizing opened position r with
  | nil =>
    unfold gather at h
    split at h
    · rename_i inside
      cases h
      exact .inr ⟨no_escape_nil, .inr ⟨rfl, fun i _ => inside⟩⟩
    · cases h
  | cons c rest ih =>
    cases plain : beginsEscape r c rest.head? with
    | true =>
      simp only [gather, plain, if_true, Except.error.injEq] at h
      exact .inl ⟨0, h.symm, escape_zero.mpr plain, nofun⟩
    | false =>
      rw [gather_cons plain] at h
      rcases ih (map_error h) with ⟨i, rfl, escape, first⟩ | ⟨none, ⟨i, rfl, unclosed⟩ | ⟨rfl, inside⟩⟩
      · refine .inl ⟨i + 1, by rw [Nat.add_right_comm, Nat.add_assoc], escape, ?_⟩
        rintro (_ | j) before
        · exact fun h => absurd (plain.symm.trans (escape_zero.mp h)) nofun
        · exact first j (Nat.lt_of_succ_lt_succ before)
      · refine .inr ⟨no_escape_cons plain none, .inl ⟨i + 1, by rw [Nat.add_right_comm, Nat.add_assoc], ?_⟩⟩
        exact unclosed_succ unclosed
      · refine .inr ⟨no_escape_cons plain none, ?_⟩
        cases literal : r.inLiteral with
        | true => exact .inr ⟨rfl, literal_cons literal inside⟩
        | false =>
          -- The literal begins here.
          obtain ⟨rfl, quote⟩ := opens_literal literal (by simpa using inside 0 (Nat.zero_le _))
          refine .inl ⟨0, rfl, rfl, ⟨c, rfl, quote⟩, ?_⟩
          rintro (_ | i) behind bound
          · cases behind
          · exact inside i (Nat.le_of_succ_le_succ bound)

end Gather

theorem lexemes_kept {position : Nat} {cs : List Char} {ls : List Lexeme} (h : lexemesFrom position cs = .ok ls) :
    ls.flatMap Lexeme.text = kept cs := by
  have read := lexemes_gather position cs
  rw [h] at read
  exact (gather_ok read.symm).1

/-- A text is cut into lexemes unless it has a fault. -/
theorem not_fault_of_lexemes {cs : List Char} {ls : List Lexeme} (h : lexemes cs = .ok ls) (e : LexicalError) :
    ¬ Fault cs e := by
  have read := lexemes_gather 0 cs
  rw [show lexemesFrom 0 cs = .ok ls from h] at read
  obtain ⟨-, none, outside⟩ := gather_ok read.symm
  cases e with
  | unsupportedEscape p => exact fun fault => none p fault.1
  | unterminatedString p =>
    intro fault
    obtain ⟨⟨-, ⟨quote, inside, -⟩, literal⟩, -⟩ := fault
    obtain ⟨bound, -⟩ := List.getElem?_eq_some_iff.mp inside
    exact absurd (outside.symm.trans (literal _ bound (Nat.le_refl _))) nofun

theorem lexemes_error_iff {cs : List Char} {e : LexicalError} : lexemes cs = .error e ↔ Fault cs e := by
  have fault {e : LexicalError} (h : lexemes cs = .error e) : Fault cs e := by
    have read := lexemes_gather 0 cs
    rw [show lexemesFrom 0 cs = .error e from h] at read
    rcases gather_error read.symm with ⟨i, rfl, escape, first⟩ | ⟨none, ⟨i, rfl, unclosed⟩ | ⟨-, inside⟩⟩
    · rw [Nat.zero_add]
      exact ⟨escape, first⟩
    · rw [Nat.zero_add]
      exact ⟨unclosed, none⟩
    · exact absurd (inside 0 (Nat.zero_le _)) (by simp [Region.inLiteral])
  refine ⟨fault, fun h => ?_⟩
  rcases result : lexemes cs with e' | ls
  · rw [fault_unique (fault result) h]
  · exact absurd h (not_fault_of_lexemes result e)

end Groq.Query
