/-
  Groq.Proofs.Query.Layout — blanks and comments that may be put into a query.

  Layout is blanks and comments with the ends of their lines. Between two characters it changes nothing unless
  they belong to one literal, one comment or one run of word characters, or the first is a slash, with
  which it could make a comment (`AllowsLayout`).
  Proved: a query with layout put in there is cut into the same lexemes (`lexemes_layout`), so it has the same
  normal form and parses to the same tree (`normalize_layout`).
-/

import Groq.Proofs.Query.Idempotence
import Groq.Proofs.Query.Regions

namespace Groq.Query

/-! ## Layout -/

/-- Blanks, and comments that their lines end. -/
inductive Layout : List Char → Prop
  | nil : Layout []
  | blank {c : Char} {rest : List Char} : Text.isBlank c = true → Layout rest → Layout (c :: rest)
  | comment {text rest : List Char} : '\n' ∉ text → Layout rest → Layout ('/' :: '/' :: text ++ '\n' :: rest)

section Layout

variable {gap x : List Char} {position : Nat}

theorem line_split {text : List Char} (line : '\n' ∉ text) (x : List Char) :
    (text ++ '\n' :: x).dropWhile (· != '\n') = '\n' :: x := by
  have inside : ∀ c ∈ text, (c != '\n') = true := by
    intro c hc
    have ne : c ≠ '\n' := fun h => line (h ▸ hc)
    simpa using ne
  rw [List.dropWhile_append_of_pos inside]
  rfl

/-- Layout is left out. -/
theorem lexemes_behind_layout (h : Layout gap) {ls : List Lexeme} (cut : lexemesFrom position x = .ok ls) (position' : Nat) :
    lexemesFrom position' (gap ++ x) = .ok ls := by
  induction h generalizing position' with
  | nil => exact lexemesFrom_position cut _
  | @blank c rest blank _ ih =>
    rw [List.cons_append, lexemes_blank blank (isQuote_of_isBlank blank) (slash_of_isBlank blank)]
    exact ih _
  | @comment text rest line _ ih =>
    have behind : ('/' :: (text ++ '\n' :: (rest ++ x))).dropWhile (· != '\n') = '\n' :: (rest ++ x) :=
      line_split (by simpa using line : '\n' ∉ '/' :: text) _
    have cut : lexemesFrom position' ('/' :: '/' :: (text ++ '\n' :: (rest ++ x))) = .ok ls := by
      rw [lexemes_comment rfl, behind, lexemes_blank (by decide) (by decide) (by decide)]
      exact ih _
    simpa using cut

/-- From the end of its first line on, layout is layout. -/
theorem Layout.line (h : Layout gap) : Layout (gap.dropWhile (· != '\n')) := by
  induction h with
  | nil => exact .nil
  | @blank c rest blank layout ih =>
    by_cases line : c = '\n'
    · subst line
      exact .blank blank layout
    · rw [List.dropWhile_cons, if_pos (by simpa using line)]
      exact ih
  | @comment text rest line layout _ =>
    have behind : ('/' :: '/' :: text ++ '\n' :: rest).dropWhile (· != '\n') = '\n' :: rest :=
      line_split (by simpa using line) rest
    rw [behind]
    exact .blank (by decide) layout

/-- Layout begins neither a word nor anything but a comment. -/
theorem Layout.head (h : Layout gap) {c : Char} (begins : gap.head? = some c) : isWordChar c = false := by
  cases h with
  | nil => cases begins
  | blank blank _ =>
    cases begins
    exact isWordChar_of_isBlank blank
  | comment _ _ =>
    cases begins
    decide

end Layout

/-! ## Where it may stand -/

theorem regionFrom_append (r : Region) (skip cs : List Char) (n : Nat) :
    regionFrom r (skip ++ cs) (skip.length + n) = regionFrom (regionFrom r (skip ++ cs) skip.length) cs n := by
  induction skip generalizing r with
  | nil => simp
  | cons c skip ih =>
    rw [List.length_cons, Nat.add_right_comm]
    exact ih _

/-- The characters before and behind this position belong to one comment. -/
def InsideComment (r : Region) (cs : List Char) (p : Nat) : Prop :=
  regionFrom r cs p = .comment ∧ p < cs.length ∧ regionFrom r cs (p + 1) = .comment

/-- Layout may stand between the two parts of a text: in no literal, comment or run of word characters, and
    not behind a slash. -/
structure AllowsLayout (r : Region) (front behind : List Char) : Prop where
  literal : (regionFrom r (front ++ behind) front.length).inLiteral = false
  comment : ¬ InsideComment r (front ++ behind) front.length
  word : ¬ (front.getLast?.any isWordChar = true ∧ behind.head?.any isWordChar = true)
  slash : front.getLast? ≠ some '/'

section AllowsLayout

variable {r : Region} {skip front behind : List Char}

/-- A place in a text is such a place in the rest of it. -/
theorem AllowsLayout.drop (skip : List Char) (h : AllowsLayout r (skip ++ front) behind) :
    AllowsLayout (regionFrom r (skip ++ (front ++ behind)) skip.length) front behind := by
  obtain ⟨literal, comment, word, slash⟩ := h
  rw [List.append_assoc, List.length_append] at literal comment
  have last {p : Option Char → Prop} (none : p none) (h : p (skip ++ front).getLast?) : p front.getLast? := by
    rcases front with _ | ⟨c, front⟩
    · exact none
    · rwa [List.getLast?_append_of_ne_nil _ (List.cons_ne_nil _ _)] at h
  refine ⟨?_, ?_, ?_, last (p := fun c => c ≠ some '/') nofun slash⟩
  · rwa [regionFrom_append] at literal
  · unfold InsideComment at *
    rw [Nat.add_assoc, regionFrom_append, regionFrom_append, List.length_append] at comment
    exact fun inside => comment ⟨inside.1, by omega, inside.2.2⟩
  · exact last (p := fun c => ¬ (c.any isWordChar = true ∧ _)) nofun word

theorem AllowsLayout.tail {c : Char} (h : AllowsLayout r (c :: front) behind) :
    AllowsLayout (r.next c (front ++ behind).head?) front behind := by
  have rest := AllowsLayout.drop [c] h
  have next : regionFrom r ([c] ++ (front ++ behind)) [c].length = r.next c (front ++ behind).head? := regionFrom_zero _ _
  rwa [next] at rest

/-- Behind the end of its line a comment is code. -/
theorem AllowsLayout.line (h : AllowsLayout .comment ('\n' :: front) behind) : AllowsLayout .code ('\n' :: front) behind :=
  ⟨h.literal, h.comment, h.word, h.slash⟩

theorem allowsLayout_nil : AllowsLayout .code [] behind :=
  ⟨by simp [Region.inLiteral], by simp [InsideComment], by simp, by simp⟩

end AllowsLayout

section Regions

variable {front behind : List Char}

theorem region_run {word : List Char} (run : ∀ c ∈ word, isWordChar c = true) (x : List Char) :
    regionFrom .code (word ++ x) word.length = .code := by
  induction word with
  | nil => exact regionFrom_zero _ _
  | cons c word ih =>
    obtain ⟨hc, run⟩ := List.forall_mem_cons.mp run
    have next (ahead : Option Char) : Region.code.next c ahead = .code :=
      next_plain (isQuote_of_isWordChar hc) fun h => slash_of_isWordChar hc h.1
    rw [List.cons_append, List.length_cons, regionFrom, next]
    exact ih run

theorem region_line {text : List Char} (line : ∀ c ∈ text, (c != '\n') = true) (x : List Char) :
    regionFrom .comment (text ++ x) text.length = .comment := by
  induction text with
  | nil => exact regionFrom_zero _ _
  | cons c text ih =>
    obtain ⟨hc, line⟩ := List.forall_mem_cons.mp line
    have next (ahead : Option Char) : Region.comment.next c ahead = .comment := if_neg (by simpa using hc)
    rw [List.cons_append, List.length_cons, regionFrom, next]
    exact ih line

/-- Up to its closing quote the reader is in the literal that the lexer takes. -/
theorem region_literal {quote : Char} {opened position : Nat} {done cs text after : List Char}
    (h : takeLiteral quote opened position done cs = .ok (text, after)) :
    ∃ body, text = done.reverse ++ body ∧ cs = body ++ after ∧ regionFrom (.literal quote) cs body.length = .code ∧
      ∀ i < body.length, (regionFrom (.literal quote) cs i).inLiteral = true := by
  fun_induction takeLiteral quote opened position done cs with
  | case1 => cases h
  | case2 => cases h
  | case3 => cases h
  | case4 position done c rest plain ih =>
    obtain ⟨body, rfl, rfl, code, inside⟩ := ih h
    refine ⟨'\\' :: c :: body, by simp, rfl, code, ?_⟩
    rintro (_ | _ | i) less
    · rfl
    · simp [regionFrom, Region.next, Region.inLiteral]
    · exact inside i (by simpa using less)
  | case5 position done rest plain =>
    cases h
    have closed (ahead : Option Char) : (Region.literal quote).next quote ahead = .code := (if_neg plain).trans (if_pos rfl)
    refine ⟨[quote], by simp, rfl, ?_, ?_⟩
    · simp [regionFrom, closed]
    · rintro (_ | i) less
      · rfl
      · simp at less
  | case6 position done c rest plain other ih =>
    obtain ⟨body, rfl, rfl, code, inside⟩ := ih h
    have stays (ahead : Option Char) : (Region.literal quote).next c ahead = .literal quote :=
      (if_neg plain).trans (if_neg other)
    refine ⟨c :: body, by simp, rfl, ?_, ?_⟩
    · rw [List.length_cons, regionFrom, stays]
      exact code
    · rintro (_ | i) less
      · rfl
      · rw [regionFrom, stays]
        exact inside i (by simpa using less)

end Regions

/-! ## Cutting -/

section Cutting

variable {c : Char} {front gap behind : List Char} {ls : List Lexeme} {position : Nat}

/-- The lexer cuts something off `front` that it cuts off as well where there is layout behind `front`. -/
def CutsOff (behind : List Char) (position : Nat) (front : List Char) (ls : List Lexeme) : Prop :=
  ∃ skip front' more position', front = skip ++ front' ∧ skip ≠ [] ∧ AllowsLayout .code front' behind ∧
    lexemesFrom position' (front' ++ behind) = .ok more ∧
    ∀ gap, Layout gap → lexemesFrom position' (front' ++ (gap ++ behind)) = .ok more →
      lexemesFrom position (front ++ (gap ++ behind)) = .ok ls

theorem cutsOff_literal (quote : isQuote c = true) (allowed : AllowsLayout .code (c :: front) behind)
    (cut : lexemesFrom position (c :: (front ++ behind)) = .ok ls) : CutsOff behind position (c :: front) ls := by
  obtain ⟨text, after, hl⟩ : ∃ text after,
      takeLiteral c position (position + 1) [c] (front ++ behind) = .ok (text, after) := by
    rcases hl : takeLiteral c position (position + 1) [c] (front ++ behind) with e | ⟨text, after⟩
    · have read : gather position position .code (c :: (front ++ behind)) = _ := gather_open quote
      rw [gather_unclosed hl, ← lexemes_gather, cut] at read
      cases read
    · exact ⟨text, after, rfl⟩
  obtain ⟨more, hmore, rfl⟩ := map_ok ((lexemes_literal quote hl).symm.trans cut)
  obtain ⟨body, rfl, split, code, inside⟩ := region_literal hl
  obtain ⟨body', same, again⟩ := takeLiteral_front hl
  cases List.append_cancel_left same
  have next (ahead : Option Char) : Region.code.next c ahead = .literal c := if_pos quote
  have allowed := allowed.tail
  rw [next] at allowed
  -- Layout may not stand in the literal, so the literal ends in `front`.
  obtain ⟨front', rfl, rfl⟩ : ∃ front', front = body ++ front' ∧ after = front' ++ behind := by
    rcases List.append_eq_append_iff.mp split with ⟨rest, rfl, rfl⟩ | within
    · rcases rest with _ | ⟨d, rest⟩
      · exact ⟨[], by simp, rfl⟩
      · have literal := inside front.length (by simp)
        rw [allowed.literal] at literal
        cases literal
    · exact within
  have allowed := allowed.drop body
  rw [← List.append_assoc, code] at allowed
  refine ⟨c :: body, front', more, _, rfl, List.cons_ne_nil _ _, allowed, hmore, fun gap _ h => ?_⟩
  rw [List.cons_append, List.append_assoc, lexemes_literal quote (takeLiteral_position (again _) _ _), h]
  rfl

/-- A run of word characters ends where layout may stand. -/
theorem cutsOff_run {lexeme : List Char → Lexeme} (word : isWordChar c = true)
    (cuts : ∀ x, lexemesFrom position (c :: x) =
      (lexemesFrom (position + (x.takeWhile isWordChar).length + 1) (x.dropWhile isWordChar)).map
        (lexeme (c :: x.takeWhile isWordChar) :: ·))
    (allowed : AllowsLayout .code (c :: front) behind)
    (cut : lexemesFrom position (c :: (front ++ behind)) = .ok ls) : CutsOff behind position (c :: front) ls := by
  have run : ∀ d ∈ c :: front.takeWhile isWordChar, isWordChar d = true :=
    List.forall_mem_cons.mpr ⟨word, fun d hd => List.all_eq_true.mp List.all_takeWhile d hd⟩
  have whole : c :: front = c :: front.takeWhile isWordChar ++ front.dropWhile isWordChar := by
    rw [List.cons_append, List.takeWhile_append_dropWhile]
  have stops (all : front.dropWhile isWordChar = []) : ∀ d rest, behind = d :: rest → isWordChar d = false := by
    rintro d rest rfl
    rw [Bool.eq_false_iff]
    intro goesOn
    refine allowed.word ⟨?_, goesOn⟩
    rw [all, List.append_nil] at whole
    rw [List.getLast?_eq_getLast_of_ne_nil (List.cons_ne_nil _ _)]
    exact run _ (whole ▸ List.getLast_mem _)
  have stopsGap {gap : List Char} (layout : Layout gap) (all : front.dropWhile isWordChar = []) :
      ∀ d rest, gap ++ behind = d :: rest → isWordChar d = false := by
    intro d rest begins
    rcases gap with _ | ⟨e, gap⟩
    · exact stops all d rest begins
    · cases begins
      exact layout.head rfl
  obtain ⟨taken, left⟩ := takeWhile_append_of_stop stops
  rw [cuts, taken, left] at cut
  obtain ⟨more, hmore, rfl⟩ := map_ok cut
  have rest : AllowsLayout .code (front.dropWhile isWordChar) behind := by
    rw [whole] at allowed
    have rest := allowed.drop
    rwa [region_run run] at rest
  refine ⟨c :: front.takeWhile isWordChar, front.dropWhile isWordChar, more, _, whole, List.cons_ne_nil _ _, rest, hmore,
    ?_⟩
  intro gap layout h
  obtain ⟨takenGap, leftGap⟩ := takeWhile_append_of_stop (stopsGap layout)
  rw [List.cons_append, cuts, takenGap, leftGap, h]
  rfl

theorem cutsOff_blank (blank : Text.isBlank c = true) (allowed : AllowsLayout .code (c :: front) behind)
    (cut : lexemesFrom position (c :: (front ++ behind)) = .ok ls) : CutsOff behind position (c :: front) ls := by
  have skips (x : List Char) : lexemesFrom position (c :: x) = lexemesFrom (position + 1) x :=
    lexemes_blank blank (isQuote_of_isBlank blank) (slash_of_isBlank blank)
  have next (ahead : Option Char) : Region.code.next c ahead = .code :=
    next_plain (isQuote_of_isBlank blank) fun h => slash_of_isBlank blank h.1
  refine ⟨[c], front, ls, position + 1, rfl, List.cons_ne_nil _ _, next _ ▸ allowed.tail, (skips _).symm.trans cut, ?_⟩
  exact fun gap _ h => (skips _).trans h

theorem cutsOff_mark (mark : isMark c = true) (comment : c = '/' → (front ++ behind).head? ≠ some '/')
    (allowed : AllowsLayout .code (c :: front) behind) (cut : lexemesFrom position (c :: (front ++ behind)) = .ok ls) :
    CutsOff behind position (c :: front) ls := by
  have quote : isQuote c = false := by
    simp only [isMark, Bool.and_eq_true, Bool.not_eq_true'] at mark
    exact mark.1.1.1
  obtain ⟨more, hmore, rfl⟩ := map_ok ((lexemes_mark mark comment).symm.trans cut)
  have next : Region.code.next c (front ++ behind).head? = .code := next_plain quote fun h => comment h.1 h.2
  refine ⟨[c], front, more, position + 1, rfl, List.cons_ne_nil _ _, next ▸ allowed.tail, hmore, fun gap _ h => ?_⟩
  have comment : c = '/' → (front ++ (gap ++ behind)).head? ≠ some '/' := by
    rintro rfl
    rcases front with _ | ⟨d, front⟩
    · exact absurd rfl allowed.slash
    · exact comment rfl
  rw [List.cons_append, lexemes_mark mark comment, h]
  rfl

/-- At the end of a comment layout may go on with the comment, and begins at the first end of a line at the latest. -/
theorem lexemes_behind_comment (layout : Layout gap) (line : behind.dropWhile (· != '\n') = behind)
    (cut : lexemesFrom position behind = .ok ls) (position' : Nat) :
    lexemesFrom position' ((gap ++ behind).dropWhile (· != '\n')) = .ok ls := by
  by_cases onLine : gap.dropWhile (· != '\n') = []
  · rw [List.dropWhile_append, onLine, line]
    exact lexemesFrom_position cut _
  · have left : (gap ++ behind).dropWhile (· != '\n') = gap.dropWhile (· != '\n') ++ behind :=
      (takeWhile_append_of_stop fun h => absurd h onLine).2
    rw [left]
    exact lexemes_behind_layout layout.line cut _

theorem cutsOff_comment (ahead : (front ++ behind).head? = some '/') (allowed : AllowsLayout .code ('/' :: front) behind)
    (cut : lexemesFrom position ('/' :: (front ++ behind)) = .ok ls) : CutsOff behind position ('/' :: front) ls := by
  have slash (x : List Char) : (front ++ x).head? = some '/' := by
    rcases front with _ | ⟨d, front⟩
    · exact absurd rfl allowed.slash
    · exact ahead
  have next : Region.code.next '/' (front ++ behind).head? = .comment := by rw [ahead]; rfl
  have inComment := allowed.tail
  rw [next] at inComment
  rw [lexemes_comment ahead] at cut
  by_cases closed : front.dropWhile (· != '\n') = []
  · -- The comment goes on to the end of `front`, and so ends there.
    have whole : front.takeWhile (· != '\n') = front := by
      simpa [closed] using List.takeWhile_append_dropWhile (p := (· != '\n')) (l := front)
    have all : ∀ c ∈ front, (c != '\n') = true := List.all_eq_true.mp (whole ▸ List.all_takeWhile)
    have rest (x : List Char) : (front ++ x).dropWhile (· != '\n') = x.dropWhile (· != '\n') :=
      List.dropWhile_append_of_pos all
    have line : behind.dropWhile (· != '\n') = behind := by
      rcases behind with _ | ⟨c, behind⟩
      · rfl
      · refine List.dropWhile_cons_of_neg fun goesOn => inComment.comment ⟨region_line all _, by simp, ?_⟩
        rw [regionFrom_append, region_line all]
        exact (regionFrom_zero _ _).trans (if_neg (by simpa using goesOn))
    rw [rest, line] at cut
    refine ⟨'/' :: front, [], ls, _, by simp, List.cons_ne_nil _ _, allowsLayout_nil, cut, fun gap layout _ => ?_⟩
    rw [List.cons_append, lexemes_comment (slash _), rest]
    exact lexemes_behind_comment layout line cut _
  · have both (x : List Char) : (front ++ x).takeWhile (· != '\n') = front.takeWhile (· != '\n') ∧
        (front ++ x).dropWhile (· != '\n') = front.dropWhile (· != '\n') ++ x :=
      takeWhile_append_of_stop fun h => absurd h closed
    have line : ∀ c ∈ front.takeWhile (· != '\n'), (c != '\n') = true := List.all_eq_true.mp List.all_takeWhile
    have rest : AllowsLayout .code (front.dropWhile (· != '\n')) behind := by
      rw [← List.takeWhile_append_dropWhile (p := (· != '\n')) (l := front)] at inComment
      have rest := inComment.drop
      rw [region_line line] at rest
      have ends := List.head?_dropWhile_not (· != '\n') front
      rcases split : front.dropWhile (· != '\n') with _ | ⟨c, front'⟩
      · exact absurd split closed
      · rw [split] at ends rest
        obtain rfl : c = '\n' := by simpa using ends
        exact rest.line
    rw [(both _).2] at cut
    refine ⟨'/' :: front.takeWhile (· != '\n'), front.dropWhile (· != '\n'), ls, _, ?_, List.cons_ne_nil _ _, rest, cut,
      ?_⟩
    · rw [List.cons_append, List.takeWhile_append_dropWhile]
    · intro gap _ h
      rw [List.cons_append, lexemes_comment (slash _), (both _).2]
      exact lexemesFrom_position h _

theorem cutsOff_cons (allowed : AllowsLayout .code (c :: front) behind)
    (cut : lexemesFrom position (c :: (front ++ behind)) = .ok ls) : CutsOff behind position (c :: front) ls := by
  cases quote : isQuote c with
  | true => exact cutsOff_literal quote allowed cut
  | false =>
  by_cases comment : c = '/' ∧ (front ++ behind).head? = some '/'
  · obtain ⟨rfl, ahead⟩ := comment
    exact cutsOff_comment ahead allowed cut
  cases blank : Text.isBlank c with
  | true => exact cutsOff_blank blank allowed cut
  | false =>
  cases begins : beginsWord c with
  | true =>
    have word := isWordChar_of_beginsWord begins
    exact cutsOff_run word (fun _ => lexemes_word quote (slash_of_isWordChar word) blank begins) allowed cut
  | false =>
  cases digit : c.isDigit with
  | true =>
    have word := isWordChar_of_isNameChar (isNameChar_of_isDigit digit)
    exact cutsOff_run word (fun _ => lexemes_number quote (slash_of_isWordChar word) blank begins digit) allowed cut
  | false =>
    have mark : isMark c = true := by simp [isMark, quote, blank, begins, digit]
    exact cutsOff_mark mark (fun slash ahead => comment ⟨slash, ahead⟩) allowed cut

end Cutting

/-! ## Whole queries -/

/-- By induction on the length of `front`, which gets shorter with everything that is cut off. -/
theorem lexemesFrom_layout {front gap behind : List Char} {ls : List Lexeme} {position : Nat} (layout : Layout gap)
    (allowed : AllowsLayout .code front behind) (cut : lexemesFrom position (front ++ behind) = .ok ls) :
    lexemesFrom position (front ++ (gap ++ behind)) = .ok ls := by
  generalize size : front.length = n
  induction n using Nat.strongRecOn generalizing front ls position with
  | ind n ih =>
    rcases front with _ | ⟨c, front⟩
    · exact lexemes_behind_layout layout cut position
    · obtain ⟨skip, front', more, position', split, ne, rest, cut', same⟩ := cutsOff_cons allowed cut
      have shorter : front'.length < n := by
        have := List.length_pos_iff.mpr ne
        rw [← size, split, List.length_append]
        omega
      exact same gap layout (ih _ shorter rest cut' rfl)

section Queries

variable {front gap behind : String}

/-- Layout where it may stand changes no lexeme. -/
theorem lexemes_layout {ls : List Lexeme} (layout : Layout gap.toList)
    (allowed : AllowsLayout .code front.toList behind.toList) (cut : lexemes (front ++ behind).toList = .ok ls) :
    lexemes (front ++ gap ++ behind).toList = .ok ls := by
  rw [String.toList_append] at cut
  rw [String.toList_append, String.toList_append, List.append_assoc]
  exact lexemesFrom_layout layout allowed cut

/-- Layout is put into a query with a normal form, where it may stand: the normal form stays, and so does what the
    query parses to. -/
theorem normalize_layout (front gap behind n : String) (layout : Layout gap.toList)
    (allowed : AllowsLayout .code front.toList behind.toList) (normal : normalize (front ++ behind) = .ok n) :
    normalize (front ++ gap ++ behind) = .ok n ∧
      ∀ limits, parse limits (front ++ gap ++ behind) = parse limits (front ++ behind) := by
  obtain ⟨text, htext, -⟩ := map_ok normal
  obtain ⟨ls, cut, -⟩ := map_ok htext
  have same := lexemes_layout layout allowed cut
  refine ⟨?_, fun limits => ?_⟩
  · rw [normalize_of_lexemes same, ← normalize_of_lexemes cut, normal]
  · unfold parse normalizeChars
    rw [same, cut]

set_option maxRecDepth 4000 in
/-- A comment behind an operator word. -/
theorem normalize_layout_comment : Layout " // a\n".toList ∧ AllowsLayout .code "x in".toList "'b'".toList ∧
    normalize "x in'b'" = .ok "x in 'b'" ∧ normalize "x in // a\n'b'" = .ok "x in 'b'" := by
  have layout : Layout " // a\n".toList := .blank (by decide) (.comment (by decide : '\n' ∉ " a".toList) .nil)
  have allowed : AllowsLayout .code "x in".toList "'b'".toList :=
    ⟨by decide, fun h => absurd h.1 (by decide), by decide, by decide⟩
  have cut : lexemes "x in'b'".toList = .ok [.word ['x'], .word ['i', 'n'], .literal ['\'', 'b', '\'']] := by cbv
  have normal : normalize "x in'b'" = .ok "x in 'b'" := (normalize_of_lexemes cut).trans rfl
  exact ⟨layout, allowed, normal, (normalize_layout "x in" " // a\n" "'b'" _ layout allowed normal).1⟩

end Queries

end Groq.Query
