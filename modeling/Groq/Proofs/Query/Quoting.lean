/-
  Groq.Proofs.Query.Quoting — every string as a literal.

  A string is written between quotes with a backslash before each backslash and each of these quotes.
  Five readers go over such a text, each with a state of its own for escapes: the one that cuts lexemes,
  the one that looks for the surface, the ones that look for a closing bracket and for the end of a literal,
  and the one that takes the escapes away. They agree on where the literal ends, whatever stands in it.
  A literal may be of any length, so the depth its parse takes cannot be bounded by the length of the text.
  But there is no operator to try in it, so a level passes it on, at one unit of depth (`level_of_operand`).
  Proved: a string written like this is a query that is this string, in square brackets it names an
  attribute, and before a colon it is a key (`parse_quoted`).
-/

import Groq.Proofs.Query.Brackets

namespace Groq.Query

/-! ## Texts without operators -/

/-- May an operator begin with this character? -/
def beginsOperator (c : Char) : Bool :=
  c = '|' || c = '&' || c = '=' || c = '!' || c = '<' || c = '>' || c = ' ' || c = '+' || c = '-' || c = '*' ||
    c = '/' || c = '%'

theorem beginsOperator_text (op : Operator) : op.text.head?.any beginsOperator = true := by
  rcases op with _ | _ | _ | op
  · rfl
  · rfl
  · rfl
  · cases op <;> rfl

/-- Brackets match and no operator begins outside them, wherever the text begins. -/
def Unsplit (cs : List Char) : Prop := ∀ offset before, ∃ places,
  surfaceFrom Scan.start offset before cs = some places ∧ ∀ p ∈ places, p.rest.head?.any beginsOperator = false

theorem unsplit_nil : Unsplit [] := fun _ _ => ⟨[], rfl, nofun⟩

theorem Unsplit.cons {c : Char} {cs : List Char} (plain : isPlain c = true) (mark : beginsOperator c = false)
    (h : Unsplit cs) : Unsplit (c :: cs) := by
  intro offset before
  obtain ⟨places, surface, none⟩ := h (offset + 1) (some c)
  refine ⟨⟨offset, before, c :: cs⟩ :: places, ?_, List.forall_mem_cons.mpr ⟨mark, none⟩⟩
  rw [surfaceFrom_plain plain, surface]
  rfl

theorem unsplit_brackets {c d : Char} {cs : List Char} (hd : closerOf? c = some d) (h : Balanced cs) :
    Unsplit (c :: (cs ++ [d])) := by
  intro offset before
  have marks : beginsOperator c = false ∧ beginsOperator d = false := by
    unfold closerOf? at hd
    split at hd
    all_goals cases hd
    all_goals decide
  refine ⟨_, surfaceFrom_brackets hd h offset before, ?_⟩
  exact List.forall_mem_cons.mpr ⟨marks.1, List.forall_mem_singleton.mpr marks.2⟩

theorem unsplit_literal {w : List Char} (h : literalLength? w = some w.length) : Unsplit w :=
  fun offset before => ⟨[], surfaceFrom_whole h offset before, nofun⟩

theorem splitPoints_eq_nil {places : List Place} (h : ∀ p ∈ places, p.rest.head?.any beginsOperator = false) (l : Level) :
    l.splitPoints places = [] := by
  have nothing {p : Place} (hp : p ∈ places) {op : Operator} {rest : List Char} : operatorAt? p.rest ≠ some (op, rest) := by
    intro ho
    have none := h p hp
    have begins := beginsOperator_text op
    obtain ⟨c, more, hc⟩ := List.exists_cons_of_ne_nil op.text_ne_nil
    rw [(operatorAt_eq_some.mp ho).1, hc] at none
    rw [hc] at begins
    exact absurd (begins.symm.trans none) nofun
  refine List.eq_nil_iff_forall_not_mem.mpr fun a ha => ?_
  rcases mem_splitPoints ha with ⟨p, -, -, hp, pipe⟩ | ⟨r, p, found, -, hr, hp, hfound⟩
  · exact nothing hp (pipe_operator pipe)
  · exact nothing hp (find_operator hr hfound).1

/-! ### Depth -/

section Depth

variable {constant? : Expr → Option Value} {depth : Nat} {l : Level} {s r : Span} {e : Expr}

theorem remembered_eq (l : Level) (s : Span) (x : OptionT (Except Exhausted) Expr) : remembered l s x = x :=
  OptionT.ext (remembered_plain l s x)

/-- A level without operators takes one unit of depth. -/
theorem level_passes (ne : s.chars ≠ []) (unsigned : Unsigned s.chars) (unsplit : Unsplit s.chars) (operand : l ≠ .operand) :
    (level constant? (depth + 1) l s : OptionT (Except Exhausted) Expr) = level constant? depth l.tighter s := by
  obtain ⟨places, surface, none⟩ := unsplit 0 none
  rw [level, if_neg ne, remembered_eq]
  by_cases sign : l = .sign
  · subst sign
    exact signLevel_unsigned _ unsigned
  · exact rule_unsplit _ _ sign operand surface (splitPoints_eq_nil none l)

/-- So does each tighter one, down to the operand. -/
theorem level_descends (ne : s.chars ≠ []) (unsigned : Unsigned s.chars) (unsplit : Unsplit s.chars) :
    (level constant? (depth + l.rank) l s : OptionT (Except Exhausted) Expr) = level constant? depth .operand s := by
  have steps : ∀ (n : Nat) (l : Level), l.rank = n →
      (level constant? (depth + n) l s : OptionT (Except Exhausted) Expr) = level constant? depth .operand s := by
    intro n
    induction n with
    | zero =>
      intro l hl
      rw [Level.eq_of_rank (show l.rank = Level.operand.rank from hl)]
      rfl
    | succ n ih =>
      intro l hl
      have operand : l ≠ .operand := by
        rintro rfl
        cases hl
      have hsucc := Level.rank_succ operand
      rw [← Nat.add_assoc, level_passes ne unsigned unsplit operand]
      exact ih l.tighter (by omega)
  exact steps l.rank l rfl

theorem level_of_operand (ne : s.chars ≠ []) (unsigned : Unsigned s.chars) (unsplit : Unsplit s.chars)
    (found : (operand (level constant? depth) s : OptionT (Except Exhausted) _) = pure (e, r)) :
    (level constant? (depth + 1 + l.rank) l s : OptionT (Except Exhausted) Expr) = follow constant? depth e r := by
  rw [level_descends ne unsigned unsplit, level, if_neg ne, remembered_eq]
  show operandLevel _ _ s = _
  rw [operandLevel_unsigned _ _ unsigned, found, pure_bind]

theorem follow_nil (none : s.chars = []) : (follow constant? depth e s : OptionT (Except Exhausted) Expr) = pure e := by
  cases depth with
  | zero => rw [follow, if_pos none]
  | succ depth => rw [follow, if_pos none]

/-- The last of the traversals behind an operand. -/
theorem follow_last {base : Expr} (ne : s.chars ≠ [])
    (found : (traversal constant? (level constant? depth) base s : OptionT (Except Exhausted) _) = pure (e, r))
    (none : r.chars = []) : (follow constant? (depth + 1) base s : OptionT (Except Exhausted) Expr) = pure e := by
  rw [follow, if_neg ne, found, pure_bind]
  dsimp only
  rw [follow_nil none]
  rfl

end Depth

/-! ## Literals -/

/-- A literal as a whole, and the text it stands for. -/
structure IsLiteral (w : List Char) (text : String) : Prop where
  whole : literalLength? w = some w.length
  value : literalText? w = some text

namespace IsLiteral

variable {w v : List Char} {text : String} (h : IsLiteral w text) {s : Span}

include h

theorem begins : ∃ quote rest, w = quote :: rest ∧ (quote = '"' ∨ quote = '\'') := by
  have whole := h.whole
  rcases w with _ | ⟨c, cs⟩
  · cases whole
  · simp only [literalLength?] at whole
    split at whole
    · exact ⟨c, cs, rfl, ‹_›⟩
    · cases whole

theorem ne_nil : w ≠ [] := by
  obtain ⟨quote, rest, rfl, -⟩ := h.begins
  exact List.cons_ne_nil _ _

theorem unsigned : Unsigned w := by
  obtain ⟨quote, rest, rfl, hq⟩ := h.begins
  rcases hq with rfl | rfl
  · exact unsigned_cons (by decide) rest
  · exact unsigned_cons (by decide) rest

theorem surface : surface? w = some [] := surfaceFrom_whole h.whole 0 none

theorem balanced : Balanced w := (flat_literal h.whole).balanced

theorem operand_eq {m : Type → Type} [Monad m] [LawfulMonad m] (parse : Parse m) (hs : s.chars = w) :
    operand parse s = pure (.literal (.string text), s.tail w.length) := by
  obtain ⟨quote, rest, rfl, hq⟩ := h.begins
  unfold operand
  simp only [hs, h.whole, h.value, List.take_length, require_pure, pure_bind]
  exact if_pos hq

/-- A literal is the string at every level, whatever its length. -/
theorem level_eq {constant? : Expr → Option Value} {depth : Nat} {l : Level} (hs : s.chars = w) :
    (level constant? (depth + 1 + l.rank) l s : OptionT (Except Exhausted) Expr) = pure (.literal (.string text)) := by
  have ne : s.chars ≠ [] := hs ▸ h.ne_nil
  have unsigned : Unsigned s.chars := hs ▸ h.unsigned
  have unsplit : Unsplit s.chars := hs ▸ unsplit_literal h.whole
  rw [level_of_operand ne unsigned unsplit (h.operand_eq _ hs)]
  refine follow_nil ?_
  show s.chars.drop w.length = []
  rw [hs, List.drop_length]

/-- In square brackets it names an attribute. -/
theorem traversal_eq {constant? : Expr → Option Value} (constant : ∀ v, constant? (.literal v) = some v) (depth : Nat)
    (base : Expr) (hs : s.chars = '[' :: (w ++ ']' :: v)) : ∃ r : Span,
      (traversal constant? (level constant? (depth + 9)) base s : OptionT (Except Exhausted) _) =
        pure (.field base text, r) ∧ r.chars = v := by
  obtain ⟨i, r, enclosed, hi, hr⟩ := enclosed_of_balanced rfl h.balanced hs
  have inner : (level constant? (depth + 9) .pipe i : OptionT (Except Exhausted) Expr) =
      pure (.literal (.string text)) := h.level_eq (l := .pipe) hi
  have ne : i.chars ≠ [] := hi ▸ h.ne_nil
  have range : rangeMark? i = none := by
    unfold rangeMark?
    rw [hi, h.surface]
    rfl
  refine ⟨r, ?_, hr⟩
  unfold traversal
  rw [hs]
  show require s.enclosed? >>= _ = _
  rw [enclosed, require_pure, pure_bind]
  unfold bracket
  simp only [if_neg ne, range, inner, pure_bind, constant]

/-- Before a colon it is a key. -/
theorem objectAttribute_eq {m : Type → Type} [Monad m] [LawfulMonad m] {parse : Parse m} {value : Expr}
    (hs : s.chars = w ++ ':' :: v) (balanced : Balanced v) (single : v.head? ≠ some ':')
    (hv : ∀ t : Span, t.chars = v → parse .pipe t = pure value) :
    objectAttribute parse s = pure (.named text value) := by
  obtain ⟨quote, rest, rfl, hq⟩ := h.begins
  have splat : isSplat s = false := by
    unfold isSplat
    rw [hs]
    rcases hq with rfl | rfl <;> rfl
  have colon : keyColon? s = some (quote :: rest).length := by
    obtain ⟨places, behind⟩ := Option.isSome_iff_exists.mp
      (surfaceFrom_isSome balanced : (surfaceFrom Scan.start (0 + (quote :: rest).length + 1) (some ':') v).isSome)
    have other : quote ≠ ':' := by
      rcases hq with rfl | rfl <;> decide
    unfold keyColon? surface?
    rw [hs, surfaceFrom_literal h.whole, surfaceFrom_plain rfl, behind]
    simp [Place.startsWith, Place.isDoubled, single, other]
  have key : s.chars.take (quote :: rest).length = quote :: rest := by
    rw [hs, List.take_left]
  have behind : (s.tail ((quote :: rest).length + 1)).chars = v := by
    simp [Span.tail, hs, ← List.drop_drop]
  unfold objectAttribute
  simp only [splat, colon, key, h.whole, h.value, hv _ behind, require_pure]
  simp

end IsLiteral

/-! ## Writing -/

/-- A text inside a literal: a backslash before each backslash and each of the quotes that enclose it. -/
def escaped (quote : Char) : List Char → List Char
  | [] => []
  | c :: rest => if c = '\\' ∨ c = quote then '\\' :: c :: escaped quote rest else c :: escaped quote rest

/-- The literal of a string, between these quotes. -/
def quoted (quote : Char) (text : String) : List Char := quote :: (escaped quote text.toList ++ [quote])

section Escapes

variable {quote : Char} {cs x : List Char}

theorem quote_cases (hq : isQuote quote = true) : quote = '"' ∨ quote = '\'' := by
  simpa [isQuote] using hq

variable (hq : isQuote quote = true)

include hq

theorem ne_of_isQuote {c : Char} (hc : isQuote c = false) : quote ≠ c := by
  rintro rfl
  exact absurd (hq.symm.trans hc) nofun

theorem escapeValue_self {c : Char} (hc : c = '\\' ∨ c = quote) : escapeValue? c = some c := by
  rcases hc with rfl | rfl
  · rfl
  · rcases quote_cases hq with rfl | rfl <;> rfl

/-- The escapes written are none that cutting refuses. -/
theorem takeLiteral_escaped (opened position : Nat) (done : List Char) :
    takeLiteral quote opened position done (escaped quote cs ++ quote :: x) =
      .ok (done.reverse ++ (escaped quote cs ++ [quote]), x) := by
  have slash : quote ≠ '\\' := ne_of_isQuote hq rfl
  induction cs generalizing position done with
  | nil => simp [escaped, takeLiteral]
  | cons c cs ih =>
    by_cases hc : c = '\\' ∨ c = quote
    · have letter : c ≠ 'u' := by
        rcases hc with rfl | rfl
        · decide
        · exact ne_of_isQuote hq rfl
      simp [escaped, hc, takeLiteral, letter, ih]
    · obtain ⟨plain, other⟩ := not_or.mp hc
      simp [escaped, plain, other, takeLiteral, ih]

theorem literalRest_escaped : literalRest? quote (escaped quote cs ++ quote :: x) = some ((escaped quote cs).length + 1) := by
  have slash : quote ≠ '\\' := ne_of_isQuote hq rfl
  induction cs with
  | nil => simp [escaped, literalRest?]
  | cons c cs ih =>
    by_cases hc : c = '\\' ∨ c = quote
    · simp [escaped, hc, literalRest?, ih]
    · obtain ⟨plain, other⟩ := not_or.mp hc
      simp [escaped, plain, other, literalRest?, ih]

theorem unescape_escaped : unescape? (escaped quote cs) = some cs := by
  induction cs with
  | nil => rfl
  | cons c cs ih =>
    by_cases hc : c = '\\' ∨ c = quote
    · simp [escaped, hc, unescape?, escapeValue_self hq hc, ih]
    · obtain ⟨plain, other⟩ := not_or.mp hc
      simp [escaped, plain, other, unescape?, ih]

theorem isLiteral_quoted (text : String) : IsLiteral (quoted quote text) text where
  whole := by simp [quoted, literalLength?, quote_cases hq, literalRest_escaped hq]
  value := by simp [quoted, literalText?, unescape_escaped hq]

theorem writes_quoted (text : String) : Writes (quoted quote text) (quoted quote text) := by
  have taken : takeLiteral quote 0 1 [quote] (escaped quote text.toList ++ [quote]) = .ok (quoted quote text, []) :=
    takeLiteral_escaped hq _ _ _
  have cut : lexemesFrom 0 (quoted quote text) = .ok [.literal (quoted quote text)] := by
    rw [quoted, lexemes_literal hq taken, lexemesFrom]
    rfl
  exact writes_literal (isLiteral_quoted hq text).whole cut

end Escapes

/-! ## Queries -/

section Queries

variable {constant? : Expr → Option Value} {depth : Nat} {l : Level} {s : Span} {w : List Char} {text : String}

theorem level_one (hs : s.chars = ['1']) :
    (level constant? (depth + 1 + l.rank) l s : OptionT (Except Exhausted) Expr) = pure (.literal (.number 1)) := by
  obtain ⟨start, chars⟩ := s
  cases hs
  have unsplit : Unsplit ['1'] := unsplit_nil.cons (by decide) (by decide)
  have found : (operand (level constant? depth) ⟨start, ['1']⟩ : OptionT (Except Exhausted) _) =
      pure (.literal (.number 1), ⟨start + 1, []⟩) := rfl
  rw [level_of_operand (List.cons_ne_nil _ _) (unsigned_cons (by decide) _) unsplit found]
  exact follow_nil rfl

theorem objectBody_single {m : Type → Type} [Monad m] [LawfulMonad m] {parse : Parse m} {a : Attribute} (ne : s.chars ≠ [])
    (flat : Flat s.chars) (item : ∀ t : Span, t.chars = s.chars → objectAttribute parse t = pure a) :
    objectBody parse s = pure (.object [a]) := by
  have listed : s.chars = listText [s.chars] false := by simp [listText]
  obtain ⟨-, items, hitems, each⟩ :=
    items_untrailed (List.forall_mem_singleton.mpr flat) (List.cons_ne_nil _ _) (by simpa using Ne.symm ne) listed
  obtain ⟨t, others, rfl, ht, hothers⟩ := List.map_eq_cons_iff.mp each
  obtain rfl := List.map_eq_nil_iff.mp hothers
  unfold objectBody
  simp [hitems, require_pure, item t ht]

variable (h : IsLiteral w text)

include h

theorem level_bracketed (constant : ∀ v, constant? (.literal v) = some v) (hs : s.chars = 'x' :: '[' :: (w ++ [']'])) :
    (level constant? (depth + 19) .pipe s : OptionT (Except Exhausted) Expr) = pure (.field (.ownField "x") text) := by
  obtain ⟨start, chars⟩ := s
  cases hs
  have unsplit : Unsplit ('x' :: '[' :: (w ++ [']'])) := (unsplit_brackets rfl h.balanced).cons (by decide) (by decide)
  let after : Span := ⟨start + 1, '[' :: (w ++ [']'])⟩
  have found : (operand (level constant? (depth + 10)) ⟨start, 'x' :: after.chars⟩ : OptionT (Except Exhausted) _) =
      pure (.ownField "x", after) := rfl
  obtain ⟨r, field, hr⟩ := h.traversal_eq constant depth (.ownField "x") (rfl : after.chars = _)
  have descends := level_of_operand (l := .pipe) (List.cons_ne_nil _ _) (unsigned_cons (by decide) _) unsplit found
  exact descends.trans (follow_last (List.cons_ne_nil _ _) field hr)

theorem level_keyed (hs : s.chars = '{' :: (w ++ ':' :: ['1'] ++ ['}'])) :
    (level constant? (depth + 18) .pipe s : OptionT (Except Exhausted) Expr) =
      pure (.object [.named text (.literal (.number 1))]) := by
  obtain ⟨start, chars⟩ := s
  cases hs
  have flat : Flat (w ++ ':' :: ['1']) := (flat_literal h.whole).append (flat_marks rfl)
  let whole : Span := ⟨start, '{' :: (w ++ ':' :: ['1'] ++ ['}'])⟩
  obtain ⟨i, r, enclosed, hi, hr⟩ := enclosed_of_balanced rfl flat.balanced (rfl : whole.chars = _)
  have one (t : Span) (ht : t.chars = ['1']) : (level constant? (depth + 9) .pipe t : OptionT (Except Exhausted) Expr) =
      pure (.literal (.number 1)) := level_one (l := .pipe) ht
  have body : objectBody (level constant? (depth + 9)) i =
      (pure (.object [.named text (.literal (.number 1))]) : OptionT (Except Exhausted) Expr) := by
    refine objectBody_single (by simp [hi]) (hi ▸ flat) fun t ht => ?_
    exact h.objectAttribute_eq (ht.trans hi) rfl (by simp) one
  have found : (operand (level constant? (depth + 9)) whole : OptionT (Except Exhausted) _) =
      pure (.object [.named text (.literal (.number 1))], r) := by
    show (require whole.enclosed? >>= fun parts => objectBody _ parts.1 >>= fun body => pure (body, parts.2)) = _
    rw [enclosed, require_pure, pure_bind, body, pure_bind]
  have unsplit : Unsplit whole.chars := unsplit_brackets rfl flat.balanced
  have descends := level_of_operand (l := .pipe) (List.cons_ne_nil _ _) (unsigned_cons (by decide) _) unsplit found
  exact descends.trans (follow_nil hr)

end Queries

theorem parse_of_level {limits : Limits} {w n : List Char} {e : Expr} (normal : normalizeChars w = .ok n)
    (found : (level (constant? limits) limits.parse .pipe ⟨0, n⟩ : OptionT (Except Exhausted) Expr) = pure e) :
    parse limits (String.ofList w) = .ok e :=
  parse_of_bounded normal (congrArg OptionT.run found)

/-- Every string can be written between either quotes: alone, in square brackets behind a name and as a key. -/
theorem parse_quoted (text : String) {quote : Char} (hq : isQuote quote = true) :
    parse {} (String.ofList (quoted quote text)) = .ok (.literal (.string text)) ∧
    parse {} ("x[" ++ String.ofList (quoted quote text) ++ "]") = .ok (.field (.ownField "x") text) ∧
    parse {} ("\x7b" ++ String.ofList (quoted quote text) ++ ":1\x7d") =
      .ok (.object [.named text (.literal (.number 1))]) := by
  have literal := isLiteral_quoted hq text
  have writes := writes_quoted hq text
  have bracketed : "x[" ++ String.ofList (quoted quote text) ++ "]" =
      String.ofList (['x'] ++ '[' :: (quoted quote text ++ [']'])) := by
    apply String.ext
    simp
  have keyed : "\x7b" ++ String.ofList (quoted quote text) ++ ":1\x7d" =
      String.ofList ([] ++ '{' :: (quoted quote text ++ ':' :: ['1'] ++ ['}'])) := by
    apply String.ext
    simp
  refine ⟨?_, ?_, ?_⟩
  · exact parse_of_level writes.normalize (literal.level_eq (l := .pipe) rfl)
  · have normal := normalize_brackets (f := ['x']) (c := '[') rfl writes.fills rfl
    rw [bracketed]
    exact parse_of_level normal (level_bracketed literal (fun _ => rfl) rfl)
  · have one : Writes ['1'] ['1'] := writes_number rfl
    have pair := writes.fills.between (c := ':') (by decide) (by decide) (by decide) (by decide) one.fills
    have normal := normalize_brackets (f := []) (c := '{') rfl pair rfl
    rw [keyed]
    exact parse_of_level normal (level_keyed literal rfl)

/-- A backslash before a letter is no escape of that letter: it is written as two, and the quote behind one. -/
theorem parse_quoted_backslash : isQuote '\'' = true ∧
    quoted '\'' "\\u'" = ['\'', '\\', '\\', 'u', '\\', '\'', '\''] ∧
    parse {} (String.ofList (quoted '\'' "\\u'")) = .ok (.literal (.string "\\u'")) ∧
    parse {} ("x[" ++ String.ofList (quoted '\'' "\\u'") ++ "]") = .ok (.field (.ownField "x") "\\u'") ∧
    parse {} ("\x7b" ++ String.ofList (quoted '\'' "\\u'") ++ ":1\x7d") =
      .ok (.object [.named "\\u'" (.literal (.number 1))]) :=
  ⟨by decide, by decide, parse_quoted "\\u'" (by decide)⟩

end Groq.Query
