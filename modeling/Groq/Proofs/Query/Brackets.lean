/-
  Groq.Proofs.Query.Brackets — queries in brackets.

  A query without comments is written in brackets as it is written alone, since what stands before it
  ends no operand, and it keeps its lexemes to itself. Its text is flat, so the commas between several
  queries are the only ones on the surface of what the brackets enclose.
  Proved: queries in square brackets, with commas between them, are the array of their trees, one comma
  behind the last or none; behind a name and in round brackets they are the arguments of a call; and
  one in round brackets is a group (`parse_enclosed`).
-/

import Groq.Proofs.Query.Flat
import Groq.Proofs.Query.Spacing

namespace Groq.Query

/-! ## Normal forms -/

/-- Between a mark that ends no operand and another mark the text is written as `normal`. -/
def Fills (text normal : List Char) : Prop :=
  ∃ ls, (∀ x more, Stops x → Cuts x more → Cuts (text ++ x) (ls ++ more)) ∧
    ∀ c more, writeFrom false false (ls ++ .mark c :: more) =
      normal ++ c :: writeFrom (Lexeme.mark c).endsOperand false more

section Fills

variable {t n u m f : List Char} {c d : Char}

theorem fills_nil : Fills [] [] := ⟨[], fun _ _ _ h => h, fun _ _ => rfl⟩

theorem fills_of_lexemes {ls : List Lexeme} (cut : lexemes t = .ok ls) (commentless : hasComment .code t = false) :
    Fills t (writeFrom false false ls) := by
  refine ⟨ls, fun x more hx h position => ?_, fun c more => ?_⟩
  · rw [closed_of_commentless (lexemesFrom_position cut position) commentless x hx, h]
    rfl
  · obtain ⟨operand, spaced, written⟩ := writeFrom_append false false ls
    rw [written]
    rfl

theorem Writes.fills (h : Writes t n) : Fills t n := by
  obtain ⟨ls, cut, written⟩ := h
  refine ⟨ls, fun x more hx h position => ?_, fun c more => written false false _⟩
  rw [cut position x hx, h]
  rfl

/-- A mark that ends no operand, between two texts. -/
theorem Fills.between (mark : isMark c = true) (word : isWordChar c = false) (slash : c ≠ '/')
    (outside : (Lexeme.mark c).endsOperand = false) (ht : Fills t n) (hu : Fills u m) :
    Fills (t ++ c :: u) (n ++ c :: m) := by
  obtain ⟨first, cut, written⟩ := ht
  obtain ⟨last, cut', written'⟩ := hu
  refine ⟨first ++ .mark c :: last, fun x more hx h => ?_, fun d more => ?_⟩
  · rw [List.append_assoc, List.append_assoc, List.cons_append, List.cons_append]
    exact cut _ _ (stops_cons word slash) (cuts_mark mark (fun h => absurd h slash) (cut' x more hx h))
  · rw [List.append_assoc, List.cons_append, written, outside, written']
    simp

theorem Fills.comma (ht : Fills t n) (hu : Fills u m) : Fills (t ++ ',' :: u) (n ++ ',' :: m) :=
  ht.between (by decide) (by decide) (by decide) (by decide) hu

theorem fills_list {α : Type} {parts : List α} {text normal : α → List Char} (each : ∀ p ∈ parts, Fills (text p) (normal p))
    (trailing : Bool) : Fills (listText (parts.map text) trailing) (listText (parts.map normal) trailing) := by
  have untrailed : Fills (listText (parts.map text) false) (listText (parts.map normal) false) := by
    induction parts with
    | nil => exact fills_nil
    | cons p rest ih =>
      obtain ⟨first, others⟩ := List.forall_mem_cons.mp each
      rcases rest with _ | ⟨q, rest⟩
      · simpa [listText] using first
      · simpa [listText] using first.comma (ih others)
  cases trailing with
  | false => exact untrailed
  | true => simpa [listText] using untrailed.comma fills_nil

/-- Brackets around a text, behind a name or not. -/
theorem normalize_brackets (hd : closerOf? c = some d) (h : Fills t n) (hf : nameAt f = f) :
    normalizeChars (f ++ c :: (t ++ [d])) = .ok (f ++ c :: (n ++ [d])) := by
  obtain ⟨ls, cut, written⟩ := h
  have marks : (isMark c = true ∧ c ≠ '/' ∧ isWordChar c = false ∧ (Lexeme.mark c).endsOperand = false) ∧
      isMark d = true ∧ d ≠ '/' ∧ isWordChar d = false := by
    unfold closerOf? at hd
    split at hd
    all_goals cases hd
    all_goals decide
  obtain ⟨⟨opener, slash, word, outside⟩, closer, slash', word'⟩ := marks
  have nothing : Cuts [] [] := fun _ => by rw [lexemesFrom]
  have close : Cuts [d] [.mark d] := cuts_mark closer (fun h => absurd h slash') nothing
  have brackets : Cuts (c :: (t ++ [d])) (.mark c :: (ls ++ [.mark d])) :=
    cuts_mark opener (fun h => absurd h slash) (cut [d] _ (stops_cons word' slash') close)
  have inside : writeFrom false false (.mark c :: (ls ++ [.mark d])) = c :: (n ++ [d]) := by
    show c :: writeFrom _ false (ls ++ [.mark d]) = _
    rw [outside, written]
    rfl
  have behind (operand spaced : Bool) : writeFrom operand spaced (.mark c :: (ls ++ [.mark d])) = c :: (n ++ [d]) := inside
  unfold normalizeChars lexemes
  by_cases none : f = []
  · subst none
    rw [List.nil_append, brackets 0]
    exact congrArg Except.ok inside
  · have named := closed_name none hf 0 (c :: (t ++ [d])) (stops_cons word slash)
    rw [named, brackets]
    show Except.ok (writeFrom false false (.word f :: (.mark c :: (ls ++ [.mark d])))) = _
    have written : writeFrom false false (.word f :: (.mark c :: (ls ++ [.mark d]))) =
        f ++ writeFrom true false (.mark c :: (ls ++ [.mark d])) := rfl
    rw [written, behind]

end Fills

/-! ## Operands -/

section Operands

variable {constant? : Expr → Option Value} {s : Span} {c d : Char} {inside rest cs : List Char} {e : Expr}

theorem enclosed_of_balanced (hd : closerOf? c = some d) (balanced : Balanced inside)
    (text : s.chars = c :: (inside ++ d :: rest)) :
    ∃ i r, s.enclosed? = some (i, r) ∧ i.chars = inside ∧ r.chars = rest := by
  have close : closeFrom ⟨[d], .code⟩ 1 (inside ++ d :: rest) = some (1 + inside.length) := closeFrom_under hd balanced 1 rest
  refine ⟨s.slice 1 (1 + inside.length), s.tail (1 + inside.length + 1), ?_, ?_, ?_⟩
  · simp [Span.enclosed?, matchingClose?, text, hd, close]
  · simp [Span.slice, text]
  · simp [Span.tail, text, Nat.add_comm 1]

/-- What brackets enclose is parsed by itself. -/
theorem enclosed_reads {α : Type} {f : Span → OptionT Id α} (g : α → Expr) {a : α} (hd : closerOf? c = some d)
    (balanced : Balanced inside) (text : s.chars = c :: (inside ++ d :: rest))
    (h : ∀ i : Span, i.chars = inside → (f i).run.run = some a) : ∃ r : Span,
      ((require s.enclosed? : OptionT Id (Span × Span)) >>= fun (i, r) => f i >>= fun a => pure (g a, r)).run.run =
        some (g a, r) ∧ r.chars = rest := by
  obtain ⟨i, r, enclosed, hi, hr⟩ := enclosed_of_balanced hd balanced text
  refine ⟨r, ?_, hr⟩
  rw [enclosed, run_bind]
  show (f i >>= fun a => pure (g a, r)).run.run = _
  rw [run_bind, h i hi]
  rfl

/-- What the pieces of a list are, one after the other. -/
theorem mapM_of_chars {α β : Type} {parts : List α} {normal : α → List Char} {f : Span → OptionT Id β} {g : α → β}
    {pieces : List Span} (chars : pieces.map (·.chars) = parts.map normal)
    (each : ∀ p ∈ parts, ∀ s : Span, s.chars = normal p → (f s).run.run = some (g p)) :
    (pieces.mapM f).run.run = some (parts.map g) := by
  induction parts generalizing pieces with
  | nil =>
    rw [List.map_eq_nil_iff.mp chars]
    rfl
  | cons p rest ih =>
    obtain ⟨first, others⟩ := List.forall_mem_cons.mp each
    obtain ⟨s, pieces, rfl, hs, hrest⟩ := List.map_eq_cons_iff.mp chars
    rw [List.mapM_cons, run_bind, first s hs, Option.bind_some, run_bind, ih hrest others]
    rfl

/-- An operand without traversals is a query. -/
theorem reading_of_operand (ne : cs ≠ []) (unsigned : Unsigned cs) {r : Span}
    (h : (operand (readSpan constant?) ⟨0, cs⟩).run.run = some (e, r)) (none : r.chars = []) :
    reading constant? .pipe cs = some e := by
  have tightest : reading constant? .operand cs = some e := by
    show (readSpan constant? .operand ⟨0, cs⟩).run.run = some e
    rw [readSpan_eq, if_neg ne]
    show (operandLevel (readSpan constant?) (followSpan constant?) ⟨0, cs⟩).run.run = some e
    rw [operandLevel_unsigned _ _ unsigned, run_bind, h]
    show (followSpan constant? e r).run.run = some e
    rw [followSpan_eq, if_pos none]
    rfl
  exact reading_weaken (reading_flat tightest).balanced unsigned tightest (Nat.zero_le _)

theorem operand_of_name (named : nameAt s.chars ≠ []) :
    operand (readSpan constant?) s = namedOperand (readSpan constant?) s := by
  rcases hs : s.chars with _ | ⟨c, cs⟩
  · rw [hs] at named
    exact absurd rfl named
  rw [hs] at named
  have hc := beginsName_of_nameAt named
  have other {d : Char} (hd : beginsName d = false) : c ≠ d := ne_of_beginsName hc hd
  have quote : ¬ (c = '"' ∨ c = '\'') := not_or.mpr ⟨other rfl, other rfl⟩
  have digit : ¬ c.isDigit = true := by
    rw [isDigit_of_beginsName hc]
    exact nofun
  unfold operand
  rw [hs]
  show ite _ _ _ = _
  rw [if_neg quote, if_neg digit, if_neg (other rfl), if_neg (other rfl), if_neg (other rfl), if_neg (other rfl),
    if_neg (other rfl), if_neg (other rfl), if_neg (other rfl), if_pos hc]

/-! ### Lists -/

section Lists

variable {α : Type} {parts : List α} {normal : α → List Char} {tree : α → Expr}
  (reads : ∀ p ∈ parts, reading constant? .pipe (normal p) = some (tree p))

theorem reading_ne_nil {l : Level} (h : reading constant? l cs = some e) : cs ≠ [] := by
  rintro rfl
  rw [reading, if_pos rfl] at h
  cases h

/-- No query begins like a splat. -/
theorem not_splat (h : reading constant? .pipe s.chars = some e) : isSplat s = false := by
  rcases splat : isSplat s with _ | _
  · rfl
  · obtain ⟨ops, operators, -⟩ := reading_operators h 0
    rw [splat_text splat] at operators
    cases operators with
    | sign hc _ => rcases hc with hc | hc | hc <;> exact absurd hc (by decide)
    | operand hr _ => cases hr

include reads in
theorem list_flat : (∀ n ∈ parts.map normal, Flat n) ∧ [] ∉ parts.map normal := by
  refine ⟨fun n hn => ?_, fun hn => ?_⟩
  · obtain ⟨p, hp, rfl⟩ := List.mem_map.mp hn
    exact reading_flat (reads p hp)
  · obtain ⟨p, hp, none⟩ := List.mem_map.mp hn
    exact reading_ne_nil (reads p hp) none

include reads in
theorem list_balanced {trailing : Bool} (ne : trailing = true → parts ≠ []) :
    Balanced (listText (parts.map normal) trailing) := by
  obtain ⟨flat, filled⟩ := list_flat reads
  have ne' : trailing = true → parts.map normal ≠ [] := fun h none => ne h (List.map_eq_nil_iff.mp none)
  let s : Span := ⟨0, listText (parts.map normal) trailing⟩
  obtain ⟨balanced, -⟩ := items_of_flat flat filled ne' (rfl : s.chars = _)
  exact balanced

include reads in
theorem arrayElements_list {trailing : Bool} (ne : trailing = true → parts ≠ [])
    (text : s.chars = listText (parts.map normal) trailing) :
    (arrayElements (readSpan constant?) s).run.run = some (parts.map fun p => Element.item (tree p)) := by
  obtain ⟨flat, filled⟩ := list_flat reads
  have ne' : trailing = true → parts.map normal ≠ [] := fun h none => ne h (List.map_eq_nil_iff.mp none)
  obtain ⟨-, items, hitems, chars⟩ := items_of_flat flat filled ne' text
  unfold arrayElements
  rw [hitems, run_bind]
  refine mapM_of_chars chars fun p hp t ht => ?_
  have read := reads p hp
  rw [← ht] at read
  unfold arrayElement
  rw [not_splat read]
  show (Element.item <$> readSpan constant? .pipe t).run.run = _
  rw [map_eq_pure_bind, run_bind, show (readSpan constant? .pipe t).run.run = _ from read]
  rfl

include reads in
theorem arguments_list (text : s.chars = listText (parts.map normal) false) :
    (arguments (readSpan constant?) false s).run.run = some (parts.map tree) := by
  obtain ⟨flat, filled⟩ := list_flat reads
  unfold arguments
  by_cases empty : parts = []
  · subst empty
    rw [if_pos (show s.chars = [] from text)]
    rfl
  · have nonempty : s.chars ≠ [] := by
      rw [text]
      exact listText_ne_nil (by simpa using empty) filled false
    obtain ⟨-, pieces, hpieces, chars⟩ := pieces_of_flat flat (by simpa using empty) text
    rw [if_neg nonempty, hpieces, run_bind]
    refine mapM_of_chars chars fun p hp t ht => ?_
    have read := reads p hp
    rw [← ht] at read
    exact read

include reads in
theorem reading_array {trailing : Bool} (ne : trailing = true → parts ≠ []) :
    reading constant? .pipe ('[' :: (listText (parts.map normal) trailing ++ [']'])) =
      some (.array (parts.map fun p => .item (tree p))) := by
  let s : Span := ⟨0, '[' :: (listText (parts.map normal) trailing ++ [']'])⟩
  have elements (i : Span) (hi : i.chars = listText (parts.map normal) trailing) := arrayElements_list reads ne hi
  obtain ⟨r, reads, hr⟩ := enclosed_reads Expr.array rfl (list_balanced reads ne) (rfl : s.chars = _) elements
  exact reading_of_operand (List.cons_ne_nil _ _) (unsigned_cons (by decide) _) reads hr

include reads in
theorem reading_call {f : List Char} (hf : IsName f) :
    reading constant? .pipe (f ++ '(' :: (listText (parts.map normal) false ++ [')'])) =
      some (.call "global" (String.ofList f) (parts.map tree)) := by
  let s : Span := ⟨0, f ++ '(' :: (listText (parts.map normal) false ++ [')'])⟩
  have name : nameAt s.chars = f := by
    refine (nameAt_append_of_stop fun c rest h => ?_).trans hf.2
    cases h
    rfl
  have after : (s.tail (nameAt s.chars).length).chars = '(' :: (listText (parts.map normal) false ++ [')']) := by
    rw [name]
    exact List.drop_left
  have args (i : Span) (hi : i.chars = listText (parts.map normal) false) := arguments_list reads hi
  have balanced : Balanced (listText (parts.map normal) false) := list_balanced reads nofun
  obtain ⟨r, reads, hr⟩ := enclosed_reads (Expr.call "global" (String.ofList f)) rfl balanced after args
  obtain ⟨c, cs, hc⟩ := List.exists_cons_of_ne_nil hf.1
  have begins : beginsName c = true := beginsName_of_nameAt (by rw [← hc, hf.2]; exact hf.1)
  refine reading_of_operand (by simp) (fun d hd => ?_) (r := r) ?_ hr
  · rw [hc] at hd
    cases hd
    exact ⟨ne_of_beginsName begins rfl, ne_of_beginsName begins rfl, ne_of_beginsName begins rfl⟩
  · show (operand (readSpan constant?) s).run.run = _
    rw [operand_of_name (by rw [name]; exact hf.1)]
    unfold namedOperand
    rw [name] at after reads ⊢
    simp only [after]
    exact reads

end Lists

theorem reading_group {n : List Char} (h : reading constant? .pipe n = some e) :
    reading constant? .pipe ('(' :: (n ++ [')'])) = some (.group e) := by
  let s : Span := ⟨0, '(' :: (n ++ [')'])⟩
  have inner (i : Span) (hi : i.chars = n) : (readSpan constant? .pipe i).run.run = some e := by
    rw [← hi] at h
    exact h
  obtain ⟨r, reads, hr⟩ := enclosed_reads Expr.group rfl (reading_flat h).balanced (rfl : s.chars = _) inner
  exact reading_of_operand (List.cons_ne_nil _ _) (unsigned_cons (by decide) _) reads hr

end Operands

/-! ## Queries in brackets -/

/-- A query without comments. -/
structure InnerQuery (limits : Limits) where
  text : List Char
  tree : Expr
  commentless : hasComment .code text = false
  parses : parse limits (String.ofList text) = .ok tree

namespace InnerQuery

variable {limits : Limits} (q : InnerQuery limits)

def normal : List Char := (normalizeChars q.text).toOption.getD []

theorem normalize_text : normalizeChars q.text = .ok q.normal := by
  obtain ⟨n, hn, -⟩ := parse_ok q.parses
  unfold normal
  rw [hn]
  rfl

theorem reads : reading (constant? limits) .pipe q.normal = some q.tree := by
  obtain ⟨n, hn, read⟩ := parse_ok q.parses
  rw [q.normalize_text] at hn
  cases hn
  exact read

theorem fills : Fills q.text q.normal := by
  obtain ⟨ls, cut, written⟩ := map_ok q.normalize_text
  rw [← written]
  exact fills_of_lexemes cut q.commentless

end InnerQuery

/-- The text parses to this tree, if parsing does not come to the end of its depth. -/
def ParsesTo (limits : Limits) (text : List Char) (e : Expr) : Prop :=
  parse limits (String.ofList text) = .error (.tooDeep limits.parse) ∨ parse limits (String.ofList text) = .ok e

section Enclosed

variable {limits : Limits}

theorem parsesTo_of_reading {text n : List Char} {e : Expr} (normal : normalizeChars text = .ok n)
    (read : reading (constant? limits) .pipe n = some e) : ParsesTo limits text e := by
  rcases parse_reads limits normal with deep | reads
  · exact .inl deep
  · rw [read] at reads
    exact .inr reads

/-- Queries with commas between them are the items of an array or the arguments of a call, and one
    query is a group, whatever commas, brackets, literals and operators are in them. -/
theorem parse_enclosed (parts : List (InnerQuery limits)) :
    (∀ trailing : Bool, (trailing = true → parts ≠ []) →
      ParsesTo limits ('[' :: (listText (parts.map (·.text)) trailing ++ [']'])) (.array (parts.map fun q => .item q.tree))) ∧
    (∀ f, IsName f → ParsesTo limits (f ++ '(' :: (listText (parts.map (·.text)) false ++ [')']))
      (.call "global" (String.ofList f) (parts.map (·.tree)))) ∧
    ∀ q ∈ parts, ParsesTo limits ('(' :: (q.text ++ [')'])) (.group q.tree) := by
  have each : ∀ q ∈ parts, Fills q.text q.normal := fun q _ => q.fills
  have reads : ∀ q ∈ parts, reading (constant? limits) .pipe q.normal = some q.tree := fun q _ => q.reads
  refine ⟨fun trailing ne => ?array, fun f hf => ?call, fun q hq => ?group⟩
  case array =>
    have normal := normalize_brackets (rfl : closerOf? '[' = some ']') (fills_list each trailing) (rfl : nameAt [] = [])
    exact parsesTo_of_reading normal (reading_array reads ne)
  case call =>
    have normal := normalize_brackets (rfl : closerOf? '(' = some ')') (fills_list each false) hf.2
    exact parsesTo_of_reading normal (reading_call reads hf)
  case group =>
    have normal := normalize_brackets (rfl : closerOf? '(' = some ')') q.fills (rfl : nameAt [] = [])
    exact parsesTo_of_reading normal (reading_group q.reads)

end Enclosed

/-! ## A comma in a literal and one in brackets -/

def literalComma : InnerQuery {} where
  text := ['x', ' ', 'i', 'n', ' ', '"', ',', '"']
  tree := .binary .isIn (.ownField "x") (.literal (.string ","))
  commentless := rfl
  parses := parse_of_lexemes (by cbv) rfl

def pipedOrder : InnerQuery {} where
  text := ['a', '|', 'o', 'r', 'd', 'e', 'r', '(', 'b', ',', 'c', ')']
  tree := .pipeCall "order" (.ownField "a") [.ownField "b", .ownField "c"]
  commentless := rfl
  parses := parse_of_lexemes (by cbv) rfl

/-- Neither comma separates items. -/
theorem parse_enclosed_commas : IsName ['f'] ∧
    ParsesTo {} "[x in \",\",a|order(b,c),]".toList (.array [.item literalComma.tree, .item pipedOrder.tree]) ∧
    ParsesTo {} "f(x in \",\",a|order(b,c))".toList (.call "global" "f" [literalComma.tree, pipedOrder.tree]) ∧
    ParsesTo {} "(a|order(b,c))".toList (.group pipedOrder.tree) := by
  have name : IsName ['f'] := ⟨nofun, rfl⟩
  obtain ⟨array, call, group⟩ := parse_enclosed [literalComma, pipedOrder]
  exact ⟨name, array true (fun _ => nofun), call ['f'] name, group pipedOrder (List.mem_cons_of_mem _ List.mem_cons_self)⟩

end Groq.Query
