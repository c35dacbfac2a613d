/-
  Groq.Proofs.Bytes.Rules — each rule over bytes is in step with the rule over characters.

  A rule is given parsers that are in step on every span and its range, and is then in step on every
  span and its range. So every range it forms, every byte it looks up and every text it cuts out is
  there: it forms them at the offsets of ASCII characters, and what is an offset in bytes there
  is the one in characters (`SameOffset`).
-/

import Groq.Proofs.Bytes.InStep
import Groq.Proofs.Bytes.Number
import Groq.Proofs.Bytes.Offset

namespace Groq.Query

/-- An expression and what follows it, as a span and as an offset in a range. -/
def Leaves (s : Span) (x : Expr × Span) (y : Expr × Nat) : Prop := x.1 = y.1 ∧ ∃ n, x.2 = s.tail n ∧ SameOffset s.chars n y.2

/-- What a bracket encloses and what follows it. -/
def Encloses (source : List Char) (s : Span) (x : Span × Span) (y : ByteSpan × Nat) : Prop :=
  Covers source x.1 y.1 ∧ ∃ n, x.2 = s.tail n ∧ SameOffset s.chars n y.2

/-- A piece, as a span and as two offsets in a range. -/
def CutOut (source : List Char) (b : ByteSpan) (s : Span) (cut : Nat × Nat) : Prop :=
  ∃ c, b.slice? source cut.1 cut.2 = some c ∧ Covers source s c

section Rules

variable {source : List Char} {s : Span} {b : ByteSpan} {n k : Nat}

/-- The surface of a text, with the same places of its bytes. -/
def SameSurface (cs : List Char) (places places' : List Place) : Prop :=
  List.Forall₂ (SamePlace cs) places places' ∧ surface? cs = some places

theorem inStep_surface (cs : List Char) : InStep source (SameSurface cs) (require (surface? cs)) (surfaceBytes cs) := by
  obtain ⟨found, hfound, same⟩ := surfaceBytes_same cs
  unfold surfaceBytes
  rw [checked_bind hfound]
  exact inStep_require (rel_with same)

theorem inStep_enclosed (h : Covers source s b) (here : SameOffset s.chars n k) :
    InStep source (Encloses source s) (require (s.tail n).enclosed?) (byteEnclosed source b s.chars k) := by
  unfold Span.enclosed? byteEnclosed
  rw [require_map, map_eq_pure_bind]
  refine (inStep_require here.bracket).bind fun close close' found => ?_
  obtain ⟨inside, range, covers⟩ := h.slice found.inside found.last (Nat.add_le_add_left found.pos n)
  rw [checked_bind range, Span.slice_of_tail, Span.tail_tail]
  exact inStep_pure ⟨covers, _, rfl, found.behind⟩

/-! ## Lists -/

theorem cutAt_same (h : Covers source s b) {places places' : List Place} (same : List.Forall₂ (SamePlace s.chars) places places')
    (marks : ∀ p ∈ places, p.startsWith "," = true) (sorted : places.Pairwise fun p q => p.offset < q.offset)
    (here : SameOffset s.chars n k) (le : ∀ p ∈ places, n ≤ p.offset) :
    List.Forall₂ (CutOut source b) (s.cutAt n (places.map (·.offset)))
      (cutsAt (bytes s.chars).length k (places'.map (·.offset))) := by
  induction same generalizing n k with
  | nil =>
    obtain ⟨c, range, covers⟩ := h.tail here
    refine .cons ⟨c, ?_, covers⟩ .nil
    rw [← h.length]
    exact range
  | @cons p q places places' first _ ih =>
    obtain ⟨hp, marks⟩ := List.forall_mem_cons.mp marks
    obtain ⟨later, sorted⟩ := List.pairwise_cons.mp sorted
    have behind : SameOffset s.chars (p.offset + 1) (q.offset + 1) := first.behind hp (by decide)
    refine .cons (h.slice here first.offset (le p List.mem_cons_self)) ?_
    exact ih marks sorted behind later

theorem inStep_pieces (h : Covers source s b) :
    InStep source (List.Forall₂ (CutOut source b)) (require s.pieces?) (byteCuts source b) := by
  unfold Span.pieces? byteCuts
  rw [require_map, map_eq_pure_bind, checked_bind h.text]
  refine (inStep_surface s.chars).bind fun places places' found => inStep_pure ?_
  obtain ⟨same, hplaces⟩ := found
  have commas : List.Forall₂ (SamePlace s.chars) (places.filter (·.startsWith ",")) (places'.filter (·.startsWith ",")) := by
    apply List.rel_filter _ same
    intro p q hpq
    show p.startsWith "," = true ↔ q.startsWith "," = true
    rw [hpq.startsWith "," (by decide)]
  apply cutAt_same h commas
  · exact fun p hp => (List.mem_filter.mp hp).2
  · exact (surfaceFrom_sorted hplaces).filter _
  · exact sameOffset_zero
  · exact fun _ _ => Nat.zero_le _

theorem inStep_items (h : Covers source s b) :
    InStep source (List.Forall₂ (Covers source)) (require s.items?) (byteItems source b) := by
  unfold Span.items? byteItems
  by_cases empty : s.chars = []
  · rw [if_pos empty, if_pos (h.isEmpty.mpr empty)]
    exact inStep_pure .nil
  rw [if_neg empty, if_neg (mt h.isEmpty.mp empty), require_map, map_eq_pure_bind]
  refine (inStep_pieces h).bind fun pieces cuts same => ?_
  -- Every piece has its range.
  obtain ⟨items, hitems, same⟩ : ∃ items, (cuts.mapM fun cut => b.slice? source cut.1 cut.2) = some items ∧
      List.Forall₂ (Covers source) pieces items := by
    induction same with
    | nil => exact ⟨[], rfl, .nil⟩
    | cons first _ ih =>
      obtain ⟨c, range, covers⟩ := first
      obtain ⟨items, hitems, same⟩ := ih
      refine ⟨c :: items, ?_, .cons covers same⟩
      rw [List.mapM_cons, range, hitems]
      rfl
  rw [checked_bind hitems]
  have last : items.getLast?.any (·.isEmpty) = pieces.getLast?.any (·.chars = []) := by
    have reversed := List.rel_reverse same
    rw [List.getLast?_eq_head?_reverse, List.getLast?_eq_head?_reverse]
    generalize pieces.reverse = fromLast at reversed ⊢
    generalize items.reverse = fromLast' at reversed ⊢
    cases reversed with
    | nil => rfl
    | cons first _ =>
      rw [Bool.eq_iff_iff]
      simpa using first.isEmpty
  rw [last, ← same.length_eq]
  apply inStep_pure
  split
  · rw [List.dropLast_eq_take, List.dropLast_eq_take, same.length_eq]
    exact List.forall₂_take _ same
  · exact same

/-- Three dots are three bytes. -/
theorem splat_offset (h : isSplat s = true) : SameOffset s.chars 3 3 := by
  obtain ⟨rest, text⟩ := List.isPrefixOf_iff_prefix.mp h
  rw [← text]
  exact sameOffset_ascii (ascii_of_all (by decide))

theorem keyColon_same (s : Span) : ∃ found, surfaceBytes? s.chars = some found ∧
    Option.Rel (fun n (q : Place) => SameOffset s.chars n q.offset ∧ SameOffset s.chars (n + 1) (q.offset + 1))
      (keyColon? s) (found.bind (·.find? fun p => p.startsWith ":" && !p.isDoubled)) := by
  have unmoved (p q : Place) (h : SamePlace s.chars p q) :
      (q.startsWith ":" && !q.isDoubled) = (p.startsWith ":" && !p.isDoubled) := by
    rw [h.startsWith ":" (by decide), h.isDoubled]
  obtain ⟨found, hfound, same⟩ := firstPlace_same s.chars unmoved
  have colon : keyColon? s = ((surface? s.chars).bind (·.find? fun p => p.startsWith ":" && !p.isDoubled)).map (·.offset) := by
    unfold keyColon?
    cases surface? s.chars with
    | none => rfl
    | some places => exact (Option.map_eq_bind ..).symm
  refine ⟨found, hfound, ?_⟩
  rw [colon]
  generalize (surface? s.chars).bind _ = place at same ⊢
  generalize found.bind _ = place' at same ⊢
  cases same with
  | none => exact .none
  | @some p q both =>
    obtain ⟨same, colon⟩ := both
    exact .some ⟨same.offset, same.behind (Bool.and_eq_true_iff.mp colon).1 (by decide)⟩

section Parsers

variable {parse : Parse Remembering} {parse' : Level → ByteSpan → OptionT Checked Expr}
variable (hp : ∀ l t c, Covers source t c → InStep source Eq (parse l t) (parse' l c))

include hp

/-- A span without the sort mark it ends in. -/
theorem inStep_key (h : Covers source s b) {mark : String} (ascii : mark.toList.all (·.toNat < 128) = true)
    (size : mark.utf8ByteSize = mark.toList.length) (ends : mark.toList.isSuffixOf s.chars = true) (f : Expr → Expr) :
    InStep source Eq (f <$> parse .pipe (s.slice 0 (s.chars.length - mark.length)))
      (byteKey source b mark >>= fun key => f <$> parse' .pipe key) := by
  obtain ⟨front, text⟩ := List.isSuffixOf_iff_suffix.mp ends
  have same : bytes mark.toList = mark.toList := bytes_of_ascii (ascii_of_all ascii)
  have upTo : SameOffset s.chars front.length (bytes front).length := ⟨front, mark.toList, text.symm, rfl, rfl⟩
  have chars : s.chars.length - mark.length = front.length := by
    rw [← text, List.length_append, String.length_toList, Nat.add_sub_cancel]
  have last : less? b.length mark.utf8ByteSize = some (bytes front).length := by
    rw [h.length, ← text, bytes_append, same, size, List.length_append, less?, if_pos (Nat.le_add_left _ _),
      Nat.add_sub_cancel]
  obtain ⟨c, range, covers⟩ := h.slice sameOffset_zero upTo (Nat.zero_le _)
  unfold byteKey
  rw [checked_bind last, checked_bind range, chars]
  exact (hp _ _ _ covers).congr f

theorem inStep_argument (sortKeys : Bool) (h : Covers source s b) :
    InStep source Eq (argument parse sortKeys s) (byteArgument source parse' sortKeys b) := by
  unfold argument byteArgument
  rw [checked_bind h.text]
  refine inStep_ite Iff.rfl (fun desc => ?_) fun _ => inStep_ite Iff.rfl (fun asc => ?_) fun _ => hp _ _ _ h
  · exact inStep_key hp h (by decide) (by decide) desc.2 Expr.desc
  · exact inStep_key hp h (by decide) (by decide) asc.2 Expr.asc

theorem inStep_arguments (sortKeys : Bool) (h : Covers source s b) :
    InStep source Eq (arguments parse sortKeys s) (byteArguments source parse' sortKeys b) := by
  unfold arguments byteArguments
  refine inStep_ite h.isEmpty (fun _ => inStep_pure rfl) fun _ => ?_
  refine (inStep_pieces h).bind fun pieces cuts same => inStep_mapM_same same ?_
  rintro t cut ⟨c, range, covers⟩
  rw [checked_bind range]
  exact inStep_argument hp sortKeys covers

theorem inStep_arrayElement (h : Covers source s b) :
    InStep source Eq (arrayElement parse s) (byteArrayElement source parse' b) := by
  unfold arrayElement byteArrayElement
  rw [checked_bind h.text]
  refine inStep_ite Iff.rfl (fun splat => ?_) fun _ => (hp _ _ _ h).congr Element.item
  obtain ⟨c, range, covers⟩ := h.tail (splat_offset splat)
  rw [checked_bind range]
  exact (hp _ _ _ covers).congr Element.splat

theorem inStep_arrayElements (h : Covers source s b) :
    InStep source Eq (arrayElements parse s) (byteArrayElements source parse' b) := by
  refine (inStep_items h).bind fun items items' same => inStep_mapM_same same ?_
  exact fun t c covers => inStep_arrayElement hp covers

theorem inStep_objectAttribute (h : Covers source s b) :
    InStep source Eq (objectAttribute parse s) (byteObjectAttribute source parse' b) := by
  unfold objectAttribute byteObjectAttribute
  rw [checked_bind h.text]
  refine inStep_ite Iff.rfl (fun splat => ?_) fun _ => ?_
  · obtain ⟨c, range, covers⟩ := h.tail (splat_offset splat)
    rw [checked_bind range]
    refine inStep_ite covers.isEmpty (fun _ => inStep_pure rfl) fun _ => ?_
    exact (hp _ _ _ covers).congr Attribute.splat
  · obtain ⟨found, hfound, same⟩ := keyColon_same s
    rw [checked_bind hfound]
    generalize keyColon? s = colon at same
    generalize found.bind _ = place at same ⊢
    cases same with
    | none =>
      refine (hp _ _ _ h).bind_same fun value => ?_
      exact (inStep_same _).bind_same fun name => inStep_pure rfl
    | @some n q both =>
      obtain ⟨here, behind⟩ := both
      dsimp only
      rw [checked_bind here.takeBytes]
      refine inStep_ite (literal_whole _) (fun literal => ?_) fun _ => inStep_failure
      have body := sameOffset_end.literalBody literal
      rw [List.take_length] at body
      obtain ⟨c, range, covers⟩ := h.tail behind
      rw [checked_bind body]
      refine (inStep_require (rel_map_self String.ofList _)).bind fun text content decoded => ?_
      rw [checked_bind range, decoded]
      exact (hp _ _ _ covers).congr _

theorem inStep_objectBody (h : Covers source s b) :
    InStep source Eq (objectBody parse s) (byteObjectBody source parse' b) := by
  refine (inStep_items h).bind fun items items' same => ?_
  refine (inStep_mapM_same same fun t c covers => inStep_objectAttribute hp covers).bind_same fun attributes => ?_
  exact inStep_pure rfl

/-! ## Traversals -/

variable (constant? : Expr → Option Value)

theorem inStep_sliceBound (h : Covers source s b) :
    InStep source Eq (sliceBound constant? parse s) (byteSliceBound constant? parse' b) := by
  refine (hp _ _ _ h).bind_same fun e => ?_
  exact inStep_same _

theorem inStep_bracket (base : Expr) (h : Covers source s b) :
    InStep source Eq (bracket constant? parse base s) (byteBracket source constant? parse' base b) := by
  have unmoved (p q : Place) (h : SamePlace s.chars p q) : q.startsWith ".." = p.startsWith ".." := h.startsWith ".." (by decide)
  unfold bracket byteBracket
  refine inStep_ite h.isEmpty (fun _ => inStep_pure rfl) fun _ => ?_
  obtain ⟨found, hfound, same⟩ := firstPlace_same s.chars unmoved
  rw [checked_bind h.text, checked_bind hfound]
  have mark : rangeMark? s = (surface? s.chars).bind (·.find? (·.startsWith "..")) := rfl
  rw [mark]
  generalize (surface? s.chars).bind _ = place at same ⊢
  generalize found.bind _ = place' at same ⊢
  cases same with
  | none =>
    refine (hp _ _ _ h).bind_same fun inner => ?_
    rcases constant? inner with _ | value
    · exact inStep_pure rfl
    · cases value with
      | number x => exact (inStep_same _).bind_same fun index => inStep_pure rfl
      | _ => exact inStep_pure rfl
  | @some p q both =>
    obtain ⟨same, dots⟩ := both
    -- Behind the dots, two or three of them.
    have behind : SameOffset s.chars (p.offset + (if (!p.startsWith "...") = true then 2 else 3))
        (q.offset + (if (!p.startsWith "...") = true then 2 else 3)) := by
      cases three : p.startsWith "..." with
      | true => exact same.behind three (by decide)
      | false => exact same.behind dots (by decide)
    obtain ⟨first, range, covers⟩ := h.slice sameOffset_zero same.offset (Nat.zero_le _)
    obtain ⟨last, range', covers'⟩ := h.tail behind
    dsimp only
    rw [same.startsWith "..." (by decide), checked_bind range, checked_bind range']
    refine (inStep_sliceBound hp constant? covers).bind_same fun left => ?_
    refine (inStep_sliceBound hp constant? covers').bind_same fun right => ?_
    exact inStep_pure rfl

theorem inStep_traversal (base : Expr) (h : Covers source s b) (here : SameOffset s.chars n k) (ne : s.chars.drop n ≠ []) :
    InStep source (Leaves s) (traversal constant? parse base (s.tail n)) (byteTraversal source constant? parse' base b s.chars k) := by
  have behind {front rest : List Char} (head : (s.tail n).chars = front ++ rest)
      (ascii : front.all (·.toNat < 128) = true) :
      SameOffset s.chars (n + front.length) (k + front.length) ∧ s.chars.drop (n + front.length) = rest := by
    refine ⟨here.add_ascii head (ascii_of_all ascii), ?_⟩
    rw [← List.drop_drop]
    show (s.tail n).chars.drop front.length = rest
    rw [head, List.drop_left]
  unfold traversal byteTraversal
  split
  · rename_i rest head
    have byte := here.byte_of_head head (by decide)
    obtain ⟨one, tail⟩ := @behind ['.'] rest head (by decide)
    obtain ⟨name, last⟩ := one.name
    rw [List.length_singleton] at name last tail
    rw [tail] at name last
    rw [checked_bind byte, if_pos rfl, checked_bind name]
    refine inStep_ite Iff.rfl (fun _ => inStep_failure) fun _ => inStep_pure ⟨rfl, _, ?_, last⟩
    rw [Span.tail_tail, Nat.add_assoc]
  · rename_i rest head
    have byte := here.byte_of_head head (by decide)
    obtain ⟨one, next⟩ := @behind ['-'] ('>' :: rest) head (by decide)
    obtain ⟨two, tail⟩ := @behind ['-', '>'] rest head (by decide)
    obtain ⟨name, last⟩ := two.name
    rw [List.length_singleton] at one next
    rw [show ['-', '>'].length = 2 from rfl] at name last tail
    rw [tail] at name last
    have arrow : '-' = '-' ∧ (bytes s.chars)[k + 1]? = some '>' := ⟨rfl, (one.byte (by decide)).mpr (by rw [next]; rfl)⟩
    rw [checked_bind byte, if_neg (show ¬ '-' = '.' by decide), if_pos arrow, checked_bind name]
    refine inStep_ite Iff.rfl (fun _ => inStep_pure ⟨rfl, _, Span.tail_tail .., two⟩) fun _ => inStep_pure ⟨rfl, _, ?_, last⟩
    rw [Span.tail_tail, Nat.add_assoc]
  · rename_i rest head
    have byte := here.byte_of_head head (by decide)
    rw [checked_bind byte, if_neg (by decide), if_neg fun both => absurd both.1 (by decide), if_pos rfl]
    refine (inStep_enclosed h here).bind fun (inside, rest) (range, offset) found => ?_
    refine (inStep_bracket hp constant? base found.1).bind_same fun e => ?_
    exact inStep_pure ⟨rfl, found.2⟩
  · rename_i rest head
    have byte := here.byte_of_head head (by decide)
    rw [checked_bind byte, if_neg (by decide), if_neg fun both => absurd both.1 (by decide), if_neg (by decide), if_pos rfl]
    refine (inStep_enclosed h here).bind fun (inside, rest) (range, offset) found => ?_
    refine (inStep_objectBody hp found.1).bind_same fun e => ?_
    exact inStep_pure ⟨rfl, found.2⟩
  · rename_i point arrow bracket brace
    obtain ⟨c, rest, head⟩ := List.exists_cons_of_ne_nil ne
    obtain ⟨d, byte, first⟩ := here.first head
    have not {m : Char} (ascii : m.toNat < 128) (none : ∀ rest, (s.tail n).chars = m :: rest → False) : d ≠ m :=
      here.ne_of_byte byte ascii none
    have noArrow : ¬ (d = '-' ∧ (bytes s.chars)[k + 1]? = some '>') := by
      rintro ⟨minus, greater⟩
      obtain rfl := (first.is (by decide)).mp minus
      obtain ⟨one, next⟩ := @behind ['-'] rest head (by decide)
      have mark := (one.byte (by decide)).mp greater
      rw [next] at mark
      obtain ⟨tail, rfl⟩ := List.head?_eq_some_iff.mp mark
      exact arrow tail head
    rw [checked_bind byte, if_neg (not (by decide) point), if_neg noArrow, if_neg (not (by decide) bracket),
      if_neg (not (by decide) brace)]
    exact inStep_failure

/-! ## Operands -/

omit constant?

theorem inStep_call (library name : List Char) (h : Covers source s b) (here : SameOffset s.chars n k) :
    InStep source (Leaves s) (callOperand parse library name (s.tail n)) (byteCall source parse' library name b s.chars k) := by
  refine (inStep_enclosed h here).bind fun (inside, rest) (range, offset) found => ?_
  refine (inStep_arguments hp false found.1).bind_same fun args => ?_
  exact inStep_pure ⟨rfl, found.2⟩

theorem inStep_namedOperand (h : Covers source s b) :
    InStep source (Leaves s) (namedOperand parse s) (byteNamedOperand source parse' b) := by
  have begin : SameOffset s.chars 0 0 := sameOffset_zero
  obtain ⟨name, last⟩ := begin.name
  rw [List.drop_zero, Nat.zero_add, Nat.zero_add] at last
  rw [List.drop_zero] at name
  unfold namedOperand byteNamedOperand
  rw [checked_bind h.text, checked_bind name]
  dsimp only
  rw [checked_bind last.dropBytes]
  generalize nameAt s.chars = library at last ⊢
  split
  · rename_i rest head
    have head : s.chars.drop library.length = [':', ':'] ++ rest := head
    have two := last.add_ascii head (ascii_of_all (by decide))
    have tail : s.chars.drop (library.length + 2) = rest := by
      rw [← List.drop_drop, head]
      rfl
    rw [show [':', ':'].length = 2 from rfl] at two
    obtain ⟨inner, behind⟩ := two.name
    rw [tail] at inner behind
    have colons : "::".toList.isPrefixOf (s.chars.drop library.length) = true := by
      rw [head]
      rfl
    rw [if_pos colons, checked_bind inner, Span.tail_tail, ← Nat.add_assoc]
    refine inStep_ite ?_ (fun _ => inStep_failure) fun _ => inStep_call hp library _ h behind
    exact or_congr Iff.rfl (not_congr (behind.byte (by decide)))
  · rename_i rest head
    have head : s.chars.drop library.length = '(' :: rest := head
    have noColons : ¬ "::".toList.isPrefixOf (s.chars.drop library.length) = true := by
      rw [head]
      exact Bool.false_ne_true
    rw [if_neg noColons, if_pos ((last.byte (by decide)).mpr (by rw [head]; rfl))]
    exact inStep_call hp _ library h last
  · rename_i colons bracket
    have noColons : ¬ "::".toList.isPrefixOf (s.chars.drop library.length) = true := by
      intro hpre
      obtain ⟨rest, text⟩ := List.isPrefixOf_iff_prefix.mp hpre
      exact colons rest text.symm
    have noBracket : ¬ (bytes s.chars)[(bytes library).length]? = some '(' := by
      intro hb
      obtain ⟨rest, text⟩ := List.head?_eq_some_iff.mp ((last.byte (by decide)).mp hb)
      exact bracket rest text
    rw [if_neg noColons, if_neg noBracket]
    exact inStep_pure ⟨rfl, _, rfl, last⟩

theorem inStep_operand (h : Covers source s b) (ne : s.chars ≠ []) :
    InStep source (Leaves s) (operand parse s) (byteOperand source parse' b) := by
  obtain ⟨c, rest, chars⟩ := List.exists_cons_of_ne_nil ne
  have begin : SameOffset s.chars 0 0 := sameOffset_zero
  obtain ⟨d, byte, first⟩ := begin.first chars
  have enclosed := inStep_enclosed h begin
  rw [Span.tail_zero] at enclosed
  have mark {m : Char} (hc : c = m) (ascii : m.toNat < 128) : SameOffset s.chars 1 1 := one_offset chars (hc ▸ ascii)
  unfold operand byteOperand
  rw [checked_bind h.text, checked_bind byte, chars]
  dsimp only
  rw [← chars]
  refine inStep_ite (or_congr (first.is (by decide)) (first.is (by decide))) (fun _ => ?literal) fun _ =>
    inStep_ite (first.test fun _ => ascii_of_isDigit) (fun digit => ?number) fun _ =>
    inStep_ite (first.is (by decide)) (fun dollar => ?parameter) fun _ =>
    inStep_ite (first.is (by decide)) (fun this => ?this) fun _ =>
    inStep_ite (first.is (by decide)) (fun caret => ?parent) fun _ =>
    inStep_ite (first.is (by decide)) (fun star => ?everything) fun _ =>
    inStep_ite (first.is (by decide)) (fun _ => ?group) fun _ =>
    inStep_ite (first.is (by decide)) (fun _ => ?array) fun _ =>
    inStep_ite (first.is (by decide)) (fun _ => ?object) fun _ =>
    inStep_ite (first.test fun _ begins => ascii_of_isNameChar (isNameChar_of_beginsName begins))
      (fun _ => inStep_namedOperand hp h) fun _ => inStep_failure
  case literal =>
    refine (inStep_require (rel_with (literalLength_bytes s.chars))).bind fun n k found => ?_
    obtain ⟨last, length⟩ := found
    rw [checked_bind (last.literalBody length)]
    refine (inStep_require (rel_map_self String.ofList _)).bind fun text content decoded => ?_
    exact inStep_pure ⟨by rw [decoded], _, rfl, last⟩
  case number =>
    obtain ⟨number, after, numeral⟩ := numeral_of_digit digit rest
    rw [← chars] at numeral
    obtain ⟨used, text, cut, length⟩ := number_bytes numeral
    have last : SameOffset s.chars used.length (bytes used).length := ⟨used, after, text, rfl, rfl⟩
    have digits : s.chars.take used.length = used := by
      rw [text, List.take_left]
    have taken := last.takeBytes
    rw [digits] at taken
    rw [require_bind numeral, checked_bind length, checked_bind taken, require_bind cut]
    refine inStep_pure ⟨rfl, _, ?_, last⟩
    rw [text, List.length_append, Nat.add_sub_cancel]
  case parameter =>
    obtain ⟨name, last⟩ := (mark dollar (by decide)).name
    rw [chars, List.drop_one, List.tail_cons, ← chars] at name last
    rw [checked_bind name]
    exact inStep_ite Iff.rfl (fun _ => inStep_failure) fun _ => inStep_pure ⟨rfl, _, rfl, last⟩
  case this => exact inStep_pure ⟨rfl, _, rfl, mark this (by decide)⟩
  case parent =>
    obtain ⟨more, last⟩ := (mark caret (by decide)).parents
    rw [chars, List.drop_one, List.tail_cons, ← chars] at more last
    rw [checked_bind more]
    exact inStep_pure ⟨rfl, _, rfl, last⟩
  case everything => exact inStep_pure ⟨rfl, _, rfl, mark star (by decide)⟩
  case group =>
    refine enclosed.bind fun (inside, rest) (range, offset) found => ?_
    refine (hp _ _ _ found.1).bind_same fun e => ?_
    exact inStep_pure ⟨rfl, found.2⟩
  case array =>
    refine enclosed.bind fun (inside, rest) (range, offset) found => ?_
    refine (inStep_arrayElements hp found.1).bind_same fun elements => ?_
    exact inStep_pure ⟨rfl, found.2⟩
  case object =>
    refine enclosed.bind fun (inside, rest) (range, offset) found => ?_
    refine (inStep_objectBody hp found.1).bind_same fun body => ?_
    exact inStep_pure ⟨rfl, found.2⟩

/-! ## Levels -/

variable {follow : Follow Remembering} {follow' : Expr → ByteSpan → OptionT Checked Expr}

section Follow

variable (hf : ∀ base t c, Covers source t c → InStep source Eq (follow base t) (follow' base c))

include hf

omit hp in
/-- What follows a bracket, in a range of its own. -/
theorem inStep_rest (base : Expr) (h : Covers source s b) {rest : Span}
    (left : ∃ n, rest = s.tail n ∧ SameOffset s.chars n k) :
    InStep source Eq (follow base rest) (checked (b.tail? source k) >>= fun c => follow' base c) := by
  obtain ⟨n, rfl, behind⟩ := left
  obtain ⟨c, range, covers⟩ := h.tail behind
  rw [checked_bind range]
  exact hf base _ _ covers

theorem inStep_pipeTarget (base : Expr) (h : Covers source s b) :
    InStep source Eq (pipeTarget parse follow base s) (bytePipeTarget source parse' follow' base b) := by
  have begin : SameOffset s.chars 0 0 := sameOffset_zero
  have enclosed := inStep_enclosed h begin
  rw [Span.tail_zero] at enclosed
  obtain ⟨name, last⟩ := begin.name
  rw [List.drop_zero, Nat.zero_add, Nat.zero_add] at last
  rw [List.drop_zero] at name
  unfold pipeTarget bytePipeTarget
  rw [checked_bind h.text]
  split
  · rename_i rest head
    rw [if_pos (by rw [head]; rfl)]
    refine enclosed.bind fun (inside, rest) (range, offset) found => ?_
    refine (inStep_objectBody hp found.1).bind_same fun body => ?_
    exact inStep_rest hf _ h found.2
  · rename_i noBrace
    have noBrace : ¬ s.chars.head? = some '{' := by
      intro head
      obtain ⟨rest, text⟩ := List.head?_eq_some_iff.mp head
      exact noBrace rest text
    rw [if_neg noBrace, checked_bind name]
    refine inStep_ite (or_congr Iff.rfl (not_congr (last.byte (by decide)))) (fun _ => inStep_failure) fun _ => ?_
    refine (inStep_enclosed h last).bind fun (inside, rest) (range, offset) found => ?_
    refine (inStep_arguments hp true found.1).bind_same fun args => ?_
    exact inStep_rest hf _ h found.2

theorem inStep_pipeLevel (h : Covers source s b) :
    InStep source Eq (pipeLevel parse follow s) (bytePipeLevel source parse' follow' b) := by
  unfold pipeLevel bytePipeLevel
  rw [checked_bind h.text]
  refine (inStep_surface s.chars).bind fun places places' found => ?_
  have pipes : List.Forall₂ (fun p q => isPipe p = true ∧ SamePlace s.chars p q) (places.filter isPipe).reverse
      (places'.filter isPipe).reverse := by
    apply List.rel_reverse
    refine (List.forall₂_and_left _ _).mpr ⟨fun p hp => (List.mem_filter.mp hp).2, ?_⟩
    apply List.rel_filter _ found.1
    intro p q same
    show isPipe p = true ↔ isPipe q = true
    rw [same.isPipe]
  refine (inStep_firstSuccess pipes ?_).orElse (hp _ _ _ h)
  rintro p q ⟨pipe, same⟩
  obtain ⟨left, range, covers⟩ := h.slice sameOffset_zero same.offset (Nat.zero_le _)
  have behind : SameOffset s.chars (p.offset + 1) (q.offset + 1) := same.behind (Bool.and_eq_true_iff.mp pipe).1 (by decide)
  obtain ⟨right, range', covers'⟩ := h.tail behind
  rw [checked_bind range]
  refine (hp _ _ _ covers).bind_same fun base => ?_
  rw [checked_bind range']
  exact inStep_pipeTarget hp hf base covers'

theorem inStep_operandLevel (h : Covers source s b) (ne : s.chars ≠ []) :
    InStep source Eq (operandLevel parse follow s) (byteOperandLevel source parse' follow' b) := by
  have begin : SameOffset s.chars 0 0 := sameOffset_zero
  have signed {c : Char} {rest : List Char} (head : s.chars = c :: rest) (ascii : c.toNat < 128) (f : Expr → Expr) :
      InStep source Eq (f <$> parse .operand (s.tail 1)) (checked (b.tail? source 1) >>= fun t => f <$> parse' .operand t) := by
    obtain ⟨t, range, covers⟩ := h.tail (one_offset head ascii)
    rw [checked_bind range]
    exact (hp _ _ _ covers).congr f
  unfold operandLevel byteOperandLevel
  rw [checked_bind h.text]
  split
  · rename_i rest head
    have byte := begin.byte_of_head head (by decide)
    rw [checked_bind byte, if_pos rfl]
    exact signed head (by decide) Expr.negate
  · rename_i rest head
    have byte := begin.byte_of_head head (by decide)
    rw [checked_bind byte, if_neg (by decide), if_pos rfl]
    exact signed head (by decide) Expr.positive
  · rename_i minus plus
    obtain ⟨c, rest, head⟩ := List.exists_cons_of_ne_nil ne
    obtain ⟨d, byte, -⟩ := begin.first head
    have not {m : Char} (ascii : m.toNat < 128) (none : ∀ rest, s.chars = m :: rest → False) : d ≠ m :=
      begin.ne_of_byte byte ascii none
    rw [checked_bind byte, if_neg (not (by decide) minus), if_neg (not (by decide) plus)]
    refine (inStep_operand hp h ne).bind fun (e, rest) (e', offset) found => ?_
    obtain ⟨rfl, left⟩ := found
    exact inStep_rest hf e h left

end Follow

theorem inStep_infixLevel {l : Level} {r : InfixRule} (hr : l.infix? = some r) (h : Covers source s b) :
    InStep source Eq (infixLevel parse l r s) (byteInfixLevel source parse' l r b) := by
  unfold infixLevel byteInfixLevel
  rw [checked_bind h.text]
  refine (inStep_surface s.chars).bind fun places places' found => ?_
  -- The same operators, in the same order.
  have operators : List.Forall₂ (fun x y => SamePlace s.chars x.1 y.1 ∧ r.find? x.1 = some x.2 ∧ x.2 = y.2)
      (r.candidates places) (r.candidates places') := by
    have found : List.Forall₂ (fun x y => SamePlace s.chars x.1 y.1 ∧ r.find? x.1 = some x.2 ∧ x.2 = y.2)
        (places.filterMap fun p => (r.find? p).map (p, ·)) (places'.filterMap fun p => (r.find? p).map (p, ·)) := by
      apply List.rel_filterMap _ found.1
      intro p q same
      dsimp only
      rw [same.find hr]
      rcases operator : r.find? p with _ | f
      · exact .none
      · exact .some ⟨same, operator, rfl⟩
    unfold InfixRule.candidates
    dsimp only
    split
    · exact found
    · exact List.rel_reverse found
  refine (inStep_firstSuccess operators ?_).orElse (hp _ _ _ h)
  rintro ⟨p, f⟩ ⟨q, _⟩ ⟨same, operator, rfl⟩
  obtain ⟨right, range, covers⟩ := h.tail (same.behind_found hr operator)
  obtain ⟨left, range', covers'⟩ := h.slice sameOffset_zero same.offset (Nat.zero_le _)
  dsimp only
  rw [checked_bind range]
  refine (hp _ _ _ covers).bind_same fun e => ?_
  rw [checked_bind range']
  exact (hp _ _ _ covers').bind_same fun e' => inStep_pure rfl

theorem inStep_signLevel (h : Covers source s b) (ne : s.chars ≠ []) :
    InStep source Eq (signLevel parse s) (byteSignLevel source parse' b) := by
  have begin : SameOffset s.chars 0 0 := sameOffset_zero
  obtain ⟨t, range⟩ := h.tail_one ne
  have signed {c : Char} {rest : List Char} (head : s.chars = c :: rest) (ascii : c.toNat < 128) (f : Expr → Expr) :
      InStep source Eq (f <$> parse .sign (s.tail 1) <|> parse .power s) (f <$> parse' .sign t <|> parse' .power b) := by
    obtain ⟨_, range', covers⟩ := h.tail (one_offset head ascii)
    cases range.symm.trans range'
    exact ((hp _ _ _ covers).congr f).orElse (hp _ _ _ h)
  unfold signLevel byteSignLevel
  rw [checked_bind range, checked_bind h.text]
  split
  · rename_i rest head
    have byte := begin.byte_of_head head (by decide)
    rw [checked_bind byte, if_pos rfl]
    exact signed head (by decide) Expr.not
  · rename_i rest head
    have byte := begin.byte_of_head head (by decide)
    rw [checked_bind byte, if_neg (by decide), if_pos rfl]
    exact signed head (by decide) Expr.negate
  · rename_i rest head
    have byte := begin.byte_of_head head (by decide)
    rw [checked_bind byte, if_neg (by decide), if_neg (by decide), if_pos rfl]
    exact signed head (by decide) Expr.positive
  · rename_i bang minus plus
    obtain ⟨c, rest, head⟩ := List.exists_cons_of_ne_nil ne
    obtain ⟨d, byte, -⟩ := begin.first head
    have not {m : Char} (ascii : m.toNat < 128) (none : ∀ rest, s.chars = m :: rest → False) : d ≠ m :=
      begin.ne_of_byte byte ascii none
    rw [checked_bind byte, if_neg (not (by decide) bang), if_neg (not (by decide) minus), if_neg (not (by decide) plus)]
    exact hp _ _ _ h

theorem inStep_rule (hf : ∀ base t c, Covers source t c → InStep source Eq (follow base t) (follow' base c)) (l : Level)
    (h : Covers source s b) (ne : s.chars ≠ []) :
    InStep source Eq (rule parse follow l s) (byteRule source parse' follow' l b) := by
  cases l with
  | pipe => exact inStep_pipeLevel hp hf h
  | sign => exact inStep_signLevel hp h ne
  | operand => exact inStep_operandLevel hp hf h ne
  | or => exact inStep_infixLevel hp (l := .or) rfl h
  | and => exact inStep_infixLevel hp (l := .and) rfl h
  | comparison => exact inStep_infixLevel hp (l := .comparison) rfl h
  | sum => exact inStep_infixLevel hp (l := .sum) rfl h
  | product => exact inStep_infixLevel hp (l := .product) rfl h
  | power => exact inStep_infixLevel hp (l := .power) rfl h

end Parsers

end Rules

end Groq.Query
