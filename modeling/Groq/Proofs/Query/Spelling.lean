/-
  Groq.Proofs.Query.Spelling — how the texts that the grammar accepts are spelled.

  The rules look for split points and closing brackets in a text that is there already. `Spells` says
  the same from the parts up: a query is a sign and a query, two queries and an operator between
  them, or an operand and traversals; and what stands in brackets is spelled too. It forgets levels
  and values, so it allows more than the rules accept. What holds of every text that parses is then
  an induction over `Spells`, with no offsets in it.
  Proved: whatever a level accepts is spelled as a query (`reading_spells`).
-/

import Groq.Proofs.Query.Plain

namespace Groq.Query

/-! ## Parts -/

/-- What a stretch of text can be. -/
inductive Part where
  | query
  /-- An operand without its traversals. -/
  | operand
  | brackets
  /-- Traversals, or nothing. -/
  | chain
  /-- What stands in brackets. -/
  | list
  | item
  deriving DecidableEq, Repr

def IsName (w : List Char) : Prop := w ≠ [] ∧ nameAt w = w

/-- A text with its parts, levels of precedence left aside. -/
inductive Spells : Part → List Char → Prop
  | signed {c : Char} {x : List Char} : c = '!' ∨ c = '-' ∨ c = '+' → Spells .query x → Spells .query (c :: x)
  | joined {a b : List Char} (op : Operator) : Spells .query a → Spells .query b → Spells .query (a ++ (op.text ++ b))
  | applied {a b : List Char} : Spells .operand a → Spells .chain b → Spells .query (a ++ b)
  | literal {w : List Char} : literalLength? w = some w.length → Spells .operand w
  | numeral {c : Char} {w : List Char} : c.isDigit = true → IsSpelled (c :: w) → Spells .operand (c :: w)
  | parameter {w : List Char} : IsName w → Spells .operand ('$' :: w)
  | this : Spells .operand ['@']
  | everything : Spells .operand ['*']
  | parent : Spells .operand ['^']
  | grandparent {x : List Char} : Spells .operand ('^' :: x) → Spells .operand ('^' :: '.' :: '^' :: x)
  | enclosed {x : List Char} : Spells .brackets x → Spells .operand x
  | name {w : List Char} : IsName w → Spells .operand w
  | call {w x : List Char} : IsName w → Spells .brackets x → Spells .operand (w ++ x)
  | qualified {v w x : List Char} : IsName v → IsName w → Spells .brackets x →
      Spells .operand (v ++ ':' :: ':' :: (w ++ x))
  | bracketed {c d : Char} {x : List Char} : closerOf? c = some d → Spells .list x → Spells .brackets (c :: (x ++ [d]))
  | done : Spells .chain []
  | field {w x : List Char} : IsName w → Spells .chain x → Spells .chain ('.' :: (w ++ x))
  | deref {w x : List Char} : nameAt w = w → Spells .chain x → Spells .chain ('-' :: '>' :: (w ++ x))
  | traversed {a b : List Char} : Spells .brackets a → Spells .chain b → Spells .chain (a ++ b)
  | empty : Spells .list []
  | single {x : List Char} : Spells .item x → Spells .list x
  | more {x y : List Char} : Spells .item x → Spells .list y → Spells .list (x ++ ',' :: y)
  | range {a b : List Char} (inclusive : Bool) : Spells .query a → Spells .query b →
      Spells .list (a ++ ((if inclusive then ['.', '.'] else ['.', '.', '.']) ++ b))
  | plain {x : List Char} : Spells .query x → Spells .item x
  | splat {x : List Char} : Spells .query x → Spells .item ('.' :: '.' :: '.' :: x)
  | splatThis : Spells .item ['.', '.', '.']
  | keyed {w x : List Char} : literalLength? w = some w.length → Spells .query x → Spells .item (w ++ ':' :: x)
  | sorted {x : List Char} (descending : Bool) : Spells .query x →
      Spells .item (x ++ if descending then " desc ".toList else " asc ".toList)

/-! ## Names and literals -/

theorem nameAt_nameAt (cs : List Char) : nameAt (nameAt cs) = nameAt cs := by
  rcases cs with _ | ⟨c, cs⟩
  · rfl
  · by_cases begins : beginsName c = true
    · have run := (run_whole fun d (hd : d ∈ cs.takeWhile isNameChar) => List.all_eq_true.mp List.all_takeWhile d hd).1
      simp [nameAt, begins, run]
    · simp [nameAt, begins]

theorem isName_nameAt {cs : List Char} (h : nameAt cs ≠ []) : IsName (nameAt cs) := ⟨h, nameAt_nameAt cs⟩

theorem literalRest_take {quote : Char} {cs : List Char} {length : Nat} (h : literalRest? quote cs = some length) :
    literalRest? quote (cs.take length) = some length := by
  fun_induction literalRest? quote cs generalizing length with
  | case1 => cases h
  | case2 c rest ih =>
    obtain ⟨n, hn, rfl⟩ := Option.map_eq_some_iff.mp h
    rw [List.take_succ_cons, List.take_succ_cons, literalRest?, ih hn]
    rfl
  | case3 => cases h
  | case4 rest plain =>
    cases h
    rw [List.take_succ_cons, literalRest?, if_pos rfl]
    exact plain
  | case5 c rest plain other ih =>
    obtain ⟨n, hn, rfl⟩ := Option.map_eq_some_iff.mp h
    rw [List.take_succ_cons, literalRest?, if_neg other, ih hn]
    · rfl
    · exact plain

/-- A literal at the beginning of a text is one by itself. -/
theorem literalLength_take {cs : List Char} {length : Nat} (h : literalLength? cs = some length) :
    literalLength? (cs.take length) = some (cs.take length).length := by
  have whole : (cs.take length).length = length := List.length_take_of_le (literalLength_append h []).2
  rw [whole]
  rcases cs with _ | ⟨c, cs⟩
  · cases h
  · simp only [literalLength?] at h
    split at h
    · rename_i quote
      obtain ⟨n, hn, rfl⟩ := Option.map_eq_some_iff.mp h
      rw [List.take_succ_cons, literalLength?, if_pos quote, literalRest_take hn]
      rfl
    · cases h

/-! ## Brackets -/

/-- What a bracket encloses stands between it and the one that closes it. -/
theorem enclosed_text {s inside rest : Span} (h : s.enclosed? = some (inside, rest)) :
    ∃ c d, s.chars = c :: (inside.chars ++ d :: rest.chars) ∧ closerOf? c = some d := by
  obtain ⟨close, hc, h⟩ := Option.map_eq_some_iff.mp h
  cases h
  rcases hs : s.chars with _ | ⟨c, cs⟩
  · rw [hs] at hc
    cases hc
  · rw [hs] at hc
    obtain ⟨closer, ho, hc⟩ := Option.bind_eq_some_iff.mp hc
    obtain ⟨between, d, after, rfl, hclose, last⟩ := closeFrom_text hc (List.cons_ne_nil _ _)
    cases last
    refine ⟨c, _, ?_, ho⟩
    simp [Span.slice, Span.tail, hs, hclose, Nat.add_comm 1]

/-- Brackets in front of a text, and what they enclose is a list. -/
theorem Spells.of_enclosed {s inside rest : Span} (h : s.enclosed? = some (inside, rest)) (list : Spells .list inside.chars) :
    ∃ taken, s.chars = taken ++ rest.chars ∧ Spells .brackets taken := by
  obtain ⟨c, d, text, hd⟩ := enclosed_text h
  exact ⟨c :: (inside.chars ++ [d]), by simp [text], .bracketed hd list⟩

/-! ## Lists -/

/-- Offsets of commas, in order. -/
def Commas (cs : List Char) (first : Nat) : List Nat → Prop
  | [] => True
  | offset :: rest => first ≤ offset ∧ (∃ tail, cs.drop offset = ',' :: tail) ∧ Commas cs (offset + 1) rest

theorem commas_of_surface {cs : List Char} {places : List Place} {first : Nat}
    (sorted : places.Pairwise fun p q => p.offset < q.offset)
    (each : ∀ p ∈ places, first ≤ p.offset ∧ cs.drop p.offset = p.rest) :
    Commas cs first ((places.filter (·.startsWith ",")).map (·.offset)) := by
  induction places generalizing first with
  | nil => trivial
  | cons p rest ih =>
    obtain ⟨before, sorted⟩ := List.pairwise_cons.mp sorted
    obtain ⟨le, text⟩ := each p List.mem_cons_self
    have others := fun q hq => each q (List.mem_cons_of_mem _ hq)
    by_cases comma : p.startsWith "," = true
    · rw [List.filter_cons, if_pos comma]
      obtain ⟨tail, htail⟩ := startsWith_iff.mp comma
      exact ⟨le, ⟨tail, text.trans htail⟩, ih sorted fun q hq => ⟨before q hq, (others q hq).2⟩⟩
    · rw [List.filter_cons, if_neg comma]
      exact ih sorted others

/-- Items with commas between them are a list; behind the last comma there may be none. -/
theorem spells_cutAt {s : Span} {offsets : List Nat} {first : Nat} (commas : Commas s.chars first offsets)
    (each : ∀ t ∈ (s.cutAt first offsets).dropLast, Spells .item t.chars)
    (last : ∀ t, (s.cutAt first offsets).getLast? = some t → Spells .item t.chars ∨ t.chars = []) :
    Spells .list (s.chars.drop first) := by
  induction offsets generalizing first with
  | nil =>
    rcases last _ rfl with item | none
    · exact .single item
    · rw [show s.chars.drop first = [] from none]
      exact .empty
  | cons offset rest ih =>
    obtain ⟨le, ⟨tail, comma⟩, commas⟩ := commas
    obtain ⟨next, others, pieces⟩ : ∃ next others, s.cutAt (offset + 1) rest = next :: others := by
      cases rest <;> exact ⟨_, _, rfl⟩
    simp only [Span.cutAt, pieces, List.dropLast_cons_cons, List.getLast?_cons_cons] at each last
    have piece : Spells .item ((s.chars.drop first).take (offset - first)) := each (s.slice first offset) List.mem_cons_self
    have behind := ih commas (by rw [pieces]; exact fun t ht => each t (List.mem_cons_of_mem _ ht)) (by rw [pieces]; exact last)
    have text : (s.chars.drop first).drop (offset - first) = ',' :: s.chars.drop (offset + 1) := by
      rw [List.drop_drop, Nat.add_sub_cancel' le, comma, ← List.drop_drop, comma]
      rfl
    rw [← List.take_append_drop (offset - first) (s.chars.drop first), text]
    exact .more piece behind

theorem spells_pieces {s : Span} {pieces : List Span} (h : s.pieces? = some pieces)
    (each : ∀ t ∈ pieces.dropLast, Spells .item t.chars)
    (last : ∀ t, pieces.getLast? = some t → Spells .item t.chars ∨ t.chars = []) : Spells .list s.chars := by
  obtain ⟨places, hp, rfl⟩ := Option.map_eq_some_iff.mp h
  exact spells_cutAt (commas_of_surface (surfaceFrom_sorted hp) fun p mem => ⟨Nat.zero_le _, surface_drop hp mem⟩) each last

theorem spells_pieces_all {s : Span} {pieces : List Span} (h : s.pieces? = some pieces)
    (each : ∀ t ∈ pieces, Spells .item t.chars) : Spells .list s.chars :=
  spells_pieces h (fun t ht => each t (List.dropLast_subset _ ht)) fun t ht => .inl (each t (List.mem_of_getLast? ht))

theorem spells_items {s : Span} {items : List Span} (h : s.items? = some items)
    (each : ∀ t ∈ items, Spells .item t.chars) : Spells .list s.chars := by
  unfold Span.items? at h
  split at h
  · rename_i none
    rw [none]
    exact .empty
  · obtain ⟨pieces, hp, rfl⟩ := Option.map_eq_some_iff.mp h
    split at each
    · rename_i trailing
      refine spells_pieces hp each fun t ht => .inr ?_
      have none := trailing.2
      rw [ht] at none
      simpa using none
    · exact spells_pieces_all hp each

section Rules

variable {constant? : Expr → Option Value} {parse : Parse Id} {walk : Follow Id} {s : Span}

theorem argument_spells (sortKeys : Bool) (hp : ∀ l t, t.Within s → Yields (parse l t) fun _ => Spells .query t.chars) :
    Yields (argument parse sortKeys s) fun _ => Spells .item s.chars := by
  have marked (mark : String) (f : Expr → Expr) (suffix : mark.toList.isSuffixOf s.chars = true)
      (item : ∀ x, Spells .query x → Spells .item (x ++ mark.toList)) :
      Yields (f <$> parse .pipe (s.slice 0 (s.chars.length - mark.length))) fun _ => Spells .item s.chars := by
    obtain ⟨key, hkey⟩ := List.isSuffixOf_iff_suffix.mp suffix
    refine yields_map f fun e he => ?_
    have query := hp _ _ (s.within_slice _ _) e he
    have length : s.chars.length - mark.length = key.length := by
      rw [← hkey, List.length_append, String.length_toList, Nat.add_sub_cancel]
    rw [length, show (s.slice 0 key.length).chars = key by simp [Span.slice, ← hkey]] at query
    rw [← hkey]
    exact item key query
  unfold argument
  refine yields_ite (fun h => marked " desc " .desc h.2 fun x => .sorted true) fun _ => ?_
  refine yields_ite (fun h => marked " asc " .asc h.2 fun x => .sorted false) fun _ => ?_
  exact fun e he => .plain (hp _ _ (.refl s) e he)

theorem yields_mapM_all {α β : Type} {P : α → Prop} {f : α → OptionT Id β} {items : List α}
    (each : ∀ a ∈ items, Yields (f a) fun _ => P a) : Yields (items.mapM f) fun _ => ∀ a ∈ items, P a := by
  induction items with
  | nil => exact yields_pure nofun
  | cons a rest ih =>
    simp only [List.mapM_cons]
    refine yields_bind fun b hb => yields_bind fun bs hbs => yields_pure ?_
    exact List.forall_mem_cons.mpr
      ⟨each a List.mem_cons_self b hb, ih (fun a ha => each a (List.mem_cons_of_mem _ ha)) bs hbs⟩

theorem arguments_spells (sortKeys : Bool)
    (hp : ∀ l t, t.Within s → Yields (parse l t) fun _ => Spells .query t.chars) :
    Yields (arguments parse sortKeys s) fun _ => Spells .list s.chars := by
  unfold arguments
  refine yields_ite (fun none => yields_pure (none ▸ .empty)) fun _ => yields_bind fun pieces h => ?_
  have each : Yields (pieces.mapM (argument parse sortKeys)) fun _ => ∀ t ∈ pieces, Spells .item t.chars :=
    yields_mapM_all fun t ht => argument_spells sortKeys fun l u hu => hp l u (hu.trans (Span.within_pieces h t ht))
  exact fun args ha => spells_pieces_all h (each args ha)

theorem splat_text (splat : isSplat s = true) : s.chars = '.' :: '.' :: '.' :: (s.tail 3).chars := by
  obtain ⟨rest, hrest⟩ := List.isPrefixOf_iff_prefix.mp splat
  simp [Span.tail, ← hrest]

theorem Spells.of_splat (splat : isSplat s = true) (h : Spells .query (s.tail 3).chars) : Spells .item s.chars := by
  rw [splat_text splat]
  exact .splat h

theorem arrayElements_spells (hp : ∀ l t, t.Within s → Yields (parse l t) fun _ => Spells .query t.chars) :
    Yields (arrayElements parse s) fun _ => Spells .list s.chars := by
  refine yields_bind fun items h => ?_
  have each : Yields (items.mapM (arrayElement parse)) fun _ => ∀ t ∈ items, Spells .item t.chars := by
    refine yields_mapM_all fun t ht => ?_
    have within := Span.within_items h t ht
    unfold arrayElement
    refine yields_ite (fun splat => yields_map _ fun e he => ?_) fun _ => yields_map _ fun e he => ?_
    · exact .of_splat splat (hp _ _ ((t.within_tail 3).trans within) e he)
    · exact .plain (hp _ _ within e he)
  exact fun entries he => spells_items h (each entries he)

theorem keyColon_text {colon : Nat} (h : keyColon? s = some colon) :
    s.chars = s.chars.take colon ++ ':' :: (s.tail (colon + 1)).chars := by
  simp only [keyColon?, Option.bind_eq_bind, Option.bind_eq_some_iff] at h
  obtain ⟨places, hp, place, hfind, h⟩ := h
  cases h
  have colon := List.find?_some hfind
  simp only [Bool.and_eq_true] at colon
  obtain ⟨tail, htail⟩ := startsWith_iff.mp colon.1
  have text := surface_drop hp (List.mem_of_find?_eq_some hfind)
  have behind : (s.tail (place.offset + 1)).chars = tail := by
    show s.chars.drop (place.offset + 1) = tail
    rw [← List.drop_drop, text, htail]
    rfl
  rw [behind]
  exact (surface_place hp (List.mem_of_find?_eq_some hfind)).2.trans (congrArg _ htail)

theorem objectAttribute_spells (hp : ∀ l t, t.Within s → Yields (parse l t) fun _ => Spells .query t.chars) :
    Yields (objectAttribute parse s) fun _ => Spells .item s.chars := by
  unfold objectAttribute
  refine yields_ite (fun splat => ?splat) fun _ => ?_
  case splat =>
    refine yields_ite (fun none => yields_pure ?_) fun _ => yields_map _ fun e he => ?_
    · rw [splat_text splat, none]
      exact .splatThis
    · exact .of_splat splat (hp _ _ (s.within_tail 3) e he)
  split
  · rename_i colon hcolon
    refine yields_ite (fun key => yields_bind fun name _ => yields_map _ fun e he => ?_) fun _ => yields_failure
    rw [keyColon_text hcolon]
    exact .keyed key (hp _ _ (s.within_tail _) e he)
  · exact yields_bind fun value hv => yields_bind fun name _ => yields_pure (.plain (hp _ _ (.refl s) value hv))

theorem objectBody_spells (hp : ∀ l t, t.Within s → Yields (parse l t) fun _ => Spells .query t.chars) :
    Yields (objectBody parse s) fun _ => Spells .list s.chars := by
  refine yields_bind fun items h => yields_bind fun entries he => yields_pure ?_
  have each : Yields (items.mapM (objectAttribute parse)) fun _ => ∀ t ∈ items, Spells .item t.chars :=
    yields_mapM_all fun t ht => objectAttribute_spells fun l u hu => hp l u (hu.trans (Span.within_items h t ht))
  exact spells_items h (each entries he)

/-! ## Traversals -/

theorem rangeMark_text {mark : Place} (h : rangeMark? s = some mark) {inclusive : Bool}
    (hi : inclusive = !mark.startsWith "...") : s.chars = (s.slice 0 mark.offset).chars ++
      ((if inclusive then ['.', '.'] else ['.', '.', '.']) ++ (s.tail (mark.offset + if inclusive then 2 else 3)).chars) := by
  simp only [rangeMark?, Option.bind_eq_bind, Option.bind_eq_some_iff] at h
  obtain ⟨places, hp, hfind⟩ := h
  have mem := List.mem_of_find?_eq_some hfind
  have found := List.find?_some hfind
  obtain ⟨tail, htail⟩ := startsWith_iff.mp found
  have whole : s.chars = (s.slice 0 mark.offset).chars ++ mark.rest := by
    simpa [Span.slice] using (surface_place hp mem).2
  have behind (length : Nat) : (s.tail (mark.offset + length)).chars = mark.rest.drop length := by
    rw [← surface_drop hp mem, List.drop_drop]
    rfl
  rw [behind]
  by_cases three : mark.startsWith "..." = true
  · obtain ⟨after, hafter⟩ := startsWith_iff.mp three
    rw [hafter] at whole ⊢
    rw [hi, three]
    exact whole
  · rw [htail] at whole ⊢
    rw [hi, Bool.eq_false_iff.mpr three]
    exact whole

theorem bracket_spells (base : Expr) (hp : ∀ l t, t.Within s → Yields (parse l t) fun _ => Spells .query t.chars) :
    Yields (bracket constant? parse base s) fun _ => Spells .list s.chars := by
  unfold bracket
  refine yields_ite (fun none => yields_pure (none ▸ .empty)) fun _ => ?_
  split
  · rename_i mark hmark
    refine yields_bind fun left hleft => yields_bind fun right hright => yields_pure ?_
    have bound {t : Span} (ht : t.Within s) {i : Int} (hi : (sliceBound constant? parse t).run.run = some i) :
        Spells .query t.chars := by
      obtain ⟨e, he, -⟩ := Option.bind_eq_some_iff.mp ((run_bind _ _).symm.trans hi)
      exact hp _ _ ht e he
    rw [rangeMark_text hmark rfl]
    exact .range _ (bound (s.within_slice _ _) hleft) (bound (s.within_tail _) hright)
  · refine yields_bind fun inner hi => ?_
    have list := Spells.single (.plain (hp _ _ (.refl s) inner hi))
    split
    · exact yields_bind fun index _ => yields_pure list
    · exact yields_pure list
    · exact yields_pure list

theorem traversal_spells (base : Expr) (hp : ∀ l t, t.Inside s → Yields (parse l t) fun _ => Spells .query t.chars) :
    Yields (traversal constant? parse base s) fun x => Spells .chain x.2.chars → Spells .chain s.chars := by
  have enclosed {i r : Span} (h : s.enclosed? = some (i, r)) :
      ∀ l t, t.Within i → Yields (parse l t) fun _ => Spells .query t.chars :=
    fun l t ht => hp l t (ht.trans_inside (Span.inside_enclosed h).1)
  have behind {i r : Span} (h : s.enclosed? = some (i, r)) (list : Spells .list i.chars) (chain : Spells .chain r.chars) :
      Spells .chain s.chars := by
    obtain ⟨taken, text, brackets⟩ := Spells.of_enclosed h list
    rw [text]
    exact .traversed brackets chain
  have arrow {rest : List Char} (hs : s.chars = '-' :: '>' :: rest) {n : Nat} (hn : n = (nameAt rest).length)
      (chain : Spells .chain (s.tail (2 + n)).chars) : Spells .chain s.chars := by
    subst hn
    rw [show (s.tail (2 + (nameAt rest).length)).chars = rest.drop (nameAt rest).length by
      simp [Span.tail, hs, Nat.add_comm 2]] at chain
    rw [hs, ← nameAt_append_drop rest]
    exact .deref (nameAt_nameAt rest) chain
  unfold traversal
  split
  · rename_i rest hs
    refine yields_ite (fun _ => yields_failure) fun ne => yields_pure fun chain => ?_
    rw [show (s.tail (1 + (nameAt rest).length)).chars = rest.drop (nameAt rest).length by
      simp [Span.tail, hs, Nat.add_comm 1]] at chain
    rw [hs, ← nameAt_append_drop rest]
    exact .field (isName_nameAt ne) chain
  · rename_i rest hs
    refine yields_ite (fun none => yields_pure ?_) fun _ => yields_pure (arrow hs rfl)
    exact arrow (n := 0) hs (by rw [none]; rfl)
  · refine yields_bind ?_
    rintro ⟨i, r⟩ h
    exact yields_bind fun e he => yields_pure (behind h (bracket_spells base (enclosed h) e he))
  · refine yields_bind ?_
    rintro ⟨i, r⟩ h
    exact yields_bind fun body he => yields_pure (behind h (objectBody_spells (enclosed h) body he))
  · exact yields_failure

/-! ## Operands -/

/-- An operand in front of a text, and what follows it. -/
def Leads (s rest : Span) : Prop := ∃ taken, s.chars = taken ++ rest.chars ∧ Spells .operand taken

theorem leads_tail (taken rest : List Char) (text : s.chars = taken ++ rest) (operand : Spells .operand taken) {n : Nat}
    (hn : n = taken.length) : Leads s (s.tail n) := by
  subst hn
  exact ⟨taken, by simp [Span.tail, text], operand⟩

theorem callOperand_spells (library name : List Char) {t : Span} (ht : t.Within s)
    (hp : ∀ l t, t.Inside s → Yields (parse l t) fun _ => Spells .query t.chars) :
    Yields (callOperand parse library name t) fun x => ∃ taken, t.chars = taken ++ x.2.chars ∧ Spells .brackets taken := by
  refine yields_bind fun (i, r) h => yields_bind fun args ha => yields_pure (Spells.of_enclosed h ?_)
  exact arguments_spells false
    (fun l u hu => hp l u ((hu.trans_inside (Span.inside_enclosed h).1).trans_within ht)) args ha

theorem namedOperand_spells (ne : nameAt s.chars ≠ [])
    (hp : ∀ l t, t.Inside s → Yields (parse l t) fun _ => Spells .query t.chars) :
    Yields (namedOperand parse s) fun x => Leads s x.2 := by
  have text : s.chars = nameAt s.chars ++ (s.tail (nameAt s.chars).length).chars := (nameAt_append_drop s.chars).symm
  have name := isName_nameAt ne
  unfold namedOperand
  simp only []
  split
  · rename_i rest hrest
    refine yields_ite (fun _ => yields_failure) fun call x hx => ?_
    have within := (Span.within_tail _ (2 + (nameAt rest).length)).trans (s.within_tail (nameAt s.chars).length)
    obtain ⟨taken, arguments, brackets⟩ := callOperand_spells _ _ within hp x hx
    have behind : ((s.tail (nameAt s.chars).length).tail (2 + (nameAt rest).length)).chars =
        rest.drop (nameAt rest).length := by
      show ((s.tail (nameAt s.chars).length).chars).drop _ = _
      rw [hrest, Nat.add_comm]
      rfl
    rw [behind] at arguments
    refine ⟨nameAt s.chars ++ ':' :: ':' :: (nameAt rest ++ taken), ?_, ?_⟩
    · rw [List.append_assoc, List.cons_append, List.cons_append, List.append_assoc, ← arguments, nameAt_append_drop, ← hrest]
      exact text
    · exact .qualified name (isName_nameAt fun none => call (.inl none)) brackets
  · intro x hx
    obtain ⟨taken, call, brackets⟩ := callOperand_spells _ _ (s.within_tail _) hp x hx
    refine ⟨nameAt s.chars ++ taken, ?_, .call name brackets⟩
    rw [List.append_assoc, ← call]
    exact text
  · exact yields_pure ⟨_, text, .name name⟩

theorem parents_text (cs : List Char) : ∃ taken, cs = taken ++ cs.drop (2 * countParents cs) ∧
    taken.length = 2 * countParents cs ∧ Spells .operand ('^' :: taken) := by
  fun_induction countParents cs with
  | case1 rest ih =>
    obtain ⟨taken, text, length, operand⟩ := ih
    refine ⟨'.' :: '^' :: taken, ?_, ?_, .grandparent operand⟩
    · rw [Nat.mul_add, List.drop_succ_cons, List.drop_succ_cons, List.cons_append, List.cons_append, ← text]
    · simp only [List.length_cons, length]
      omega
  | case2 => exact ⟨[], rfl, rfl, .parent⟩

theorem operand_spells (hp : ∀ l t, t.Inside s → Yields (parse l t) fun _ => Spells .query t.chars) :
    Yields (operand parse s) fun x => Leads s x.2 := by
  have enclosed {i r : Span} (h : s.enclosed? = some (i, r)) :
      ∀ l t, t.Within i → Yields (parse l t) fun _ => Spells .query t.chars :=
    fun l t ht => hp l t (ht.trans_inside (Span.inside_enclosed h).1)
  have leads {i r : Span} (h : s.enclosed? = some (i, r)) (list : Spells .list i.chars) : Leads s r := by
    obtain ⟨taken, text, brackets⟩ := Spells.of_enclosed h list
    exact ⟨taken, text, .enclosed brackets⟩
  rcases hs : s.chars with _ | ⟨c, rest⟩
  · unfold operand
    rw [hs]
    exact yields_failure
  unfold operand
  rw [hs]
  dsimp only
  refine yields_ite (fun h => ?literal) fun _ => yields_ite (fun h => ?number) fun _ =>
    yields_ite (fun h => ?parameter) fun _ => ?_
  case literal =>
    refine yields_bind fun length hl => yields_bind fun text _ => yields_pure ?_
    have hl : literalLength? (c :: rest) = some length := hl
    refine leads_tail ((c :: rest).take length) _ (hs.trans (List.take_append_drop length _).symm)
      (.literal (literalLength_take hl)) (List.length_take_of_le (literalLength_append hl []).2).symm
  case number =>
    refine yields_bind fun (n, after) hn => yields_pure ?_
    obtain ⟨d, w, text, digit, spelled⟩ := numeral_spelled hn
    refine leads_tail (d :: w) after (hs.trans text) (.numeral digit spelled) ?_
    rw [text, List.length_append, Nat.add_sub_cancel]
  case parameter =>
    refine yields_ite (fun _ => yields_failure) fun ne => yields_pure ?_
    subst h
    exact leads_tail ('$' :: nameAt rest) (rest.drop (nameAt rest).length)
      (by rw [List.cons_append, nameAt_append_drop, hs]) (.parameter (isName_nameAt ne)) (Nat.add_comm _ _)
  refine yields_ite (fun h => ?this) fun _ => yields_ite (fun h => ?parent) fun _ =>
    yields_ite (fun h => ?everything) fun _ => ?_
  case this =>
    subst h
    exact yields_pure (leads_tail ['@'] rest hs .this rfl)
  case parent =>
    subst h
    obtain ⟨taken, text, length, operand⟩ := parents_text rest
    refine yields_pure (leads_tail ('^' :: taken) (rest.drop (2 * countParents rest)) ?_ operand ?_)
    · rw [List.cons_append, ← text, hs]
    · rw [List.length_cons, length, Nat.add_comm]
  case everything =>
    subst h
    exact yields_pure (leads_tail ['*'] rest hs .everything rfl)
  refine yields_ite (fun _ => ?group) fun _ => yields_ite (fun _ => ?array) fun _ =>
    yields_ite (fun _ => ?object) fun _ => yields_ite (fun h => ?name) fun _ => yields_failure
  case group =>
    exact yields_bind fun (i, r) h => yields_bind fun e he =>
      yields_pure (leads h (.single (.plain (enclosed h _ _ (.refl i) e he))))
  case array =>
    exact yields_bind fun (i, r) h => yields_bind fun entries he =>
      yields_pure (leads h (arrayElements_spells (enclosed h) entries he))
  case object =>
    exact yields_bind fun (i, r) h => yields_bind fun e he =>
      yields_pure (leads h (objectBody_spells (enclosed h) e he))
  case name => exact namedOperand_spells (by simp [hs, nameAt, h]) hp

/-! ## Levels -/

variable (hp : ∀ l t, t.Inside s → Yields (parse l t) fun _ => Spells .query t.chars)
  (hw : ∀ e t, t.Inside s → Yields (walk e t) fun _ => Spells .chain t.chars)

include hp hw in
theorem pipeTarget_spells (base : Expr) {t : Span} (ht : t.Within s) :
    Yields (pipeTarget parse walk base t) fun _ => Spells .query t.chars := by
  unfold pipeTarget
  split
  · refine yields_bind fun (i, r) h => yields_bind fun body he e hr => ?_
    obtain ⟨shorter, after⟩ := Span.inside_enclosed h
    have object := objectBody_spells (fun l u hu => hp l u ((hu.trans_inside shorter).trans_within ht)) body he
    obtain ⟨taken, text, brackets⟩ := Spells.of_enclosed h object
    rw [text]
    exact .applied (.enclosed brackets) (hw _ r (after.trans_within ht) e hr)
  · refine yields_ite (fun _ => yields_failure) fun call => yields_bind fun (i, r) h => yields_bind fun args ha e hr => ?_
    have within := (t.within_tail (nameAt t.chars).length).trans ht
    obtain ⟨shorter, after⟩ := Span.inside_enclosed h
    have list := arguments_spells true (fun l u hu => hp l u ((hu.trans_inside shorter).trans_within within)) args ha
    obtain ⟨taken, text, brackets⟩ := Spells.of_enclosed h list
    have behind : t.chars.drop (nameAt t.chars).length = taken ++ r.chars := text
    rw [← nameAt_append_drop t.chars, behind, ← List.append_assoc]
    exact .applied (.call (isName_nameAt fun none => call (.inl none)) brackets) (hw _ r (after.trans_within within) e hr)

/-- A text with an operator in it, in three parts. -/
theorem place_text {places : List Place} (h : surface? s.chars = some places) {p : Place} (mem : p ∈ places)
    {op : Operator} {length : Nat} (found : operatorAt? p.rest = some (op, p.rest.drop length)) :
    s.chars = (s.slice 0 p.offset).chars ++ (op.text ++ (s.tail (p.offset + length)).chars) := by
  have before : (s.slice 0 p.offset).chars = s.chars.take p.offset := by simp [Span.slice]
  have after : (s.tail (p.offset + length)).chars = p.rest.drop length := by
    rw [← surface_drop h mem, List.drop_drop]
    rfl
  rw [before, after, ← (operatorAt_eq_some.mp found).1]
  exact (surface_place h mem).2

include hp hw in
theorem pipeLevel_spells (tighter : Yields (parse .or s) fun _ => Spells .query s.chars) :
    Yields (pipeLevel parse walk s) fun _ => Spells .query s.chars := by
  refine yields_bind fun places h => yields_orElse (yields_firstSuccess fun p mem => ?_) tighter
  obtain ⟨mem, pipe⟩ := List.mem_filter.mp (List.mem_reverse.mp mem)
  have lt := (surface_place h mem).1
  refine yields_bind fun base hb e he => ?_
  have left := hp _ _ (Span.inside_slice (by omega)) base hb
  have right := pipeTarget_spells hp hw base (s.within_tail (p.offset + 1)) e he
  rw [place_text h mem (pipe_operator pipe)]
  exact .joined _ left right

include hp in
theorem infixLevel_spells {l : Level} {r : InfixRule} (hr : l.infix? = some r)
    (tighter : Yields (parse l.tighter s) fun _ => Spells .query s.chars) :
    Yields (infixLevel parse l r s) fun _ => Spells .query s.chars := by
  refine yields_bind fun places h => yields_orElse (yields_firstSuccess fun (p, found) mem => ?_) tighter
  obtain ⟨hplace, hfound⟩ := mem_candidates mem
  have lt : p.offset < s.chars.length := (surface_place h hplace).1
  have ne : s.chars ≠ [] := List.length_pos_iff.mp (by omega)
  have pos : 0 < found.length := find_length hr hfound
  refine yields_bind fun right hright => yields_bind fun left hleft => yields_pure ?_
  have behind := hp _ _ (Span.inside_tail ne (by omega)) right hright
  have before := hp _ _ (Span.inside_slice (by omega)) left hleft
  rw [place_text h hplace (find_operator hr hfound).1]
  exact .joined _ before behind

include hp in
theorem signed_spells {l : Level} {c : Char} {rest : List Char} (hs : s.chars = c :: rest)
    (hc : c = '!' ∨ c = '-' ∨ c = '+') (f : Expr → Expr) :
    Yields (f <$> parse l (s.tail 1)) fun _ => Spells .query s.chars := by
  refine yields_map f fun e he => ?_
  have behind := hp _ _ (Span.inside_tail (by simp [hs]) Nat.one_pos) e he
  rw [show (s.tail 1).chars = rest by simp [Span.tail, hs]] at behind
  rw [hs]
  exact .signed hc behind

include hp in
theorem signLevel_spells (tighter : Yields (parse .power s) fun _ => Spells .query s.chars) :
    Yields (signLevel parse s) fun _ => Spells .query s.chars := by
  unfold signLevel
  split
  · exact yields_orElse (signed_spells hp ‹_› (.inl rfl) _) tighter
  · exact yields_orElse (signed_spells hp ‹_› (.inr (.inl rfl)) _) tighter
  · exact yields_orElse (signed_spells hp ‹_› (.inr (.inr rfl)) _) tighter
  · exact tighter

include hp hw in
theorem operandLevel_spells : Yields (operandLevel parse walk s) fun _ => Spells .query s.chars := by
  unfold operandLevel
  split
  · exact signed_spells hp ‹_› (.inr (.inl rfl)) _
  · exact signed_spells hp ‹_› (.inr (.inr rfl)) _
  · refine yields_bind fun (head, rest) h e he => ?_
    obtain ⟨taken, text, operand⟩ := operand_spells hp _ h
    rw [text]
    exact .applied operand (hw head rest (operand_rest s _ h).2 e he)

include hp hw in
/-- If the shorter stretches that a rule accepts are queries, so is this one. -/
theorem rule_spells (l : Level) (tighter : l ≠ .operand → Yields (parse l.tighter s) fun _ => Spells .query s.chars) :
    Yields (rule parse walk l s) fun _ => Spells .query s.chars := by
  cases l with
  | pipe => exact pipeLevel_spells hp hw (tighter nofun)
  | sign => exact signLevel_spells hp (tighter nofun)
  | operand => exact operandLevel_spells hp hw
  | or | and | comparison | sum | product | power => exact infixLevel_spells hp rfl (tighter nofun)

end Rules

/-! ## Texts -/

variable {constant? : Expr → Option Value}

theorem readSpan_spells : (∀ l s, Yields (readSpan constant? l s) fun _ => Spells .query s.chars) ∧
    ∀ s base, Yields (followSpan constant? base s) fun _ => Spells .chain s.chars := by
  refine span_induction (fun s levels walks base => ?_) fun l s levels walks tighter => ?_
  · rw [followSpan_eq]
    refine yields_ite (fun none => yields_pure (none ▸ .done)) fun _ => yields_bind fun (e, rest) he x hx => ?_
    exact traversal_spells base levels _ he (walks rest (traversal_rest base s _ he).2 e x hx)
  · rw [readSpan_eq]
    exact yields_ite (fun _ => yields_failure) fun _ =>
      rule_spells levels (fun e t ht => walks t ht e) l tighter

/-- Whatever a level accepts is spelled as a query. -/
theorem reading_spells {l : Level} {cs : List Char} {e : Expr} (h : reading constant? l cs = some e) : Spells .query cs :=
  readSpan_spells.1 l ⟨0, cs⟩ e h

end Groq.Query
