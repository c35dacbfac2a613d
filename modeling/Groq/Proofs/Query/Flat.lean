/-
  Groq.Proofs.Query.Flat — what a query shows of itself on the surface.

  A text is flat if its brackets match and there is no comma on its surface: commas stand in brackets
  only, and there they separate what the brackets enclose.
  Proved, by induction over the spelling: whatever a level accepts is flat (`reading_flat`). So a list of
  such texts with commas between them is cut into just these texts (`pieces_of_flat`). Of brackets the
  surface has the outermost alone, and of literals nothing (`surfaceFrom_brackets`, `surfaceFrom_literal`).
-/

import Groq.Proofs.Query.Composition
import Groq.Proofs.Query.Spelling

namespace Groq.Query

/-! ## Commas -/

/-- The offsets of the commas on the surface, if the text has one. -/
def commasFrom (s : Scan) (offset : Nat) : List Char → Option (List Nat)
  | [] => if s = Scan.start then some [] else none
  | c :: rest => do
    let next ← s.step? c
    let offsets ← commasFrom next (offset + 1) rest
    return if onSurface s next c && c = ',' then offset :: offsets else offsets

/-- Brackets match and no comma is outside them, wherever the text begins. -/
def Flat (cs : List Char) : Prop := ∀ offset, commasFrom Scan.start offset cs = some []

/-- Brackets match. -/
def Balanced (cs : List Char) : Prop := (surface? cs).isSome

section Commas

variable {s next : Scan} {offset : Nat} {before : Option Char} {a b cs w x : List Char} {offsets offsets' : List Nat} {c d : Char}

theorem commas_cons (p : Place) (h : p.rest = c :: w) (places : List Place) :
    ((p :: places).filter (·.startsWith ",")).map (·.offset) =
      if c = ',' then p.offset :: (places.filter (·.startsWith ",")).map (·.offset)
      else (places.filter (·.startsWith ",")).map (·.offset) := by
  have comma : p.startsWith "," = decide (c = ',') := by
    unfold Place.startsWith
    rw [h]
    show (',' == c && true) = _
    by_cases hc : c = ','
    · subst hc
      rfl
    · rw [Bool.and_true, decide_eq_false hc]
      exact beq_eq_false_iff_ne.mpr (Ne.symm hc)
  rw [List.filter_cons, comma]
  by_cases hc : c = ','
  · rw [if_pos (decide_eq_true hc), if_pos hc]
    rfl
  · rw [if_neg (by simpa using hc), if_neg hc]

theorem commasFrom_surface (s : Scan) (offset : Nat) (before : Option Char) (cs : List Char) :
    commasFrom s offset cs =
      (surfaceFrom s offset before cs).map fun places => (places.filter (·.startsWith ",")).map (·.offset) := by
  induction cs generalizing s offset before with
  | nil =>
    by_cases hs : s = Scan.start
    · simp [commasFrom, surfaceFrom, hs]
    · simp [commasFrom, surfaceFrom, hs]
  | cons c rest ih =>
    rw [commasFrom, surfaceFrom]
    rcases s.step? c with _ | next
    · rfl
    · simp only [Option.bind_eq_bind, Option.bind_some]
      rw [ih next (offset + 1) (some c)]
      rcases surfaceFrom next (offset + 1) (some c) rest with _ | others
      · rfl
      · rcases onSurface s next c with _ | _
        · simp
        · simp [commas_cons ⟨offset, before, c :: rest⟩ rfl]

theorem commasFrom_isSome (h : Balanced cs) (offset : Nat) : ∃ offsets, commasFrom Scan.start offset cs = some offsets := by
  have moved : (surfaceFrom Scan.start offset none cs).isSome := surfaceFrom_isSome h
  obtain ⟨places, hp⟩ := Option.isSome_iff_exists.mp moved
  rw [commasFrom_surface _ _ none, hp]
  exact ⟨_, rfl⟩

theorem balanced_of_commas (h : commasFrom Scan.start 0 cs = some offsets) : Balanced cs := by
  rw [commasFrom_surface _ _ none] at h
  obtain ⟨places, hp, -⟩ := Option.map_eq_some_iff.mp h
  unfold Balanced surface?
  rw [hp]
  rfl

theorem commasFrom_append (h : commasFrom s offset cs = some offsets)
    (hx : commasFrom Scan.start (offset + cs.length) x = some offsets') :
    commasFrom s offset (cs ++ x) = some (offsets ++ offsets') := by
  induction cs generalizing s offset offsets with
  | nil =>
    by_cases hs : s = Scan.start
    · subst hs
      cases h
      exact hx
    · simp [commasFrom, hs] at h
  | cons c rest ih =>
    simp only [commasFrom, Option.bind_eq_bind, Option.bind_eq_some_iff, pure, Option.some.injEq] at h
    obtain ⟨next, hn, others, ho, rfl⟩ := h
    rw [List.length_cons, ← Nat.add_assoc, Nat.add_right_comm] at hx
    simp only [List.cons_append, commasFrom, hn, Option.bind_eq_bind, Option.bind_some, ih ho hx]
    split <;> rfl

theorem Flat.append (ha : Flat a) (hb : Flat b) : Flat (a ++ b) := fun offset => commasFrom_append (ha offset) (hb _)

theorem flat_nil : Flat [] := fun _ => rfl

theorem Flat.balanced (h : Flat cs) : Balanced cs := balanced_of_commas (h 0)

/-- A character that opens and closes nothing is on the surface. -/
theorem commasFrom_plain (hc : isPlain c = true) (h : commasFrom Scan.start (offset + 1) cs = some offsets) :
    commasFrom Scan.start offset (c :: cs) = some (if c = ',' then offset :: offsets else offsets) := by
  rw [commasFrom_surface _ _ (some c)] at h
  rw [commasFrom_surface _ _ none, surfaceFrom_plain hc]
  obtain ⟨places, hp, rfl⟩ := Option.map_eq_some_iff.mp h
  rw [hp, ← commas_cons ⟨offset, none, c :: cs⟩ rfl]
  rfl

theorem Flat.cons (hc : isPlain c = true) (comma : c ≠ ',') (h : Flat cs) : Flat (c :: cs) := by
  intro offset
  rw [commasFrom_plain hc (h _), if_neg comma]

theorem flat_plain (h : ∀ c ∈ w, isPlain c = true ∧ c ≠ ',') : Flat w := by
  induction w with
  | nil => exact flat_nil
  | cons c w ih =>
    obtain ⟨⟨plain, comma⟩, others⟩ := List.forall_mem_cons.mp h
    exact (ih others).cons plain comma

theorem flat_marks (h : w.all (fun c => isPlain c && c != ',') = true) : Flat w :=
  flat_plain fun c hc => by simpa using List.all_eq_true.mp h c hc

/-- What brackets enclose is not on the surface, the closing one is. -/
theorem surfaceFrom_closed {b : Char} (hd : closerOf? b = some d) (h : (surfaceFrom s offset before cs).isSome)
    (offset' : Nat) (before' : Option Char) : surfaceFrom (s.under [d]) offset' before' (cs ++ d :: x) =
      (surfaceFrom Scan.start (offset' + cs.length + 1) (some d) x).map
        (⟨offset' + cs.length, cs.getLast?.or before', d :: x⟩ :: ·) := by
  induction cs generalizing s offset before offset' before' with
  | nil =>
    by_cases hs : s = Scan.start
    · subst hs
      have closed : (Scan.start.under [d]).step? d = some Scan.start := step_closer hd []
      have bare := isBare_of_isCloser (isCloser_of_closerOf hd)
      simp only [isBare, Bool.and_eq_true, bne_iff_ne, decide_eq_true_eq] at bare
      have visible : onSurface (Scan.start.under [d]) Scan.start d = true := by
        simp [onSurface, Scan.under, Scan.start, bare]
      simp only [List.nil_append, surfaceFrom, closed, Option.bind_eq_bind, Option.bind_some, visible, if_true]
      exact Option.map_eq_bind.symm
    · simp [surfaceFrom, hs] at h
  | cons e rest ih =>
    obtain ⟨places, h⟩ := Option.isSome_iff_exists.mp h
    simp only [surfaceFrom, Option.bind_eq_bind, Option.bind_eq_some_iff] at h
    obtain ⟨next, hn, others, ho, -⟩ := h
    have hidden : onSurface (s.under [d]) (next.under [d]) e = false := by simp [onSurface, Scan.under]
    have length : offset' + 1 + rest.length = offset' + (e :: rest).length := by
      rw [List.length_cons]
      omega
    simp only [List.cons_append, surfaceFrom, step_under hn, Option.bind_eq_bind, Option.bind_some, hidden]
    rw [ih (Option.isSome_iff_exists.mpr ⟨others, ho⟩), length, getLast_cons_or]
    exact Option.bind_fun_some _

/-- Of brackets and what they enclose the brackets alone are on the surface. -/
theorem surfaceFrom_brackets (hd : closerOf? c = some d) (h : Balanced cs) (offset : Nat) (before : Option Char) :
    surfaceFrom Scan.start offset before (c :: (cs ++ d :: x)) =
      (surfaceFrom Scan.start (offset + 1 + cs.length + 1) (some d) x).map fun places =>
        ⟨offset, before, c :: (cs ++ d :: x)⟩ :: ⟨offset + 1 + cs.length, cs.getLast?.or (some c), d :: x⟩ :: places := by
  have bare := isBare_of_opener hd
  simp only [isBare, Bool.and_eq_true, bne_iff_ne, decide_eq_true_eq] at bare
  have opened : Scan.start.step? c = some (Scan.start.under [d]) := by
    simp [Scan.step?, Scan.start, Scan.under, bare.1.1, bare.1.2, hd]
  have visible : onSurface Scan.start (Scan.start.under [d]) c = true := by
    simp [onSurface, Scan.start, bare]
  rw [surfaceFrom, opened]
  simp only [Option.bind_eq_bind, Option.bind_some, surfaceFrom_closed hd h (offset + 1) (some c), visible, if_true]
  rcases surfaceFrom Scan.start (offset + 1 + cs.length + 1) (some d) x with _ | places
  · rfl
  · rfl

theorem flat_brackets (hd : closerOf? c = some d) (h : Balanced x) : Flat (c :: (x ++ [d])) := by
  intro offset
  have opener : c ≠ ',' := by
    rintro rfl
    cases hd
  have closer : d ≠ ',' := by
    rintro rfl
    exact absurd (isCloser_of_closerOf hd) (by decide)
  rw [commasFrom_surface _ _ none, surfaceFrom_brackets hd h, surfaceFrom, if_pos rfl, Option.map_some, Option.map_some]
  rw [commas_cons _ rfl, if_neg opener, commas_cons _ rfl, if_neg closer]
  rfl

/-- Nothing in a literal is on the surface, and behind it the same brackets are open. -/
theorem surfaceFrom_literalRest {quote : Char} (h : literalRest? quote cs = some cs.length) (closers : List Char)
    (offset : Nat) (before : Option Char) : surfaceFrom ⟨closers, .literal quote⟩ offset before (cs ++ x) =
      surfaceFrom ⟨closers, .code⟩ (offset + cs.length) (some quote) x := by
  generalize hl : cs.length = length at h
  fun_induction literalRest? quote cs generalizing length offset before with
  | case1 => cases h
  | case2 d rest ih =>
    obtain ⟨n, hn, rfl⟩ := Option.map_eq_some_iff.mp h
    simp only [List.length_cons] at hl
    have step : surfaceFrom ⟨closers, .literal quote⟩ offset before ('\\' :: d :: rest ++ x) =
        (surfaceFrom ⟨closers, .literal quote⟩ (offset + 1 + 1) (some d) (rest ++ x)).bind fun places => some places := by
      simp [surfaceFrom, Scan.step?, onSurface]
    have length : offset + 1 + 1 + n = offset + (n + 2) := by omega
    rw [step, ih _ _ n (by omega) hn, length]
    exact Option.bind_fun_some _
  | case3 => cases h
  | case4 rest plain =>
    cases h
    obtain rfl : rest = [] := List.length_eq_zero_iff.mp (by simpa using hl)
    have slash : quote ≠ '\\' := plain
    simp [surfaceFrom, Scan.step?, onSurface, slash]
  | case5 d rest plain other ih =>
    obtain ⟨n, hn, rfl⟩ := Option.map_eq_some_iff.mp h
    have slash : d ≠ '\\' := plain
    have length : offset + 1 + n = offset + (n + 1) := by omega
    simp [surfaceFrom, Scan.step?, onSurface, slash, other, ih _ _ n (by simpa using hl) hn, length]

/-- A literal as a whole ends in the quote it begins with. -/
theorem surfaceFrom_literal (h : literalLength? w = some w.length) (offset : Nat) (before : Option Char) :
    surfaceFrom Scan.start offset before (w ++ x) = surfaceFrom Scan.start (offset + w.length) w.head? x := by
  rcases w with _ | ⟨c, cs⟩
  · cases h
  · simp only [literalLength?] at h
    split at h
    · rename_i quote
      obtain ⟨n, hn, hlen⟩ := Option.map_eq_some_iff.mp h
      simp only [List.length_cons, Nat.add_right_cancel_iff] at hlen
      rw [hlen] at hn
      have opened : Scan.start.step? c = some ⟨[], .literal c⟩ := by
        simp [Scan.step?, Scan.start, quote]
      have hidden : onSurface Scan.start ⟨[], .literal c⟩ c = false := by
        rcases quote with rfl | rfl
        · rfl
        · rfl
      have length : offset + 1 + cs.length = offset + (c :: cs).length := by
        rw [List.length_cons]
        omega
      rw [List.cons_append, surfaceFrom, opened, ← length]
      simp only [Option.bind_eq_bind, Option.bind_some, surfaceFrom_literalRest hn, hidden]
      exact Option.bind_fun_some _
    · cases h

theorem surfaceFrom_whole (h : literalLength? w = some w.length) (offset : Nat) (before : Option Char) :
    surfaceFrom Scan.start offset before w = some [] := by
  have surface := surfaceFrom_literal (x := []) h offset before
  rw [List.append_nil] at surface
  exact surface

theorem flat_literal (h : literalLength? w = some w.length) : Flat w := by
  intro offset
  rw [commasFrom_surface _ _ none, surfaceFrom_whole h]
  rfl

theorem Balanced.comma (ha : Balanced a) (hb : Balanced b) : Balanced (a ++ ',' :: b) := by
  obtain ⟨offsets, first⟩ := commasFrom_isSome ha 0
  obtain ⟨offsets', second⟩ := commasFrom_isSome hb (0 + a.length + 1)
  exact balanced_of_commas (commasFrom_append first (commasFrom_plain rfl second))

theorem isPlain_of_isNameChar (h : isNameChar c = true) : isPlain c = true ∧ c ≠ ',' := by
  have bare := isBare_of_isNameChar h
  have other {d : Char} (hd : isNameChar d = false) : c ≠ d := by
    rintro rfl
    exact absurd (h.symm.trans hd) nofun
  have opener : closerOf? c = none := by
    rcases hc : closerOf? c with _ | d
    · rfl
    · unfold closerOf? at hc
      split at hc
      · cases h
      · cases h
      · cases h
      · cases hc
  simp only [isBare, Bool.and_eq_true] at bare
  have closer : isCloser c = false := by
    simp [isCloser, other (d := ')') rfl, other (d := ']') rfl, other (d := '}') rfl]
  exact ⟨by simp [isPlain, bare.1.1, bare.1.2, bare.2, opener, closer], other rfl⟩

theorem flat_operator (op : Operator) : Flat op.text := by
  rcases op with _ | _ | _ | op
  · exact flat_marks rfl
  · exact flat_marks rfl
  · exact flat_marks rfl
  · cases op <;> exact flat_marks rfl

end Commas

/-! ## Parts -/

/-- A list has commas on its surface, the other parts have none. -/
def Part.IsFlat : Part → List Char → Prop
  | .list, x => Balanced x
  | _, x => Flat x

/-- By induction on the spelling. -/
theorem Spells.flat {part : Part} {x : List Char} (h : Spells part x) : part.IsFlat x := by
  have name {w : List Char} (hw : nameAt w = w) : Flat w :=
    flat_plain fun c hc => isPlain_of_isNameChar (name_isNameChar w c (hw.symm ▸ hc))
  induction h with
  | signed hc _ ih => exact Flat.append (a := [_]) (by rcases hc with rfl | rfl | rfl <;> exact flat_marks rfl) ih
  | joined op _ _ iha ihb => exact iha.append ((flat_operator op).append ihb)
  | applied _ _ iha ihb => exact iha.append ihb
  | literal hw => exact flat_literal hw
  | numeral _ spelled =>
    refine flat_plain fun d hd => ?_
    rcases spelled.1 d hd with name | rfl | rfl | rfl
    · exact isPlain_of_isNameChar name
    all_goals decide
  | parameter hw => exact (name hw.2).cons rfl (by decide)
  | this => exact flat_marks rfl
  | everything => exact flat_marks rfl
  | parent => exact flat_marks rfl
  | grandparent _ ih => exact Flat.append (a := ['^', '.']) (flat_marks rfl) ih
  | enclosed _ ih => exact ih
  | name hw => exact name hw.2
  | call hw _ ih => exact (name hw.2).append ih
  | qualified hv hw _ ih => exact (name hv.2).append (Flat.append (a := [':', ':']) (flat_marks rfl) ((name hw.2).append ih))
  | bracketed hd _ ih => exact flat_brackets hd ih
  | done => exact flat_nil
  | field hw _ ih => exact ((name hw.2).append ih).cons rfl (by decide)
  | deref hw _ ih => exact Flat.append (a := ['-', '>']) (flat_marks rfl) ((name hw).append ih)
  | traversed _ _ iha ihb => exact iha.append ihb
  | empty => exact flat_nil.balanced
  | single _ ih => exact ih.balanced
  | more _ _ ihx ihy => exact ihx.balanced.comma ihy
  | range inclusive _ _ iha ihb =>
    cases inclusive
    · exact (iha.append (Flat.append (flat_marks rfl) ihb)).balanced
    · exact (iha.append (Flat.append (flat_marks rfl) ihb)).balanced
  | plain _ ih => exact ih
  | splat _ ih => exact Flat.append (a := ['.', '.', '.']) (flat_marks rfl) ih
  | splatThis => exact flat_marks rfl
  | keyed hw _ ih => exact (flat_literal hw).append (Flat.cons rfl (by decide) ih)
  | sorted descending _ ih =>
    cases descending
    · exact Flat.append ih (flat_marks rfl)
    · exact Flat.append ih (flat_marks rfl)

/-- Whatever a level accepts is flat. -/
theorem reading_flat {constant? : Expr → Option Value} {l : Level} {cs : List Char} {e : Expr}
    (h : reading constant? l cs = some e) : Flat cs :=
  (reading_spells h).flat

/-! ## Lists -/

/-- Texts with commas between them, and one behind the last or none. -/
def listText (texts : List (List Char)) (trailing : Bool) : List Char :=
  [','].intercalate texts ++ if trailing then [','] else []

theorem listText_trailing {texts : List (List Char)} (ne : texts ≠ []) :
    listText texts true = listText (texts ++ [[]]) false := by
  induction texts with
  | nil => exact absurd rfl ne
  | cons t rest ih =>
    rcases rest with _ | ⟨u, rest⟩
    · simp [listText, List.intercalate]
    · have behind := ih (List.cons_ne_nil u rest)
      simp only [listText, List.cons_append, List.intercalate_cons_cons, List.append_assoc] at behind ⊢
      rw [behind]

section Lists

variable {ns : List (List Char)}

theorem listText_ne_nil (ne : ns ≠ []) (filled : [] ∉ ns) (trailing : Bool) : listText ns trailing ≠ [] := by
  obtain ⟨n, rest, rfl⟩ := List.exists_cons_of_ne_nil ne
  have hn : n ≠ [] := by
    rintro rfl
    exact filled List.mem_cons_self
  rcases rest with _ | ⟨m, rest⟩
  · simp [listText, hn]
  · simp [listText]

/-- The commas on the surface are those between the texts, and cutting there gives the texts again. -/
theorem commas_of_flat (flat : ∀ n ∈ ns, Flat n) (ne : ns ≠ []) (first : Nat) :
    ∃ offsets, commasFrom Scan.start first (listText ns false) = some offsets ∧
      ∀ s : Span, s.chars.drop first = listText ns false → (s.cutAt first offsets).map (·.chars) = ns := by
  induction ns generalizing first with
  | nil => exact absurd rfl ne
  | cons n rest ih =>
    obtain ⟨hn, others⟩ := List.forall_mem_cons.mp flat
    rcases rest with _ | ⟨m, rest⟩
    · refine ⟨[], ?_, fun s text => ?_⟩
      · simpa [listText] using hn first
      · simpa [listText, Span.cutAt, Span.tail] using text
    · obtain ⟨offsets, commas, cut⟩ := ih others (List.cons_ne_nil m rest) (first + n.length + 1)
      have text : listText (n :: m :: rest) false = n ++ ',' :: listText (m :: rest) false := by
        simp [listText]
      refine ⟨(first + n.length) :: offsets, ?_, fun s hs => ?_⟩
      · rw [text]
        exact commasFrom_append (hn first) (commasFrom_plain rfl commas)
      · rw [text] at hs
        have piece : (s.slice first (first + n.length)).chars = n := by
          simp [Span.slice, hs]
        have behind : s.chars.drop (first + n.length + 1) = listText (m :: rest) false := by
          rw [Nat.add_assoc, ← List.drop_drop, hs, ← List.drop_drop, List.drop_left]
          rfl
        rw [Span.cutAt, List.map_cons, piece, cut s behind]

theorem pieces_of_flat (flat : ∀ n ∈ ns, Flat n) (ne : ns ≠ []) {s : Span} (text : s.chars = listText ns false) :
    Balanced s.chars ∧ ∃ pieces, s.pieces? = some pieces ∧ pieces.map (·.chars) = ns := by
  obtain ⟨offsets, commas, cut⟩ := commas_of_flat flat ne 0
  rw [← text] at commas
  refine ⟨balanced_of_commas commas, ?_⟩
  rw [commasFrom_surface _ _ none] at commas
  obtain ⟨places, hp, rfl⟩ := Option.map_eq_some_iff.mp commas
  refine ⟨s.cutAt 0 _, ?_, cut s text⟩
  unfold Span.pieces? surface?
  rw [hp]
  rfl

section Items

variable {s : Span} (flat : ∀ n ∈ ns, Flat n) (ne : ns ≠ [])

include flat ne

theorem items_untrailed (filled : [] ∉ ns) (text : s.chars = listText ns false) :
    Balanced s.chars ∧ ∃ items, s.items? = some items ∧ items.map (·.chars) = ns := by
  obtain ⟨balanced, pieces, hp, chars⟩ := pieces_of_flat flat ne text
  have nonempty : s.chars ≠ [] := by
    rw [text]
    exact listText_ne_nil ne filled false
  have last : ¬ (1 < pieces.length ∧ pieces.getLast?.any (·.chars = []) = true) := by
    rintro ⟨-, h⟩
    obtain ⟨t, ht, none⟩ := (Option.any_eq_true _ _).mp h
    rw [← chars] at filled
    exact filled (List.mem_map.mpr ⟨t, List.mem_of_getLast? ht, of_decide_eq_true none⟩)
  refine ⟨balanced, pieces, ?_, chars⟩
  rw [Span.items?, if_neg nonempty, hp, Option.map_some, if_neg last]

/-- A comma behind the last text makes no item. -/
theorem items_trailed (filled : [] ∉ ns) (text : s.chars = listText ns true) :
    Balanced s.chars ∧ ∃ items, s.items? = some items ∧ items.map (·.chars) = ns := by
  have nonempty : s.chars ≠ [] := by
    rw [text]
    exact listText_ne_nil ne filled true
  rw [listText_trailing ne] at text
  have flat' : ∀ n ∈ ns ++ [[]], Flat n := List.forall_mem_append.mpr ⟨flat, List.forall_mem_singleton.mpr flat_nil⟩
  obtain ⟨balanced, pieces, hp, chars⟩ := pieces_of_flat flat' (by simp) text
  have length : pieces.length = ns.length + 1 := by
    rw [← List.length_map (·.chars), chars, List.length_append]
    rfl
  have last : 1 < pieces.length ∧ pieces.getLast?.any (·.chars = []) = true := by
    have pos := List.length_pos_iff.mpr ne
    refine ⟨by omega, (Option.any_eq_true _ _).mpr ?_⟩
    have none : pieces.getLast?.map (·.chars) = some [] := by
      rw [← List.getLast?_map, chars, List.getLast?_concat]
    obtain ⟨t, ht, chars⟩ := Option.map_eq_some_iff.mp none
    exact ⟨t, ht, decide_eq_true chars⟩
  refine ⟨balanced, pieces.dropLast, ?_, ?_⟩
  · rw [Span.items?, if_neg nonempty, hp, Option.map_some, if_pos last]
  · rw [List.map_dropLast, chars, List.dropLast_concat]

end Items

/-- The items of a list are its texts, with or without a comma behind the last. -/
theorem items_of_flat (flat : ∀ n ∈ ns, Flat n) (filled : [] ∉ ns) {trailing : Bool} (ne : trailing = true → ns ≠ [])
    {s : Span} (text : s.chars = listText ns trailing) :
    Balanced s.chars ∧ ∃ items, s.items? = some items ∧ items.map (·.chars) = ns := by
  cases trailing with
  | true => exact items_trailed flat (ne rfl) filled text
  | false =>
    by_cases empty : ns = []
    · subst empty
      have none : s.chars = [] := text
      rw [none]
      refine ⟨rfl, [], ?_, rfl⟩
      rw [Span.items?, if_pos none]
    · exact items_untrailed flat empty filled text

end Lists

end Groq.Query
