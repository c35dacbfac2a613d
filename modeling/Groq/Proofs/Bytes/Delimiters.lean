/-
  Groq.Proofs.Bytes.Delimiters — the scanners agree on brackets and literals.

  The surface of a text is read from its beginning. The bracket that closes another is looked for from that other on,
  the end of a literal from its first quote on, and a query is cut into lexemes before any of this. Each keeps a state
  of its own, and all of them run on the bytes of a text as on its characters.
  Proved: what one of them takes for a literal, or for a bracket and the one that closes it, the others do
  (`delimits_surface`), and a normal form has no surface only where brackets outside literals do not match
  (`scanners_agree`).
-/

import Groq.Proofs.Bytes.Scan
import Groq.Proofs.Query.Idempotence
import Groq.Proofs.Query.Matched

namespace Groq.Query

/-! ## Scanners at an offset -/

/-- The offset of the bracket that closes the one at an offset. -/
def closeAt? (text : List Char) (first : Nat) : Option Nat := (matchingClose? (text.drop first)).map (first + ·)

/-- The offset behind the literal that begins at an offset. -/
def literalEnd? (text : List Char) (first : Nat) : Option Nat := (literalLength? (text.drop first)).map (first + ·)

/-- A reader of the surface comes to a quote at an offset, outside literals and with some brackets open. -/
def BeginsLiteral (text : List Char) (first : Nat) (s : Scan) : Prop :=
  Scan.start.run? (text.take first) = some s ∧ s.mode = .code ∧ ∃ c, text[first]? = some c ∧ isQuote c = true

/-- The scanners that begin at an offset of a text find what its surface has there. -/
structure Delimits (text : List Char) (places : List Place) : Prop where
  /-- The place behind a bracket that opens is the one that closes it, and what they enclose has a surface. -/
  brackets : ∀ front p behind c d, places = front ++ p :: behind → text[p.offset]? = some c → closerOf? c = some d →
    ∃ close after, behind = close :: after ∧ closeAt? text p.offset = some close.offset ∧ text[close.offset]? = some d ∧
      (surface? ((text.drop (p.offset + 1)).take (close.offset - (p.offset + 1)))).isSome
  /-- A literal ends where the reader of the surface is as it was in front of it, and none of it is on the surface. -/
  literals : ∀ first s, BeginsLiteral text first s → ∃ stop, literalEnd? text first = some stop ∧
    Scan.start.run? (text.take stop) = some s ∧ ∀ p ∈ places, ¬ (first ≤ p.offset ∧ p.offset < stop)

/-! ## Parts of a reading -/

section Surface

variable {s s' : Scan} {offset : Nat} {before : Option Char} {a cs x : List Char} {c d : Char}
variable {p : Place} {front behind places : List Place}

/-- A reading goes on behind the front of a text from where it is there, with the places it finds there. -/
theorem surfaceFrom_split (h : surfaceFrom s offset before (a ++ x) = some places) (run : s.run? a = some s') :
    ∃ front back, places = front ++ back ∧ (∀ p ∈ front, p.offset < offset + a.length) ∧
      surfaceFrom s' (offset + a.length) (a.getLast?.or before) x = some back := by
  induction a generalizing s offset before places with
  | nil =>
    cases run
    exact ⟨[], places, rfl, List.forall_mem_nil _, h⟩
  | cons c a ih =>
    obtain ⟨next, step, run⟩ := Option.bind_eq_some_iff.mp run
    simp only [List.cons_append, surfaceFrom, step, Option.bind_eq_bind, Option.bind_some, Option.bind_eq_some_iff,
      pure, Option.some.injEq] at h
    obtain ⟨others, ho, rfl⟩ := h
    obtain ⟨front, back, rfl, inside, rest⟩ := ih ho run
    rw [getLast_cons_or, List.length_cons]
    have length : offset + 1 + a.length = offset + (a.length + 1) := by omega
    rw [length] at inside rest
    split
    · refine ⟨_ :: front, back, rfl, List.forall_mem_cons.mpr ⟨?_, inside⟩, rest⟩
      show offset < offset + (a.length + 1)
      omega
    · exact ⟨front, back, rfl, inside, rest⟩

/-- Where a reading is at a place that it finds. -/
theorem surfaceFrom_at (h : surfaceFrom s offset before cs = some (front ++ p :: behind)) :
    ∃ s' next c rest, p.rest = c :: rest ∧ s'.step? c = some next ∧ onSurface s' next c = true ∧
      surfaceFrom s' p.offset p.before p.rest = some (p :: behind) := by
  induction cs generalizing s offset before front with
  | nil =>
    simp only [surfaceFrom] at h
    split at h
    · simp at h
    · cases h
  | cons c rest ih =>
    have whole := h
    simp only [surfaceFrom, Option.bind_eq_bind, Option.bind_eq_some_iff, pure, Option.some.injEq] at h
    obtain ⟨next, step, others, ho, places⟩ := h
    split at places
    · rename_i visible
      rcases front with _ | ⟨q, front⟩
      · cases places
        exact ⟨s, next, c, rest, rfl, step, visible, whole⟩
      · cases places
        exact ih ho
    · subst places
      exact ih ho

/-- A bracket on the surface that opens is outside all others. -/
theorem opener_on_surface (h : surfaceFrom s offset before cs = some (front ++ p :: behind)) {rest : List Char}
    (text : p.rest = c :: rest) (hd : closerOf? c = some d) :
    surfaceFrom Scan.start p.offset p.before (c :: rest) = some (p :: behind) := by
  obtain ⟨⟨closers, mode⟩, next, c', rest', text', step, visible, reading⟩ := surfaceFrom_at h
  rw [text] at text' reading
  cases text'
  simp only [onSurface, Bool.and_eq_true, Bool.or_eq_true, decide_eq_true_eq] at visible
  obtain rfl : mode = .code := visible.1.1.1.1
  rw [step_opener hd] at step
  cases step
  obtain rfl : closers = [] := visible.2.resolve_right (List.cons_ne_nil _ _)
  exact reading

/-- What a reader meets under an open bracket up to the end of a text begins with a text of its own, with the
    closing bracket behind it. -/
theorem run_under (h : (s.under [d]).run? cs = some Scan.start) : ∃ inside x, cs = inside ++ d :: x ∧
    s.run? inside = some Scan.start ∧ Scan.start.run? x = some Scan.start := by
  induction cs generalizing s with
  | nil =>
    exact absurd (congrArg Scan.closers (Option.some.inj h)) (by simp [Scan.under, Scan.start])
  | cons c rest ih =>
    obtain ⟨next, step, h⟩ := Option.bind_eq_some_iff.mp h
    -- A step that is one without the bracket leaves it open, and only that which closes it is none.
    rcases own : s.step? c with _ | next'
    · obtain ⟨rfl, rfl, rfl⟩ := step_only_under own step
      exact ⟨[], rest, rfl, rfl, h⟩
    · rw [step_under own] at step
      cases step
      obtain ⟨inside, x, rfl, run, after⟩ := ih h
      refine ⟨c :: inside, x, rfl, ?_, after⟩
      rw [run_cons, own]
      exact run

/-- By induction on the text: a literal that ends somewhere ends at the first quote that is not escaped. -/
theorem literalRest_isSome {quote : Char} (h : (Mode.literal quote).after cs = .code) :
    ∃ n, literalRest? quote cs = some n := by
  fun_induction literalRest? quote cs with
  | case1 => cases h
  | case2 c rest ih =>
    obtain ⟨n, hn⟩ := ih h
    exact ⟨n + 2, by rw [hn, Option.map_some]⟩
  | case3 => cases h
  | case4 rest plain => exact ⟨1, rfl⟩
  | case5 c rest plain other ih =>
    have stays : (Mode.literal quote).next c = .literal quote := (if_neg plain).trans (if_neg other)
    rw [Mode.after, List.foldl_cons, stays] at h
    obtain ⟨n, hn⟩ := ih h
    exact ⟨n + 1, by rw [hn, Option.map_some]⟩

/-- Nothing of a literal is on the surface, whatever brackets are open around it. -/
theorem surfaceFrom_opened {closers rest : List Char}
    (h : surfaceFrom ⟨closers, .code⟩ offset before (c :: rest) = some places) (quote : c = '"' ∨ c = '\'') :
    ∃ length, literalLength? (c :: rest) = some length ∧
      surfaceFrom ⟨closers, .code⟩ (offset + length) (some c) ((c :: rest).drop length) = some places := by
  have opened : (⟨closers, .code⟩ : Scan).step? c = some ⟨closers, .literal c⟩ := if_pos quote
  have hidden : onSurface ⟨closers, .code⟩ ⟨closers, .literal c⟩ c = false := by
    rcases quote with rfl | rfl
    · rfl
    · rfl
  have reading : surfaceFrom ⟨closers, .literal c⟩ (offset + 1) (some c) rest = some places := by
    simp only [surfaceFrom, opened, hidden, Option.bind_eq_bind, Option.bind_some, Option.bind_eq_some_iff] at h
    obtain ⟨others, ho, same⟩ := h
    cases same
    exact ho
  have closed : (Mode.literal c).after rest = .code :=
    (run_mode (surfaceFrom_isSome_iff.mp (Option.isSome_iff_exists.mpr ⟨_, reading⟩))).symm
  obtain ⟨n, hn⟩ := literalRest_isSome closed
  have length : (rest.take n).length = n := List.length_take_of_le (literalRest_append hn []).2
  have whole : literalRest? c (rest.take n) = some (rest.take n).length := by
    rw [length]
    exact literalRest_take hn
  rw [← List.take_append_drop n rest, surfaceFrom_literalRest whole, length, Nat.add_assoc, Nat.add_comm 1] at reading
  refine ⟨n + 1, ?_, reading⟩
  rw [literalLength?, if_pos quote, hn]
  rfl

end Surface

/-! ## Brackets and literals of a surface -/

section Delimits

variable {text : List Char} {places : List Place} {c d : Char}

/-- What a bracket on the surface encloses, and the bracket behind it. -/
theorem enclosed_on_surface {front behind : List Place} {p : Place} (h : surface? text = some (front ++ p :: behind))
    (hc : text[p.offset]? = some c) (hd : closerOf? c = some d) : ∃ inside x after,
      text.drop p.offset = c :: (inside ++ d :: x) ∧ Balanced inside ∧
        behind = ⟨p.offset + 1 + inside.length, inside.getLast?.or (some c), d :: x⟩ :: after := by
  have rest := surface_drop h (List.mem_append_right front List.mem_cons_self)
  obtain ⟨tail, text⟩ : ∃ tail, p.rest = c :: tail := by
    rw [← List.head?_drop, rest] at hc
    exact List.head?_eq_some_iff.mp hc
  have reading := opener_on_surface h text hd
  have run : (Scan.start.under [d]).run? tail = some Scan.start := by
    have whole := surfaceFrom_isSome_iff.mp (Option.isSome_iff_exists.mpr ⟨_, reading⟩)
    rwa [run_cons, Scan.start, step_opener hd] at whole
  obtain ⟨inside, x, rfl, inner, -⟩ := run_under run
  have balanced : Balanced inside := surfaceFrom_isSome_iff.mpr inner
  rw [surfaceFrom_brackets hd balanced] at reading
  obtain ⟨after, -, same⟩ := Option.map_eq_some_iff.mp reading
  obtain ⟨-, rfl⟩ := List.cons.inj same
  exact ⟨inside, x, after, rest.trans text, balanced, rfl⟩

/-- The places of a surface stand in front of a literal or behind it. -/
theorem literal_in_reading (h : surface? text = some places) {first : Nat} {s : Scan}
    (begins : BeginsLiteral text first s) : ∃ length, literalLength? (text.drop first) = some length ∧
      ∀ p ∈ places, p.offset < first ∨ first + length ≤ p.offset := by
  obtain ⟨closers, mode⟩ := s
  obtain ⟨run, rfl, c, hc, quote⟩ := begins
  have front : (text.take first).length = first := by
    have inside := (List.getElem?_eq_some_iff.mp hc).1
    rw [List.length_take]
    omega
  obtain ⟨rest, drop⟩ : ∃ rest, text.drop first = c :: rest := by
    rw [← List.head?_drop] at hc
    exact List.head?_eq_some_iff.mp hc
  have reading : surfaceFrom Scan.start 0 none (text.take first ++ c :: rest) = some places := by
    rw [← drop, List.take_append_drop]
    exact h
  obtain ⟨earlier, later, rfl, before, reading⟩ := surfaceFrom_split reading run
  obtain ⟨length, hlength, reading⟩ := surfaceFrom_opened reading (by simpa [isQuote] using quote)
  rw [front, Nat.zero_add] at before reading
  refine ⟨length, drop ▸ hlength, fun p hp => ?_⟩
  rcases List.mem_append.mp hp with hp | hp
  · exact .inl (before p hp)
  · obtain ⟨pre, -, offset, -⟩ := surfaceFrom_place reading p hp
    exact .inr (by omega)

theorem delimits_surface (h : surface? text = some places) : Delimits text places := by
  constructor
  · rintro front p behind c d rfl hc hd
    obtain ⟨inside, x, after, drop, balanced, rfl⟩ := enclosed_on_surface h hc hd
    have tail : text.drop (p.offset + 1) = inside ++ d :: x := by
      rw [← List.drop_drop, drop]
      rfl
    have last : text.drop (p.offset + 1 + inside.length) = d :: x := by
      rw [← List.drop_drop, tail, List.drop_left]
    refine ⟨_, after, rfl, ?_, ?_, ?_⟩
    · have close : closeFrom ⟨[d], .code⟩ 1 (inside ++ d :: x) = some (1 + inside.length) :=
        closeFrom_under hd balanced 1 x
      rw [closeAt?, drop, matchingClose?, hd, Option.bind_some, close, Option.map_some, Nat.add_assoc]
    · rw [← List.head?_drop, last]
      rfl
    · rw [tail, Nat.add_sub_cancel_left, List.take_left]
      exact balanced
  · rintro first ⟨closers, mode⟩ begins
    obtain ⟨length, whole, apart⟩ := literal_in_reading h begins
    obtain ⟨run, rfl, -⟩ := begins
    refine ⟨first + length, ?_, ?_, fun p hp => ?_⟩
    · rw [literalEnd?, whole]
      rfl
    · rw [List.take_add, run_behind, run]
      exact run_literal (literalLength_take whole) closers
    · have := apart p hp
      omega

end Delimits

/-! ## Modes by bytes -/

section Modes

variable {m : Mode} (quotes : (⟨[], m⟩ : Scan).Quotes) {c d : Char}

theorem ascii_of_isBracket (h : isBracket c = true) : c.toNat < 128 := by
  rcases hd : closerOf? c with _ | d
  · exact ascii_of_isBare (isBare_of_isCloser (by simpa [isBracket, hd] using h))
  · exact ascii_of_isBare (isBare_of_opener hd)

include quotes

theorem quotes_next (c : Char) : (⟨[], m.next c⟩ : Scan).Quotes := by
  by_cases bracket : m = .code ∧ isBracket c = true
  · obtain ⟨rfl, hc⟩ := bracket
    rw [next_code (unquoted_of_isBracket hc)]
    exact quotes_code []
  · exact quotes.step (step_bracketless [] bracket)

theorem next_other (large : 128 ≤ c.toNat) : m.next c = (⟨[], m⟩ : Scan).past.mode := by
  have bracketless : ¬ (m = .code ∧ isBracket c = true) := by
    rintro ⟨-, bracket⟩
    have := ascii_of_isBracket bracket
    omega
  have step := (step_bracketless [] bracketless).symm.trans (step_other quotes large)
  exact congrArg Scan.mode (Option.some.inj step)

/-- The bytes of a character that is not ASCII leave a reader where the character does. -/
theorem after_other {front : List Char} (others : ∀ e ∈ d :: front, 128 ≤ e.toNat) :
    m.after (d :: front) = (⟨[], m⟩ : Scan).past.mode := by
  induction front generalizing m d with
  | nil => exact next_other quotes (others d List.mem_cons_self)
  | cons e front ih =>
    obtain ⟨large, others⟩ := List.forall_mem_cons.mp others
    have further := ih (quotes_next quotes d) others
    rw [Mode.after, List.foldl_cons]
    refine further.trans ?_
    rw [next_other quotes large]
    cases m with
    | _ => rfl

theorem after_bytes (cs : List Char) : m.after (bytes cs) = m.after cs := by
  induction cs using bytes_induction generalizing m with
  | nil => rfl
  | ascii c cs _ split ih =>
    rw [split]
    exact ih (quotes_next quotes c)
  | other c cs d front large _ split others ih =>
    have next : m.after (c :: cs) = (m.next c).after cs := rfl
    rw [split, after_append, after_other quotes others, next, ← next_other quotes large]
    exact ih (quotes_next quotes c)

end Modes

theorem surface_bytes_eq_none (cs : List Char) : surface? (bytes cs) = none ↔ surface? cs = none := by
  have same := surface_bytes cs
  generalize surface? cs = places, surface? (bytes cs) = places' at same ⊢
  cases same with
  | none => exact Iff.rfl
  | some _ => exact iff_of_false nofun nofun

/-! ## Texts and queries -/

/-- By characters as by bytes: the scanners that begin at a bracket on the surface of a text, or at a literal in it,
    go as far as the surface has it. Every literal that is copied from a query is one for them, and as those of its
    normal form are all closed, only brackets that do not match, outside the literals, leave that without a surface. -/
theorem scanners_agree :
    (∀ text : List Char, ∀ units ∈ [text, bytes text], ∀ places, surface? units = some places → Delimits units places) ∧
    ∀ query normal, normalize query = .ok normal → ∃ ls, lexemes query.toList = .ok ls ∧
      (∀ l ∈ ls, l.isLiteral = true → literalLength? l.text = some l.text.length) ∧
      ∀ units ∈ [normal.toList, bytes normal.toList], Mode.code.after units = .code ∧
        (surface? units = none ↔ ¬ Matched ((unquoted ls).filter isBracket)) := by
  refine ⟨fun text units _ places h => delimits_surface h, fun query normal h => ?_⟩
  obtain ⟨written, hwritten, rfl⟩ := map_ok h
  obtain ⟨ls, cut, rfl⟩ := map_ok hwritten
  have literals := literal_of_lexemes cut
  obtain ⟨closed, brackets⟩ := brackets_written false false (cut_lexemes cut).whole literals
  have characters : surface? (writeFrom false false ls) = none ↔ ¬ Matched ((unquoted ls).filter isBracket) := by
    have balanced := balanced_iff (writeFrom false false ls)
    rw [brackets] at balanced
    rw [← Option.not_isSome_iff_eq_none, not_iff_not]
    exact balanced.trans (and_iff_right closed)
  refine ⟨ls, cut, literals, ?_⟩
  rw [String.toList_ofList]
  intro units hu
  rcases List.mem_pair.mp hu with rfl | rfl
  · exact ⟨closed, characters⟩
  · exact ⟨(after_bytes (quotes_code []) _).trans closed, (surface_bytes_eq_none _).trans characters⟩

set_option maxRecDepth 4000 in
/-- A bracket in a literal, in brackets; in a query the blank behind it falls away. -/
theorem scanners_agree_in_literal :
    (surface? ['(', '\'', ')', '\'', ')'] =
        some [⟨0, none, ['(', '\'', ')', '\'', ')']⟩, ⟨4, some '\'', [')']⟩] ∧
      closeAt? ['(', '\'', ')', '\'', ')'] 0 = some 4 ∧ (surface? ['\'', ')', '\'']).isSome) ∧
    (BeginsLiteral ['(', '\'', ')', '\'', ')'] 1 ⟨[')'], .code⟩ ∧
      ∃ stop, literalEnd? ['(', '\'', ')', '\'', ')'] 1 = some stop ∧ ¬ (1 ≤ 4 ∧ 4 < stop)) ∧
    normalize "(')' )" = .ok "(')')" ∧ Mode.code.after "(')')".toList = .code ∧
      (surface? "(')')".toList = none ↔ ¬ Matched ['(', ')']) := by
  have surface : surface? ['(', '\'', ')', '\'', ')'] =
      some [⟨0, none, ['(', '\'', ')', '\'', ')']⟩, ⟨4, some '\'', [')']⟩] := by decide
  have begins : BeginsLiteral ['(', '\'', ')', '\'', ')'] 1 ⟨[')'], .code⟩ := ⟨by decide, rfl, '\'', rfl, rfl⟩
  have cut : lexemes "(')' )".toList = .ok [.mark '(', .literal ['\'', ')', '\''], .mark ')'] := by cbv
  have normal : normalize "(')' )" = .ok "(')')" := (normalize_of_lexemes cut).trans rfl
  have delimits := scanners_agree.1 _ _ List.mem_cons_self _ surface
  obtain ⟨close, after, behind, closes, -, inside⟩ := delimits.brackets [] _ _ '(' ')' rfl rfl rfl
  cases behind
  obtain ⟨stop, ends, -, apart⟩ := delimits.literals 1 _ begins
  obtain ⟨ls, cut', -, units⟩ := scanners_agree.2 _ _ normal
  cases cut.symm.trans cut'
  obtain ⟨closed, matched⟩ := units _ List.mem_cons_self
  have last := apart ⟨4, some '\'', [')']⟩ (by simp)
  exact ⟨⟨surface, closes, inside⟩, ⟨begins, stop, ends, last⟩, normal, closed, matched⟩

end Groq.Query
