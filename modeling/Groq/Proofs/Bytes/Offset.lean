/-
  Groq.Proofs.Bytes.Offset — what stands at an offset.

  Where an offset in bytes is one in characters, all that is looked up from there on is what stands
  there in the text: a byte (`SameOffset.byte`), a name, a bracket and what it encloses, the body of
  a literal. The offset behind it is one in characters again.
-/

import Groq.Proofs.Bytes.Scan

namespace Groq.Query

/-! ## Brackets and names at an offset -/

section Offsets

variable {cs : List Char} {n k : Nat} (h : SameOffset cs n k)

include h

theorem SameOffset.behind : (bytes cs).drop k = bytes (cs.drop n) := by
  obtain ⟨front, behind, rfl, rfl, rfl⟩ := h
  rw [bytes_append, List.drop_left, List.drop_left]

theorem SameOffset.dropBytes : dropBytes? cs k = some (cs.drop n) := by
  obtain ⟨front, behind, rfl, rfl, rfl⟩ := h
  rw [dropBytes_front, List.drop_left]

theorem SameOffset.takeBytes : takeBytes? cs k = some (cs.take n) := by
  obtain ⟨front, behind, rfl, rfl, rfl⟩ := h
  rw [takeBytes_front, List.take_left]

theorem SameOffset.sliceBytes {m j : Nat} (last : SameOffset cs m j) (le : n ≤ m) :
    sliceBytes? cs k j = some ((cs.drop n).take (m - n)) := by
  obtain ⟨front, rest, text, rfl, rfl⟩ := h
  obtain ⟨upTo, behind, text', rfl, rfl⟩ := last
  obtain ⟨middle, rfl⟩ : front <+: upTo :=
    List.prefix_of_prefix_length_le ⟨rest, text.symm⟩ ⟨behind, text'.symm⟩ le
  rw [text', List.append_assoc, sliceBytes_middle]
  simp

/-- The byte at an offset, if it is to be an ASCII character. -/
theorem SameOffset.byte {c : Char} (ascii : c.toNat < 128) :
    (bytes cs)[k]? = some c ↔ (cs.drop n).head? = some c := by
  rw [← List.head?_drop, h.behind]
  exact head_bytes ascii _

/-- Behind ASCII text at an offset. -/
theorem SameOffset.add_ascii {text rest : List Char} (begins : cs.drop n = text ++ rest)
    (ascii : ∀ c ∈ text, c.toNat < 128) : SameOffset cs (n + text.length) (k + text.length) := by
  apply h.add
  rw [begins]
  exact sameOffset_ascii ascii

/-- There is a name at an offset where there is one in the text, and it is as many bytes as characters. -/
theorem SameOffset.name : nameFrom? cs k = some (nameAt (cs.drop n)) ∧
    SameOffset cs (n + (nameAt (cs.drop n)).length) (k + (bytes (nameAt (cs.drop n))).length) := by
  rw [bytes_of_ascii (name_ascii _)]
  have last := h.add_ascii (nameAt_append_drop (cs.drop n)).symm (name_ascii _)
  have middle := h.sliceBytes last (Nat.le_add_right _ _)
  refine ⟨?_, last⟩
  unfold nameFrom?
  rw [h.dropBytes, Option.bind_eq_bind, Option.bind_some, nameAt_bytes, middle, Nat.add_sub_cancel_left]
  exact congrArg some (List.prefix_iff_eq_take.mp (nameAt_is_front _)).symm

/-- What a bracket at an offset encloses, and where that ends. -/
structure SameBracket (cs : List Char) (n k close close' : Nat) : Prop where
  inside : SameOffset cs (n + 1) (k + 1)
  last : SameOffset cs (n + close) close'
  behind : SameOffset cs (n + close + 1) (close' + 1)
  pos : 1 ≤ close

theorem SameOffset.bracket : Option.Rel (SameBracket cs n k) (matchingClose? (cs.drop n)) (matchingByte? cs k) := by
  unfold matchingByte?
  rw [h.behind]
  rcases text : cs.drop n with _ | ⟨c, rest⟩
  · exact .none
  · rcases hc : closerOf? c with _ | closer
    · obtain ⟨d, behind, split, first⟩ := bytes_first c rest
      have none : closerOf? d = none := by
        rcases first with ⟨-, rfl⟩ | ⟨-, large⟩
        · exact hc
        · rcases hd : closerOf? d with _ | closer
          · rfl
          · have := ascii_of_isBare (isBare_of_opener hd)
            omega
      rw [split]
      simp only [matchingClose?, hc, none]
      exact .none
    · have ascii := ascii_of_isBare (isBare_of_opener hc)
      have waiting : (⟨[closer], .code⟩ : Scan).closers ≠ [] := List.cons_ne_nil _ _
      rw [bytes_ascii ascii]
      simp only [matchingClose?, hc, Option.bind_some]
      apply rel_imp (closeFrom_bytes (quotes_code [closer]) waiting 1 (k + 1))
      rintro close close' ⟨inside, d, after, rfl, hd, rfl, rfl⟩
      have closing := bytes_single_ascii (ascii_of_isBare (isBare_of_isCloser hd))
      have upTo (front : List Char) {tail : List Char} (split : cs.drop n = front ++ tail) {m j : Nat} (hm : m = n + front.length)
          (hj : j = k + (bytes front).length) : SameOffset cs m j := by
        rw [hm, hj]
        exact h.add ⟨front, tail, split, rfl, rfl⟩
      refine ⟨upTo [c] text rfl ?_, upTo (c :: inside) text ?_ ?_, @upTo (c :: (inside ++ [d])) after ?_ _ _ ?_ ?_,
        Nat.le_add_right _ _⟩
      · rw [bytes_single_ascii ascii]
        rfl
      · rw [List.length_cons, Nat.add_comm 1]
      · rw [bytes_ascii ascii, List.length_cons]
        omega
      · rw [text]
        simp
      · simp only [List.length_cons, List.length_append, List.length_nil]
        omega
      · rw [bytes_ascii ascii, bytes_append, closing]
        simp only [List.length_cons, List.length_append, List.length_nil]
        omega

theorem SameOffset.parents_step : parentsFrom? cs k =
    if ['.', '^'] <+: cs.drop n then (parentsFrom? cs (k + 2)).map (· + 1) else some 0 := by
  rw [parentsFrom?]
  split
  · rename_i cut
    cases cut.symm.trans h.dropBytes
  · rename_i rest cut
    cases cut.symm.trans h.dropBytes
    split
    · rfl
    · rfl

/-- As many parents from an offset on. -/
theorem SameOffset.parents : parentsFrom? cs k = some (countParents (cs.drop n)) ∧
    SameOffset cs (n + 2 * countParents (cs.drop n)) (k + 2 * countParents (cs.drop n)) := by
  have marks : ∀ c ∈ ['.', '^'], c.toNat < 128 := ascii_of_all (by decide)
  have step := h.parents_step
  generalize hrest : cs.drop n = rest at step
  fun_induction countParents rest generalizing n k with
  | case1 rest ih =>
    have two : SameOffset cs (n + 2) (k + 2) := h.add_ascii (hrest.trans rfl) marks
    have behind : cs.drop (n + 2) = rest := by
      rw [← List.drop_drop, hrest]
      rfl
    have further := two.parents_step
    rw [behind] at further
    obtain ⟨more, last⟩ := ih two behind further
    refine ⟨?_, ?_⟩
    · rw [step, if_pos ⟨rest, rfl⟩, more]
      rfl
    · have twice (m : Nat) : m + 2 * (countParents rest + 1) = m + 2 + 2 * countParents rest := by omega
      rw [twice, twice]
      exact last
  | case2 rest none =>
    have stops : ¬ ['.', '^'] <+: rest := by
      rintro ⟨tail, rfl⟩
      exact none tail rfl
    rw [step, if_neg stops]
    exact ⟨rfl, h⟩

/-- Nothing is left of a text where nothing is left of its bytes. -/
theorem SameOffset.used_up : (bytes cs).length ≤ k ↔ cs.drop n = [] := by
  rw [← List.drop_eq_nil_iff, h.behind, bytes_eq_nil]

/-- Only the end of a text is at the end of its bytes. -/
theorem SameOffset.at_end : n = cs.length ↔ k = (bytes cs).length := by
  obtain ⟨front, behind, rfl, rfl, rfl⟩ := h
  have empty : (bytes behind).length = 0 ↔ behind.length = 0 := by
    rw [List.length_eq_zero_iff, List.length_eq_zero_iff, bytes_eq_nil]
  rw [bytes_append, List.length_append, List.length_append]
  omega

/-- What stands between the quotes of a literal. -/
theorem SameOffset.literalBody (hn : literalLength? cs = some n) :
    literalBody? cs k = some ((cs.take n).drop 1).dropLast := by
  obtain ⟨front, behind, hcs, rfl, rfl⟩ := h
  rcases cs with _ | ⟨c, cs⟩
  · cases hn
  simp only [literalLength?] at hn
  split at hn
  · rename_i quote
    obtain ⟨m, hm, length⟩ := Option.map_eq_some_iff.mp hn
    obtain ⟨body, after, rfl, rfl⟩ := literalRest_text hm
    have ascii : c.toNat < 128 := by
      rcases quote with rfl | rfl
      · decide
      · decide
    have text : c :: (body ++ c :: after) = [c] ++ (body ++ (c :: after)) := rfl
    have whole : front = c :: (body ++ [c]) := by
      have taken : front = (c :: (body ++ [c]) ++ after).take front.length := by
        rw [List.cons_append, List.append_assoc, List.singleton_append, hcs, List.take_left]
      rw [taken, List.take_left' (by simp [← length])]
    have last : (bytes front).length = (bytes ([c] ++ body)).length + 1 := by
      rw [whole, List.singleton_append, bytes_ascii ascii, bytes_ascii ascii, bytes_append, bytes_single_ascii ascii]
      simp
    have middle := sliceBytes_middle [c] body (c :: after)
    rw [bytes_single_ascii ascii] at middle
    unfold literalBody? less?
    rw [last, if_pos (Nat.le_add_left _ _), Nat.add_sub_cancel, text]
    refine middle.trans ?_
    rw [← text, hcs, List.take_left, whole]
    simp
  · cases hn

end Offsets

/-! ## The byte at an offset -/

section Offset

variable {cs : List Char} {n k : Nat}

/-- The byte at an offset is the first of the character there. -/
theorem SameOffset.first (h : SameOffset cs n k) {c : Char} {rest : List Char} (head : cs.drop n = c :: rest) :
    ∃ d, (bytes cs)[k]? = some d ∧ SameFirst c d := by
  obtain ⟨d, behind, text, first⟩ := bytes_first c rest
  refine ⟨d, ?_, first⟩
  rw [← List.head?_drop, h.behind, head, text]
  rfl

theorem SameOffset.byte_of_head (h : SameOffset cs n k) {c : Char} {rest : List Char} (head : cs.drop n = c :: rest)
    (ascii : c.toNat < 128) : (bytes cs)[k]? = some c := by
  rw [h.byte ascii, head]
  rfl

/-- The byte is no ASCII character that the text does not go on with. -/
theorem SameOffset.ne_of_byte (h : SameOffset cs n k) {d m : Char} (byte : (bytes cs)[k]? = some d) (ascii : m.toNat < 128)
    (none : ∀ rest, cs.drop n = m :: rest → False) : d ≠ m := by
  rintro rfl
  obtain ⟨rest, head⟩ := List.head?_eq_some_iff.mp ((h.byte ascii).mp byte)
  exact none rest head

end Offset

/-- Behind an ASCII character at the beginning. -/
theorem one_offset {cs : List Char} {c : Char} {rest : List Char} (head : cs = c :: rest) (ascii : c.toNat < 128) :
    SameOffset cs 1 1 := by
  have single : ∀ d ∈ [c], d.toNat < 128 := List.forall_mem_singleton.mpr ascii
  rw [head]
  exact sameOffset_ascii single

/-! ## Behind a place -/

section Place

variable {cs : List Char} {p q : Place}

/-- Behind ASCII text that a place begins with. -/
theorem SamePlace.behind (h : SamePlace cs p q) {t : String} (starts : p.startsWith t = true)
    (ascii : t.toList.all (·.toNat < 128) = true) : SameOffset cs (p.offset + t.toList.length) (q.offset + t.toList.length) := by
  obtain ⟨rest, text⟩ := List.isPrefixOf_iff_prefix.mp starts
  exact h.offset_add text.symm (ascii_of_all ascii)

/-- Behind an operator. -/
theorem SamePlace.behind_found (h : SamePlace cs p q) {l : Level} {r : InfixRule} (hr : l.infix? = some r) {f : Found}
    (found : r.find? p = some f) : SameOffset cs (p.offset + f.length) (q.offset + f.length) := by
  have behind {t : String} (starts : p.startsWith t = true) (ascii : t.toList.all (·.toNat < 128) = true) {c : Connective}
      {length : Nat} (found : some ⟨c, length⟩ = some f) (same : length = t.toList.length) :
      SameOffset cs (p.offset + f.length) (q.offset + f.length) := by
    cases found
    rw [same]
    exact h.behind starts ascii
  cases l <;> cases hr
  · simp only [orAt?] at found
    split at found
    · exact behind ‹_› (by decide) found rfl
    · cases found
  · simp only [andAt?] at found
    split at found
    · exact behind ‹_› (by decide) found rfl
    · cases found
  · simp only [comparisonAt?] at found
    repeat' split at found
    all_goals first
      | exact behind ‹_› (by decide) found rfl
      | cases found
  · simp only [sumAt?] at found
    split at found
    · exact behind ‹_› (by decide) found rfl
    split at found
    · exact behind (‹_ ∧ _›).1 (by decide) found rfl
    · cases found
  · simp only [productAt?] at found
    split at found
    · exact behind (‹_ ∧ _›).1 (by decide) found rfl
    split at found
    · exact behind ‹_› (by decide) found rfl
    split at found
    · exact behind ‹_› (by decide) found rfl
    · cases found
  · simp only [powerAt?] at found
    split at found
    · exact behind ‹_› (by decide) found rfl
    · cases found

end Place

/-! ## Places and literals -/

/-- The first place of the surface that passes a test is the same. -/
theorem firstPlace_same (cs : List Char) {test : Place → Bool} (unmoved : ∀ p q, SamePlace cs p q → test q = test p) :
    ∃ found, surfaceBytes? cs = some found ∧ Option.Rel (fun p q => SamePlace cs p q ∧ test p = true)
      ((surface? cs).bind (·.find? test)) (found.bind (·.find? test)) := by
  obtain ⟨found, hfound, same⟩ := surfaceBytes_same cs
  refine ⟨found, hfound, rel_bind same fun places places' same => ?_⟩
  induction same with
  | nil => exact .none
  | @cons p q _ _ first _ ih =>
    rw [List.find?_cons, List.find?_cons, unmoved p q first]
    cases passes : test p with
    | true => exact .some ⟨first, passes⟩
    | false => exact ih

/-- A text is a literal as a whole if its bytes are. -/
theorem literal_whole (cs : List Char) :
    literalLength? (bytes cs) = some (bytes cs).length ↔ literalLength? cs = some cs.length := by
  have same := literalLength_bytes cs
  generalize literalLength? cs = length at same ⊢
  generalize literalLength? (bytes cs) = length' at same ⊢
  cases same with
  | none => exact ⟨nofun, nofun⟩
  | some h =>
    rw [Option.some.injEq, Option.some.injEq]
    exact h.at_end.symm

end Groq.Query
