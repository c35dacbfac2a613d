/-
  Groq.Proofs.Query.Munch — what an operand or a traversal takes does not grow.

  Names and numbers take as many characters as they can. A text is settled where nothing before it
  could take from it: it is empty, or begins with a character that no name, number or call goes on
  with. Proved: where an operand leaves a settled text over, it leaves the same over when a settled
  text is written behind (`operandRest_append`), and so does a traversal (`traversalRest_append`).
-/

import Groq.Proofs.Query.Rest

namespace Groq.Query

/-- Nothing before this text could take from it. -/
def Settled (cs : List Char) : Prop :=
  ∀ c rest, cs = c :: rest → isNameChar c = false ∧ c ≠ ':' ∧ c ≠ '(' ∧ (c = '.' → nameAt rest ≠ [])

theorem settled_nil : Settled [] := nofun

theorem settled_cons {c : Char} {rest : List Char} (name : isNameChar c = false) (colon : c ≠ ':') (bracket : c ≠ '(')
    (point : c = '.' → nameAt rest ≠ []) : Settled (c :: rest) := by
  intro d tail h
  cases h
  exact ⟨name, colon, bracket, point⟩

/-! ## Names -/

theorem isNameChar_of_beginsName {c : Char} (h : beginsName c = true) : isNameChar c = true := by
  simp only [beginsName, isNameChar, Char.isAlphanum, Bool.or_eq_true] at h ⊢
  rcases h with h | h
  · exact .inl (.inl h)
  · exact .inr h

theorem code_of_isAlpha {c : Char} (h : c.isAlpha = true) :
    65 ≤ c.toNat ∧ c.toNat ≤ 90 ∨ 97 ≤ c.toNat ∧ c.toNat ≤ 122 := by
  have bounds : (decide (c.val ≥ 65 ∧ c.val ≤ 90) || decide (c.val ≥ 97) && decide (c.val ≤ 122)) = true := h
  simp only [Bool.or_eq_true, Bool.and_eq_true, decide_eq_true_eq, UInt32.le_iff_toNat_le, ge_iff_le] at bounds
  exact bounds

theorem code_of_isDigit {c : Char} (h : c.isDigit = true) : 48 ≤ c.toNat ∧ c.toNat ≤ 57 := by
  simp only [Char.isDigit, Bool.and_eq_true, decide_eq_true_eq, UInt32.le_iff_toNat_le, ge_iff_le] at h
  exact h

theorem isDigit_of_beginsName {c : Char} (h : beginsName c = true) : c.isDigit = false := by
  by_cases digit : c.isDigit = true
  · have low := code_of_isDigit digit
    simp only [beginsName, Bool.or_eq_true, decide_eq_true_eq] at h
    rcases h with h | rfl
    · have := code_of_isAlpha h
      omega
    · exact absurd low (by decide)
  · simpa using digit

theorem beginsName_of_nameAt {c : Char} {cs : List Char} (h : nameAt (c :: cs) ≠ []) : beginsName c = true := by
  by_cases hc : beginsName c = true
  · exact hc
  · simp [nameAt, hc] at h

theorem isNameChar_of_isDigit {c : Char} (h : c.isDigit = true) : isNameChar c = true := by
  simp [isNameChar, Char.isAlphanum, h]

theorem takeWhile_append_of_stop {p : Char → Bool} {cs x : List Char}
    (hx : cs.dropWhile p = [] → ∀ c rest, x = c :: rest → p c = false) :
    (cs ++ x).takeWhile p = cs.takeWhile p ∧ (cs ++ x).dropWhile p = cs.dropWhile p ++ x := by
  induction cs with
  | nil =>
    rcases x with _ | ⟨c, rest⟩
    · exact ⟨rfl, rfl⟩
    · have hc := hx rfl c rest rfl
      simp [hc]
  | cons c cs ih =>
    by_cases hc : p c = true
    · have ih := ih fun h => hx (by rw [List.dropWhile_cons_of_pos hc, h])
      simp [hc, ih]
    · simp [hc]

theorem nameAt_append_of_stop {cs x : List Char} (stop : ∀ c rest, x = c :: rest → isNameChar c = false) :
    nameAt (cs ++ x) = nameAt cs := by
  rcases cs with _ | ⟨c, cs⟩
  · rcases x with _ | ⟨c, rest⟩
    · rfl
    · have hc : ¬ beginsName c = true := by
        intro h
        have := isNameChar_of_beginsName h
        rw [stop c rest rfl] at this
        cases this
      simp [nameAt, hc]
  · simp only [nameAt, List.cons_append, (takeWhile_append_of_stop fun _ => stop).1]

theorem nameAt_append {cs x : List Char} (hx : Settled x) : nameAt (cs ++ x) = nameAt cs :=
  nameAt_append_of_stop fun c rest h => (hx c rest h).1

theorem nameAt_length_le (cs : List Char) : (nameAt cs).length ≤ cs.length := by
  rcases cs with _ | ⟨c, cs⟩
  · exact Nat.le_refl _
  · simp only [nameAt]
    split
    · have := (List.takeWhile_prefix isNameChar (l := cs)).length_le
      simp only [List.length_cons]
      omega
    · exact Nat.zero_le _

theorem drop_nameAt_append {cs x : List Char} (hx : Settled x) :
    (cs ++ x).drop (nameAt (cs ++ x)).length = cs.drop (nameAt cs).length ++ x := by
  rw [nameAt_append hx, List.drop_append_of_le_length (nameAt_length_le cs)]

theorem settled_append {cs x : List Char} (hcs : Settled cs) (hx : Settled x) : Settled (cs ++ x) := by
  rcases cs with _ | ⟨c, cs⟩
  · exact hx
  · obtain ⟨name, colon, bracket, point⟩ := hcs c cs rfl
    refine settled_cons name colon bracket fun h => ?_
    show nameAt (cs ++ x) ≠ []
    rw [nameAt_append hx]
    exact point h

/-! ## Brackets and literals -/

theorem closeFrom_append {s : Scan} {offset close : Nat} {cs : List Char} (h : closeFrom s offset cs = some close)
    (x : List Char) : closeFrom s offset (cs ++ x) = some close := by
  induction cs generalizing s offset with
  | nil => cases h
  | cons c cs ih =>
    simp only [closeFrom, Option.bind_eq_bind, Option.bind_eq_some_iff] at h
    obtain ⟨next, hn, h⟩ := h
    simp only [List.cons_append, closeFrom, hn, Option.bind_eq_bind, Option.bind_some]
    split at h
    · cases h
      rw [if_pos ‹_›]
    · rw [if_neg ‹_›]
      exact ih h

theorem bracketRest_append {cs rest : List Char} (h : bracketRest? cs = some rest) (x : List Char) :
    bracketRest? (cs ++ x) = some (rest ++ x) := by
  simp only [bracketRest?, Option.map_eq_some_iff] at h
  obtain ⟨close, hc, rfl⟩ := h
  rcases cs with _ | ⟨c, cs⟩
  · cases hc
  · simp only [matchingClose?, Option.bind_eq_some_iff] at hc
    obtain ⟨closer, hcloser, hc⟩ := hc
    have ha := closeFrom_append hc x
    have hlt := (closeFrom_bounds hc).2
    have hle : close + 1 ≤ (c :: cs).length := by
      simp only [List.length_cons]
      omega
    simp only [bracketRest?, List.cons_append, matchingClose?, hcloser, Option.bind_some, ha, Option.map_some]
    rw [← List.cons_append, List.drop_append_of_le_length hle]

theorem literalRest_append {quote : Char} {cs : List Char} {length : Nat} (h : literalRest? quote cs = some length)
    (x : List Char) : literalRest? quote (cs ++ x) = some length ∧ length ≤ cs.length := by
  fun_induction literalRest? quote cs generalizing length with
  | case1 => cases h
  | case2 c rest ih =>
    obtain ⟨n, hn, rfl⟩ := Option.map_eq_some_iff.mp h
    obtain ⟨ha, hle⟩ := ih hn
    refine ⟨?_, by simp only [List.length_cons]; omega⟩
    simp only [List.cons_append, literalRest?, ha, Option.map_some]
  | case3 => cases h
  | case4 rest hne =>
    cases h
    have ha : literalRest? quote (quote :: rest ++ x) = some 1 := by
      rw [List.cons_append, literalRest?, if_pos rfl]
      exact hne
    exact ⟨ha, by simp⟩
  | case5 c rest hne hq ih =>
    obtain ⟨n, hn, rfl⟩ := Option.map_eq_some_iff.mp h
    obtain ⟨ha, hle⟩ := ih hn
    simp only [List.cons_append, List.length_cons]
    rw [literalRest?, if_neg hq, ha]
    · exact ⟨rfl, by omega⟩
    · exact hne

/-- A literal's rest ends in its quote. -/
theorem literalRest_text {quote : Char} {cs : List Char} {length : Nat} (h : literalRest? quote cs = some length) :
    ∃ body after, cs = body ++ quote :: after ∧ length = body.length + 1 := by
  fun_induction literalRest? quote cs generalizing length with
  | case1 => cases h
  | case2 c rest ih =>
    obtain ⟨n, hn, rfl⟩ := Option.map_eq_some_iff.mp h
    obtain ⟨body, after, rfl, rfl⟩ := ih hn
    exact ⟨'\\' :: c :: body, after, rfl, by simp⟩
  | case3 => cases h
  | case4 rest plain =>
    cases h
    exact ⟨[], rest, rfl, rfl⟩
  | case5 c rest plain other ih =>
    obtain ⟨n, hn, rfl⟩ := Option.map_eq_some_iff.mp h
    obtain ⟨body, after, rfl, rfl⟩ := ih hn
    exact ⟨c :: body, after, rfl, rfl⟩

theorem literalRest_last {quote : Char} {cs : List Char} (h : literalRest? quote cs = some cs.length) :
    cs.getLast? = some quote := by
  obtain ⟨body, after, rfl, length⟩ := literalRest_text h
  have whole : after = [] := by
    rw [List.length_append, List.length_cons] at length
    exact List.length_eq_zero_iff.mp (by omega)
  rw [whole, List.getLast?_append]
  rfl

theorem literalLength_append {cs : List Char} {length : Nat} (h : literalLength? cs = some length) (x : List Char) :
    literalLength? (cs ++ x) = some length ∧ length ≤ cs.length := by
  rcases cs with _ | ⟨c, cs⟩
  · cases h
  · simp only [literalLength?] at h
    split at h
    · obtain ⟨n, hn, rfl⟩ := Option.map_eq_some_iff.mp h
      obtain ⟨ha, hle⟩ := literalRest_append hn x
      simp only [List.cons_append, literalLength?, List.length_cons]
      rw [if_pos ‹_›, ha]
      exact ⟨rfl, by omega⟩
    · cases h

/-! ## Numerals -/

theorem takeDigits_stop {cs x : List Char} (hx : Settled x) :
    Text.takeDigits (cs ++ x) = ((Text.takeDigits cs).1, (Text.takeDigits cs).2 ++ x) := by
  have stop : ∀ c rest, x = c :: rest → c.isDigit = false := by
    intro c rest h
    by_cases hc : c.isDigit = true
    · have := (hx c rest h).1
      rw [isNameChar_of_isDigit hc] at this
      cases this
    · simpa using hc
  have both : (cs ++ x).takeWhile Char.isDigit = cs.takeWhile Char.isDigit ∧
      (cs ++ x).dropWhile Char.isDigit = cs.dropWhile Char.isDigit ++ x := takeWhile_append_of_stop fun _ => stop
  simp only [Text.takeDigits, both.1, both.2]

theorem fraction_append {cs digits rest x : List Char} (h : Double.fraction? cs = some (digits, rest))
    (hx : Settled x) : Double.fraction? (cs ++ x) = some (digits, rest ++ x) := by
  unfold Double.fraction? at h
  split at h
  · rename_i cs
    dsimp only at h
    split at h
    · cases h
    · cases h
      simp only [List.cons_append, Double.fraction?, takeDigits_stop hx]
      rw [if_neg ‹_›]
  · cases h

theorem signedExponent_append {negative : Bool} {cs rest x : List Char} {e : Int}
    (h : Double.signedExponent? negative cs = some (e, rest)) (hx : Settled x) :
    Double.signedExponent? negative (cs ++ x) = some (e, rest ++ x) := by
  unfold Double.signedExponent? at h ⊢
  simp only [takeDigits_stop hx] at h ⊢
  split at h
  · cases h
  · cases h
    rw [if_neg ‹_›]

theorem exponent_append {cs rest x : List Char} {e : Int} (h : Double.exponent? cs = some (e, rest))
    (hx : Settled x) : Double.exponent? (cs ++ x) = some (e, rest ++ x) := by
  unfold Double.exponent? at h
  split at h
  · rename_i c cs
    split at h
    · rename_i hc
      simp only [List.cons_append, Double.exponent?]
      rw [if_pos hc]
      split at h
      · exact signedExponent_append h hx
      · exact signedExponent_append h hx
      · rename_i plus minus
        rcases cs with _ | ⟨d, cs⟩
        · simp [Double.signedExponent?, Text.takeDigits] at h
        · rw [List.cons_append]
          split
          · rename_i eq
            exact absurd (List.cons.inj eq).1 fun hd => plus cs (by rw [hd])
          · rename_i eq
            exact absurd (List.cons.inj eq).1 fun hd => minus cs (by rw [hd])
          · rw [← List.cons_append]
            exact signedExponent_append h hx
    · cases h
  · cases h

theorem exponent_of_settled {cs : List Char} (h : Settled cs) : Double.exponent? cs = none := by
  rcases cs with _ | ⟨c, cs⟩
  · rfl
  · have name := (h c cs rfl).1
    have hc : ¬ (c = 'e' ∨ c = 'E') := by
      rintro (rfl | rfl)
      · exact absurd name (by decide)
      · exact absurd name (by decide)
    simp only [Double.exponent?]
    rw [if_neg hc]

theorem fraction_of_settled {cs : List Char} (h : Settled cs) : Double.fraction? cs = none := by
  unfold Double.fraction?
  split
  · rename_i cs
    have named := (h '.' cs rfl).2.2.2 rfl
    rcases cs with _ | ⟨c, cs⟩
    · exact absurd rfl named
    · simp [Text.takeDigits, isDigit_of_beginsName (beginsName_of_nameAt named)]
  · rfl

theorem fraction_of_exponent {cs rest : List Char} {e : Int} (h : Double.exponent? cs = some (e, rest)) (x : List Char) :
    Double.fraction? (cs ++ x) = none := by
  unfold Double.exponent? at h
  split at h
  · rename_i c cs
    split at h
    · rename_i hc
      rcases hc with rfl | rfl
      · rfl
      · rfl
    · cases h
  · cases h

/-- A numeral that leaves a settled text over does not go on into another. -/
theorem numeral_append {cs rest x : List Char} {n : Double.Numeral} (h : Double.numeral? cs = some (n, rest))
    (hrest : Settled rest) (hx : Settled x) : Double.numeral? (cs ++ x) = some (n, rest ++ x) := by
  unfold Double.numeral? at h ⊢
  simp only [takeDigits_stop hx]
  dsimp only at h
  split at h
  · cases h
  · rw [if_neg ‹_›]
    rcases hf : Double.fraction? (Text.takeDigits cs).2 with _ | ⟨digits, after⟩
    · simp only [hf, Option.getD_none] at h
      rcases he : Double.exponent? (Text.takeDigits cs).2 with _ | ⟨e, after⟩
      · simp only [he] at h
        cases h
        have settled := settled_append hrest hx
        simp only [fraction_of_settled settled, exponent_of_settled settled, Option.getD_none]
      · simp only [he] at h
        cases h
        simp only [fraction_of_exponent he, exponent_append he hx, Option.getD_none]
    · simp only [hf, Option.getD_some] at h
      simp only [fraction_append hf hx, Option.getD_some]
      rcases he : Double.exponent? after with _ | ⟨e, after⟩
      · simp only [he] at h
        cases h
        simp only [exponent_of_settled (settled_append hrest hx)]
      · simp only [he] at h
        cases h
        simp only [exponent_append he hx]

/-! ## Operands and traversals -/

theorem countParents_of_settled {cs : List Char} (h : Settled cs) : countParents cs = 0 := by
  unfold countParents
  split
  · exact absurd rfl ((h _ _ rfl).2.2.2 rfl)
  · rfl

theorem countParents_append {cs x : List Char} (h : Settled (cs.drop (2 * countParents cs))) (hx : Settled x) :
    countParents (cs ++ x) = countParents cs ∧ 2 * countParents cs ≤ cs.length := by
  fun_induction countParents cs with
  | case1 rest ih =>
    obtain ⟨ha, hle⟩ := ih h
    simp only [List.cons_append, countParents, ha, List.length_cons]
    exact ⟨trivial, by omega⟩
  | case2 cs hne => exact ⟨countParents_of_settled (settled_append h hx), Nat.zero_le _⟩

theorem namedRest_append {cs rest x : List Char} (h : namedRest? cs = some rest) (hrest : Settled rest)
    (hx : Settled x) : namedRest? (cs ++ x) = some (rest ++ x) := by
  unfold namedRest? at h ⊢
  dsimp only at h ⊢
  rw [drop_nameAt_append hx]
  split at h
  · rename_i cs' hcs
    simp only [hcs, List.cons_append]
    rw [drop_nameAt_append hx, nameAt_append hx]
    split at h
    · cases h
    · rename_i hc
      have hhead : (cs'.drop (nameAt cs').length).head? = some '(' := by
        by_cases hh : (cs'.drop (nameAt cs').length).head? = some '('
        · exact hh
        · exact absurd (.inr hh) hc
      rw [if_neg, bracketRest_append h x]
      rintro (hn | hn)
      · exact hc (.inl hn)
      · simp [List.head?_append, hhead] at hn
  · rename_i tail hcs
    rw [hcs] at h
    simp only [hcs, List.cons_append]
    exact bracketRest_append h x
  · cases h
    have settled := settled_append hrest hx
    split
    · rename_i eq
      exact absurd rfl (settled _ _ eq).2.1
    · rename_i eq
      exact absurd rfl (settled _ _ eq).2.2.1
    · rfl

/-- What an operand leaves over, it leaves over before any other settled text. -/
theorem operandRest_append {cs rest x : List Char} (h : operandRest? cs = some rest) (hrest : Settled rest)
    (hx : Settled x) : operandRest? (cs ++ x) = some (rest ++ x) := by
  rcases cs with _ | ⟨c, cs⟩
  · cases h
  simp only [operandRest?, List.cons_append] at h ⊢
  by_cases hquote : c = '"' ∨ c = '\''
  · rw [if_pos hquote] at h ⊢
    obtain ⟨length, hl, rfl⟩ := Option.map_eq_some_iff.mp h
    obtain ⟨ha, hle⟩ := literalLength_append hl x
    rw [← List.cons_append, ha, Option.map_some, List.drop_append_of_le_length hle]
  rw [if_neg hquote] at h ⊢
  by_cases hdigit : c.isDigit = true
  · rw [if_pos hdigit] at h ⊢
    obtain ⟨⟨n, after⟩, hn, rfl⟩ := Option.map_eq_some_iff.mp h
    rw [← List.cons_append, numeral_append hn hrest hx]
    rfl
  rw [if_neg hdigit] at h ⊢
  by_cases hparam : c = '$'
  · rw [if_pos hparam] at h ⊢
    rw [nameAt_append hx]
    split at h
    · cases h
    · cases h
      rw [if_neg ‹_›, List.drop_append_of_le_length (nameAt_length_le cs)]
  rw [if_neg hparam] at h ⊢
  by_cases hthis : c = '@'
  · rw [if_pos hthis] at h ⊢
    cases h
    rfl
  rw [if_neg hthis] at h ⊢
  by_cases hparent : c = '^'
  · rw [if_pos hparent] at h ⊢
    cases h
    obtain ⟨ha, hle⟩ := countParents_append hrest hx
    rw [ha, List.drop_append_of_le_length hle]
  rw [if_neg hparent] at h ⊢
  by_cases hall : c = '*'
  · rw [if_pos hall] at h ⊢
    cases h
    rfl
  rw [if_neg hall] at h ⊢
  by_cases hbracket : c = '(' ∨ c = '[' ∨ c = '{'
  · rw [if_pos hbracket] at h ⊢
    exact bracketRest_append h x
  rw [if_neg hbracket] at h ⊢
  split at h
  · rw [if_pos ‹_›]
    exact namedRest_append h hrest hx
  · cases h

theorem traversalRest_append {cs rest x : List Char} (h : traversalRest? cs = some rest) (hx : Settled x) :
    traversalRest? (cs ++ x) = some (rest ++ x) := by
  unfold traversalRest? at h
  split at h
  · rename_i cs
    split at h
    · cases h
    · cases h
      simp only [List.cons_append, traversalRest?, nameAt_append hx]
      rw [if_neg ‹_›, List.drop_append_of_le_length (nameAt_length_le cs)]
  · rename_i cs
    cases h
    simp only [List.cons_append, traversalRest?, nameAt_append hx]
    rw [List.drop_append_of_le_length (nameAt_length_le cs)]
  · exact bracketRest_append h x
  · exact bracketRest_append h x
  · cases h

theorem ne_of_beginsName {c d : Char} (hc : beginsName c = true) (hd : beginsName d = false) : c ≠ d := by
  rintro rfl
  rw [hc] at hd
  cases hd

theorem operandRest_of_name {cs : List Char} (h : nameAt cs ≠ []) : operandRest? cs = namedRest? cs := by
  rcases cs with _ | ⟨c, cs⟩
  · exact absurd rfl h
  have hc := beginsName_of_nameAt h
  have other {d : Char} (hd : beginsName d = false) : c ≠ d := ne_of_beginsName hc hd
  have quote : ¬ (c = '"' ∨ c = '\'') := not_or.mpr ⟨other rfl, other rfl⟩
  have bracket : ¬ (c = '(' ∨ c = '[' ∨ c = '{') := not_or.mpr ⟨other rfl, not_or.mpr ⟨other rfl, other rfl⟩⟩
  have digit : ¬ c.isDigit = true := by
    rw [isDigit_of_beginsName hc]
    exact nofun
  simp only [operandRest?]
  rw [if_neg quote, if_neg digit, if_neg (other rfl), if_neg (other rfl), if_neg (other rfl), if_neg (other rfl),
    if_neg bracket, if_pos hc]

theorem namedRest_of_call {cs : List Char} (h : (cs.drop (nameAt cs).length).head? = some '(') :
    namedRest? cs = bracketRest? (cs.drop (nameAt cs).length) := by
  obtain ⟨tail, ht⟩ := List.head?_eq_some_iff.mp h
  simp only [namedRest?, ht]

theorem settled_of_traversal {cs rest : List Char} (h : traversalRest? cs = some rest) : Settled cs := by
  unfold traversalRest? at h
  split at h
  · rename_i cs
    split at h
    · cases h
    · exact settled_cons (by decide) (by decide) (by decide) fun _ => ‹_›
  · exact settled_cons (by decide) (by decide) (by decide) fun h => absurd h (by decide)
  · exact settled_cons (by decide) (by decide) (by decide) fun h => absurd h (by decide)
  · exact settled_cons (by decide) (by decide) (by decide) fun h => absurd h (by decide)
  · cases h

end Groq.Query
