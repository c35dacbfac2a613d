/-
  Groq.Proofs.Query.Rest — where operands and traversals end.

  What an operand or a traversal leaves over does not depend on the parsers for what stands in its
  brackets: `operandRest?` and `traversalRest?` find it from the text alone, and where the rules
  of the grammar succeed they leave that over (`operand_rest`, `traversal_rest`).
-/

import Groq.Proofs.Query.Span
import Groq.Query.Grammar

namespace Groq.Query

/-! ## By the text alone -/

/-- What follows the bracket that closes the one at the beginning. -/
def bracketRest? (cs : List Char) : Option (List Char) := (matchingClose? cs).map fun close => cs.drop (close + 1)

/-- What follows a word, or a call. -/
def namedRest? (cs : List Char) : Option (List Char) :=
  let after := cs.drop (nameAt cs).length
  match after with
  | ':' :: ':' :: rest =>
    let after := rest.drop (nameAt rest).length
    if nameAt rest = [] ∨ after.head? ≠ some '(' then none else bracketRest? after
  | '(' :: _ => bracketRest? after
  | _ => some after

/-- What follows the operand at the beginning, traversals apart. -/
def operandRest? : List Char → Option (List Char)
  | [] => none
  | c :: rest =>
    if c = '"' ∨ c = '\'' then (literalLength? (c :: rest)).map fun length => (c :: rest).drop length
    else if c.isDigit then (Double.numeral? (c :: rest)).map (·.2)
    else if c = '$' then if nameAt rest = [] then none else some (rest.drop (nameAt rest).length)
    else if c = '@' then some rest
    else if c = '^' then some (rest.drop (2 * countParents rest))
    else if c = '*' then some rest
    else if c = '(' ∨ c = '[' ∨ c = '{' then bracketRest? (c :: rest)
    else if beginsName c then namedRest? (c :: rest)
    else none

/-- What follows the traversal at the beginning. -/
def traversalRest? : List Char → Option (List Char)
  | '.' :: rest => if nameAt rest = [] then none else some (rest.drop (nameAt rest).length)
  | '-' :: '>' :: rest => some (rest.drop (nameAt rest).length)
  | '[' :: rest => bracketRest? ('[' :: rest)
  | '{' :: rest => bracketRest? ('{' :: rest)
  | _ => none

/-! ## Results of plain parsers -/

theorem run_bind {α β : Type} (v : OptionT Id α) (f : α → OptionT Id β) :
    (v >>= f).run.run = v.run.run.bind fun a => (f a).run.run := by
  rw [OptionT.run_bind]
  rcases h : v.run.run with _ | a
  · simp [Option.elimM, h]
  · simp [Option.elimM, h]

theorem run_orElse {α : Type} (v w : OptionT Id α) : (v <|> w).run.run = v.run.run.or w.run.run := by
  rw [OptionT.run_orElse]
  rcases h : v.run.run with _ | a
  · simp [Option.elimM, h]
  · simp [Option.elimM, h]

/-- Whatever `v` results in satisfies `P`. -/
def Yields {α : Type} (v : OptionT Id α) (P : α → Prop) : Prop := ∀ a, v.run.run = some a → P a

section Yields

variable {α β : Type} {P : α → Prop}

theorem yields_pure {a : α} (h : P a) : Yields (pure a) P := by
  intro b hb
  cases hb
  exact h

theorem yields_failure : Yields (failure : OptionT Id α) P := by
  intro b hb
  cases hb

theorem yields_bind {v : OptionT Id β} {f : β → OptionT Id α} (h : ∀ b, v.run.run = some b → Yields (f b) P) :
    Yields (v >>= f) P := by
  intro a ha
  rw [run_bind, Option.bind_eq_some_iff] at ha
  obtain ⟨b, hb, ha⟩ := ha
  exact h b hb a ha

theorem yields_ite {p : Prop} [Decidable p] {v w : OptionT Id α} (yes : p → Yields v P) (no : ¬ p → Yields w P) :
    Yields (if p then v else w) P := by
  split
  · exact yes ‹_›
  · exact no ‹_›

theorem yields_orElse {v w : OptionT Id α} (first : Yields v P) (second : Yields w P) : Yields (v <|> w) P := by
  intro a ha
  rw [run_orElse, Option.or_eq_some_iff] at ha
  rcases ha with ha | ⟨-, ha⟩
  · exact first a ha
  · exact second a ha

theorem yields_firstSuccess {f : β → OptionT Id α} {items : List β} (each : ∀ b ∈ items, Yields (f b) P) :
    Yields (firstSuccess f items) P := by
  induction items with
  | nil => exact yields_failure
  | cons b rest ih =>
    exact yields_orElse (each b List.mem_cons_self) (ih fun b hb => each b (List.mem_cons_of_mem _ hb))

theorem yields_map {v : OptionT Id β} (f : β → α) (h : Yields v fun b => P (f b)) : Yields (f <$> v) P := by
  rw [← bind_pure_comp]
  exact yields_bind fun b hb => yields_pure (h b hb)

end Yields

/-! ## Numerals -/

theorem takeDigits_append (cs : List Char) : (Text.takeDigits cs).1 ++ (Text.takeDigits cs).2 = cs :=
  List.takeWhile_append_dropWhile

theorem takeDigits_suffix (cs : List Char) : (Text.takeDigits cs).2 <:+ cs := ⟨_, takeDigits_append cs⟩

theorem fraction_suffix {cs digits rest : List Char} (h : Double.fraction? cs = some (digits, rest)) :
    rest <:+ cs := by
  unfold Double.fraction? at h
  split at h
  · dsimp only at h
    split at h
    · cases h
    · cases h
      exact (takeDigits_suffix _).trans (List.suffix_cons _ _)
  · cases h

theorem signedExponent_suffix {negative : Bool} {cs rest : List Char} {e : Int}
    (h : Double.signedExponent? negative cs = some (e, rest)) : rest <:+ cs := by
  unfold Double.signedExponent? at h
  dsimp only at h
  split at h
  · cases h
  · cases h
    exact takeDigits_suffix cs

theorem exponent_suffix {cs rest : List Char} {e : Int} (h : Double.exponent? cs = some (e, rest)) :
    rest <:+ cs := by
  unfold Double.exponent? at h
  split at h
  · split at h
    · split at h
      · exact (signedExponent_suffix h).trans ((List.suffix_cons _ _).trans (List.suffix_cons _ _))
      · exact (signedExponent_suffix h).trans ((List.suffix_cons _ _).trans (List.suffix_cons _ _))
      · exact (signedExponent_suffix h).trans (List.suffix_cons _ _)
    · cases h
  · cases h

/-- A numeral is not empty, and what it leaves over is the end of the text. -/
theorem numeral_suffix {cs rest : List Char} {x : Double.Numeral} (h : Double.numeral? cs = some (x, rest)) :
    rest <:+ cs ∧ rest.length < cs.length := by
  unfold Double.numeral? at h
  dsimp only at h
  split at h
  · cases h
  · rename_i hw
    have hs := takeDigits_suffix cs
    have hlen : (Text.takeDigits cs).2.length < cs.length := by
      have he := congrArg List.length (takeDigits_append cs)
      have hpos := List.length_pos_iff.mpr hw
      rw [List.length_append] at he
      omega
    have hf : ((Double.fraction? (Text.takeDigits cs).2).getD ([], (Text.takeDigits cs).2)).2 <:+
        (Text.takeDigits cs).2 := by
      rcases he : Double.fraction? (Text.takeDigits cs).2 with _ | ⟨digits, r⟩
      · exact List.suffix_rfl
      · exact fraction_suffix he
    split at h
    · rename_i e r he
      cases h
      have hr := (exponent_suffix he).trans hf
      exact ⟨hr.trans hs, Nat.lt_of_le_of_lt hr.length_le hlen⟩
    · cases h
      exact ⟨hf.trans hs, Nat.lt_of_le_of_lt hf.length_le hlen⟩

/-! ## What the rules leave over -/

theorem enclosed_rest {s inside rest : Span} (h : s.enclosed? = some (inside, rest)) :
    bracketRest? s.chars = some rest.chars := by
  simp only [Span.enclosed?, Option.map_eq_some_iff] at h
  obtain ⟨close, hc, h⟩ := h
  cases h
  simp [bracketRest?, hc, Span.tail]

variable {parse : Parse Id} {constant? : Expr → Option Value}

theorem callOperand_rest (library name : List Char) (s : Span) :
    Yields (callOperand parse library name s) fun x => bracketRest? s.chars = some x.2.chars ∧ x.2.Inside s := by
  refine yields_bind fun (inside, rest) h => yields_bind fun args _ => yields_pure ?_
  exact ⟨enclosed_rest h, (Span.inside_enclosed h).2⟩

theorem namedOperand_rest {s : Span} (hs : nameAt s.chars ≠ []) :
    Yields (namedOperand parse s) fun x => namedRest? s.chars = some x.2.chars ∧ x.2.Inside s := by
  have hne : s.chars ≠ [] := by
    intro e
    simp [e, nameAt] at hs
  have inside := s.inside_tail hne (List.length_pos_iff.mpr hs)
  unfold namedOperand namedRest?
  dsimp only
  have hc : (s.tail (nameAt s.chars).length).chars = s.chars.drop (nameAt s.chars).length := rfl
  split
  · rename_i rest he
    rw [hc] at he
    simp only [he]
    have hr : ((s.tail (nameAt s.chars).length).tail (2 + (nameAt rest).length)).chars =
        rest.drop (nameAt rest).length := by
      rw [show ∀ n, ((s.tail (nameAt s.chars).length).tail n).chars =
        (s.chars.drop (nameAt s.chars).length).drop n from fun _ => rfl, he, Nat.add_comm]
      rfl
    rw [hr]
    refine yields_ite (fun _ => yields_failure) fun h => ?_
    rw [if_neg h, ← hr]
    intro x hx
    obtain ⟨h₁, h₂⟩ := callOperand_rest _ _ _ x hx
    exact ⟨h₁, (h₂.trans_within (Span.within_tail _ _)).trans_within (Span.within_tail _ _)⟩
  · rename_i tail he
    rw [hc] at he
    simp only [he]
    intro x hx
    obtain ⟨h₁, h₂⟩ := callOperand_rest _ _ _ x hx
    rw [hc, he] at h₁
    exact ⟨h₁, h₂.trans_within (Span.within_tail _ _)⟩
  · rename_i h₁ h₂
    rw [hc] at h₁ h₂
    refine yields_pure ⟨?_, inside⟩
    split
    · exact absurd ‹_› (h₁ _)
    · exact absurd ‹_› (h₂ _)
    · rfl

theorem operand_rest (s : Span) :
    Yields (operand parse s) fun x => operandRest? s.chars = some x.2.chars ∧ x.2.Inside s := by
  rcases hs : s.chars with _ | ⟨c, rest⟩
  · unfold operand
    rw [hs]
    exact yields_failure
  have inside {n : Nat} (hn : 0 < n) : (s.tail n).Inside s := Span.inside_tail (by simp [hs]) hn
  have tail (n : Nat) : (s.tail n).chars = (c :: rest).drop n := by rw [← hs]; rfl
  unfold operand operandRest?
  rw [hs]
  dsimp only
  refine yields_ite (fun h => ?literal) fun h₁ => yields_ite (fun h => ?number) fun h₂ => ?_
  case literal =>
    refine yields_bind fun length hl => yields_bind fun text _ => yields_pure ?_
    have hl : literalLength? (c :: rest) = some length := hl
    refine ⟨by rw [if_pos h, hl, tail]; rfl, inside ?_⟩
    simp only [literalLength?, if_pos h, Option.map_eq_some_iff] at hl
    omega
  case number =>
    refine yields_bind fun (number, after) hn => yields_pure ?_
    have hn : Double.numeral? (c :: rest) = some (number, after) := hn
    obtain ⟨⟨digits, hd⟩, hlen⟩ := numeral_suffix hn
    rw [if_neg h₁, if_pos h, hn, tail]
    refine ⟨?_, inside (Nat.sub_pos_of_lt hlen)⟩
    have : (c :: rest).length - after.length = digits.length := by
      rw [← hd, List.length_append]
      omega
    rw [this, ← hd, List.drop_left]
    rfl
  rw [if_neg h₁, if_neg h₂]
  refine yields_ite (fun h => ?parameter) fun h₃ => yields_ite (fun h => ?this) fun h₄ => ?_
  case parameter =>
    rw [if_pos h]
    refine yields_ite (fun _ => yields_failure) fun hne => yields_pure ⟨?_, inside (by omega)⟩
    rw [if_neg hne, tail, Nat.add_comm]
    rfl
  case this =>
    rw [if_neg h₃, if_pos h]
    exact yields_pure ⟨by rw [tail]; rfl, inside (by omega)⟩
  rw [if_neg h₃, if_neg h₄]
  refine yields_ite (fun h => ?parent) fun h₅ => yields_ite (fun h => ?everything) fun h₆ => ?_
  case parent =>
    rw [if_pos h]
    refine yields_pure ⟨?_, inside (by omega)⟩
    rw [tail, Nat.add_comm]
    rfl
  case everything =>
    rw [if_neg h₅, if_pos h]
    exact yields_pure ⟨by rw [tail]; rfl, inside (by omega)⟩
  rw [if_neg h₅, if_neg h₆]
  have enclosed {i r : Span} (h : s.enclosed? = some (i, r)) : bracketRest? (c :: rest) = some r.chars ∧ r.Inside s :=
    ⟨by rw [← hs]; exact enclosed_rest h, (Span.inside_enclosed h).2⟩
  refine yields_ite (fun h => ?group) fun h₇ => yields_ite (fun h => ?array) fun h₈ =>
    yields_ite (fun h => ?object) fun h₉ => yields_ite (fun h => ?name) fun _ => yields_failure
  case group =>
    rw [if_pos (.inl h)]
    exact yields_bind fun (i, r) he => yields_bind fun e _ => yields_pure (enclosed he)
  case array =>
    rw [if_pos (.inr (.inl h))]
    exact yields_bind fun (i, r) he => yields_bind fun e _ => yields_pure (enclosed he)
  case object =>
    rw [if_pos (.inr (.inr h))]
    exact yields_bind fun (i, r) he => yields_bind fun e _ => yields_pure (enclosed he)
  case name =>
    rw [if_neg (by simp [h₇, h₈, h₉]), if_pos h, ← hs]
    exact namedOperand_rest (by simp [hs, nameAt, h])

theorem traversal_rest (base : Expr) (s : Span) :
    Yields (traversal constant? parse base s) fun x => traversalRest? s.chars = some x.2.chars ∧ x.2.Inside s := by
  have inside {n : Nat} (hs : s.chars ≠ []) (hn : 0 < n) : (s.tail n).Inside s := Span.inside_tail hs hn
  unfold traversal
  split
  · rename_i rest hs
    dsimp only
    refine yields_ite (fun _ => yields_failure) fun h => yields_pure ⟨?_, inside (by simp [hs]) (by omega)⟩
    simp only [hs, traversalRest?, if_neg h, Span.tail, Nat.add_comm 1]
    rfl
  · rename_i rest hs
    dsimp only
    refine yields_ite (fun h => yields_pure ⟨?_, inside (by simp [hs]) (by omega)⟩)
      fun h => yields_pure ⟨?_, inside (by simp [hs]) (by omega)⟩
    · simp only [hs, traversalRest?, h, Span.tail]
      rfl
    · simp only [hs, traversalRest?, Span.tail, Nat.add_comm 2]
      rfl
  · rename_i rest hs
    refine yields_bind fun (i, r) h => yields_bind fun e _ => yields_pure ⟨?_, (Span.inside_enclosed h).2⟩
    have := enclosed_rest h
    rw [hs] at this
    simpa only [hs, traversalRest?] using this
  · rename_i rest hs
    refine yields_bind fun (i, r) h => yields_bind fun e _ => yields_pure ⟨?_, (Span.inside_enclosed h).2⟩
    have := enclosed_rest h
    rw [hs] at this
    simpa only [hs, traversalRest?] using this
  · exact yields_failure

end Groq.Query
