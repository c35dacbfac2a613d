/-
  Groq.Proofs.Query.Chain — the text of a chain of operands.

  A piece is the text of an operand in normal form, with its tree. The text of a chain has the
  surface, the beginning and the end that its pieces give it, and the operators of the chain.
  Proved: what is derived over a chain is what its text is (`reading_of_derives`), a chain with a
  clash is nothing (`reading_of_clash`), so the text of a chain is what the climber makes of it
  (`reading_chain`).
-/

import Groq.Proofs.Query.Climb
import Groq.Proofs.Query.Composition

namespace Groq.Query

/-- A text that is an operand as a whole, and that no operator next to it would grow into. -/
structure Stands (text : List Char) : Prop where
  ends : operandRest? text = some []
  unsigned : Unsigned text
  before : Begins text
  after : Ends text

/-- An operand that may stand next to any operator: its text, and what that is. -/
structure Piece (constant? : Expr → Option Value) where
  text : List Char
  tree : Expr
  reads : reading constant? .operand text = some tree
  surface : (surface? text).isSome
  stands : Stands text

variable {constant? : Expr → Option Value}

namespace Piece

theorem text_ne_nil (p : Piece constant?) : p.text ≠ [] := by
  intro h
  have ends := p.stands.ends
  rw [h] at ends
  cases ends

theorem operators (p : Piece constant?) (offset : Nat) : Operators .operand offset p.text [] :=
  .operand p.stands.ends .done

end Piece

/-! ## The text of a chain -/

section Chains

variable {α : Type} (piece : α → Piece constant?)

def chainText (first : α) (rest : List (Connective × α)) : List Char :=
  (piece first).text ++ rest.flatMap fun c => (Operator.connective c.1).text ++ (piece c.2).text

section Text

variable (first : α) (rest : List (Connective × α))

theorem chainText_cons (c : Connective) (a : α) : chainText piece first ((c, a) :: rest) =
    (piece first).text ++ ((Operator.connective c).text ++ chainText piece a rest) := by
  simp [chainText]

theorem chainText_split (c : Connective) (a : α) (right : List (Connective × α)) :
    chainText piece first (rest ++ (c, a) :: right) =
      chainText piece first rest ++ ((Operator.connective c).text ++ chainText piece a right) := by
  simp [chainText]

theorem chainText_head : (chainText piece first rest).head? = (piece first).text.head? := by
  obtain ⟨c, tail, h⟩ := List.exists_cons_of_ne_nil (piece first).text_ne_nil
  simp [chainText, h]

theorem chainText_unsigned : Unsigned (chainText piece first rest) := by
  intro c hc
  rw [chainText_head] at hc
  exact (piece first).stands.unsigned c hc

theorem chainText_begins : Begins (chainText piece first rest) := by
  intro c hc
  rw [chainText_head] at hc
  exact (piece first).stands.before c hc

theorem chainText_ends : Ends (chainText piece first rest) := by
  induction rest generalizing first with
  | nil => simpa [chainText] using (piece first).stands.after
  | cons c rest ih =>
    obtain ⟨c, a⟩ := c
    have ne : chainText piece a rest ≠ [] := by simp [chainText, (piece a).text_ne_nil]
    intro d hd
    refine ih a d ?_
    rw [chainText_cons, ← List.append_assoc, List.getLast?_append, List.getLast?_eq_some_getLast ne] at hd
    rw [List.getLast?_eq_some_getLast ne]
    exact hd

theorem chainText_surface : (surface? (chainText piece first rest)).isSome := by
  induction rest generalizing first with
  | nil => simpa [chainText] using (piece first).surface
  | cons c rest ih =>
    obtain ⟨c, a⟩ := c
    obtain ⟨places, h, -⟩ := surface_join (.connective c) (piece first).surface (ih a)
    rw [chainText_cons, h]
    rfl

/-- The operators of the text are those of the chain. -/
theorem chainText_operators (offset : Nat) : ∃ ops, Operators .operand offset (chainText piece first rest) ops ∧
    ops.map (·.2) = (rest.map (·.1)).map Operator.connective := by
  induction rest generalizing first offset with
  | nil => exact ⟨[], by simpa [chainText] using (piece first).operators offset, rfl⟩
  | cons c rest ih =>
    obtain ⟨c, a⟩ := c
    obtain ⟨ops, ho, hops⟩ := ih a (offset + (piece first).text.length + (Operator.connective c).text.length)
    have behind := Operators.operator (operatorAt_begins (.connective c) (chainText_begins piece a rest)) ho
    refine ⟨(offset + (piece first).text.length, .connective c) :: ops, ?_, by simp [hops]⟩
    rw [chainText_cons]
    exact ((piece first).operators offset).append behind

end Text

/-! ## What the text is -/

variable {piece} {l : Level} {first : α} {rest : List (Connective × α)} {e : Expr}

/-- By induction on the derivation: each operator joins two shorter chains. -/
theorem reading_of_derives (h : Derives (fun a => (piece a).tree) l first rest e) :
    reading constant? l (chainText piece first rest) = some e := by
  induction h with
  | operand a => simpa [chainText] using (piece a).reads
  | tighter operand _ ih =>
    exact reading_of_tighter operand (chainText_surface _ _ _) (chainText_unsigned _ _ _) ih
  | split hr _ _ ihl ihr =>
    rw [chainText_split]
    exact reading_join hr (chainText_surface _ _ _) (chainText_surface _ _ _) (chainText_ends _ _ _)
      (chainText_begins _ _ _) ihl ihr

theorem reading_of_clash (h : Clash (rest.map (·.1))) : reading constant? l (chainText piece first rest) = none := by
  rcases hr : reading constant? l (chainText piece first rest) with _ | e
  · rfl
  · obtain ⟨ops, ho, hf⟩ := reading_operators hr 0
    obtain ⟨ops', ho', hops⟩ := chainText_operators piece first rest 0
    rw [ho'.unique ho] at hops
    exact absurd h (hf.not_clash _ hops)

variable (piece first rest) in
/-- The text of a chain is what the climber makes of the chain, and nothing where comparisons clash. -/
theorem reading_chain : reading constant? .pipe (chainText piece first rest) =
      climbChain (fun a => (piece a).tree) first rest ∧
    (climbChain (fun a => (piece a).tree) first rest = none ↔ Clash (rest.map (·.1))) := by
  rcases h : climbChain (fun a => (piece a).tree) first rest with _ | e
  · have clash := climbChain_clash h
    exact ⟨reading_of_clash clash, fun _ => clash, fun _ => rfl⟩
  · have read := reading_of_derives (climbChain_derives h)
    refine ⟨read, nofun, fun clash => ?_⟩
    exact absurd (read.symm.trans (reading_of_clash clash)) nofun

end Chains

end Groq.Query
