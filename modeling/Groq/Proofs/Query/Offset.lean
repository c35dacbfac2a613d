/-
  Groq.Proofs.Query.Offset — the rules of the grammar do not look at where a span begins.

  Moving a span moves every span a rule forms from it by the same distance and changes nothing
  else (`rule_shift`): what a rule does, up to the parsers it is given, depends on the text alone.
-/

import Groq.Query.Grammar

namespace Groq.Query

/-- The same text, beginning `k` further on. -/
def Span.shift (k : Nat) (s : Span) : Span := ⟨s.start + k, s.chars⟩

namespace Span

variable (k : Nat) (s : Span)

@[simp] theorem shift_chars : (s.shift k).chars = s.chars := rfl

@[simp] theorem shift_slice (first last : Nat) : (s.shift k).slice first last = (s.slice first last).shift k := by
  simp [shift, slice, Nat.add_right_comm]

@[simp] theorem shift_tail (first : Nat) : (s.shift k).tail first = (s.tail first).shift k := by
  simp [shift, tail, Nat.add_right_comm]

@[simp] theorem shift_enclosed :
    (s.shift k).enclosed? = s.enclosed?.map (fun e => (e.1.shift k, e.2.shift k)) := by
  simp [enclosed?, Function.comp_def]

@[simp] theorem shift_cutAt (first : Nat) (offsets : List Nat) :
    (s.shift k).cutAt first offsets = (s.cutAt first offsets).map (shift k) := by
  induction offsets generalizing first with
  | nil => simp [cutAt]
  | cons offset rest ih => simp [cutAt, ih]

@[simp] theorem shift_pieces : (s.shift k).pieces? = s.pieces?.map (List.map (shift k)) := by
  simp [pieces?, Function.comp_def]

@[simp] theorem shift_items : (s.shift k).items? = s.items?.map (List.map (shift k)) := by
  unfold items?
  simp only [shift_chars, shift_pieces]
  split
  · rfl
  · rcases s.pieces? with _ | pieces
    · rfl
    · simp only [Option.map_some]
      rw [List.getLast?_map, Option.any_map, List.length_map, apply_ite (List.map (shift k)), List.map_dropLast]
      rfl

end Span

/-! ## Rules -/

section Rules

variable {m : Type → Type} [Monad m]
variable (constant? : Expr → Option Value) (parse : Parse m) (walk : Follow m) (k : Nat) (s : Span)

theorem argument_shift (sortKeys : Bool) :
    argument parse sortKeys (s.shift k) = argument (fun l t => parse l (t.shift k)) sortKeys s := by
  simp [argument]

theorem arrayElement_shift : arrayElement parse (s.shift k) = arrayElement (fun l t => parse l (t.shift k)) s := by
  simp [arrayElement, isSplat]

theorem objectAttribute_shift :
    objectAttribute parse (s.shift k) = objectAttribute (fun l t => parse l (t.shift k)) s := by
  simp [objectAttribute, isSplat, keyColon?]

theorem infixLevel_shift (l : Level) (r : InfixRule) :
    infixLevel parse l r (s.shift k) = infixLevel (fun l t => parse l (t.shift k)) l r s := by
  simp [infixLevel]

theorem signLevel_shift : signLevel parse (s.shift k) = signLevel (fun l t => parse l (t.shift k)) s := by
  simp [signLevel]

theorem map_ite {α β : Type} (f : α → β) (p : Prop) [Decidable p] (x y : OptionT m α) :
    f <$> (if p then x else y) = if p then f <$> x else f <$> y := apply_ite (f <$> ·) p x y

variable [LawfulMonad m]

@[simp] theorem require_map {α β : Type} (f : α → β) (a : Option α) :
    (require (a.map f) : OptionT m β) = f <$> require a := by
  cases a <;> simp [require, OptionT.ext_iff]

theorem arguments_shift (sortKeys : Bool) :
    arguments parse sortKeys (s.shift k) = arguments (fun l t => parse l (t.shift k)) sortKeys s := by
  simp [arguments, List.mapM_map, Function.comp_def, argument_shift]

theorem arrayElements_shift :
    arrayElements parse (s.shift k) = arrayElements (fun l t => parse l (t.shift k)) s := by
  simp [arrayElements, List.mapM_map, Function.comp_def, arrayElement_shift]

theorem objectBody_shift : objectBody parse (s.shift k) = objectBody (fun l t => parse l (t.shift k)) s := by
  simp [objectBody, List.mapM_map, Function.comp_def, objectAttribute_shift]

theorem bracket_shift (base : Expr) :
    bracket constant? parse base (s.shift k) = bracket constant? (fun l t => parse l (t.shift k)) base s := by
  simp [bracket, sliceBound, rangeMark?]

/-- What is left over moves with the span. -/
theorem traversal_shift (base : Expr) : traversal constant? parse base (s.shift k) =
    (fun e => (e.1, e.2.shift k)) <$> traversal constant? (fun l t => parse l (t.shift k)) base s := by
  unfold traversal
  simp only [Span.shift_chars]
  split
  · split <;> simp
  · split <;> simp
  · simp [bracket_shift]
  · simp [objectBody_shift]
  · simp

theorem callOperand_shift (library name : List Char) : callOperand parse library name (s.shift k) =
    (fun e => (e.1, e.2.shift k)) <$> callOperand (fun l t => parse l (t.shift k)) library name s := by
  simp [callOperand, arguments_shift]

theorem namedOperand_shift : namedOperand parse (s.shift k) =
    (fun e => (e.1, e.2.shift k)) <$> namedOperand (fun l t => parse l (t.shift k)) s := by
  unfold namedOperand
  simp only [Span.shift_chars, Span.shift_tail]
  split
  · split <;> simp [callOperand_shift]
  · simp [callOperand_shift]
  · simp

theorem operand_shift : operand parse (s.shift k) =
    (fun e => (e.1, e.2.shift k)) <$> operand (fun l t => parse l (t.shift k)) s := by
  unfold operand
  simp only [Span.shift_chars]
  split
  · simp
  · simp [map_ite, arrayElements_shift, objectBody_shift, namedOperand_shift]

theorem pipeTarget_shift (base : Expr) : pipeTarget parse walk base (s.shift k) =
    pipeTarget (fun l t => parse l (t.shift k)) (fun e t => walk e (t.shift k)) base s := by
  unfold pipeTarget
  simp only [Span.shift_chars, Span.shift_tail]
  split
  · simp [objectBody_shift]
  · simp [arguments_shift]

theorem pipeLevel_shift : pipeLevel parse walk (s.shift k) =
    pipeLevel (fun l t => parse l (t.shift k)) (fun e t => walk e (t.shift k)) s := by
  simp [pipeLevel, pipeTarget_shift]

theorem operandLevel_shift : operandLevel parse walk (s.shift k) =
    operandLevel (fun l t => parse l (t.shift k)) (fun e t => walk e (t.shift k)) s := by
  simp [operandLevel, operand_shift]

theorem rule_shift (l : Level) : rule parse walk l (s.shift k) =
    rule (fun l t => parse l (t.shift k)) (fun e t => walk e (t.shift k)) l s := by
  unfold rule
  simp only [pipeLevel_shift, signLevel_shift, operandLevel_shift, infixLevel_shift]

end Rules

end Groq.Query
