/-
  Groq.Proofs.Query.Reading — what a text is at a level, with neither memory nor a bound on depth.

  `reading` is the recursion the rules describe, over texts: it ends because a rule asks only about
  shorter stretches, or about its own text at the next tighter level. The guards its definition
  needs fall away in `readSpan_eq` and `followSpan_eq`, and no other functions satisfy these
  equations (`IsRecursion.unique`).
-/

import Groq.Proofs.Query.Offset
import Groq.Proofs.Query.Simulation

namespace Groq.Query

/-! ## Equal parsers -/

/-- Two computations without effect are attempts at a value where they are that value. -/
def equality : Simulation Id Id where
  Rel v x y := x = v ∧ y = v
  pure _ := ⟨rfl, rfl⟩
  bind h₁ h₂ := by
    obtain ⟨rfl, rfl⟩ := h₁
    exact h₂

section Congruence

variable {const const' : Expr → Option Value} {parse parse' : Parse Id} {walk walk' : Follow Id} {s : Span}

theorem rule_congr (l : Level) (hp : ∀ l t, t.Inside s → parse l t = parse' l t)
    (tighter : l ≠ .operand → parse l.tighter s = parse' l.tighter s)
    (hw : ∀ e t, t.Inside s → walk e t = walk' e t) : rule parse walk l s = rule parse' walk' l s := by
  have agree : equality.Agree (rule parse' walk' l s) (rule parse walk l s) (rule parse' walk' l s) :=
    agree_rule l (fun l t ht => ⟨congrArg OptionT.run (hp l t ht), rfl⟩)
      (fun hl => ⟨congrArg OptionT.run (tighter hl), rfl⟩) fun e t ht => ⟨congrArg OptionT.run (hw e t ht), rfl⟩
  exact agree.1

theorem traversal_congr (base : Expr)
    (same : ∀ l t e, t.Inside s → (parse' l t).run.run = some e → const e = const' e)
    (hp : ∀ l t, t.Inside s → parse l t = parse' l t) :
    traversal const parse base s = traversal const' parse' base s := by
  have agree : equality.Agree (traversal const' parse' base s) (traversal const parse base s)
      (traversal const' parse' base s) :=
    agree_traversal base (fun l t e ht he => ⟨same l t e ht he, rfl⟩)
      fun l t ht => ⟨congrArg OptionT.run (hp l t ht), rfl⟩
  exact agree.1

end Congruence

/-! ## The recursion -/

/-- The number of levels that are tighter. -/
def Level.rank : Level → Nat
  | operand => 0
  | power => 1
  | sign => 2
  | product => 3
  | sum => 4
  | comparison => 5
  | and => 6
  | or => 7
  | pipe => 8

theorem Level.rank_succ {l : Level} (operand : l ≠ .operand) : l.tighter.rank + 1 = l.rank := by
  cases l <;> first | rfl | exact absurd rfl operand

theorem Level.rank_tighter {l : Level} (h : l ≠ .operand) : l.tighter.rank < l.rank := by
  have := Level.rank_succ h
  omega

theorem Level.eq_of_rank {l l' : Level} (h : l.rank = l'.rank) : l = l' := by
  cases l <;> cases l' <;> first | rfl | exact absurd h (by decide)

/-- What carries over from a level to the next weaker one holds at every weaker one. -/
theorem Level.weaken {P : Level → Prop} (step : ∀ l : Level, l ≠ .operand → P l.tighter → P l) {l : Level} (h : P l)
    {l' : Level} (hl : l.rank ≤ l'.rank) : P l' := by
  have steps : ∀ (n : Nat) (l' : Level), l'.rank = l.rank + n → P l' := by
    intro n
    induction n with
    | zero =>
      intro l' hl
      rw [Level.eq_of_rank hl]
      exact h
    | succ n ih =>
      intro l' hl
      have operand : l' ≠ .operand := by
        rintro rfl
        cases hl
      have hsucc := Level.rank_succ operand
      exact step l' operand (ih l'.tighter (by omega))
  exact steps (l'.rank - l.rank) l' (by omega)

/-- What holds of a span at a level if it holds of shorter spans and at tighter levels holds of every
    span: the induction that every function of this shape allows. -/
theorem span_induction {P : Level → Span → Prop} {Q : Span → Prop}
    (follows : ∀ s, (∀ l t, t.Inside s → P l t) → (∀ t, t.Inside s → Q t) → Q s)
    (levels : ∀ l s, (∀ l t, t.Inside s → P l t) → (∀ t, t.Inside s → Q t) →
      (l ≠ .operand → P l.tighter s) → P l s) : (∀ l s, P l s) ∧ ∀ s, Q s := by
  have both : ∀ n, (∀ l s, s.chars.length < n → P l s) ∧ ∀ s, s.chars.length < n → Q s := by
    intro n
    induction n with
    | zero => exact ⟨fun _ _ h => absurd h (Nat.not_lt_zero _), fun _ h => absurd h (Nat.not_lt_zero _)⟩
    | succ n ih =>
      have shorter (s : Span) (hs : s.chars.length < n + 1) : (∀ l t, t.Inside s → P l t) ∧ ∀ t, t.Inside s → Q t :=
        ⟨fun l t ht => ih.1 l t (Nat.lt_of_lt_of_le ht.2 (Nat.le_of_lt_succ hs)),
          fun t ht => ih.2 t (Nat.lt_of_lt_of_le ht.2 (Nat.le_of_lt_succ hs))⟩
      refine ⟨fun l s hs => ?_, fun s hs => follows s (shorter s hs).1 (shorter s hs).2⟩
      have level : ∀ r l, l.rank = r → P l s := by
        intro r
        induction r using Nat.strongRecOn with
        | _ r ihr =>
          intro l hr
          refine levels l s (shorter s hs).1 (shorter s hs).2 fun hl => ihr _ ?_ l.tighter rfl
          rw [← hr]
          exact Level.rank_tighter hl
      exact level _ l rfl
  exact ⟨fun l s => (both _).1 l s (Nat.lt_succ_self _), fun s => (both _).2 s (Nat.lt_succ_self _)⟩

variable (constant? : Expr → Option Value)

mutual

/-- What a text is at a level. -/
def reading (l : Level) (cs : List Char) : Option Expr :=
  if cs = [] then none
  else
    (rule
      (fun l' t => OptionT.mk <| (pure (
        if t.chars.length < cs.length ∨ t.chars.length = cs.length ∧ l'.rank < l.rank then reading l' t.chars
        else none) : Id (Option Expr)))
      (fun e t => OptionT.mk <| (pure (if t.chars.length < cs.length then following e t.chars else none) :
        Id (Option Expr)))
      l ⟨0, cs⟩).run.run
termination_by (cs.length, l.rank)
decreasing_by
  · rename_i h
    rcases h with h | ⟨h, h'⟩
    · exact Prod.Lex.left _ _ h
    · rw [h]
      exact Prod.Lex.right _ h'
  · exact Prod.Lex.left _ _ ‹_›

/-- An operand with the traversals a text consists of. -/
def following (base : Expr) (cs : List Char) : Option Expr :=
  if cs = [] then some base
  else
    (traversal constant?
      (fun l t => OptionT.mk <| (pure (if t.chars.length < cs.length then reading l t.chars else none) :
        Id (Option Expr)))
      base ⟨0, cs⟩).run.run.bind fun (e, t) => if t.chars.length < cs.length then following e t.chars else none
termination_by (cs.length, 0)
decreasing_by
  · exact Prod.Lex.left _ _ ‹_›
  · exact Prod.Lex.left _ _ ‹_›

end

/-- `reading` as a parser: it looks at the text of a span only. -/
def readSpan : Parse Id := fun l s => OptionT.mk (pure (reading constant? l s.chars) : Id (Option Expr))

def followSpan : Follow Id := fun base s => OptionT.mk (pure (following constant? base s.chars) : Id (Option Expr))

/-- The recursion of the grammar, as it is: every level by its rule, every traversal followed by the next. -/
structure IsRecursion (parse : Parse Id) (walk : Follow Id) : Prop where
  parse_eq : ∀ l s, parse l s = if s.chars = [] then failure else rule parse walk l s
  walk_eq : ∀ base s, walk base s =
    if s.chars = [] then pure base else traversal constant? parse base s >>= fun (e, rest) => walk e rest

variable {constant?}

theorem readSpan_eq (l : Level) (s : Span) : readSpan constant? l s =
    if s.chars = [] then failure else rule (readSpan constant?) (followSpan constant?) l s := by
  by_cases hs : s.chars = []
  · rw [if_pos hs]
    unfold readSpan reading
    rw [if_pos hs]
    rfl
  · obtain ⟨start, cs⟩ := s
    have moved : (⟨start, cs⟩ : Span) = Span.shift start ⟨0, cs⟩ := by simp [Span.shift]
    rw [if_neg hs, moved, rule_shift]
    show OptionT.mk (pure (reading constant? l cs)) = _
    rw [reading, if_neg hs]
    refine rule_congr l (fun l' t ht => ?_) (fun hl => ?_) (fun e t ht => ?_)
    · rw [if_pos (.inl ht.2)]
      rfl
    · rw [if_pos (.inr ⟨rfl, Level.rank_tighter hl⟩)]
      rfl
    · rw [if_pos ht.2]
      rfl

theorem followSpan_eq (base : Expr) (s : Span) : followSpan constant? base s =
    if s.chars = [] then pure base
    else traversal constant? (readSpan constant?) base s >>= fun (e, rest) => followSpan constant? e rest := by
  by_cases hs : s.chars = []
  · rw [if_pos hs]
    unfold followSpan following
    rw [if_pos hs]
    rfl
  · obtain ⟨start, cs⟩ := s
    have moved : (⟨start, cs⟩ : Span) = Span.shift start ⟨0, cs⟩ := by simp [Span.shift]
    rw [if_neg hs, moved, traversal_shift]
    show OptionT.mk (pure (following constant? base cs)) = _
    rw [following, if_neg hs]
    have unguarded (l : Level) (t : Span) (ht : t.Inside ⟨0, cs⟩) : OptionT.mk (pure (
        if t.chars.length < cs.length then reading constant? l t.chars else none) : Id (Option Expr)) =
        readSpan constant? l t := by
      rw [if_pos ht.2]
      rfl
    rw [traversal_congr base (fun _ _ _ _ _ => rfl) unguarded, bind_map_left]
    show OptionT.mk (pure (Option.bind _ _)) = traversal constant? (readSpan constant?) base ⟨0, cs⟩ >>= _
    refine OptionT.ext (Eq.trans ?_ (run_bind _ _).symm)
    rcases h : (traversal constant? (readSpan constant?) base ⟨0, cs⟩).run.run with _ | ⟨e, t⟩
    · rfl
    · have ht : t.chars.length < cs.length := (traversal_rest base _ _ h).2.2
      show (if t.chars.length < cs.length then following constant? e t.chars else none) = _
      rw [if_pos ht]
      rfl

theorem isRecursion_readSpan : IsRecursion constant? (readSpan constant?) (followSpan constant?) :=
  ⟨readSpan_eq, followSpan_eq⟩

/-- The equations determine the recursion. -/
theorem IsRecursion.unique {parse : Parse Id} {walk : Follow Id} (h : IsRecursion constant? parse walk) :
    parse = readSpan constant? ∧ walk = followSpan constant? := by
  have both : (∀ l s, parse l s = readSpan constant? l s) ∧ ∀ s base, walk base s = followSpan constant? base s := by
    refine span_induction (fun s levels walks base => ?_) fun l s levels walks tighter => ?_
    · rw [h.walk_eq, followSpan_eq]
      split
      · rfl
      · rw [traversal_congr base (fun _ _ _ _ _ => rfl) levels]
        refine OptionT.ext ((run_bind _ _).trans (Eq.trans ?_ (run_bind _ _).symm))
        rcases hv : (traversal constant? (readSpan constant?) base s).run.run with _ | ⟨e, t⟩
        · rfl
        · exact congrArg (fun x : OptionT Id Expr => x.run.run) (walks t (traversal_rest base _ _ hv).2 e)
    · rw [h.parse_eq, readSpan_eq]
      split
      · rfl
      · exact rule_congr l levels tighter fun e t ht => walks t ht e
  exact ⟨funext fun l => funext fun s => both.1 l s, funext fun e => funext fun s => both.2 s e⟩

end Groq.Query
