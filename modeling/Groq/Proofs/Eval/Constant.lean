/-
  Groq.Proofs.Eval.Constant — what the parser evaluates ahead is what evaluation makes of it.

  The same evaluator runs without a scope, for what stands between brackets, and in one. Without a
  scope it halts where something asks for the scope, and at the bound on depth.
  Proved: a value found without a scope is found in every scope (`evalAt_constant`); none is found
  only where the tree nests beyond the bound or contains a node that reads the scope
  (`evalAt_halts`). `constant_sound` is both for the constants of the parser.
-/

import Groq.Proofs.Eval.Runs

namespace Groq

/-! ## Runs with and without a scope -/

/-- By induction on the depth: a value found without a scope is found in every scope. -/
theorem evalAt_constant (limits : Limits) (depth : Nat) (s : Scope) (e : Expr) :
    RunRelation.refinement.Rel (evalAt limits depth .constant e) (evalAt limits depth (.inScope s) e) := by
  induction depth generalizing e with
  | zero => exact fun v h => nomatch h
  | succ depth ih =>
    -- Asking for the scope ends a run without one.
    exact node_related
      { standing := fun part _ => ih part
        scope := fun _ {_ _ _} _ v h => nomatch h
        sees := nofun
        push := nofun
        framed := nofun }

/-! ## Runs that result in a value -/

/-- Both runs result in the same value. -/
def RunRelation.results : RunRelation where
  Rel x y := ∃ a, x = .ok a ∧ y = .ok a
  pure a := ⟨a, rfl, rfl⟩
  bind := by
    rintro α β x y f g ⟨a, rfl, rfl⟩ next
    exact next a

/-- A node that does not read the scope results in a value where its parts do. -/
theorem node_result {eval : Env → Expr → Step} {e : Expr} (free : e.readsScope = false)
    (h : ∀ part ∈ e.parts, ∃ v, eval .constant part = .ok v) : ∃ v, Eval.node eval .constant e = .ok v := by
  have related : RunRelation.results.Rel (Eval.node eval .constant e) (Eval.node eval .constant e) :=
    node_related
      { standing := fun part mem => (h part (Expr.standing_subset mem)).imp fun v hv => ⟨hv, hv⟩
        scope := fun reads => absurd (free.symm.trans reads) nofun
        sees := nofun
        push := nofun
        framed := nofun }
  obtain ⟨v, hv, -⟩ := related
  exact ⟨v, hv⟩

/-- By induction on the depth: what halts a run without a scope is the bound or a node that reads the scope. -/
theorem evalAt_halts {limits : Limits} {depth : Nat} {e : Expr} {halt : Halt}
    (h : evalAt limits depth .constant e = .error halt) : depth < e.height ∨ e.Contains Expr.readsScope := by
  induction depth generalizing e halt with
  | zero => exact .inl e.height_pos
  | succ depth ih =>
    by_cases reads : e.readsScope = true
    · exact .inr (.here reads)
    · by_cases parts : ∀ part ∈ e.parts, ∃ v, evalAt limits depth .constant part = .ok v
      · obtain ⟨v, hv⟩ := node_result (by simpa using reads) parts
        exact absurd (h.symm.trans hv) nofun
      · simp only [Classical.not_forall] at parts
        obtain ⟨part, mem, fails⟩ := parts
        rcases hpart : evalAt limits depth .constant part with halt' | v
        · rcases ih hpart with high | contains
          · exact .inl (Nat.lt_of_le_of_lt high (Expr.height_part mem))
          · exact .inr (.inside mem contains)
        · exact absurd ⟨v, hpart⟩ fails

/-! ## Constants -/

/-- A constant is what evaluation finds in every scope and for every context; no constant is found
    only where the tree nests beyond the bound or contains a node that reads the scope. -/
theorem constant_sound (limits : Limits) (e : Expr) :
    (∀ v, constant? limits e = some v →
      (∀ s, evalAt limits limits.eval (.inScope s) e = .ok v) ∧ ∀ context, evaluate limits context e = .ok v) ∧
    (constant? limits e = none → limits.eval < e.height ∨ e.Contains Expr.readsScope) := by
  rcases h : evalAt limits limits.eval .constant e with halt | v
  · have none : constant? limits e = none := by
      unfold constant?
      rw [h]
      rfl
    rw [none]
    exact ⟨nofun, fun _ => evalAt_halts h⟩
  · have some : constant? limits e = some v := by
      unfold constant?
      rw [h]
      rfl
    rw [some]
    have found s := evalAt_constant limits limits.eval s e v h
    refine ⟨fun w hw => ?_, nofun⟩
    cases hw
    refine ⟨found, fun context => ?_⟩
    unfold evaluate
    rw [found]

end Groq
