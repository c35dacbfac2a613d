/-
  Groq.Proofs.Eval.Limits — greater limits, the same value.

  A bound shows only as an error, and no node makes a value of an error: what a run results in with less
  depth and less room for frames, it results in with more. The two runs are both without a scope or in scopes that
  differ in the room alone, which no node reads (`Scope.seesAlike_withRoom`).
  Proved: a value found within some limits is found within all greater ones (`evaluate_deeper`).
-/

import Groq.Proofs.Eval.Totality

namespace Groq

/-! ## Room for frames -/

/-- The same frames, with another bound on their number. -/
def Scope.withRoom (s : Scope) (room : Nat) : Scope := { s with maxDepth := room }

namespace Scope

variable (s : Scope) (room : Nat)

theorem inner_withRoom (v : Value) : (s.withRoom room).inner v = (s.inner v).withRoom room := rfl

/-- The frames outside are the same. -/
theorem ancestor_withRoom (levels : Nat) :
    ((s.withRoom room).ancestor? levels).map (·.this) = (s.ancestor? levels).map (·.this) := by
  rw [ancestor_this, ancestor_this]
  rfl

/-- No node sees how much room there is. -/
theorem seesAlike_withRoom (e : Expr) : e.SeesAlike s (s.withRoom room) := by
  cases e with
  | parent levels => exact (s.ancestor_withRoom room levels).symm
  | call library name args => exact fun f _ => by cases f <;> rfl
  | filter base | projection base => cases base <;> first | rfl | trivial
  | _ => first | rfl | trivial

/-- Where there is room for a frame, there is with more. -/
theorem begins_withRoom (h : s.maxDepth ≤ room) (v : Value) :
    RunRelation.refinement.Begins (s.push v) ((s.withRoom room).push v) := by
  by_cases fits : s.depth < s.maxDepth
  · have more : (s.withRoom room).depth < (s.withRoom room).maxDepth := Nat.lt_of_lt_of_le fits h
    rw [push_room fits, push_room more]
    exact begins_ok _ _
  · rw [push_full fits]
    exact fun _ _ result => nomatch result

end Scope

/-- The same environment, with as much room for frames or more. -/
inductive Env.Roomier : Env → Env → Prop
  | constant : Roomier .constant .constant
  | inScope (s : Scope) {room : Nat} : s.maxDepth ≤ room → Roomier (.inScope s) (.inScope (s.withRoom room))

namespace Env.Roomier

variable {env env' : Env}

theorem refl : (env : Env) → env.Roomier env
  | .constant => .constant
  | .inScope s => .inScope s (Nat.le_refl s.maxDepth)

theorem begins (h : env.Roomier env') : RunRelation.refinement.Begins env.scope env'.scope := by
  cases h with
  | constant => exact fun _ _ result => nomatch result
  | inScope s => exact begins_ok _ _

/-- Scopes of such environments. -/
theorem scopes {s t : Scope} (h : env.Roomier env') (hs : env.scope = .ok s) (ht : env'.scope = .ok t) :
    s.maxDepth ≤ t.maxDepth ∧ t = s.withRoom t.maxDepth := by
  cases h with
  | constant => cases hs
  | inScope s room =>
    cases hs
    cases ht
    exact ⟨room, rfl⟩

end Env.Roomier

/-! ## Runs -/

/-- By induction on the lesser depth. The frames pushed on both sides differ in the room again. -/
theorem evalAt_deeper (limits limits' : Limits) {depth depth' : Nat} (deeper : depth ≤ depth') {env env' : Env}
    (h : env.Roomier env') (e : Expr) :
    RunRelation.refinement.Rel (evalAt limits depth env e) (evalAt limits' depth' env' e) := by
  induction depth generalizing depth' env env' e with
  | zero => exact fun _ result => nomatch result
  | succ depth ih =>
    obtain ⟨depth', rfl⟩ := Nat.exists_eq_add_of_lt deeper
    refine node_related
      { standing := fun part _ => ih (by omega) h part
        scope := fun _ => h.begins
        sees := ?_
        push := ?_
        framed := ?_ }
    · intro s t hs ht
      rw [(h.scopes hs ht).2]
      exact s.seesAlike_withRoom t.maxDepth e
    · rintro s t hs ht -
      obtain ⟨room, same⟩ := h.scopes hs ht
      rw [same]
      exact s.begins_withRoom t.maxDepth room
    · rintro s t hs ht v frame frame' hf hf' part -
      obtain ⟨room, same⟩ := h.scopes hs ht
      rw [same] at hf'
      obtain ⟨-, rfl⟩ := Scope.push_ok hf
      obtain ⟨-, rfl⟩ := Scope.push_ok hf'
      rw [s.inner_withRoom t.maxDepth v]
      exact ih (by omega) (.inScope (s.inner v) room) part

/-- A value found with so much depth left is found with more. -/
theorem evalAt_more {limits : Limits} {depth depth' : Nat} (deeper : depth ≤ depth') {env : Env} {e : Expr} {v : Value}
    (h : evalAt limits depth env e = .ok v) : evalAt limits depth' env e = .ok v :=
  evalAt_deeper limits limits deeper (.refl env) e v h

/-- A value that a query has within some limits it has within all that are as great or greater. -/
theorem evaluate_deeper (limits limits' : Limits) (context : Context) (e : Expr) (v : Value)
    (eval : limits.eval ≤ limits'.eval) (scope : limits.scope ≤ limits'.scope)
    (value : evaluate limits context e = .ok v) : evaluate limits' context e = .ok v := by
  have deeper := evalAt_deeper limits limits' eval (.inScope (Scope.root context limits.scope) scope) e
  unfold evaluate at value
  split at value
  · rename_i found run
    cases value
    have run' : evalAt limits' limits'.eval (.inScope (Scope.root context limits'.scope)) e = .ok v := deeper v run
    unfold evaluate
    rw [run']
  · cases value
  · rename_i run
    -- In a scope nothing asks for one in vain.
    rcases evalAt_halts_only _ _ _ _ _ run with ⟨cause, -⟩ | ⟨cause, -⟩
    · cases cause
    · cases cause

/-- Depth 2 and room for one frame are enough for a filter over one document, and so are the limits that
    are set where none are given. -/
theorem evaluate_deeper_filter :
    evaluate ⟨0, 2, 1⟩ (.ofDataset [.object []] ⟨0, 0⟩) (.filter .everything (.literal (.bool true))) =
        .ok (.array [.object []]) ∧
      evaluate {} (.ofDataset [.object []] ⟨0, 0⟩) (.filter .everything (.literal (.bool true))) =
        .ok (.array [.object []]) :=
  have value : evaluate ⟨0, 2, 1⟩ (.ofDataset [.object []] ⟨0, 0⟩) (.filter .everything (.literal (.bool true))) =
      .ok (.array [.object []]) := rfl
  ⟨value, evaluate_deeper ⟨0, 2, 1⟩ {} _ _ _ (by decide) (by decide) value⟩

end Groq
