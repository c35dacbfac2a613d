/-
  Groq.Proofs.Eval.Scoping — a tree sees the frames it can name, and no others.

  A body stands one frame further in than the node around it, so what it names above its own frame is
  one level nearer there. The induction needs both directions of that: the frames two scopes share up to
  some level are shared one level further up inside the frames pushed for the same value
  (`alikeUpTo_inner`), and a body reaches at most one level further than the node (`Expr.reach_framed`).
  Proved: scopes that share their frames up to the reach of a tree give it the same value or the same
  error (`evalAt_lexical`).
-/

import Groq.Proofs.Eval.Runs

namespace Groq

/-- Two scopes that differ at most in the frames more than so many levels above the current one. -/
structure Scope.AlikeUpTo (levels : Nat) (s t : Scope) : Prop where
  context : s.context = t.context
  depth : s.depth = t.depth
  maxDepth : s.maxDepth = t.maxDepth
  this : s.this = t.this
  above : ∀ level, 0 < level → level ≤ levels → (s.ancestor? level).map (·.this) = (t.ancestor? level).map (·.this)

theorem Scope.inner_ancestor (s : Scope) (v : Value) (level : Nat) :
    (s.inner v).ancestor? (level + 1) = s.ancestor? level := rfl

section Scopes

variable {levels levels' : Nat} {s t : Scope}

theorem alikeUpTo_mono (h : s.AlikeUpTo levels t) (le : levels' ≤ levels) : s.AlikeUpTo levels' t :=
  { h with above := fun level pos within => h.above level pos (Nat.le_trans within le) }

/-- The current frame counts as level 0. -/
theorem alikeUpTo_ancestor (h : s.AlikeUpTo levels t) {level : Nat} (le : level ≤ levels) :
    (s.ancestor? level).map (·.this) = (t.ancestor? level).map (·.this) := by
  cases level with
  | zero => exact congrArg some h.this
  | succ level => exact h.above _ (Nat.succ_pos _) le

theorem alikeUpTo_inner (h : s.AlikeUpTo levels t) (v : Value) : (s.inner v).AlikeUpTo (levels + 1) (t.inner v) where
  context := h.context
  depth := congrArg (· + 1) h.depth
  maxDepth := h.maxDepth
  this := rfl
  above := by
    intro level pos le
    obtain ⟨outer, rfl⟩ := Nat.exists_eq_succ_of_ne_zero (Nat.pos_iff_ne_zero.mp pos)
    rw [Nat.succ_eq_add_one, Scope.inner_ancestor, Scope.inner_ancestor]
    exact alikeUpTo_ancestor h (Nat.le_of_succ_le_succ le)

theorem alikeUpTo_view (h : s.AlikeUpTo levels t) (f : Builtin) : f.view s = f.view t := by
  cases f <;> simp [Builtin.view, h.context, h.this]

/-- A node sees no further than its reach. -/
theorem alikeUpTo_sees {e : Expr} (h : s.AlikeUpTo e.reach t) : e.SeesAlike s t := by
  cases e with
  | this => exact h.this
  | ownField name => exact h.this
  | parent levels => exact alikeUpTo_ancestor h (Expr.levelsUp_le_reach (.parent levels))
  | everything => exact congrArg (·.dataset) h.context
  | parameter name => exact congrArg (·.parameter? name) h.context
  | deref base => exact congrArg (·.dereference) h.context
  | call library name args => exact fun f _ => alikeUpTo_view h f
  | filter base body | projection base body =>
    cases base with
    | everything => exact congrArg (·.dataset) h.context
    | _ => trivial
  | _ => trivial

end Scopes

/-- A tree has the same value, or halts for the same cause, in scopes that share their context, their
    room for frames, their value and the values of the frames the tree can name. -/
theorem evalAt_lexical (limits : Limits) (depth : Nat) (s t : Scope) (e : Expr) (alike : s.AlikeUpTo e.reach t) :
    evalAt limits depth (.inScope s) e = evalAt limits depth (.inScope t) e := by
  -- By induction on the depth. Frames are pushed for the same value on both sides.
  induction depth generalizing s t e with
  | zero => rfl
  | succ depth ih =>
    refine node_related (R := RunRelation.equality)
      { standing := fun part mem => ih s t part (alikeUpTo_mono alike (Expr.reach_standing mem))
        scope := fun _ => begins_ok s t
        sees := ?_
        push := ?_
        framed := ?_ }
    · rintro s' t' ⟨⟩ ⟨⟩
      exact alikeUpTo_sees alike
    · rintro s' t' ⟨⟩ ⟨⟩ -
      exact begins_push alike.depth alike.maxDepth fun _ {_} => rfl
    · rintro s' t' ⟨⟩ ⟨⟩ v frame frame' hf hf' part mem
      obtain ⟨-, rfl⟩ := Scope.push_ok hf
      obtain ⟨-, rfl⟩ := Scope.push_ok hf'
      exact ih _ _ part (alikeUpTo_mono (alikeUpTo_inner alike v) (Expr.reach_framed mem))

/-- A scope with two frames outside it. -/
def Scope.twoIn (outermost : Value) : Scope := ⟨.ofDataset [] ⟨0, 0⟩, 8, .null, [.string "near", outermost]⟩

/-- In the body of a projection the frame two levels up is the one around the projection. What lies
    beyond it makes no difference. -/
theorem evalAt_lexical_projection :
    (Scope.twoIn (.bool true)).AlikeUpTo (Expr.projection (.array [.item .this]) (.parent 2)).reach (.twoIn (.bool false)) ∧
      evalAt {} 8 (.inScope (.twoIn (.bool true))) (.projection (.array [.item .this]) (.parent 2)) =
        evalAt {} 8 (.inScope (.twoIn (.bool false))) (.projection (.array [.item .this]) (.parent 2)) := by
  have alike : (Scope.twoIn (.bool true)).AlikeUpTo (Expr.projection (.array [.item .this]) (.parent 2)).reach
      (.twoIn (.bool false)) := by
    refine ⟨rfl, rfl, rfl, rfl, fun level pos le => ?_⟩
    have reach : (Expr.projection (.array [.item .this]) (.parent 2)).reach = 1 := rfl
    obtain rfl : level = 1 := by omega
    rfl
  exact ⟨alike, evalAt_lexical {} 8 _ _ _ alike⟩

end Groq
