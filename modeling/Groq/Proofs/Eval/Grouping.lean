/-
  Groq.Proofs.Eval.Grouping — groups evaluate as what they hold.

  A group costs one unit of depth and does nothing else. Without groups a filter or projection over `(*)`
  becomes one over `*`, which walks the dataset where it lies, and does not spend the depth that
  evaluating `*` takes. Sort marks are the exception: directly in a group a mark is null, and
  without the group it would mark a sort key.
  Proved: a run of a tree ends at the bound on depth, or as the run of the tree without its groups ends at
  the same depth or a greater one (`evalAt_ungrouped`); so both have the same values
  (`evaluate_ungrouped`).
-/

import Groq.Proofs.Eval.Rewriting

namespace Groq

namespace Expr

/-- What a group holds. -/
def content : Expr → Expr
  | group base => base
  | e => e

/-- The tree with every group replaced by what it holds. -/
def ungrouped : Expr → Expr := rewrite content

/-- A group that holds a sort mark. -/
def groupsMark : Expr → Bool
  | group (asc _) | group (desc _) => true
  | _ => false

theorem ungrouped_group (base : Expr) : (group base).ungrouped = base.ungrouped := rfl

theorem ungrouped_eq {e : Expr} (h : ∀ base, e ≠ group base) : e.ungrouped = e.mapParts ungrouped := by
  unfold ungrouped
  rw [rewrite_eq]
  cases e with
  | group base => exact absurd rfl (h base)
  | _ => rfl

/-- What a group holds is no sort mark, however many groups it stands in. -/
theorem sortKey_content : ∀ base : Expr, ¬ (group base).Contains groupsMark →
    Call.sortKey base.ungrouped = (base.ungrouped, .ascending)
  | group base, unmarked => sortKey_content base fun h => unmarked (.inside List.mem_cons_self h)
  | asc _, unmarked | desc _, unmarked => absurd (.here rfl) unmarked
  | literal _, _ | this, _ | parent _, _ | everything, _ | parameter _, _ | array _, _ | object _, _ | ownField _, _
  | field _ _, _ | element _ _, _ | slice _ _ _ _, _ | filter _ _, _ | projection _ _, _ | deref _, _ | arrayCoerce _, _
  | call _ _ _, _ | pipeCall _ _ _, _ | and _ _, _ | or _ _, _ | not _, _ | neg _, _ | pos _, _ | binary _ _ _, _ => rfl

theorem sortKey_ungrouped {e : Expr} (unmarked : ¬ e.Contains groupsMark) :
    Call.sortKey e.ungrouped = ((Call.sortKey e).1.ungrouped, (Call.sortKey e).2) := by
  cases e with
  | group base => exact sortKey_content base unmarked
  | _ => rfl

/-- The base that becomes the dataset is not the dataset already. -/
theorem walked_of_grouped {base : Expr} (h : ¬ (base = everything ↔ base.ungrouped = everything)) :
    base ≠ everything ∧ base.ungrouped = everything := by
  have kept : base = everything → base.ungrouped = everything := by
    rintro rfl
    rfl
  by_cases walked : base.ungrouped = everything
  · exact ⟨fun hb => h ⟨kept, fun _ => hb⟩, walked⟩
  · exact absurd ⟨kept, fun hu => absurd hu walked⟩ h

end Expr

/-! ## Runs -/

/-- The first run comes to the end of its depth, or both end alike. -/
def RunRelation.unlessDeep (limit : Nat) : RunRelation where
  Rel x y := x = .error (.failed (.tooDeep limit)) ∨ x = y
  pure _ := .inr rfl
  bind := by
    rintro α β x y f g (rfl | rfl) next
    · exact .inl rfl
    · rcases x with halt | a
      · exact .inr rfl
      · exact next a

/-- By induction on the lesser depth. The tree without groups needs no more depth: a node without its group
    is evaluated one unit earlier, and so are the documents of `(*)`. -/
theorem evalAt_ungrouped (limits : Limits) {depth depth' : Nat} (deeper : depth ≤ depth') (s : Scope) {e : Expr}
    (unmarked : ¬ e.Contains Expr.groupsMark) : (RunRelation.unlessDeep limits.eval).Rel
      (evalAt limits depth (.inScope s) e) (evalAt limits depth' (.inScope s) e.ungrouped) := by
  induction depth generalizing depth' s e with
  | zero => exact .inl rfl
  | succ depth ih =>
    by_cases grouped : ∃ base, e = .group base
    · obtain ⟨base, rfl⟩ := grouped
      rw [Expr.ungrouped_group]
      exact ih (Nat.le_of_succ_le deeper) s fun h => unmarked (.inside List.mem_cons_self h)
    obtain ⟨depth', rfl⟩ := Nat.exists_eq_add_of_lt deeper
    have le : depth ≤ depth + depth' := Nat.le_add_right _ _
    rw [Expr.ungrouped_eq fun base h => grouped ⟨base, h⟩]
    have push (v : Value) : (RunRelation.unlessDeep limits.eval).Begins (s.push v) (s.push v) :=
      begins_push rfl rfl (fun _ {_} => Or.inr rfl) v
    have framed (v : Value) (frame frame' : Scope) (hf : s.push v = .ok frame) (hf' : s.push v = .ok frame') (part : Expr)
        (mem : part ∈ e.framed) : (RunRelation.unlessDeep limits.eval).Rel
          (evalAt limits depth (.inScope frame) part)
          (evalOther Expr.ungrouped (evalAt limits (depth + depth')) (.inScope frame') part) := by
      obtain rfl : frame = frame' := Except.ok.inj (hf.symm.trans hf')
      exact ih le frame fun h => unmarked (.of_framed mem h)
    by_cases keeps : e.KeepsForms Expr.ungrouped
    · show RunRelation.Rel _ (Eval.node _ _ e) (Eval.node _ _ (e.mapParts Expr.ungrouped))
      rw [node_mapParts _ _ _ keeps]
      refine node_related
        { standing := fun part mem => ih le s fun h => unmarked (.inside (Expr.standing_subset mem) h)
          scope := fun _ => begins_ok s s
          sees := ?_
          push := ?_
          framed := ?_ }
      · rintro s' t' ⟨⟩ ⟨⟩
        exact Expr.seesAlike_refl s e
      · rintro s' t' ⟨⟩ ⟨⟩ -
        exact push
      · rintro s' t' ⟨⟩ ⟨⟩
        exact framed
    · -- Only over the dataset in a group does a node take another form: its documents are the value of the base.
      have dataset {base : Expr} (mem : base ∈ e.parts) (walked : base.ungrouped = .everything) :
          (RunRelation.unlessDeep limits.eval).Rel (evalAt limits depth (.inScope s) base)
            (.ok (.array s.context.dataset)) := by
        have alike : (RunRelation.unlessDeep limits.eval).Rel (evalAt limits depth (.inScope s) base)
            (evalAt limits (depth + depth' + 1) (.inScope s) base.ungrouped) :=
          ih (Nat.le_succ_of_le le) s fun h => unmarked (.inside mem h)
        rw [walked] at alike
        exact alike
      cases e with
      | filter base body =>
        obtain ⟨hb, walked⟩ := Expr.walked_of_grouped keeps
        show RunRelation.Rel _ (Eval.filter _ _ base body) (Eval.filter _ _ base.ungrouped body.ungrouped)
        rw [filter_eq _ _ _ hb, walked, filter_everything]
        have kept := filterValue_related push fun v frame frame' hf hf' => framed v frame frame' hf hf' body List.mem_cons_self
        refine begins_ok s s ?_
        rintro s' t' ⟨⟩ ⟨⟩
        exact RunRelation.bind _ (dataset List.mem_cons_self walked) kept
      | projection base body =>
        obtain ⟨hb, walked⟩ := Expr.walked_of_grouped keeps
        show RunRelation.Rel _ (Eval.projection _ _ base body) (Eval.projection _ _ base.ungrouped body.ungrouped)
        rw [projection_eq _ _ _ hb, walked, projection_everything]
        have inside := projectionValue_related push fun v frame frame' hf hf' =>
          framed v frame frame' hf hf' body List.mem_cons_self
        refine begins_ok s s ?_
        rintro s' t' ⟨⟩ ⟨⟩
        exact RunRelation.bind _ (dataset List.mem_cons_self walked) inside
      | pipeCall name base args =>
        refine absurd (fun arg mem => Expr.sortKey_ungrouped fun h => unmarked (.inside ?_ h)) keeps
        exact List.mem_cons_of_mem _ mem
      | _ => exact absurd trivial keeps

/-- A value that a tree has the tree without its groups has too, and the other way round where the groups do not
    nest it beyond the bound on depth. -/
theorem evaluate_ungrouped (limits : Limits) (context : Context) (e : Expr) (unmarked : ¬ e.Contains Expr.groupsMark) :
    (∀ v, evaluate limits context e = .ok v → evaluate limits context e.ungrouped = .ok v) ∧
    ∀ v, evaluate limits context e.ungrouped = .ok v →
      evaluate limits context e = .ok v ∨ evaluate limits context e = .error (.tooDeep limits.eval) := by
  have alike : evaluate limits context e = .error (.tooDeep limits.eval) ∨
      evaluate limits context e = evaluate limits context e.ungrouped := by
    unfold evaluate
    rcases evalAt_ungrouped limits (Nat.le_refl limits.eval) (.root context limits.scope) unmarked with deep | same
    · rw [deep]
      exact .inl rfl
    · rw [same]
      exact .inr rfl
  refine ⟨fun v value => ?_, fun v value => ?_⟩
  · rcases alike with deep | same
    · exact absurd (deep.symm.trans value) nofun
    · exact same.symm.trans value
  · exact alike.symm.imp_left (·.trans value)

/-- A filter over the dataset in a group walks a dataset of two documents. Without its groups it needs depth 2,
    with them it needs 3. -/
theorem evaluate_ungrouped_dataset :
    ¬ (Expr.filter (.group .everything) (.group (.literal (.bool true)))).Contains Expr.groupsMark ∧
      evaluate ⟨0, 2, 1⟩ (.ofDataset [.null, .object []] ⟨0, 0⟩)
          (Expr.filter (.group .everything) (.group (.literal (.bool true)))).ungrouped = .ok (.array [.null, .object []]) ∧
      (evaluate ⟨0, 2, 1⟩ (.ofDataset [.null, .object []] ⟨0, 0⟩)
          (.filter (.group .everything) (.group (.literal (.bool true)))) = .ok (.array [.null, .object []]) ∨
        evaluate ⟨0, 2, 1⟩ (.ofDataset [.null, .object []] ⟨0, 0⟩)
          (.filter (.group .everything) (.group (.literal (.bool true)))) = .error (.tooDeep 2)) :=
  have unmarked : ¬ (Expr.filter (.group .everything) (.group (.literal (.bool true)))).Contains Expr.groupsMark := by decide
  have value : evaluate ⟨0, 2, 1⟩ (.ofDataset [.null, .object []] ⟨0, 0⟩)
      (Expr.filter (.group .everything) (.group (.literal (.bool true)))).ungrouped = .ok (.array [.null, .object []]) := rfl
  ⟨unmarked, value, (evaluate_ungrouped ⟨0, 2, 1⟩ (.ofDataset [.null, .object []] ⟨0, 0⟩) _ unmarked).2 _ value⟩

end Groq
