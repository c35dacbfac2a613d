/-
  Groq.Proofs.Eval.Filtering — a filter behind a filter is one filter with both conditions.

  What a filter keeps depends on its items one by one, so a filter that comes to a value kept the items
  its condition is true for (`filterValue_result`), in their order. A second filter pushes its frames on the same
  scope as the first, not on the frames of the first, and so sees the same values around an item. Three-valued
  `and` is true only where both sides are. The conditions stand at different depths in the two queries,
  which makes no difference to a condition that comes to a value (`evalAt_more`).
  Proved: the two queries come to the same value where both come to one, and to which (`filter_filter`).
-/

import Groq.Proofs.Eval.Limits

namespace Groq

/-! ## What a filter keeps -/

/-- Is the body exactly true in a frame over the value? -/
def Eval.holds (eval : Env → Expr → Step) (scope : Scope) (body : Expr) (v : Value) : Bool :=
  match Eval.within eval scope body v with
  | .ok w => w.isTrue
  | .error _ => false

theorem holds_of_result {eval : Env → Expr → Step} {s : Scope} {body : Expr} {v w : Value}
    (h : Eval.within eval s body v = .ok w) : Eval.holds eval s body v = w.isTrue := by
  unfold Eval.holds
  rw [h]

/-- The items of an array that pass; of any other value, null. -/
def Value.select (p : Value → Bool) : Value → Value
  | .array items => .array (items.filter p)
  | _ => .null

theorem select_select (p q : Value → Bool) (v : Value) :
    (v.select p).select q = v.select fun item => p item && q item := by
  cases v with
  | array items =>
    have both : (items.filter p).filter q = items.filter fun item => p item && q item := by
      rw [List.filter_filter]
      exact List.filter_congr fun item _ => Bool.and_comm _ _
    exact congrArg Value.array both
  | _ => rfl

section Filters

variable {eval : Env → Expr → Step} {s : Scope} {body : Expr}

/-- A filter tests its items one by one, each in a frame of its own. -/
theorem keep_eq (eval : Env → Expr → Step) (s : Scope) (body : Expr) (items : List Value) :
    Eval.keep eval s body items =
      items.filterM fun item => Eval.within eval s body item >>= fun v => return v.isTrue := by
  refine congrArg (List.filterM · items) (funext fun item => ?_)
  unfold Eval.within
  cases s.push item <;> rfl

theorem passes_eq_holds (eval : Env → Expr → Step) (s : Scope) (body : Expr) (item : Value) :
    Eval.passes (Eval.within eval s body item >>= fun v => return v.isTrue) = Eval.holds eval s body item := by
  unfold Eval.holds
  cases Eval.within eval s body item <;> rfl

/-- Where a filter comes to a value, its condition comes to one for each item, and the items for which
    that is true are kept. -/
theorem filterValue_result {x v : Value} (h : Eval.filterValue eval s body x = .ok v) :
    (∀ items, x = .array items → ∀ item ∈ items, ∃ w, Eval.within eval s body item = .ok w) ∧
      v = x.select (Eval.holds eval s body) := by
  cases x with
  | array items =>
    simp only [Eval.filterValue, keep_eq] at h
    obtain ⟨kept, collected, value⟩ := bind_ok h
    cases value
    obtain ⟨tested, rfl⟩ := filterM_ok collected
    refine ⟨?_, by simp only [passes_eq_holds]; rfl⟩
    rintro items ⟨⟩ item mem
    obtain ⟨b, test⟩ := tested item mem
    obtain ⟨w, inside, -⟩ := bind_ok test
    exact ⟨w, inside⟩
  | _ =>
    cases h
    exact ⟨nofun, rfl⟩

end Filters

/-! ## Filters at some depth -/

section Depths

variable {limits : Limits} {depth : Nat} {s : Scope} {base a b : Expr}

/-- A filter over the dataset comes to what a filter over its base as a value does. -/
theorem filter_result {body : Expr} {v : Value}
    (h : evalAt limits (depth + 1) (.inScope s) (.filter base body) = .ok v) :
    ∃ x, evalAt limits (depth + 1) (.inScope s) base = .ok x ∧
      Eval.filterValue (evalAt limits depth) s body x = .ok v := by
  change Eval.filter (evalAt limits depth) (.inScope s) base body = .ok v at h
  by_cases dataset : base = .everything
  · subst dataset
    exact ⟨.array s.context.dataset, rfl, h⟩
  · rw [filter_eq _ _ _ dataset] at h
    obtain ⟨scope, ⟨⟩, walk⟩ := bind_ok h
    obtain ⟨x, found, value⟩ := bind_ok walk
    exact ⟨x, evalAt_more (Nat.le_succ depth) found, value⟩

theorem within_more {body : Expr} {item w : Value} (h : Eval.within (evalAt limits depth) s body item = .ok w) :
    Eval.within (evalAt limits (depth + 1)) s body item = .ok w := by
  obtain ⟨frame, push, value⟩ := bind_ok h
  unfold Eval.within
  rw [push]
  exact evalAt_more (Nat.le_succ depth) value

theorem and_isTrue (v w : Value) : (v.and w).isTrue = (v.isTrue && w.isTrue) := by
  cases v with
  | bool b =>
    cases b with
    | false => rfl
    | true =>
      cases w with
      | bool c => cases c <;> rfl
      | _ => rfl
  | _ =>
    cases w with
    | bool c => cases c <;> rfl
    | _ => rfl

/-- Where both sides of `and` come to a value, it holds just where both do. -/
theorem holds_and {item w : Value} (h : Eval.within (evalAt limits depth) s (.and a b) item = .ok w) :
    Eval.holds (evalAt limits depth) s (.and a b) item =
      (Eval.holds (evalAt limits depth) s a item && Eval.holds (evalAt limits depth) s b item) := by
  cases depth with
  | zero =>
    obtain ⟨frame, -, value⟩ := bind_ok h
    cases value
  | succ depth =>
    obtain ⟨frame, push, value⟩ := bind_ok h
    obtain ⟨left, foundLeft, rest⟩ := bind_ok value
    obtain ⟨right, foundRight, both⟩ := bind_ok rest
    cases both
    have inside {body : Expr} {v : Value} (found : evalAt limits depth (.inScope frame) body = .ok v) :
        Eval.within (evalAt limits (depth + 1)) s body item = .ok v := by
      refine within_more ?_
      unfold Eval.within
      rw [push]
      exact found
    rw [holds_of_result h, holds_of_result (inside foundLeft), holds_of_result (inside foundRight), and_isTrue]

end Depths

/-- Where a filter behind a filter comes to a value, and so does one filter with both conditions, the value
    is the same: null where the base is no array, else its items for which both conditions are true. -/
theorem filter_filter (limits : Limits) (depth : Nat) (s : Scope) (base a b : Expr) (v w : Value)
    (apart : evalAt limits (depth + 1) (.inScope s) (.filter (.filter base a) b) = .ok v)
    (together : evalAt limits (depth + 1) (.inScope s) (.filter base (.and a b)) = .ok w) :
    v = w ∧ ∃ x, evalAt limits (depth + 1) (.inScope s) base = .ok x ∧
      v = x.select fun item =>
        Eval.holds (evalAt limits depth) s a item && Eval.holds (evalAt limits depth) s b item := by
  obtain ⟨kept, inner, outer⟩ := filter_result apart
  obtain ⟨x, found, first⟩ := filter_result inner
  obtain ⟨x', found', both⟩ := filter_result together
  obtain rfl : x = x' := Except.ok.inj (found.symm.trans found')
  obtain ⟨-, rfl⟩ := filterValue_result first
  obtain ⟨-, rfl⟩ := filterValue_result outer
  obtain ⟨tested, rfl⟩ := filterValue_result both
  rw [select_select]
  refine ⟨?_, x, found, rfl⟩
  cases x with
  | array items =>
    refine congrArg Value.array (List.filter_congr fun item mem => ?_)
    obtain ⟨answer, test⟩ := tested items rfl item mem
    exact (holds_and test).symm
  | _ => rfl

/-- The root frame over a dataset of two documents. -/
def Scope.overTwo : Scope := .root (.ofDataset [.bool true, .null] ⟨0, 0⟩) 8

/-- Is the value of the frame around the filters null? -/
def Expr.outsideIsNull : Expr := .binary .equal (.parent 1) (.literal .null)

/-- The second condition reads the frame around the filters, the same in both queries. -/
theorem filter_filter_parent :
    evalAt {} 8 (.inScope .overTwo) (.filter (.filter .everything .this) .outsideIsNull) = .ok (.array [.bool true]) ∧
      evalAt {} 8 (.inScope .overTwo) (.filter .everything (.and .this .outsideIsNull)) = .ok (.array [.bool true]) ∧
      ∃ x, evalAt {} 8 (.inScope .overTwo) .everything = .ok x ∧ .array [.bool true] = x.select fun item =>
        Eval.holds (evalAt {} 7) .overTwo .this item && Eval.holds (evalAt {} 7) .overTwo .outsideIsNull item := by
  have apart : evalAt {} 8 (.inScope .overTwo) (.filter (.filter .everything .this) .outsideIsNull) =
      .ok (.array [.bool true]) := rfl
  have together : evalAt {} 8 (.inScope .overTwo) (.filter .everything (.and .this .outsideIsNull)) =
      .ok (.array [.bool true]) := rfl
  obtain ⟨-, selected⟩ := filter_filter {} 7 .overTwo .everything .this .outsideIsNull _ _ apart together
  exact ⟨apart, together, selected⟩

end Groq
