/-
  Groq.Proofs.Eval.Sorting — `order` is the stable sort by its keys.

  Each item makes a row of the values that the keys have in a frame over it, so equal items make equal rows
  and sorting the rows sorts the items (`sortRows_map`). Rows without NaN are ordered, with ties (`RowLess`).
  Proved: an array that `order` comes to is a stable sort of the array it is given, by those rows, and
  there is no other (`order_sorts`).
-/

import Groq.Proofs.Eval.Runs
import Groq.Proofs.Value.KeyOrder
import Groq.Proofs.Value.Sorting

namespace Groq

open Value

/-- Keys that are numbers order rows with ties. -/
theorem rowLess_orders {directions : List Direction} {keysOf : Value → List Value} {items : List Value}
    (numbers : ∀ item ∈ items, ∀ key ∈ keysOf item, ¬ IsNaN key)
    (length : ∀ item ∈ items, (keysOf item).length = directions.length) :
    Orders (fun a b => RowLess directions (keysOf a) (keysOf b)) items where
  asymm _ _ _ _ h := h.asymm
  between a ha b hb c hc h := h.between (numbers a ha) (numbers b hb) (numbers c hc) (length b hb)

section Order

variable {limits : Limits} {depth : Nat} {s : Scope} {base : Expr} {keys : List Expr} {items : List Value}

/-- The values of the keys for an item, each in a frame over it. -/
def Eval.keyValues (eval : Env → Expr → Step) (scope : Scope) (keys : List Expr) (item : Value) :
    Except Halt (List Value) :=
  keys.mapM fun key => Eval.within eval scope (Call.sortKey key).1 item

/-- One frame for all keys of an item is as good as one for each. -/
theorem keyValues_ok {eval : Env → Expr → Step} {scope frame : Scope} {item : Value} {values : List Value}
    (push : scope.push item = .ok frame)
    (found : ((keys.map Call.sortKey).mapM fun key => eval (.inScope frame) key.1) = .ok values) :
    Eval.keyValues eval scope keys item = .ok values := by
  unfold Eval.keyValues Eval.within
  rw [push]
  rw [List.mapM_map] at found
  exact found

/-- What `order` makes of an array: its items, sorted by the values of their keys. -/
theorem order_result {c : Call} {v : Value} (some : c.args ≠ []) (h : c.order (.array items) = .ok v) :
    ∃ scope, c.env.scope = .ok scope ∧ ∃ keysOf : Value → List Value,
      (∀ item ∈ items, Eval.keyValues c.eval scope c.args item = .ok (keysOf item)) ∧
      v = .array (sortRows (fun a b =>
        compareRows (c.args.map fun key => (Call.sortKey key).2) (keysOf a) (keysOf b) == .lt) items) := by
  unfold Call.order at h
  dsimp only at h
  rw [if_neg some] at h
  obtain ⟨scope, inScope, h⟩ := bind_ok h
  obtain ⟨rows, made, h⟩ := bind_ok h
  cases h
  obtain ⟨row, each, rfl⟩ := mapM_ok made
  have keys (item : Value) (mem : item ∈ items) :
      Eval.keyValues c.eval scope c.args item = .ok (row item).1 ∧ (row item).2 = item := by
    obtain ⟨frame, push, made⟩ := bind_ok (each item mem)
    obtain ⟨values, found, made⟩ := bind_ok made
    rw [← Except.ok.inj made]
    exact ⟨keyValues_ok push found, rfl⟩
  refine ⟨scope, inScope, fun item => (row item).1, fun item mem => (keys item mem).1, ?_⟩
  have same : items.map row = items.map fun item => ((row item).1, item) :=
    List.map_congr_left fun item mem => Prod.ext rfl (keys item mem).2
  rw [same, sortRows_map, List.map_map, List.map_map]
  exact congrArg Value.array (List.map_id'' (fun _ => rfl) _)

/-- A row has a value for each key, and each is what that key comes to. -/
theorem keyValues_mem {eval : Env → Expr → Step} {scope : Scope} {item : Value} {values : List Value}
    (h : Eval.keyValues eval scope keys item = .ok values) : values.length = keys.length ∧
      ∀ x ∈ values, ∃ key ∈ keys, Eval.within eval scope (Call.sortKey key).1 item = .ok x := by
  obtain ⟨value, each, rfl⟩ := mapM_ok h
  refine ⟨List.length_map _, fun x hx => ?_⟩
  obtain ⟨key, mem, rfl⟩ := List.mem_map.mp hx
  exact ⟨key, mem, each key mem⟩

end Order

/-- An array that `order` comes to is the one stable sort of the array it is given: by the values that the
    keys have for each item as current value, none of them NaN, the first key that is not tied deciding. -/
theorem order_sorts (limits : Limits) (depth : Nat) (s : Scope) (base : Expr) (keys : List Expr) (items : List Value)
    (v : Value) (found : evalAt limits depth (.inScope s) base = .ok (.array items)) (some : keys ≠ [])
    (numbers : ∀ item ∈ items, ∀ key ∈ keys, ∀ x,
      Eval.within (evalAt limits depth) s (Call.sortKey key).1 item = .ok x → ¬ IsNaN x)
    (sorted : evalAt limits (depth + 1) (.inScope s) (.pipeCall "order" base keys) = .ok v) :
    ∃ (keysOf : Value → List Value) (output : List Value),
      (∀ item ∈ items, Eval.keyValues (evalAt limits depth) s keys item = .ok (keysOf item)) ∧
      v = .array output ∧
      ∀ other, IsStableSort (fun a b => RowLess (keys.map fun key => (Call.sortKey key).2) (keysOf a) (keysOf b))
        items other ↔ other = output := by
  obtain ⟨x, found', sorted⟩ := bind_ok sorted
  obtain rfl : .array items = x := Except.ok.inj (found.symm.trans found')
  obtain ⟨scope, ⟨⟩, keysOf, each, rfl⟩ := order_result (c := ⟨.inScope s, keys, evalAt limits depth⟩) some sorted
  let directions := keys.map fun key => (Call.sortKey key).2
  have order : Orders (fun a b => RowLess directions (keysOf a) (keysOf b)) items := by
    refine rowLess_orders (fun item mem x hx => ?_) fun item mem => ?_
    · obtain ⟨key, hkey, value⟩ := (keyValues_mem (each item mem)).2 x hx
      exact numbers item mem key hkey x value
    · rw [(keyValues_mem (each item mem)).1, List.length_map]
  have precedes : (fun a b => (compareRows directions (keysOf a) (keysOf b) == .lt) = true) =
      fun a b => RowLess directions (keysOf a) (keysOf b) := by
    funext a b
    rw [beq_iff_eq, compareRows_eq_lt]
  have sort : IsStableSort (fun a b => RowLess directions (keysOf a) (keysOf b)) items
      (sortRows (fun a b => compareRows directions (keysOf a) (keysOf b) == .lt) items) := by
    rw [← precedes] at order ⊢
    exact sortRows_sorts items order
  refine ⟨keysOf, _, each, rfl, fun other => ⟨fun h => h.unique sort order, ?_⟩⟩
  rintro rfl
  exact sort

/-- Three items, of which the first has no `rank`. -/
def Value.unsorted : List Value :=
  [.object [("id", .bool true)], .object [("rank", .bool true)], .object [("rank", .string "high")]]

/-- Falling, a string comes before a boolean, and no rank comes last. -/
theorem order_sorts_falling :
    evalAt {} 8 (.inScope (.root (.ofDataset [] ⟨0, 0⟩) 8)) (.literal (.array unsorted)) = .ok (.array unsorted) ∧
      [Expr.desc (.ownField "rank")] ≠ [] ∧
      (∀ item ∈ unsorted, ∀ key ∈ [Expr.desc (.ownField "rank")], ∀ x,
        Eval.within (evalAt {} 8) (.root (.ofDataset [] ⟨0, 0⟩) 8) (Call.sortKey key).1 item = .ok x → ¬ IsNaN x) ∧
      evalAt {} 9 (.inScope (.root (.ofDataset [] ⟨0, 0⟩) 8))
        (.pipeCall "order" (.literal (.array unsorted)) [.desc (.ownField "rank")]) = .ok (.array unsorted.reverse) ∧
      ∃ (keysOf : Value → List Value) (output : List Value),
        (∀ item ∈ unsorted, Eval.keyValues (evalAt {} 8) (.root (.ofDataset [] ⟨0, 0⟩) 8)
          [.desc (.ownField "rank")] item = .ok (keysOf item)) ∧
        Value.array unsorted.reverse = .array output ∧
        ∀ other, IsStableSort (fun a b => RowLess [.descending] (keysOf a) (keysOf b)) unsorted other ↔
          other = output := by
  have numbers : ∀ item ∈ unsorted, ∀ key ∈ [Expr.desc (.ownField "rank")], ∀ x,
        Eval.within (evalAt {} 8) (.root (.ofDataset [] ⟨0, 0⟩) 8) (Call.sortKey key).1 item = .ok x → ¬ IsNaN x := by
    simp only [unsorted, List.forall_mem_cons]
    refine ⟨⟨?_, nofun⟩, ⟨?_, nofun⟩, ⟨?_, nofun⟩, nofun⟩
    all_goals
      rintro x ⟨⟩ ⟨y, h, -⟩
      cases h
  have sorted : evalAt {} 9 (.inScope (.root (.ofDataset [] ⟨0, 0⟩) 8))
        (.pipeCall "order" (.literal (.array unsorted)) [.desc (.ownField "rank")]) = .ok (.array unsorted.reverse) := by
    rfl
  exact ⟨rfl, nofun, numbers, sorted, order_sorts {} 8 _ _ _ _ _ rfl nofun numbers sorted⟩

end Groq
