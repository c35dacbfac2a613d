/-
  Groq.Proofs.Eval.Literals — what the entries of literals make.

  An attribute writes its own field, or, where it is a splat, the fields of an object and nothing for any other
  value. The attributes of an object write one after the other (`attributes_ok`), so each key stands once: where
  it was written first, with the value that was written last. The same writing makes the sum of two objects, which
  is why a sum can be grouped in any way and is what splats make.
  Proved: so it is for every object that is evaluated, as a literal or as the body of a projection, and for
  sums of objects and of arrays (`evalAt_literals`).
-/

import Groq.Proofs.Eval.Limits
import Groq.Proofs.Value.Equality

namespace Groq

open Value

/-- What an attribute writes where its expression has the value. -/
def Attribute.writes : Attribute → Value → List (String × Value)
  | named name _, v => [(name, v)]
  | splat _, v => v.fields?.getD []

/-- What attributes write one after the other, given the values of their expressions. -/
def Attribute.allWrites (entries : List Attribute) (values : List Value) : List (String × Value) :=
  (List.zipWith writes entries values).flatten

/-! ## Objects -/

section Attributes

variable {eval : Env → Expr → Step} {env : Env} {entries : List Attribute} {fields result : List (String × Value)}

/-- One attribute after another. -/
theorem attributes_cons (entry : Attribute) (rest : List Attribute) :
    Eval.attributes eval env fields (entry :: rest) =
      eval env entry.value >>= fun v => Eval.attributes eval env (Fields.merge fields (entry.writes v)) rest := by
  cases entry <;> rfl

/-- Attributes come to fields where each is evaluated: they write over the fields in front of them, in order. -/
theorem attributes_ok : Eval.attributes eval env fields entries = .ok result ↔
    ∃ values, List.Forall₂ (fun entry v => eval env entry.value = .ok v) entries values ∧
      result = Fields.merge fields (Attribute.allWrites entries values) := by
  induction entries generalizing fields with
  | nil =>
    constructor
    · rintro ⟨⟩
      exact ⟨[], .nil, rfl⟩
    · rintro ⟨values, ⟨⟩, rfl⟩
      rfl
  | cons entry rest ih =>
    have next (v : Value) (values : List Value) : Fields.merge fields (Attribute.allWrites (entry :: rest) (v :: values)) =
        Fields.merge (Fields.merge fields (entry.writes v)) (Attribute.allWrites rest values) :=
      Fields.merge_append fields (entry.writes v) (Attribute.allWrites rest values)
    rw [attributes_cons]
    constructor
    · intro h
      obtain ⟨v, found, h⟩ := bind_ok h
      obtain ⟨values, others, rfl⟩ := ih.mp h
      exact ⟨v :: values, .cons found others, (next v values).symm⟩
    · rintro ⟨_, each, rfl⟩
      cases each with
      | @cons _ v _ values found others =>
        rw [found]
        exact ih.mpr ⟨values, others, next v values⟩

end Attributes

/-- Entries written into an empty object: each key stands once, where it came first, with the value that came last. -/
theorem merge_empty (entries : List (String × Value)) :
    ((Fields.merge [] entries).map Prod.fst).Nodup ∧
      (Fields.merge [] entries).map Prod.fst = (entries.map Prod.fst).eraseDups ∧
      ∀ key, Fields.find? key (Fields.merge [] entries) = entries.reverse.lookup key := by
  have empty : (([] : List (String × Value)).map Prod.fst).Nodup := .nil
  refine ⟨Fields.nodup_merge empty entries, ?_, fun key => ?_⟩
  · rw [Fields.merge_keys]
    simp [List.removeAll]
  · rw [Fields.find_merge]
    exact Option.or_none

/-- Three objects that are spread are written one over the other. -/
theorem attributes_splats {eval : Env → Expr → Step} {env : Env} {a b c : Expr}
    {fieldsA fieldsB fieldsC : List (String × Value)} (once : KeysOnce (.object fieldsA))
    (ha : eval env a = .ok (.object fieldsA)) (hb : eval env b = .ok (.object fieldsB))
    (hc : eval env c = .ok (.object fieldsC)) : Eval.attributes eval env [] [.splat a, .splat b, .splat c] =
      .ok (Fields.merge (Fields.merge fieldsA fieldsB) fieldsC) := by
  have all : Attribute.allWrites [.splat a, .splat b, .splat c] [.object fieldsA, .object fieldsB, .object fieldsC] =
      fieldsA ++ (fieldsB ++ (fieldsC ++ [])) := rfl
  have first : Fields.merge [] fieldsA = fieldsA := Fields.merge_fresh once
  rw [attributes_ok]
  refine ⟨_, .cons ha (.cons hb (.cons hc .nil)), ?_⟩
  rw [all, List.append_nil, Fields.merge_append, Fields.merge_append, first]

/-! ## Arrays -/

/-- Two arrays that are spread make the array of the items of both. -/
theorem elements_splats {eval : Env → Expr → Step} {env : Env} {a b : Expr} {itemsA itemsB : List Value}
    (ha : eval env a = .ok (.array itemsA)) (hb : eval env b = .ok (.array itemsB)) :
    Eval.elements eval env [.splat a, .splat b] = .ok (itemsA ++ itemsB) := by
  have last : Eval.elements eval env [.splat b] = .ok (itemsB ++ []) := by
    rw [Eval.elements, hb]
    rfl
  rw [List.append_nil] at last
  rw [Eval.elements, ha, last]
  rfl

/-! ## Sums -/

/-- What literals and sums come to. The keys of an object stand once, each where its attributes, one after the other,
    wrote it first, with the value that they wrote last. Sums of objects can be grouped in any way and are what
    splats make, keys in the same order, and so is the sum of two arrays. -/
theorem evalAt_literals (limits : Limits) (depth : Nat) :
    (∀ env entries v, evalAt limits (depth + 1) env (.object entries) = .ok v →
      ∃ values fields, List.Forall₂ (fun entry value => evalAt limits depth env entry.value = .ok value) entries values ∧
        v = .object fields ∧ (fields.map Prod.fst).Nodup ∧
        fields.map Prod.fst = ((Attribute.allWrites entries values).map Prod.fst).eraseDups ∧
        ∀ key, Fields.find? key fields = (Attribute.allWrites entries values).reverse.lookup key) ∧
    (∀ env a b c fieldsA fieldsB fieldsC, evalAt limits depth env a = .ok (.object fieldsA) →
      evalAt limits depth env b = .ok (.object fieldsB) → evalAt limits depth env c = .ok (.object fieldsC) →
      KeysOnce (.object fieldsA) → KeysOnce (.object fieldsB) → ∃ fields,
        evalAt limits (depth + 2) env (.binary .add (.binary .add a b) c) = .ok (.object fields) ∧
        evalAt limits (depth + 2) env (.binary .add a (.binary .add b c)) = .ok (.object fields) ∧
        evalAt limits (depth + 1) env (.object [.splat a, .splat b, .splat c]) = .ok (.object fields)) ∧
    ∀ env a b itemsA itemsB, evalAt limits depth env a = .ok (.array itemsA) →
      evalAt limits depth env b = .ok (.array itemsB) →
        evalAt limits (depth + 1) env (.array [.splat a, .splat b]) = .ok (.array (itemsA ++ itemsB)) ∧
        evalAt limits (depth + 1) env (.binary .add a b) = .ok (.array (itemsA ++ itemsB)) := by
  refine ⟨?object, ?sums, ?arrays⟩
  case object =>
    intro env entries v h
    obtain ⟨fields, written, result⟩ := bind_ok h
    cases result
    obtain ⟨values, each, rfl⟩ := attributes_ok.mp written
    obtain ⟨once, order, last⟩ := merge_empty (Attribute.allWrites entries values)
    exact ⟨values, _, each, rfl, once, order, last⟩
  case sums =>
    intro env a b c fieldsA fieldsB fieldsC ha hb hc onceA onceB
    refine ⟨Fields.merge (Fields.merge fieldsA fieldsB) fieldsC, ?_, ?_, ?_⟩
    · exact evalAt_binary (evalAt_binary ha hb .add) (evalAt_more (Nat.le_succ depth) hc) .add
    · rw [← Fields.merge_assoc onceB]
      exact evalAt_binary (evalAt_more (Nat.le_succ depth) ha) (evalAt_binary hb hc .add) .add
    · show (Eval.attributes (evalAt limits depth) env [] _ >>= fun fields => pure (Value.object fields)) = _
      rw [attributes_splats onceA ha hb hc]
      rfl
  case arrays =>
    intro env a b itemsA itemsB ha hb
    refine ⟨?_, evalAt_binary ha hb .add⟩
    show (Eval.elements (evalAt limits depth) env _ >>= fun items => pure (Value.array items)) = _
    rw [elements_splats ha hb]
    rfl

/-- A key written by its own attribute and by a splat, twice each, and a splat of what is no object. -/
def Attribute.repeated : List Attribute :=
  [.named "a" (.literal (.bool true)), .splat (.literal (.object [("b", .null), ("a", .bool false)])),
    .named "b" (.literal (.bool true)), .splat (.literal .null)]

/-- The literal of an object of flags. -/
def Expr.flags (fields : List (String × Bool)) : Expr := .literal (.object (fields.map fun field => (field.1, .bool field.2)))

def Scope.overNothing : Scope := .root (.ofDataset [] ⟨0, 0⟩) 0

theorem evalAt_literals_repeated :
    evalAt {} 2 .constant (.object Attribute.repeated) = .ok (.object [("a", .bool false), ("b", .bool true)]) ∧
      (∃ values fields, List.Forall₂ (fun (entry : Attribute) value => evalAt {} 1 .constant entry.value = .ok value)
          Attribute.repeated values ∧
        .object [("a", .bool false), ("b", .bool true)] = Value.object fields ∧ (fields.map Prod.fst).Nodup ∧
        fields.map Prod.fst = ((Attribute.allWrites Attribute.repeated values).map Prod.fst).eraseDups ∧
        ∀ key, Fields.find? key fields = (Attribute.allWrites Attribute.repeated values).reverse.lookup key) ∧
      (∃ fields, evalAt {} 3 (.inScope .overNothing) (.binary .add (.binary .add (.flags [("x", true)])
          (.flags [("y", true), ("x", false)])) (.flags [("y", false)])) = .ok (.object fields) ∧
        evalAt {} 3 (.inScope .overNothing) (.binary .add (.flags [("x", true)])
          (.binary .add (.flags [("y", true), ("x", false)]) (.flags [("y", false)]))) = .ok (.object fields) ∧
        evalAt {} 2 (.inScope .overNothing) (.object [.splat (.flags [("x", true)]),
          .splat (.flags [("y", true), ("x", false)]), .splat (.flags [("y", false)])]) = .ok (.object fields)) ∧
      evalAt {} 2 .constant (.array [.splat (.literal (.array [.null])), .splat (.literal (.array [.bool true]))]) =
        .ok (.array [.null, .bool true]) := by
  obtain ⟨object, sums, arrays⟩ := evalAt_literals {} 1
  have found : evalAt {} 2 .constant (.object Attribute.repeated) = .ok (.object [("a", .bool false), ("b", .bool true)]) := rfl
  refine ⟨found, object _ _ _ found, ?_, ?_⟩
  · exact sums _ _ _ _ _ _ _ rfl rfl rfl (by decide) (by decide)
  · exact (arrays .constant (.literal (.array [.null])) (.literal (.array [.bool true])) _ _ rfl rfl).1

end Groq
