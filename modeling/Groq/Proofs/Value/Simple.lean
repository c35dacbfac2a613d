/-
  Groq.Proofs.Value.Simple — the values that JSON keeps.

  JSON has neither instants nor infinities. A value without these (`Storable`) is read back from its tree,
  but for the sign of zero, which is written as an integer and so has none (`unsigned`). Text needs more: whole
  numbers up to 2^53 are the doubles whose digits are those of an integer (`Simple`).
  Proved: reading the tree of a storable value gives it without the signs of its zeros (`ofJson_tree`), and
  that is the same value (`same_unsigned`).
-/

import Groq.Proofs.Double.Order
import Groq.Proofs.Double.Whole
import Groq.Proofs.Value.Equality
import Groq.Value.Text

namespace Groq.Value

/-- Made of null, booleans, whole numbers up to 2^53, strings, arrays and objects, each key once. -/
inductive Simple : Value → Prop
  | null : Simple null
  | bool (b : Bool) : Simple (bool b)
  | number {x : Float} {n : Int} : Double.integer? x = some n → Simple (number x)
  | string (s : String) : Simple (string s)
  | array {items : List Value} : (∀ item ∈ items, Simple item) → Simple (array items)
  | object {fields : List (String × Value)} : (∀ field ∈ fields, Simple field.2) → (fields.map Prod.fst).Nodup →
    Simple (object fields)

/-- Made of null, booleans, finite numbers, strings, arrays and objects, each key once. -/
inductive Storable : Value → Prop
  | null : Storable null
  | bool (b : Bool) : Storable (bool b)
  | number {x : Float} : x.isFinite = true → Storable (number x)
  | string (s : String) : Storable (string s)
  | array {items : List Value} : (∀ item ∈ items, Storable item) → Storable (array items)
  | object {fields : List (String × Value)} : (∀ field ∈ fields, Storable field.2) → (fields.map Prod.fst).Nodup →
    Storable (object fields)

mutual

/-- How deep arrays and objects are nested in a value. -/
def nesting : Value → Nat
  | null => 0
  | bool _ => 0
  | number _ => 0
  | string _ => 0
  | dateTime _ => 0
  | array items => itemsNesting items + 1
  | object fields => fieldsNesting fields + 1
termination_by structural v => v

def itemsNesting : List Value → Nat
  | [] => 0
  | item :: rest => max (nesting item) (itemsNesting rest)
termination_by structural items => items

def fieldsNesting : List (String × Value) → Nat
  | [] => 0
  | (_, value) :: rest => max (nesting value) (fieldsNesting rest)
termination_by structural fields => fields

end

mutual

/-- The value with its zeros unsigned. -/
def unsigned : Value → Value
  | null => null
  | bool b => bool b
  | number x => number (if x == 0 then 0 else x)
  | string s => string s
  | dateTime t => dateTime t
  | array items => array (unsignedItems items)
  | object fields => object (unsignedFields fields)
termination_by structural v => v

def unsignedItems : List Value → List Value
  | [] => []
  | item :: rest => unsigned item :: unsignedItems rest
termination_by structural items => items

def unsignedFields : List (String × Value) → List (String × Value)
  | [] => []
  | (key, value) :: rest => (key, unsigned value) :: unsignedFields rest
termination_by structural fields => fields

end

theorem unsignedItems_eq (items : List Value) : unsignedItems items = items.map unsigned := by
  induction items with
  | nil => rfl
  | cons item rest ih => exact congrArg (item.unsigned :: ·) ih

section Parts

variable {items : List Value} {fields : List (String × Value)} {depth : Nat}

theorem itemsNesting_le : itemsNesting items ≤ depth ↔ ∀ item ∈ items, item.nesting ≤ depth := by
  induction items with
  | nil => exact ⟨fun _ => nofun, fun _ => Nat.zero_le _⟩
  | cons item rest ih =>
    rw [List.forall_mem_cons, ← ih]
    exact Nat.max_le

theorem simple_number {x : Float} (h : (number x).Simple) : ∃ n, Double.integer? x = some n := by
  cases h with
  | number whole => exact ⟨_, whole⟩

theorem simple_items (h : (array items).Simple) : ∀ item ∈ items, item.Simple := by
  cases h
  assumption

theorem simple_fields (h : (object fields).Simple) :
    (∀ field ∈ fields, field.2.Simple) ∧ (fields.map Prod.fst).Nodup := by
  cases h with
  | object values keys => exact ⟨values, keys⟩

theorem Simple.storable {v : Value} (h : v.Simple) : v.Storable := by
  induction h with
  | null => exact .null
  | bool b => exact .bool b
  | string s => exact .string s
  | number whole =>
    obtain ⟨p, found, -⟩ := Double.integer_parts whole
    exact .number (Double.isFinite_of_parts found)
  | array _ ih => exact .array ih
  | object _ keys ih => exact .object ih keys

theorem storable_number {x : Float} (h : (number x).Storable) : ∃ p, Double.parts? x = some p := by
  cases h with
  | number finite => exact Double.parts_of_isFinite finite

theorem storable_items (h : (array items).Storable) : ∀ item ∈ items, item.Storable := by
  cases h
  assumption

theorem storable_fields (h : (object fields).Storable) :
    (∀ field ∈ fields, field.2.Storable) ∧ (fields.map Prod.fst).Nodup := by
  cases h with
  | object values keys => exact ⟨values, keys⟩

theorem unsignedFields_length : (unsignedFields fields).length = fields.length := by
  induction fields with
  | nil => rfl
  | cons field rest ih => exact congrArg (· + 1) ih

theorem find_unsigned (key : String) (fields : List (String × Value)) :
    Fields.find? key (unsignedFields fields) = (Fields.find? key fields).map unsigned := by
  induction fields with
  | nil => rfl
  | cons field rest ih =>
    obtain ⟨name, value⟩ := field
    rw [unsignedFields, Fields.find?, Fields.find?]
    split
    · rfl
    · exact ih

end Parts

/-! ## Trees -/

/-- A finite number is kept by its tree, as an integer where it is one. -/
theorem ofJson_number {x : Float} {p : Double.Parts} (found : Double.parts? x = some p) :
    ofJson (numberToJson x) = number (if x == 0 then 0 else x) := by
  unfold numberToJson
  split
  · rename_i n whole
    exact congrArg number (Double.ofInt_integer whole)
  · rename_i fraction
    have nonzero : (x == 0) = false := by
      rw [Double.beq_zero_of_parts found]
      refine decide_eq_false fun zero => ?_
      rw [Double.integer_of_zero found zero] at fraction
      cases fraction
    rw [if_pos (Double.isFinite_of_parts found), nonzero]
    rfl

mutual

/-- The value that is read from the tree of a value. -/
theorem ofJson_tree : ∀ v : Value, v.Storable → ofJson v.toJson = v.unsigned
  | null, _ => rfl
  | bool _, _ => rfl
  | string _, _ => rfl
  | number x, storable => by
    obtain ⟨p, found⟩ := storable_number storable
    exact ofJson_number found
  | array items, storable => congrArg array (itemsOfJson_tree items (storable_items storable))
  | object fields, storable => congrArg object (fieldsOfJson_tree fields (storable_fields storable).1)

theorem itemsOfJson_tree : ∀ items : List Value, (∀ item ∈ items, item.Storable) →
    itemsOfJson (itemsToJson items) = unsignedItems items
  | [], _ => rfl
  | item :: rest, storable => by
    obtain ⟨first, others⟩ := List.forall_mem_cons.mp storable
    exact congrArg₂ _ (ofJson_tree item first) (itemsOfJson_tree rest others)

theorem fieldsOfJson_tree : ∀ fields : List (String × Value), (∀ field ∈ fields, field.2.Storable) →
    fieldsOfJson (fieldsToJson fields) = unsignedFields fields
  | [], _ => rfl
  | (key, value) :: rest, storable => by
    obtain ⟨first, others⟩ := List.forall_mem_cons.mp storable
    exact congrArg₂ (fun v fields => (key, v) :: fields) (ofJson_tree value first) (fieldsOfJson_tree rest others)

end

theorem ofJson_toJson (v : Value) (simple : v.Simple) : ofJson v.toJson = v.unsigned := ofJson_tree v simple.storable

/-! ## The sign of zero makes no difference -/

mutual

/-- On either side. -/
theorem same_unsigned : ∀ v : Value, v.Storable → same v v.unsigned = true ∧ same v.unsigned v = true
  | null, _ => ⟨rfl, rfl⟩
  | bool b, _ => ⟨beq_self_eq_true b, beq_self_eq_true b⟩
  | string s, _ => ⟨beq_self_eq_true s, beq_self_eq_true s⟩
  | number x, storable => by
    obtain ⟨p, found⟩ := storable_number storable
    change (x == if x == 0 then 0 else x) = true ∧ ((if x == 0 then 0 else x) == x) = true
    split
    · rename_i zero
      exact ⟨zero, Double.beq_symm zero⟩
    · exact ⟨Double.beq_self_of_parts found, Double.beq_self_of_parts found⟩
  | array items, storable => sameItems_both items (storable_items storable)
  | object fields, storable => by
    obtain ⟨values, keys⟩ := storable_fields storable
    obtain ⟨left, right⟩ := sameFields_both fields fields values fun field mem => find_of_mem keys mem
    refine ⟨Bool.and_eq_true_iff.mpr ⟨?_, left⟩, Bool.and_eq_true_iff.mpr ⟨?_, right⟩⟩
    · rw [unsignedFields_length]
      exact beq_self_eq_true _
    · rw [unsignedFields_length]
      exact beq_self_eq_true _

theorem sameItems_both : ∀ items : List Value, (∀ item ∈ items, item.Storable) →
    sameItems items (unsignedItems items) = true ∧ sameItems (unsignedItems items) items = true
  | [], _ => ⟨rfl, rfl⟩
  | item :: rest, storable => by
    obtain ⟨first, others⟩ := List.forall_mem_cons.mp storable
    obtain ⟨left, right⟩ := same_unsigned item first
    obtain ⟨lefts, rights⟩ := sameItems_both rest others
    exact ⟨Bool.and_eq_true_iff.mpr ⟨left, lefts⟩, Bool.and_eq_true_iff.mpr ⟨right, rights⟩⟩

theorem sameFields_both : ∀ fields all : List (String × Value), (∀ field ∈ fields, field.2.Storable) →
    (∀ field ∈ fields, Fields.find? field.1 all = some field.2) →
    sameFields fields (unsignedFields all) = true ∧ sameFields (unsignedFields fields) all = true
  | [], _, _, _ => ⟨rfl, rfl⟩
  | (key, value) :: rest, all, storable, found => by
    obtain ⟨first, others⟩ := List.forall_mem_cons.mp storable
    obtain ⟨here, there⟩ := List.forall_mem_cons.mp found
    obtain ⟨left, right⟩ := same_unsigned value first
    obtain ⟨lefts, rights⟩ := sameFields_both rest all others there
    refine ⟨Bool.and_eq_true_iff.mpr ⟨?_, lefts⟩, Bool.and_eq_true_iff.mpr ⟨?_, rights⟩⟩
    · rw [find_unsigned, here]
      exact left
    · rw [here]
      exact right

end

theorem sameItems_unsigned (items : List Value) (simple : ∀ item ∈ items, item.Simple) :
    sameItems items (unsignedItems items) = true := (sameItems_both items fun item mem => (simple item mem).storable).1

end Groq.Value
