/-
  Groq.Proofs.Value.Renderings — one text for a value, written at once or through its tree.

  Text is written from the value; a tree is made from the value and then written. Both look at numbers, one
  asking first whether a number is finite and one whether it is an integer: a number that is not finite has
  no parts and so is no integer either (`compact_number`).
  Proved: the two texts are one, for all values; and the tree of a value that JSON keeps is read back as the
  same value, its keys in their order (`text_of_tree`).
-/

import Groq.Proofs.Value.Simple

namespace Groq.Value

/-! ## Keys in their order -/

mutual

/-- The value with null for every scalar: its arrays, and its objects with their keys. -/
def outline : Value → Value
  | array items => array (outlineItems items)
  | object fields => object (outlineFields fields)
  | _ => null
termination_by structural v => v

def outlineItems : List Value → List Value
  | [] => []
  | item :: rest => outline item :: outlineItems rest
termination_by structural items => items

def outlineFields : List (String × Value) → List (String × Value)
  | [] => []
  | (key, value) :: rest => (key, outline value) :: outlineFields rest
termination_by structural fields => fields

end

mutual

theorem outline_unsigned : ∀ v : Value, v.unsigned.outline = v.outline
  | null | bool _ | number _ | string _ | dateTime _ => rfl
  | array items => congrArg array (outlineItems_unsigned items)
  | object fields => congrArg object (outlineFields_unsigned fields)

theorem outlineItems_unsigned : ∀ items : List Value, outlineItems (unsignedItems items) = outlineItems items
  | [] => rfl
  | item :: rest => congrArg₂ _ (outline_unsigned item) (outlineItems_unsigned rest)

theorem outlineFields_unsigned : ∀ fields : List (String × Value),
    outlineFields (unsignedFields fields) = outlineFields fields
  | [] => rfl
  | (key, value) :: rest =>
    congrArg₂ (fun v fields => (key, v) :: fields) (outline_unsigned value) (outlineFields_unsigned rest)

end

/-! ## Text -/

/-- What is not finite is null either way. -/
theorem compact_number (x : Float) : numberText x = (numberToJson x).compact := by
  unfold numberText numberToJson
  cases finite : x.isFinite with
  | true =>
    rw [if_neg (by decide)]
    split <;> rfl
  | false =>
    have none : Double.integer? x = none := by
      rcases integer : Double.integer? x with _ | n
      · rfl
      · obtain ⟨p, found, -⟩ := Double.integer_parts integer
        rw [Double.isFinite_of_parts found] at finite
        cases finite
    rw [none]
    rfl

theorem deeper_compact : Layout.compact.deeper = Layout.compact := rfl

theorem bracketed_compact (opening closing : Char) (pieces : List (List Char)) :
    bracketed Layout.compact opening closing pieces = opening :: Json.commaSeparated pieces ++ [closing] := by
  have lines : pieces.map (Layout.compact.deeper.lineBreak ++ ·) = pieces := List.map_id pieces
  unfold bracketed
  split
  · rename_i none
    rw [none]
    rfl
  · dsimp only
    rw [lines]
    exact congrArg (opening :: · ++ [closing]) (List.append_nil _)

mutual

theorem write_compact : ∀ v : Value, v.write Layout.compact = v.toJson.compact
  | null | bool _ | string _ | dateTime _ => rfl
  | number x => compact_number x
  | array items => by
    rw [write, bracketed_compact, deeper_compact, writeItems_compact items]
    rfl
  | object fields => by
    rw [write, bracketed_compact, deeper_compact, writeFields_compact fields]
    rfl

theorem writeItems_compact : ∀ items : List Value,
    writeItems Layout.compact items = Json.compactItems (itemsToJson items)
  | [] => rfl
  | item :: rest => congrArg₂ _ (write_compact item) (writeItems_compact rest)

theorem writeFields_compact : ∀ fields : List (String × Value),
    writeFields Layout.compact fields = Json.compactMembers (fieldsToJson fields)
  | [] => rfl
  | (key, value) :: rest => by
    rw [writeFields, write_compact value, writeFields_compact rest, List.append_assoc]
    rfl

end

/-- The text of a value is the text of its tree. Where JSON keeps the value, the tree gives it back. -/
theorem text_of_tree (v : Value) :
    compactText v = v.toJson.toText ∧
      (v.Storable → same (ofJson v.toJson) v = true ∧ outline (ofJson v.toJson) = outline v) := by
  refine ⟨congrArg String.ofList (write_compact v), fun storable => ?_⟩
  rw [ofJson_tree v storable]
  exact ⟨(same_unsigned v storable).2, outline_unsigned v⟩

/-- A negative zero, a number beyond 2^53 and one with a fraction, at different depths. -/
theorem text_of_tree_numbers :
    let v := object [("b", array [number (-0.0), number 1e300]), ("a", object [("c", number 0.1)])]
    v.Storable ∧ compactText v = "\x7b\"b\":[0,1e+300],\"a\":\x7b\"c\":0.1\x7d\x7d" ∧
      same (ofJson v.toJson) v = true ∧ outline (ofJson v.toJson) = outline v := by
  intro v
  have whole : (number 1e300).Storable := .number (by decide +kernel)
  have zero : (number (-0.0)).Storable := .number (by decide +kernel)
  have tenth : (number 0.1).Storable := .number (by decide +kernel)
  have numbers : (array [number (-0.0), number 1e300]).Storable :=
    .array (List.forall_mem_cons.mpr ⟨zero, List.forall_mem_singleton.mpr whole⟩)
  have inner : (object [("c", number 0.1)]).Storable := .object (List.forall_mem_singleton.mpr tenth) (by decide)
  have storable : v.Storable :=
    .object (List.forall_mem_cons.mpr ⟨numbers, List.forall_mem_singleton.mpr inner⟩) (by decide)
  have text : compactText v = "\x7b\"b\":[0,1e+300],\"a\":\x7b\"c\":0.1\x7d\x7d" := by decide +kernel
  exact ⟨storable, text, (text_of_tree v).2 storable⟩

end Groq.Value
