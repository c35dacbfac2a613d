/-
  Groq.Value.Text — values as JSON text, compact or indented, and as JSON trees.

  Text is written from the value itself. Numbers without a fraction up to 2^53 are integers, what
  is not finite is null, and an instant is a string. `toJson` makes the same choices for a tree, so
  a value has the same compact text either way. Reading a tree back gives numbers as doubles.
-/

import Groq.Instant.Text
import Groq.Json
import Groq.Value

namespace Groq

namespace Value

/-! ## Text -/

/-- Where a line breaks inside a container: nowhere, or indented by so many steps. -/
abbrev Layout := Option Nat

def Layout.compact : Layout := none

def Layout.indented : Layout := some 0

def Layout.deeper (layout : Layout) : Layout := layout.map (· + 1)

def Layout.lineBreak : Layout → List Char
  | none => []
  | some steps => '\n' :: List.replicate (2 * steps) ' '

def Layout.colon : Layout → List Char
  | none => [':']
  | some _ => [':', ' ']

def numberText (x : Float) : List Char :=
  if !x.isFinite then "null".toList
  else
    match Double.integer? x with
    | some n => Json.integerText n
    | none => Json.floatText x

/-- The pieces between brackets, each on a line of its own one step deeper. -/
def bracketed (layout : Layout) (opening closing : Char) (pieces : List (List Char)) : List Char :=
  if pieces = [] then [opening, closing]
  else
    let lines := pieces.map (layout.deeper.lineBreak ++ ·)
    opening :: Json.commaSeparated lines ++ layout.lineBreak ++ [closing]

mutual

def write (layout : Layout) : Value → List Char
  | null => "null".toList
  | bool b => Json.boolText b
  | number x => numberText x
  | string s => Json.quoted s
  | dateTime t => Json.quoted t.toText
  | array items => bracketed layout '[' ']' (writeItems layout.deeper items)
  | object fields => bracketed layout '{' '}' (writeFields layout.deeper fields)
termination_by structural v => v

def writeItems (layout : Layout) : List Value → List (List Char)
  | [] => []
  | item :: rest => write layout item :: writeItems layout rest
termination_by structural items => items

def writeFields (layout : Layout) : List (String × Value) → List (List Char)
  | [] => []
  | (key, value) :: rest =>
    (Json.quoted key ++ layout.colon ++ write layout value) :: writeFields layout rest
termination_by structural fields => fields

end

def compactText (v : Value) : String := String.ofList (v.write Layout.compact)

def indentedText (v : Value) : String := String.ofList (v.write Layout.indented)

/-! ## Trees -/

def numberToJson (x : Float) : Json :=
  match Double.integer? x with
  | some n => .integer n
  | none => if x.isFinite then .float x else .null

mutual

def toJson : Value → Json
  | null => .null
  | bool b => .bool b
  | number x => numberToJson x
  | string s => .string s
  | dateTime t => .string t.toText
  | array items => .array (itemsToJson items)
  | object fields => .object (fieldsToJson fields)
termination_by structural v => v

def itemsToJson : List Value → List Json
  | [] => []
  | item :: rest => toJson item :: itemsToJson rest
termination_by structural items => items

def fieldsToJson : List (String × Value) → List (String × Json)
  | [] => []
  | (key, value) :: rest => (key, toJson value) :: fieldsToJson rest
termination_by structural fields => fields

end

mutual

def ofJson : Json → Value
  | .null => null
  | .bool b => bool b
  | .integer n => number (Float.ofInt n)
  | .float x => number x
  | .string s => string s
  | .array items => array (itemsOfJson items)
  | .object members => object (fieldsOfJson members)
termination_by structural j => j

def itemsOfJson : List Json → List Value
  | [] => []
  | item :: rest => ofJson item :: itemsOfJson rest
termination_by structural items => items

def fieldsOfJson : List (String × Json) → List (String × Value)
  | [] => []
  | (key, value) :: rest => (key, ofJson value) :: fieldsOfJson rest
termination_by structural members => members

end

end Value

end Groq
