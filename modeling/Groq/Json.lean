/-
  Groq.Json — JSON trees and their compact text.

  A number is an integer or a double, as its text is; members keep their order. Quoting escapes the
  quote, the backslash and the control characters, with the short escapes where JSON has them.
-/

import Groq.Double.Notation

namespace Groq

inductive Json where
  | null
  | bool (b : Bool)
  | integer (n : Int)
  | float (x : Float)
  | string (s : String)
  | array (items : List Json)
  | object (members : List (String × Json))
  deriving Inhabited

namespace Json

/-! ## Strings -/

def hexDigit (n : Nat) : Char := (Nat.digitChar n)

/-- A control character by its code. -/
def codeEscape (c : Char) : List Char :=
  ['\\', 'u', '0', '0', hexDigit (c.toNat / 16), hexDigit (c.toNat % 16)]

def escaped (c : Char) : List Char :=
  match c with
  | '"' => ['\\', '"']
  | '\\' => ['\\', '\\']
  | '\n' => ['\\', 'n']
  | '\r' => ['\\', 'r']
  | '\t' => ['\\', 't']
  | '\x08' => ['\\', 'b']
  | '\x0c' => ['\\', 'f']
  | c => if c < ' ' then codeEscape c else [c]

def quoted (s : String) : List Char := '"' :: s.toList.flatMap escaped ++ ['"']

/-! ## Numbers -/

def integerText (n : Int) : List Char := (toString n).toList

/-- Text of a double that is not written as an integer; what is not finite has none. -/
def floatText (x : Float) : List Char :=
  match Double.parts? x with
  | some p => (Double.fractional p).toList
  | none => "null".toList

/-! ## Trees -/

def boolText (b : Bool) : List Char := (if b then "true" else "false").toList

/-- The pieces with a comma between them. -/
def commaSeparated : List (List Char) → List Char
  | [] => []
  | [piece] => piece
  | piece :: rest => piece ++ ',' :: commaSeparated rest

mutual

def compact : Json → List Char
  | null => "null".toList
  | bool b => boolText b
  | integer n => integerText n
  | float x => floatText x
  | string s => quoted s
  | array items => '[' :: commaSeparated (compactItems items) ++ [']']
  | object members => '{' :: commaSeparated (compactMembers members) ++ ['}']
termination_by structural j => j

def compactItems : List Json → List (List Char)
  | [] => []
  | item :: rest => compact item :: compactItems rest
termination_by structural items => items

def compactMembers : List (String × Json) → List (List Char)
  | [] => []
  | (key, value) :: rest => (quoted key ++ ':' :: compact value) :: compactMembers rest
termination_by structural members => members

end

def toText (j : Json) : String := String.ofList j.compact

end Json

end Groq
