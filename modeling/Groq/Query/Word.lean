/-
  Groq.Query.Word — names, numbers and the text of string literals.

  Names are ASCII letters, digits and underscores and do not begin with a digit. In a literal a
  backslash makes the next character stand for itself (quotes, backslash, slash) or for a control
  character.
-/

import Groq.Double.Reading

namespace Groq.Query

def beginsName (c : Char) : Bool := c.isAlpha || c = '_'

def isNameChar (c : Char) : Bool := c.isAlphanum || c = '_'

/-- The name at the beginning, empty if there is none. -/
def nameAt : List Char → List Char
  | c :: rest => if beginsName c then c :: rest.takeWhile isNameChar else []
  | [] => []

def escapeValue? : Char → Option Char
  | 'n' => some '\n'
  | 't' => some '\t'
  | 'r' => some '\r'
  | 'b' => some '\x08'
  | 'f' => some '\x0c'
  | '\\' => some '\\'
  | '"' => some '"'
  | '\'' => some '\''
  | '/' => some '/'
  | _ => none

/-- The text a literal's body stands for. -/
def unescape? : List Char → Option (List Char)
  | [] => some []
  | '\\' :: rest =>
    match rest with
    | [] => none
    | c :: rest => do return (← escapeValue? c) :: (← unescape? rest)
  | c :: rest => (unescape? rest).map (c :: ·)

/-- The text of a literal given with its quotes. -/
def literalText? (literal : List Char) : Option String :=
  (unescape? (literal.drop 1).dropLast).map String.ofList

end Groq.Query
