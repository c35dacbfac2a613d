/-
  Groq.Dataset — datasets and parameters as text.

  A dataset is one JSON array, one JSON document, or a document on each line; blank lines do not
  count. A parameter is `name=value`, the value JSON or, where it is not, plain text.
-/

import Groq.Json.Reader
import Groq.Text.Blank
import Groq.Value.Text

namespace Groq.Dataset

inductive ReadError where
  /-- The text begins as an array but is none. -/
  | badJson
  /-- A line, counted from 1, is no JSON document. -/
  | badLine (number : Nat)
  deriving DecidableEq, Repr

def ReadError.message : ReadError → String
  | badJson => "invalid JSON"
  | badLine number => "invalid dataset line " ++ toString number

/-- How deep containers may be nested in a document. -/
def maxNesting : Nat := 127

def document? (cs : List Char) : Option Value := (Json.ofChars? maxNesting cs).map Value.ofJson

/-- A line without the carriage return at its end. -/
def endLine (line : List Char) : List Char :=
  match line with
  | '\r' :: rest => rest.reverse
  | line => line.reverse

/-- The lines of a text, the first of which begins with `line` (last character first). A line break
    at the end begins no line. -/
def linesFrom (line : List Char) : List Char → List (List Char)
  | [] => if line = [] then [] else [line.reverse]
  | c :: rest => if c = '\n' then endLine line :: linesFrom [] rest else linesFrom (c :: line) rest

def lines (cs : List Char) : List (List Char) := linesFrom [] cs

/-- A document on each line that is not blank, the first line having this number. -/
def readLines (number : Nat) : List (List Char) → Except ReadError (List Value)
  | [] => .ok []
  | line :: rest =>
    if Text.isBlankText line then readLines (number + 1) rest
    else
      match document? line with
      | none => .error (.badLine number)
      | some document => (readLines (number + 1) rest).map (document :: ·)

def readChars (cs : List Char) : Except ReadError (List Value) :=
  let text := cs.dropWhile Text.isBlank
  match text with
  | [] => .ok []
  | '[' :: _ =>
    match document? text with
    | some (.array documents) => .ok documents
    | _ => .error .badJson
  | _ =>
    match document? text with
    | some document => .ok [document]
    | none => readLines 1 (lines cs)

def read (input : String) : Except ReadError (List Value) := readChars input.toList

/-! ## Parameters -/

inductive ParameterError where
  | malformed (text : String)
  deriving DecidableEq, Repr

def ParameterError.message : ParameterError → String
  | malformed text => "invalid parameter `" ++ text ++ "`: expected name=<json>"

def readParameter (text : String) : Except ParameterError (String × Value) :=
  let cs := text.toList
  let name := cs.takeWhile (· != '=')
  match cs.dropWhile (· != '=') with
  | [] => .error (.malformed text)
  | _ :: value =>
    if name = [] then .error (.malformed text)
    else .ok (String.ofList name, (document? value).getD (.string (String.ofList value)))

end Groq.Dataset
