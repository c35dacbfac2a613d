/-
  Groq.Query.Normal — the normal form of query text.

  A query is cut into literals, words, numbers and marks; white space and comments (`//` to the end
  of the line) fall away. The normal form writes these one after the other. Only the words `in`,
  `match`, `asc` and `desc` have one space on either side, where they follow an operand and so are
  operators; anywhere else they are names like any other.
-/

import Groq.Error
import Groq.Text.Blank
import Groq.Text.Numeric

namespace Groq.Query

inductive Lexeme where
  /-- A string literal as it is written, quotes and escapes included. -/
  | literal (text : List Char)
  | word (letters : List Char)
  /-- Word characters that begin with a digit. -/
  | number (text : List Char)
  | mark (c : Char)
  deriving DecidableEq, Repr

/-! ## Cutting -/

def isQuote (c : Char) : Bool := c = '"' || c = '\''

def isWordChar (c : Char) : Bool := Text.isAlphanumeric c || c = '_'

def beginsWord (c : Char) : Bool := Text.isAlphabetic c || c = '_'

/-- The literal that begins with `done` (last first), and what follows it. It was opened at
    `opened`, and the text to read begins at `position`. -/
def takeLiteral (quote : Char) (opened position : Nat) (done : List Char) :
    List Char → Except LexicalError (List Char × List Char)
  | [] => .error (.unterminatedString opened)
  | '\\' :: rest =>
    match rest with
    | [] => .error (.unterminatedString opened)
    | c :: rest =>
      if c = 'u' then .error (.unsupportedEscape position)
      else takeLiteral quote opened (position + 2) (c :: '\\' :: done) rest
  | c :: rest =>
    if c = quote then .ok ((c :: done).reverse, rest)
    else takeLiteral quote opened (position + 1) (c :: done) rest

theorem length_of_takeLiteral {quote : Char} {opened position : Nat} {done cs text rest : List Char}
    (h : takeLiteral quote opened position done cs = .ok (text, rest)) : rest.length < cs.length := by
  fun_induction takeLiteral quote opened position done cs <;> grind

/-- The lexemes of a text whose first character is at `position`. -/
def lexemesFrom (position : Nat) : List Char → Except LexicalError (List Lexeme)
  | [] => .ok []
  | c :: rest =>
    if isQuote c then
      match h : takeLiteral c position (position + 1) [c] rest with
      | .error e => .error e
      | .ok (text, after) =>
        have := length_of_takeLiteral h
        (lexemesFrom (position + text.length) after).map (.literal text :: ·)
    else if c = '/' ∧ rest.head? = some '/' then
      let comment := rest.takeWhile (· != '\n')
      lexemesFrom (position + 1 + comment.length) (rest.dropWhile (· != '\n'))
    else if Text.isBlank c then lexemesFrom (position + 1) rest
    else if beginsWord c then
      let letters := c :: rest.takeWhile isWordChar
      (lexemesFrom (position + letters.length) (rest.dropWhile isWordChar)).map (.word letters :: ·)
    else if c.isDigit then
      let text := c :: rest.takeWhile isWordChar
      (lexemesFrom (position + text.length) (rest.dropWhile isWordChar)).map (.number text :: ·)
    else (lexemesFrom (position + 1) rest).map (.mark c :: ·)
termination_by cs => cs.length
decreasing_by
  all_goals
    have shorter (p : Char → Bool) := (List.dropWhile_suffix p (l := rest)).length_le
    grind

def lexemes (cs : List Char) : Except LexicalError (List Lexeme) := lexemesFrom 0 cs

/-! ## Writing -/

def isKeyword (letters : List Char) : Bool :=
  letters = "in".toList || letters = "match".toList || letters = "asc".toList ||
    letters = "desc".toList

/-- May what ends with this mark be an operand? -/
def Lexeme.endsOperand : Lexeme → Bool
  | mark c => Text.isAlphanumeric c || c = ')' || c = ']' || c = '}' || c = '@' || c = '^'
  | _ => true

def Lexeme.text : Lexeme → List Char
  | literal text => text
  | word letters => letters
  | number text => text
  | mark c => [c]

/-- The lexemes written after a text that ends an operand, or not, and in a space, or not. -/
def writeFrom (operand spaced : Bool) : List Lexeme → List Char
  | [] => []
  | lexeme :: rest =>
    match lexeme with
    | .word letters =>
      if operand && isKeyword letters then
        (if spaced then [] else [' ']) ++ letters ++ ' ' :: writeFrom true true rest
      else letters ++ writeFrom true false rest
    | lexeme => lexeme.text ++ writeFrom lexeme.endsOperand false rest

def normalizeChars (cs : List Char) : Except LexicalError (List Char) :=
  (lexemes cs).map (writeFrom false false)

def normalize (query : String) : Except LexicalError String :=
  (normalizeChars query.toList).map String.ofList

end Groq.Query
