/-
  Groq.Json.Reader — reading JSON text strictly, as RFC 8259 has it.

  The text is cut into tokens (`tokens?`), and a machine with a stack of open containers takes one
  token at a time (`Reading.step?`). So nesting is bounded by a number and not by the machine's
  own stack. A repeated member keeps its first place and takes its last value. Refused, besides
  what the grammar refuses: half of a surrogate pair, a number beyond the doubles, and nesting
  deeper than the bound.
-/

import Groq.Double.Reading
import Groq.Fields
import Groq.Json

namespace Groq.Json

/-! ## Tokens -/

inductive Token where
  | beginArray
  | endArray
  | beginObject
  | endObject
  | colon
  | comma
  | string (s : String)
  /-- A number or one of the three words. -/
  | scalar (j : Json)

def simpleEscape? : Char → Option Char
  | '"' => some '"'
  | '\\' => some '\\'
  | '/' => some '/'
  | 'b' => some '\x08'
  | 'f' => some '\x0c'
  | 'n' => some '\n'
  | 'r' => some '\r'
  | 't' => some '\t'
  | _ => none

def isHighSurrogate (n : Nat) : Bool := 0xD800 ≤ n && n < 0xDC00

def isLowSurrogate (n : Nat) : Bool := 0xDC00 ≤ n && n < 0xE000

def joinSurrogates (high low : Nat) : Char :=
  Char.ofNat (0x10000 + (high - 0xD800) * 0x400 + (low - 0xDC00))

/-- The characters up to the closing quote, after those of `done` (last first), and the rest. -/
def stringBody? (done : List Char) : List Char → Option (List Char × List Char)
  | '"' :: rest => some (done.reverse, rest)
  | '\\' :: 'u' :: a :: b :: c :: d :: rest =>
    match Text.hexValue4? a b c d with
    | none => none
    | some n =>
      if isHighSurrogate n then
        match rest with
        | '\\' :: 'u' :: e :: f :: g :: h :: rest =>
          match Text.hexValue4? e f g h with
          | some low =>
            if isLowSurrogate low then stringBody? (joinSurrogates n low :: done) rest else none
          | none => none
        | _ => none
      else if isLowSurrogate n then none
      else stringBody? (Char.ofNat n :: done) rest
  | '\\' :: c :: rest =>
    match simpleEscape? c with
    | some e => stringBody? (e :: done) rest
    | none => none
  | c :: rest => if c < ' ' then none else stringBody? (c :: done) rest
  | [] => none

/-- Integers beyond 64 bits, and zero with a sign, are doubles. -/
def ofNumeral? (negative : Bool) (n : Double.Numeral) : Option Json :=
  let digits := Text.decimalValue n.whole
  if n.isWhole ∧ !negative ∧ digits < Nat.pow 2 64 then some (integer digits)
  else if n.isWhole ∧ negative ∧ 0 < digits ∧ digits ≤ Nat.pow 2 63 then some (integer (-digits))
  else
    let x := n.toFloat
    if x.isInf then none else some (float (if negative then -x else x))

def hasLeadingZero : List Char → Bool
  | '0' :: _ :: _ => true
  | _ => false

/-- A point or an exponent must be followed by digits. -/
def endsNumber : List Char → Bool
  | c :: _ => c != '.' && c != 'e' && c != 'E'
  | [] => true

def number? (negative : Bool) (cs : List Char) : Option (Json × List Char) := do
  let (n, rest) ← Double.numeral? cs
  if hasLeadingZero n.whole ∨ !endsNumber rest then none
  else
    let j ← ofNumeral? negative n
    return (j, rest)

def isSpace (c : Char) : Bool := c = ' ' || c = '\t' || c = '\n' || c = '\r'

/-- The token that begins with `c`, and what follows it. -/
def token? (c : Char) (rest : List Char) : Option (Token × List Char) :=
  match c, rest with
  | '[', rest => some (.beginArray, rest)
  | ']', rest => some (.endArray, rest)
  | '{', rest => some (.beginObject, rest)
  | '}', rest => some (.endObject, rest)
  | ':', rest => some (.colon, rest)
  | ',', rest => some (.comma, rest)
  | '"', rest => (stringBody? [] rest).map fun (s, rest) => (.string (String.ofList s), rest)
  | 'n', 'u' :: 'l' :: 'l' :: rest => some (.scalar null, rest)
  | 't', 'r' :: 'u' :: 'e' :: rest => some (.scalar (bool true), rest)
  | 'f', 'a' :: 'l' :: 's' :: 'e' :: rest => some (.scalar (bool false), rest)
  | '-', rest => (number? true rest).map fun (j, rest) => (.scalar j, rest)
  | c, rest => (number? false (c :: rest)).map fun (j, rest) => (.scalar j, rest)

/-- The tokens of a text, after those of `done` (last first). A token is not empty, so `fuel` as
    long as the text suffices. -/
def tokensFrom? : (fuel : Nat) → (done : List Token) → List Char → Option (List Token)
  | _, done, [] => some done.reverse
  | 0, _, _ :: _ => none
  | fuel + 1, done, c :: rest =>
    if isSpace c then tokensFrom? fuel done rest
    else
      match token? c rest with
      | some (token, rest) => tokensFrom? fuel (token :: done) rest
      | none => none

def tokens? (cs : List Char) : Option (List Token) := tokensFrom? cs.length [] cs

/-! ## Trees -/

/-- A container that is still open. -/
inductive Frame where
  /-- The items so far, last first. -/
  | array (items : List Json)
  /-- The members so far and the key that waits for its value. -/
  | object (members : List (String × Json)) (key : String)

/-- What may come next. -/
inductive Reading where
  | value (outer : List Frame)
  | valueOrEnd (outer : List Frame)
  | keyOrEnd (outer : List Frame)
  | nextKey (outer : List Frame) (members : List (String × Json))
  | colon (outer : List Frame) (members : List (String × Json)) (key : String)
  | commaOrEnd (frame : Frame) (outer : List Frame)
  | done (j : Json)

/-- A value is complete: it goes into the innermost open container. -/
def Reading.complete (j : Json) : List Frame → Reading
  | [] => .done j
  | .array items :: rest => .commaOrEnd (.array (j :: items)) rest
  | .object members key :: rest => .commaOrEnd (.object (Fields.insert key j members) key) rest

/-- The first token of a value, with containers nested at most `limit` deep. -/
def Reading.begin? (limit : Nat) (opened : List Frame) : Token → Option Reading
  | .beginArray => if opened.length < limit then some (.valueOrEnd opened) else none
  | .beginObject => if opened.length < limit then some (.keyOrEnd opened) else none
  | .string s => some (.complete (.string s) opened)
  | .scalar j => some (.complete j opened)
  | _ => none

def Reading.step? (limit : Nat) : Reading → Token → Option Reading
  | .value opened, token => begin? limit opened token
  | .valueOrEnd opened, .endArray => some (.complete (.array []) opened)
  | .valueOrEnd opened, token => begin? limit (.array [] :: opened) token
  | .keyOrEnd opened, .endObject => some (.complete (.object []) opened)
  | .keyOrEnd opened, .string key => some (.colon opened [] key)
  | .nextKey opened members, .string key => some (.colon opened members key)
  | .colon opened members key, .colon => some (.value (.object members key :: opened))
  | .commaOrEnd (.array items) opened, .comma => some (.value (.array items :: opened))
  | .commaOrEnd (.array items) opened, .endArray => some (.complete (.array items.reverse) opened)
  | .commaOrEnd (.object members _) opened, .comma => some (.nextKey opened members)
  | .commaOrEnd (.object members _) opened, .endObject => some (.complete (.object members) opened)
  | _, _ => none

/-- The tree of a text with containers nested at most `limit` deep. -/
def ofChars? (limit : Nat) (cs : List Char) : Option Json := do
  let tokens ← tokens? cs
  match ← tokens.foldlM (Reading.step? limit) (.value []) with
  | .done j => some j
  | _ => none

def ofText? (limit : Nat) (s : String) : Option Json := ofChars? limit s.toList

end Groq.Json
