/-
  Groq.Value.Collection — functions on arrays and strings, and statistics of numbers.

  Values of another type make null. Statistics pass over null items and take no other item that is
  not a number.
-/

import Groq.Double.Notation
import Groq.Text.Case
import Groq.Value.Equality

namespace Groq.Value

/-! ## Text -/

/-- Text of a value that has one. -/
def plainText? : Value → Option String
  | string s => some s
  | number x => some (Double.plain x)
  | bool b => some (if b then "true" else "false")
  | _ => none

def toPlainString : Value → Value
  | dateTime t => string t.toText
  | v => (v.plainText?.map string).getD null

def mapString (f : List Char → List Char) : Value → Value
  | string s => string (String.ofList (f s.toList))
  | _ => null

def lower (v : Value) : Value := v.mapString Text.lower

def upper (v : Value) : Value := v.mapString Text.upper

def startsWith : Value → Value → Value
  | string s, string start => bool (start.toList.isPrefixOf s.toList)
  | _, _ => null

/-- The pieces between separators, with `skip` characters of a separator still to pass and `piece`
    (last first) read so far. -/
def splitFrom (separator : List Char) : (skip : Nat) → (piece : List Char) → List Char →
    List (List Char)
  | _, piece, [] => [piece.reverse]
  | skip + 1, piece, _ :: rest => splitFrom separator skip piece rest
  | 0, piece, c :: rest =>
    if separator.isPrefixOf (c :: rest) then
      piece.reverse :: splitFrom separator (separator.length - 1) [] rest
    else splitFrom separator 0 (c :: piece) rest

/-- The pieces of a text between separators; an empty separator divides it into characters. -/
def splitChars (separator cs : List Char) : List (List Char) :=
  if separator = [] then cs.map ([·]) else splitFrom separator 0 [] cs

def split : Value → Value → Value
  | string s, string separator =>
    array ((splitChars separator.toList s.toList).map fun piece => string (String.ofList piece))
  | _, _ => null

/-! ## Arrays -/

def count : Value → Value
  | array items => ofNat items.length
  | _ => null

def length : Value → Value
  | string s => ofNat s.length
  | array items => ofNat items.length
  | _ => null

def compact : Value → Value
  | array items => array (items.filter (!·.isNull))
  | _ => null

/-- Join scalars; an item that is none makes the whole null. -/
def join : Value → Value → Value
  | array items, string separator =>
    match items.mapM plainText? with
    | some parts => string (separator.intercalate parts)
    | none => null
  | _, _ => null

/-- The items of `items` that equal none in `seen` (last first) or before them. -/
def uniqueFrom (seen : List Value) : List Value → List Value
  | [] => seen.reverse
  | item :: rest =>
    if seen.any (equals · item) then uniqueFrom seen rest else uniqueFrom (item :: seen) rest

def unique : Value → Value
  | array items => array (uniqueFrom [] items)
  | _ => null

def intersects : Value → Value → Value
  | array a, array b => bool (a.any fun x => b.any (equals x))
  | _, _ => null

def isIn (v : Value) : Value → Value
  | array items => bool (items.any (equals v))
  | _ => null

/-! ## Statistics -/

def numbers? : Value → Option (List Float)
  | array items => (items.filter (!·.isNull)).mapM number?
  | _ => none

/-- The sum of no numbers is negative zero, which changes no sum. -/
def total (xs : List Float) : Float := xs.foldl (· + ·) (-0.0)

def mean? (xs : List Float) : Option Float :=
  if xs = [] then none else some (total xs / Float.ofNat xs.length)

/-- The smaller of two numbers, the first of equal ones; NaN does not count. -/
def lesser (a b : Float) : Float := if a.isNaN then b else if b < a then b else a

def greater (a b : Float) : Float := if a.isNaN then b else if a < b then b else a

def fold1? (f : Float → Float → Float) : List Float → Option Float
  | [] => none
  | x :: rest => some (rest.foldl f x)

def statistic (f : List Float → Option Float) (v : Value) : Value :=
  match v.numbers?.bind f with
  | some x => number x
  | none => null

def sum : Value → Value := statistic fun xs => some (total xs)

def mean : Value → Value := statistic mean?

def minimum : Value → Value := statistic (fold1? lesser)

def maximum : Value → Value := statistic (fold1? greater)

end Groq.Value
