/-
  Groq.Value.Access — fields, elements and slices.

  A field of an array is the array of the fields of its items. Slices take the elements between two
  bounds; a negative bound counts from the end. What is not there is null.
-/

import Groq.Value

namespace Groq.Value

def fieldOrNull (v : Value) (key : String) : Value := (v.field? key).getD null

def readField : Value → String → Value
  | array items, key => array (items.map (·.fieldOrNull key))
  | v, key => v.fieldOrNull key

def element : Value → Int → Value
  | array items, index => if index < 0 then null else items[index.toNat]?.getD null
  | _, _ => null

/-- The index a bound stands for in an array of this length. -/
def boundIndex (length : Nat) (bound : Int) : Int := if bound < 0 then bound + length else bound

/-- An index as a number of elements to pass, at most all. -/
def clamp (length : Nat) (index : Int) : Nat := min index.toNat length

/-- The index behind one. Indices have 64 bits: behind the greatest comes the least. -/
def indexBehind (index : Int) : Int := (index + 1).bmod (Nat.pow 2 64)

def slice (inclusive : Bool) (left right : Int) : Value → Value
  | array items =>
    let first := clamp items.length (boundIndex items.length left)
    let last := boundIndex items.length right
    let past := clamp items.length (if inclusive then indexBehind last else last)
    array ((items.take past).drop first)
  | _ => null

def arrayOrNull : Value → Value
  | array items => array items
  | _ => null

end Groq.Value
