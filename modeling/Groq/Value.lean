/-
  Groq.Value — what queries read and produce: JSON values and instants.

  Numbers are doubles. The fields of an object are kept in the order they were written
  (`Groq.Fields`). An instant comes out of date functions and date arithmetic and stays apart from
  strings, although it is written as one. A reference is an object whose `_ref` names a document.
-/

import Groq.Double.Parts
import Groq.Fields
import Groq.Instant

namespace Groq

inductive Value where
  | null
  | bool (b : Bool)
  | number (x : Float)
  | string (s : String)
  | array (items : List Value)
  | object (fields : List (String × Value))
  | dateTime (t : Instant)
  deriving Inhabited

namespace Value

def typeName : Value → String
  | null => "null"
  | bool _ => "boolean"
  | number _ => "number"
  | string _ => "string"
  | array _ => "array"
  | object _ => "object"
  | dateTime _ => "datetime"

def isNull : Value → Bool
  | null => true
  | _ => false

def isTrue : Value → Bool
  | bool b => b
  | _ => false

def bool? : Value → Option Bool
  | bool b => some b
  | _ => none

def number? : Value → Option Float
  | number x => some x
  | _ => none

/-- A number without a fraction, of a magnitude up to 2^53. -/
def integer? : Value → Option Int
  | number x => Double.integer? x
  | _ => none

def string? : Value → Option String
  | string s => some s
  | _ => none

def items? : Value → Option (List Value)
  | array items => some items
  | _ => none

def fields? : Value → Option (List (String × Value))
  | object fields => some fields
  | _ => none

/-- The field of an object; other values have none. -/
def field? (v : Value) (key : String) : Option Value := v.fields?.bind (Fields.find? key)

def stringField? (v : Value) (key : String) : Option String := (v.field? key).bind string?

/-- A length as a number. Lengths have 64 bits. -/
def ofNat (n : Nat) : Value := number (UInt64.ofNat n).toFloat

/-! ## References -/

/-- The id a reference points to. A weak one may point nowhere. -/
structure Reference where
  id : String
  weak : Bool
  deriving DecidableEq, Repr

def reference? (v : Value) : Option Reference :=
  (v.stringField? "_ref").map fun id => ⟨id, ((v.field? "_weak").bind bool?).getD false⟩

end Value

end Groq
