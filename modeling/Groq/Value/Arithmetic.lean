/-
  Groq.Value.Arithmetic — the arithmetic operators and the two logical ones.

  `+` adds numbers, joins strings and arrays, writes one object over another and moves an instant
  by seconds; `-` subtracts numbers and gives the seconds between instants. Operands of other types
  make null, and so does a numeric result that is not finite. `&&` and `||` have three values, null
  standing for what is neither true nor false.
-/

import Groq.Value

namespace Groq.Value

/-! ## Three-valued logic -/

def and : Value → Value → Value
  | bool false, _ => bool false
  | _, bool false => bool false
  | bool true, bool true => bool true
  | _, _ => null

def or : Value → Value → Value
  | bool true, _ => bool true
  | _, bool true => bool true
  | bool false, bool false => bool false
  | _, _ => null

def not : Value → Value
  | bool b => bool !b
  | _ => null

/-! ## Numbers -/

def ofFinite (x : Float) : Value := if x.isFinite then number x else null

def numeric (op : Float → Float → Float) : Value → Value → Value
  | number a, number b => ofFinite (op a b)
  | _, _ => null

def neg : Value → Value
  | number x => number (-x)
  | _ => null

def pos : Value → Value
  | number x => number x
  | _ => null

/-! ## Instants -/

/-- Move an instant by seconds, rounded to milliseconds; null where it leaves the calendar. -/
def shift (t : Instant) (seconds : Float) : Value :=
  match (Double.parts? (seconds * 1000)).bind fun millis => t.advance? millis.nearestWhole with
  | some later => dateTime later
  | none => null

def secondsBetween (a b : Instant) : Float := Float.ofInt (a.millisSince b) / 1000

/-! ## Operators over several types -/

def add : Value → Value → Value
  | number a, number b => ofFinite (a + b)
  | string a, string b => string (a ++ b)
  | array a, array b => array (a ++ b)
  | object a, object b => object (Fields.merge a b)
  | dateTime t, number seconds => shift t seconds
  | _, _ => null

def subtract : Value → Value → Value
  | number a, number b => ofFinite (a - b)
  | dateTime a, dateTime b => number (secondsBetween a b)
  | dateTime t, number seconds => shift t (-seconds)
  | _, _ => null

end Groq.Value
