/-
  Groq.Value.Order — which of two values comes first.

  The comparison operators order two numbers or two instants and nothing else (`order?`). Sorting
  orders all values: booleans before numbers before strings before instants before the rest, with
  null last in either direction (`compareKeys`). Strings go by code point, which is also the order
  of their UTF-8 bytes.
-/

import Groq.Value

namespace Groq.Value

/-- NaN is not ordered, not even with itself. -/
def orderNumbers? (a b : Float) : Option Ordering :=
  if a < b then some .lt else if b < a then some .gt else if a == b then some .eq else none

def order? : Value → Value → Option Ordering
  | number a, number b => orderNumbers? a b
  | dateTime a, dateTime b => some (compare a b)
  | _, _ => none

/-! ## Sorting -/

/-- The place of a value's type in the order of types. -/
def rank : Value → Nat
  | bool _ => 0
  | number _ => 1
  | string _ => 2
  | dateTime _ => 3
  | _ => 4

def sortOrder : Value → Value → Ordering
  | bool a, bool b => compare a b
  | number a, number b => (orderNumbers? a b).getD .eq
  | string a, string b => compare a b
  | dateTime a, dateTime b => compare a b
  | a, b => compare a.rank b.rank

inductive Direction where
  | ascending
  | descending
  deriving DecidableEq, Repr

def compareKeys (direction : Direction) (a b : Value) : Ordering :=
  match a.isNull, b.isNull with
  | true, true => .eq
  | true, false => .gt
  | false, true => .lt
  | false, false =>
    match direction with
    | .ascending => sortOrder a b
    | .descending => (sortOrder a b).swap

/-- Compare rows by their keys, the first difference deciding. -/
def compareRows : List Direction → List Value → List Value → Ordering
  | direction :: rest, a :: as, b :: bs =>
    (compareKeys direction a b).then (compareRows rest as bs)
  | _, _, _ => .eq

variable {α : Type}

/-- Put `row` behind the rows it does not precede; `sorted` has the greatest row first. -/
def insertRow (precedes : α → α → Bool) (row : α) : List α → List α
  | [] => [row]
  | last :: rest =>
    if precedes row last then last :: insertRow precedes row rest else row :: last :: rest

/-- Sort rows one after the other into place. A row passes only rows that it precedes, so equal
    rows, and rows that cannot be compared, keep their order. -/
def sortRows (precedes : α → α → Bool) (rows : List α) : List α :=
  (rows.foldl (fun sorted row => insertRow precedes row sorted) []).reverse

end Groq.Value
