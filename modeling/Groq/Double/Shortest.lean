/-
  Groq.Double.Shortest — the fewest decimal digits that read back to the same double.

  A positive double `mantissa * 2 ^ exponent` is the nearest double to every real between the
  midpoints to its two neighbours (ends included when the mantissa is even). Among the decimals
  `digits * 10 ^ place` in that interval the one with the fewest digits is wanted, and of those
  the nearest. The grids `10 ^ place` are tried from coarse to fine: if a grid has a point in the
  interval, then one of the value's two neighbours on that grid is one.

  Everything is compared in one unit, a quarter of the gap between doubles, times whatever powers
  of two and ten make both sides natural numbers.
-/

import Groq.Double.Parts

namespace Groq.Double

/-- The number `digits * 10 ^ place`. -/
structure Decimal where
  digits : Nat
  place : Int
  deriving DecidableEq, Repr

/-- Which of two equally near decimals is written. -/
inductive Tie where
  | even
  | up
  deriving DecidableEq, Repr

/-- `base ^ e` for the exponents where it is whole, else 1. -/
def wholePower (base : Nat) (e : Int) : Nat := Nat.pow base e.toNat

/-- The double as a number of quarter gaps, and the ends of its interval. -/
structure Interval where
  value : Nat
  low : Nat
  high : Nat
  closed : Bool

/-- Below a power of two the gap is half as wide, except at the bottom of the range. -/
def Parts.interval (p : Parts) : Interval where
  value := 4 * p.mantissa
  low := 4 * p.mantissa - (if p.mantissa = hidden ∧ -1074 < p.exponent then 1 else 2)
  high := 4 * p.mantissa + 2
  closed := p.mantissa % 2 = 0

def Interval.holds (i : Interval) (scale n : Nat) : Bool :=
  if i.closed then i.low * scale ≤ n && n ≤ i.high * scale
  else i.low * scale < n && n < i.high * scale

/-- The neighbour of the value on the grid `10 ^ place` that reads back, if there is one. -/
def Parts.onGrid? (p : Parts) (tie : Tie) (place : Int) : Option Nat :=
  let i := p.interval
  let step := wholePower 10 place * wholePower 2 (2 - p.exponent)
  let scale := wholePower 2 (p.exponent - 2) * wholePower 10 (-place)
  let below := i.value * scale / step
  let above := below + 1
  match i.holds scale (below * step), i.holds scale (above * step) with
  | false, false => none
  | true, false => some below
  | false, true => some above
  | true, true =>
    let middle := (below + above) * step
    let twice := 2 * (i.value * scale)
    if twice < middle then some below
    else if middle < twice then some above
    else match tie with
      | .up => some above
      | .even => some (if below % 2 = 0 then below else above)

/-- A place at or above the leading digit of the value. -/
def Parts.topPlace (p : Parts) : Int := (p.mantissa.log2 + p.exponent) * 30103 / 100000 + 2

/-- The shortest decimal of a double that is not zero. Seventeen digits always suffice. -/
def Parts.shortest (p : Parts) (tie : Tie) : Decimal :=
  let tryPlace (k : Nat) : Option Decimal :=
    let place := p.topPlace - k
    (p.onGrid? tie place).map fun digits => ⟨digits, place⟩
  ((List.range 24).findSome? tryPlace).getD ⟨p.mantissa, 0⟩

end Groq.Double
