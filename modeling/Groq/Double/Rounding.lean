/-
  Groq.Double.Rounding — rounding a double to decimal places.

  The double is first made a decimal `digits / 10 ^ scale` of at most 96 bits and 28 places, then
  cut to about sixteen digits (`trim`), so that 1.005 counts as 1.005 and not as the binary value
  just below it; then it is rounded, a half away from zero, and turned back. A number too large
  for 96 bits has no places to round and is left as it is.

  Making the decimal: `2 ^ e` is `5 ^ -e * 10 ^ e`, so the powers of two of the double become
  powers of ten by multiplying or dividing by five, one at a time, as long as 96 bits hold.
-/

import Groq.Double.Parts

namespace Groq.Double

/-- The number `digits / 10 ^ scale`, negated when `negative`. -/
structure Scaled where
  negative : Bool
  digits : Nat
  scale : Nat
  deriving DecidableEq, Repr

def capacity : Nat := Nat.pow 2 96

def maxScale : Nat := 28

/-- Digits at or above this are more than a double can tell apart. -/
def precise : Nat := Nat.pow 2 52

/-! ## From a double to a decimal -/

/-- Turn `count` factors 1/2 into factors 1/10: halve where that is exact or nothing else fits. -/
def absorbHalves : (count digits : Nat) → (exponent : Int) → Nat × Int
  | 0, digits, exponent => (digits, exponent)
  | count + 1, digits, exponent =>
    if digits % 2 = 0 then absorbHalves count (digits / 2) (exponent + 1)
    else if digits * 5 < capacity then absorbHalves count (digits * 5) exponent
    else absorbHalves count (digits / 2) (exponent + 1)

/-- Turn `count` factors 2 into factors 10, or into doublings while they fit. -/
def absorbDoublings : (count digits : Nat) → (exponent : Int) → Nat × Int
  | 0, digits, exponent => (digits, exponent)
  | count + 1, digits, exponent =>
    if digits < capacity / 2 then absorbDoublings count (digits * 2) (exponent - 1)
    else absorbDoublings count (digits / 5) exponent

/-- One digit fewer, the last one rounded half up. -/
def dropDigit (digits : Nat) : Nat := digits / 10 + (if 5 ≤ digits % 10 then 1 else 0)

/-- Drop `count` places; digits that run out leave zero. -/
def shorten : (count digits scale : Nat) → Nat × Nat
  | 0, digits, scale => (digits, scale)
  | count + 1, digits, scale =>
    if digits / 10 = 0 then (0, 0) else shorten count (dropDigit digits) (scale - 1)

/-- Drop places while the digits are more than a double can tell apart. -/
def trim : (scale digits : Nat) → Nat × Nat
  | 0, digits => (digits, 0)
  | scale + 1, digits =>
    if precise ≤ digits then trim scale (dropDigit digits) else (digits, scale + 1)

/-- Drop zeros at the end of the places. -/
def stripZeros : (scale digits : Nat) → Nat × Nat
  | 0, digits => (digits, 0)
  | scale + 1, digits =>
    if digits % 10 = 0 then stripZeros scale (digits / 10) else (digits, scale + 1)

/-- The decimal of a finite double, if 96 bits hold it. -/
def Parts.scaled? (p : Parts) : Option Scaled :=
  if p.mantissa = 0 then some ⟨p.negative, 0, 0⟩
  else
    let (digits, exponent) :=
      if p.exponent < 0 then absorbHalves (-p.exponent).toNat p.mantissa p.exponent
      else absorbDoublings p.exponent.toNat p.mantissa p.exponent
    if 0 < exponent then
      let digits := digits * Nat.pow 10 exponent.toNat
      if digits < capacity then some ⟨p.negative, digits, 0⟩ else none
    else
      let scale := (-exponent).toNat
      let (digits, scale) := shorten (scale - maxScale) digits scale
      let (digits, scale) := trim scale digits
      let (digits, scale) := stripZeros scale digits
      some ⟨p.negative, digits, scale⟩

/-! ## Rounding, and back -/

/-- At most `places` places, a half away from zero. Zero has as many places as are asked for. -/
def Scaled.round (d : Scaled) (places : Nat) : Scaled :=
  if d.digits = 0 then { d with scale := places }
  else if d.scale ≤ places then d
  else
    let unit := Nat.pow 10 (d.scale - places)
    let digits := d.digits / unit + (if unit ≤ 2 * (d.digits % unit) then 1 else 0)
    ⟨d.negative && digits != 0, digits, places⟩

/-- `product * base ^ n` by repeated squaring, low bits of `n` first, one rounding a step. -/
def timesPower (product base : Float) (n : Nat) : Float :=
  if n = 0 then product
  else timesPower (if n % 2 = 1 then product * base else product) (base * base) (n / 2)
termination_by n

/-- The double of a decimal; what adding the fraction to the whole blurs is rounded off again. Zero
    keeps its sign where it has places. -/
def Scaled.toFloat (d : Scaled) : Float :=
  let sign (x : Float) := if d.negative then -x else x
  if d.digits = 0 then if d.scale = 0 then 0 else sign 0
  else if d.scale = 0 then sign (Float.ofNat d.digits)
  else
    let unit := Nat.pow 10 d.scale
    let fraction := Float.ofNat (d.digits % unit) / Float.ofNat unit
    let whole := Float.ofNat (d.digits / unit)
    if fraction == 0 then sign whole
    else
      let power := timesPower 1 10 d.scale
      sign (roundHalfAway ((whole + fraction) * power) / power)

/-- `x` to `places` places; only an infinity or NaN has no rounded value. -/
def roundTo (x : Float) (places : Nat) : Option Float :=
  (parts? x).map fun p =>
    match p.scaled? with
    | some d => (d.round places).toFloat
    | none => x

end Groq.Double
