/-
  Groq.Double.Parts — a finite double as a whole number of units.

  A finite double is `mantissa * 2 ^ exponent` with a sign, the mantissa below 2^53. All exact
  arithmetic on numbers (whole values, rounding to a whole number, remainders, decimal text) works
  on these parts, in `Nat` and `Int`.
-/

namespace Groq.Double

/-- A finite double: `mantissa * 2 ^ exponent`, negated when `negative`. -/
structure Parts where
  negative : Bool
  mantissa : Nat
  exponent : Int
  deriving DecidableEq, Repr

/-- Mantissas of normal doubles lie between this and twice this. -/
def hidden : Nat := Nat.pow 2 52

def isNegative (x : Float) : Bool := x.toBits.toNat / Nat.pow 2 63 = 1

/-- The parts of a finite double; an infinity or NaN has none. -/
def parts? (x : Float) : Option Parts :=
  let field : Nat := x.toBits.toNat / hidden % Nat.pow 2 11
  let fraction := x.toBits.toNat % hidden
  if field = Nat.pow 2 11 - 1 then none
  else if field = 0 then some ⟨isNegative x, fraction, -1074⟩
  else some ⟨isNegative x, hidden + fraction, field - 1075⟩

/-- The double with these parts, for a mantissa below 2^53 and an exponent from -1074 to 971. -/
def Parts.toFloat (p : Parts) : Float :=
  let up := min (52 - p.mantissa.log2) (p.exponent + 1074).toNat
  let mantissa := p.mantissa * Nat.pow 2 up
  let magnitude :=
    if mantissa < hidden then mantissa
    else (p.exponent - up + 1075).toNat * hidden + (mantissa - hidden)
  Float.ofBits (UInt64.ofNat ((if p.negative then Nat.pow 2 63 else 0) + magnitude))

def signed (negative : Bool) (n : Nat) : Int := if negative then -(n : Int) else n

/-! ## Whole numbers -/

/-- The value of a double without a fraction. -/
def whole? (x : Float) : Option Int := do
  let p ← parts? x
  if 0 ≤ p.exponent then some (signed p.negative (p.mantissa * Nat.pow 2 p.exponent.toNat))
  else
    let unit := Nat.pow 2 (-p.exponent).toNat
    if p.mantissa % unit = 0 then some (signed p.negative (p.mantissa / unit)) else none

/-- Every whole number up to this magnitude is a double. -/
def maxExact : Nat := Nat.pow 2 53

/-- The value of a double without a fraction, where doubles tell all whole numbers apart. -/
def integer? (x : Float) : Option Int := do
  let n ← whole? x
  if n.natAbs ≤ maxExact then some n else none

/-- The nearest whole number, a half away from zero. -/
def Parts.nearestWhole (p : Parts) : Int :=
  if 0 ≤ p.exponent then signed p.negative (p.mantissa * Nat.pow 2 p.exponent.toNat)
  else
    let unit := Nat.pow 2 (-p.exponent).toNat
    signed p.negative ((2 * p.mantissa + unit) / (2 * unit))

/-- The nearest whole double, a half away from zero; zero keeps the sign of `x`. -/
def roundHalfAway (x : Float) : Float :=
  match parts? x with
  | none => x
  | some p =>
    if 0 ≤ p.exponent then x else (Parts.mk p.negative p.nearestWhole.natAbs 0).toFloat

/-! ## Remainder -/

/-- What is left of `x` after taking away `y` as often as it fits toward zero. It is exact and has
    the sign of `x`; there is none when `x` is infinite or `y` is zero. -/
def remainder (x y : Float) : Float :=
  if x.isNaN || y.isNaN || x.isInf || y == 0 then 0 / 0
  else
    match parts? x, parts? y with
    | some a, some b =>
      let unit := min a.exponent b.exponent
      let scaled (p : Parts) := p.mantissa * Nat.pow 2 (p.exponent - unit).toNat
      (Parts.mk a.negative (scaled a % scaled b) unit).toFloat
    | _, _ => x

end Groq.Double
