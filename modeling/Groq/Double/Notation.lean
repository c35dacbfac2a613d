/-
  Groq.Double.Notation — how numbers are written.

  Two notations share the shortest digits. JSON writes whole numbers up to 2^53 as integers, other
  numbers with a point when the leading digit is between 10^-5 and 10^15, and with an exponent
  (`1e+16`, `9.9e-6`) beyond. Text made from numbers (`plain`) never has an exponent and keeps
  the sign of zero and the names of what is not finite.
-/

import Groq.Double.Shortest

namespace Groq.Double

def zeros (n : Nat) : String := String.ofList (List.replicate n '0')

/-- `digits` with the point after the first `point` of them, padded with zeros. -/
def positional (digits : String) (point : Int) : String :=
  if point ≤ 0 then "0." ++ zeros (-point).toNat ++ digits
  else
    let n := point.toNat
    if digits.length ≤ n then digits ++ zeros (n - digits.length)
    else String.ofList (digits.toList.take n) ++ "." ++ String.ofList (digits.toList.drop n)

/-- `d.ddde±n`, where `exponent` is that of the leading digit. -/
def scientific (digits : String) (exponent : Int) : String :=
  let tail := String.ofList (digits.toList.drop 1)
  let mantissa := String.ofList (digits.toList.take 1) ++ (if tail = "" then "" else "." ++ tail)
  mantissa ++ (if 0 ≤ exponent then "e+" else "e-") ++ toString exponent.natAbs

/-- The digits of a decimal and the exponent of the leading one. -/
def Decimal.leading (d : Decimal) : String × Int :=
  let digits := toString d.digits
  (digits, digits.length - 1 + d.place)

/-- Text of a number with neither exponent nor needless fraction. -/
def plain (x : Float) : String :=
  let sign := if isNegative x then "-" else ""
  match parts? x with
  | none => if x.isNaN then "NaN" else sign ++ "inf"
  | some p =>
    if p.mantissa = 0 then sign ++ "0"
    else
      let (digits, exponent) := (p.shortest .up).leading
      sign ++ positional digits (exponent + 1)

/-- JSON text of a finite number that is not written as an integer. -/
def fractional (p : Parts) : String :=
  let sign := if p.negative then "-" else ""
  if p.mantissa = 0 then sign ++ "0.0"
  else
    let (digits, exponent) := (p.shortest .even).leading
    let body :=
      if -5 ≤ exponent ∧ exponent ≤ 15 then
        let text := positional digits (exponent + 1)
        if digits.length ≤ exponent + 1 then text ++ ".0" else text
      else scientific digits exponent
    sign ++ body

end Groq.Double
