/-
  Groq.Double.Reading — decimal text as the nearest double.

  `numeral?` reads the unsigned part that the numbers of JSON and of queries share: digits, then a
  fraction, then an exponent. The nearest double is taken, ties to even; what is too large becomes
  infinite and what is too small zero.
-/

import Groq.Text.Digits

namespace Groq.Double

/-- Unsigned decimal text: digits before and after the point, and the exponent if one is written. -/
structure Numeral where
  whole : List Char
  fraction : List Char
  exponent : Option Int
  deriving DecidableEq, Repr

/-- The double nearest to `digits * 10 ^ place`. -/
def ofDecimal (digits : Nat) : Int → Float
  | .ofNat e => Float.ofScientific digits false e
  | .negSucc e => Float.ofScientific digits true (e + 1)

def Numeral.toFloat (n : Numeral) : Float :=
  ofDecimal (Text.decimalValue (n.whole ++ n.fraction)) (n.exponent.getD 0 - n.fraction.length)

/-- Was it written as a whole number? -/
def Numeral.isWhole (n : Numeral) : Bool := n.fraction = [] && n.exponent = none

/-- `.` and at least one digit. -/
def fraction? : List Char → Option (List Char × List Char)
  | '.' :: rest =>
    let (digits, rest) := Text.takeDigits rest
    if digits = [] then none else some (digits, rest)
  | _ => none

def signedExponent? (negative : Bool) (cs : List Char) : Option (Int × List Char) :=
  let (digits, rest) := Text.takeDigits cs
  if digits = [] then none
  else
    let n : Int := Text.decimalValue digits
    some (if negative then -n else n, rest)

/-- `e` or `E`, a sign or none, and at least one digit. -/
def exponent? : List Char → Option (Int × List Char)
  | c :: rest =>
    if c = 'e' ∨ c = 'E' then
      match rest with
      | '+' :: rest => signedExponent? false rest
      | '-' :: rest => signedExponent? true rest
      | rest => signedExponent? false rest
    else none
  | [] => none

/-- The numeral at the front, if there is a digit. A point or an `e` that nothing follows is left. -/
def numeral? (cs : List Char) : Option (Numeral × List Char) :=
  let (whole, rest) := Text.takeDigits cs
  if whole = [] then none
  else
    let (fraction, rest) := (fraction? rest).getD ([], rest)
    match exponent? rest with
    | some (exponent, rest) => some (⟨whole, fraction, some exponent⟩, rest)
    | none => some (⟨whole, fraction, none⟩, rest)

end Groq.Double
