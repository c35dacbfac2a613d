/-
  Groq.Calendar — dates of the Gregorian calendar, extended to all years.

  A date is a year, a month and a day; days are numbered from 0001-01-01, which is day 0
  (`dayNumber`), and `ofDayNumber` goes back. Four centuries have 146097 days, a century 36524,
  four years 1461; the last century and the last year of such a group may be a day longer, so
  the quotients are capped at 3.
-/

namespace Groq

structure Date where
  year : Int
  month : Nat
  day : Nat
  deriving DecidableEq, Repr

namespace Date

def isLeapYear (year : Int) : Bool := year % 4 = 0 && (year % 100 != 0 || year % 400 = 0)

def monthLengths (year : Int) : List Nat :=
  [31, if isLeapYear year then 29 else 28, 31, 30, 31, 30, 31, 31, 30, 31, 30, 31]

def isValid (d : Date) : Bool :=
  1 ≤ d.month && 1 ≤ d.day && (match (monthLengths d.year)[d.month - 1]? with
    | some length => d.day ≤ length
    | none => false)

def daysBeforeYear (year : Int) : Int :=
  let past := year - 1
  365 * past + past / 4 - past / 100 + past / 400

def daysBeforeMonth (year : Int) (month : Nat) : Nat :=
  ((monthLengths year).take (month - 1)).foldl (· + ·) 0

def dayNumber (d : Date) : Int :=
  daysBeforeYear d.year + daysBeforeMonth d.year d.month + ((d.day : Int) - 1)

/-- The month, counted from `month`, and the day of it that is `rest` days after its first. -/
def monthAndDay (month : Nat) : List Nat → Nat → Nat × Nat
  | [], rest => (month, rest + 1)
  | length :: later, rest =>
    if rest < length ∨ later = [] then (month, rest + 1)
    else monthAndDay (month + 1) later (rest - length)

def ofDayNumber (n : Int) : Date :=
  let inCycle := n % 146097
  let centuries := min (inCycle / 36524) 3
  let inCentury := inCycle - centuries * 36524
  let inGroup := inCentury % 1461
  let years := min (inGroup / 365) 3
  let year := n / 146097 * 400 + centuries * 100 + inCentury / 1461 * 4 + years + 1
  let (month, day) := monthAndDay 1 (monthLengths year) (inGroup - years * 365).toNat
  ⟨year, month, day⟩

end Date

end Groq
