/-
  Groq.Instant — points in time, in UTC.

  An instant counts seconds from 1970-01-01T00:00:00Z and nanoseconds within the second; a leap
  second is the second before it with a thousand million nanoseconds more. Instants are ordered by
  second, then by nanosecond. Moving an instant by milliseconds leaves a leap second by stepping
  out of it, and fails outside the supported years.
-/

import Groq.Calendar

namespace Groq

structure Instant where
  seconds : Int
  nanos : Nat
  deriving DecidableEq, Repr

namespace Instant

def secondNanos : Nat := 1000000000

def daySeconds : Int := 86400

/-- The day number of 1970-01-01. -/
def epochDay : Int := 719162

def startOfYear (year : Int) : Int := (Date.daysBeforeYear year - epochDay) * daySeconds

/-- The years an instant can lie in. -/
def firstYear : Int := -262143

def lastYear : Int := 262142

def inRange (t : Instant) : Bool :=
  startOfYear firstYear ≤ t.seconds && t.seconds < startOfYear (lastYear + 1)

def isLeap (t : Instant) : Bool := secondNanos ≤ t.nanos

def date (t : Instant) : Date := Date.ofDayNumber (t.seconds / daySeconds + epochDay)

def secondOfDay (t : Instant) : Nat := (t.seconds % daySeconds).toNat

def cmp (a b : Instant) : Ordering := (compare a.seconds b.seconds).then (compare a.nanos b.nanos)

instance : Ord Instant := ⟨cmp⟩

/-! ## Arithmetic in milliseconds -/

/-- Milliseconds from `b` to `a`, cut toward zero. A leap second between the two times of day
    counts. -/
def millisSince (a b : Instant) : Int :=
  let passed : Int :=
    match compare a.secondOfDay b.secondOfDay with
    | .gt => if b.isLeap then 1 else 0
    | .eq => 0
    | .lt => if a.isLeap then -1 else 0
  let nanos := (a.seconds - b.seconds + passed) * secondNanos + ((a.nanos : Int) - b.nanos)
  nanos.tdiv 1000000

/-- `seconds` and `nanos` added up, with what the nanoseconds carry. -/
def carry (seconds nanos : Int) : Instant :=
  ⟨seconds + nanos / secondNanos, (nanos % secondNanos).toNat⟩

/-- The instant `millis` later; a leap second is left on the side it is moved to. -/
def moved (t : Instant) (millis : Int) : Instant :=
  let seconds := millis.tdiv 1000
  let nanos := millis.tmod 1000 * 1000000
  if t.isLeap then
    if 0 < seconds ∨ 2 * secondNanos ≤ t.nanos + nanos then
      carry (t.seconds + seconds) (t.nanos - secondNanos + nanos)
    else if seconds < 0 then
      carry (t.seconds + 1 + seconds) (t.nanos - secondNanos + nanos)
    else ⟨t.seconds, (t.nanos + nanos).toNat⟩
  else carry (t.seconds + seconds) (t.nanos + nanos)

def advance? (t : Instant) (millis : Int) : Option Instant :=
  let later := t.moved millis
  if later.inRange then some later else none

end Instant

end Groq
