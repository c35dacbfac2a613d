/-
  Groq.Instant.Text — instants as RFC 3339 text.

  The reader takes four-digit years and two-digit fields, `T`, `t` or a space between date and
  time, any number of digits after the point (the tenth and later are dropped), and `Z`, `z` or
  an offset of hours and minutes whose sign may be U+2212. Second 60 is a leap second. The writer
  gives UTC with no fraction or the shortest exact one of 3, 6 or 9 digits, and a sign before years
  outside 0000 to 9999.
-/

import Groq.Instant
import Groq.Text.Digits

namespace Groq.Instant

/-! ## Reading -/

/-- A number of exactly `count` digits at the front. -/
def takeNumber? (count : Nat) (cs : List Char) : Option (Nat × List Char) :=
  let digits := cs.take count
  if digits.length = count ∧ digits.all Char.isDigit then some (Text.decimalValue digits, cs.drop count)
  else none

def skip? (c : Char) : List Char → Option (List Char)
  | d :: rest => if d = c then some rest else none
  | [] => none

def skipSeparator? : List Char → Option (List Char)
  | c :: rest => if c = 'T' || c = 't' || c = ' ' then some rest else none
  | [] => none

/-- The nanoseconds of an optional fraction. -/
def takeFraction? : List Char → Option (Nat × List Char)
  | '.' :: rest =>
    let (digits, rest) := Text.takeDigits rest
    if digits = [] then none
    else
      let kept := digits.take 9
      some (Text.decimalValue kept * Nat.pow 10 (9 - kept.length), rest)
  | cs => some (0, cs)

/-- The minutes east of UTC, from text that must end with the offset. -/
def offset? : List Char → Option Int
  | [] => none
  | c :: rest =>
    if c = 'Z' || c = 'z' then if rest = [] then some 0 else none
    else do
      let sign : Int ← if c = '+' then some 1 else if c = '-' || c = '−' then some (-1) else none
      let (hours, rest) ← takeNumber? 2 rest
      let rest ← skip? ':' rest
      let (minutes, rest) ← takeNumber? 2 rest
      if rest = [] ∧ minutes ≤ 59 ∧ hours ≤ 23 then some (sign * (60 * hours + minutes)) else none

def ofFields? (date : Date) (hour minute second nanos : Nat) (offset : Int) : Option Instant :=
  if date.isValid ∧ hour ≤ 23 ∧ minute ≤ 59 ∧ second ≤ 60 then
    let clock : Nat := 3600 * hour + 60 * minute + min second 59
    some ⟨(date.dayNumber - epochDay) * daySeconds + clock - 60 * offset,
      nanos + (if second = 60 then secondNanos else 0)⟩
  else none

def ofChars? (cs : List Char) : Option Instant := do
  let (year, cs) ← takeNumber? 4 cs
  let cs ← skip? '-' cs
  let (month, cs) ← takeNumber? 2 cs
  let cs ← skip? '-' cs
  let (day, cs) ← takeNumber? 2 cs
  let cs ← skipSeparator? cs
  let (hour, cs) ← takeNumber? 2 cs
  let cs ← skip? ':' cs
  let (minute, cs) ← takeNumber? 2 cs
  let cs ← skip? ':' cs
  let (second, cs) ← takeNumber? 2 cs
  let (nanos, cs) ← takeFraction? cs
  let offset ← offset? cs
  ofFields? ⟨year, month, day⟩ hour minute second nanos offset

def ofText? (s : String) : Option Instant := ofChars? s.toList

/-! ## Writing -/

/-- `n` with zeros in front, `width` digits at least. -/
def padded (width n : Nat) : List Char :=
  let digits := Nat.toDigits 10 n
  List.replicate (width - digits.length) '0' ++ digits

def yearChars (year : Int) : List Char :=
  if 0 ≤ year ∧ year ≤ 9999 then padded 4 year.toNat
  else (if year < 0 then '-' else '+') :: padded 4 year.natAbs

def fractionChars (nanos : Nat) : List Char :=
  if nanos = 0 then []
  else if nanos % 1000000 = 0 then '.' :: padded 3 (nanos / 1000000)
  else if nanos % 1000 = 0 then '.' :: padded 6 (nanos / 1000)
  else '.' :: padded 9 nanos

def toChars (t : Instant) : List Char :=
  let date := t.date
  let clock := t.secondOfDay
  let second := clock % 60 + (if t.isLeap then 1 else 0)
  let nanos := if t.isLeap then t.nanos - secondNanos else t.nanos
  yearChars date.year ++ '-' :: padded 2 date.month ++ '-' :: padded 2 date.day ++
    'T' :: padded 2 (clock / 3600) ++ ':' :: padded 2 (clock / 60 % 60) ++ ':' :: padded 2 second ++
    fractionChars nanos ++ ['Z']

def toText (t : Instant) : String := String.ofList t.toChars

end Groq.Instant
