/-
  Groq.Text.Range — sets of code points given by ranges.

  The tables of character properties are lists of inclusive ranges in increasing order, so a
  search may stop at the first range that begins beyond the code point.
-/

namespace Groq.Text

/-- Is `n` in one of the ranges? They are inclusive and listed in increasing order. -/
def inRanges : List (Nat × Nat) → Nat → Bool
  | [], _ => false
  | (first, last) :: rest, n => if n < first then false else n ≤ last || inRanges rest n

end Groq.Text
