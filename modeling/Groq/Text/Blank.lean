/-
  Groq.Text.Blank — white space as Unicode defines it (property White_Space).

  Besides the ASCII blanks it holds the next-line control, the no-break spaces and the line and
  paragraph separators; zero-width characters and the byte order mark are not in it.
-/

import Groq.Text.Range

namespace Groq.Text

/-- Code points with the property White_Space, in increasing order. -/
def blankRanges : List (Nat × Nat) :=
  [(9, 0xD), (0x20, 0x20), (0x85, 0x85), (0xA0, 0xA0), (0x1680, 0x1680), (0x2000, 0x200A),
   (0x2028, 0x2029), (0x202F, 0x202F), (0x205F, 0x205F), (0x3000, 0x3000)]

def isBlank (c : Char) : Bool := inRanges blankRanges c.toNat

def isBlankText (cs : List Char) : Bool := cs.all isBlank

end Groq.Text
