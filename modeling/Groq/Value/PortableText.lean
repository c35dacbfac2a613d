/-
  Groq.Value.PortableText — rich text kept as blocks, and its plain text.

  A block is an object with a string `_type`. The plain text of blocks is the text of the children
  of those of type `block`, with a blank line between one and the next.
-/

import Groq.Value

namespace Groq.Value

def isBlock (v : Value) : Bool := (v.stringField? "_type").isSome

/-- The blocks of a block or of an array of blocks. -/
def blocks? : Value → Option (List Value)
  | array items => if items.all isBlock then some items else none
  | v => if v.isBlock then some [v] else none

def portableText (v : Value) : Value := if v.blocks?.isSome then v else null

/-- The text of a block of type `block` with an array of children. -/
def paragraph? (block : Value) : Option String :=
  if block.stringField? "_type" == some "block" then
    ((block.field? "children").bind items?).map fun children =>
      String.join (children.filterMap (·.stringField? "text"))
  else none

def blockText (v : Value) : Value :=
  match v.blocks? with
  | some blocks => string ("\n\n".intercalate (blocks.filterMap paragraph?))
  | none => null

end Groq.Value
