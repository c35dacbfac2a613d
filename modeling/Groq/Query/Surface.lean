/-
  Groq.Query.Surface — what of a text lies outside brackets and string literals.

  One reading state (`Scan`) goes through a text, with the closing brackets it waits for and whether
  it is inside a literal. The surface is the ASCII characters it meets with no bracket open, the
  outermost brackets themselves included; a text whose brackets do not match, or with an open
  literal, has none. Operators, commas and colons are looked for on the surface only.
-/

namespace Groq.Query

/-! ## Reading -/

inductive Mode where
  | code
  | literal (quote : Char)
  /-- Behind a backslash in a literal. -/
  | escape (quote : Char)
  deriving DecidableEq, Repr

/-- The closing brackets that are waited for, innermost first, and the mode. -/
structure Scan where
  closers : List Char
  mode : Mode
  deriving DecidableEq, Repr

def Scan.start : Scan := ⟨[], .code⟩

def closerOf? : Char → Option Char
  | '(' => some ')'
  | '[' => some ']'
  | '{' => some '}'
  | _ => none

def isCloser (c : Char) : Bool := c = ')' || c = ']' || c = '}'

/-- One character further; a closing bracket that is not waited for ends the reading. -/
def Scan.step? (s : Scan) (c : Char) : Option Scan :=
  match s.mode with
  | .escape quote => some { s with mode := .literal quote }
  | .literal quote =>
    if c = '\\' then some { s with mode := .escape quote }
    else if c = quote then some { s with mode := .code }
    else some s
  | .code =>
    if c = '"' ∨ c = '\'' then some { s with mode := .literal c }
    else
      match closerOf? c with
      | some closer => some { s with closers := closer :: s.closers }
      | none =>
        if isCloser c then
          match s.closers with
          | closer :: rest => if c = closer then some { s with closers := rest } else none
          | [] => none
        else some s

/-! ## The surface -/

/-- A character of the surface: its offset, the character before it and the text from it on. -/
structure Place where
  offset : Nat
  before : Option Char
  rest : List Char
  deriving DecidableEq, Repr

/-- Is `c`, between the states `s` and `next`, on the surface? -/
def onSurface (s next : Scan) (c : Char) : Bool :=
  s.mode = .code && c != '"' && c != '\'' && c.toNat < 128 && (s.closers = [] || next.closers = [])

def surfaceFrom (s : Scan) (offset : Nat) (before : Option Char) :
    List Char → Option (List Place)
  | [] => if s = Scan.start then some [] else none
  | c :: rest => do
    let next ← s.step? c
    let places ← surfaceFrom next (offset + 1) (some c) rest
    return if onSurface s next c then ⟨offset, before, c :: rest⟩ :: places else places

/-- The surface of a text, in order. -/
def surface? (cs : List Char) : Option (List Place) := surfaceFrom Scan.start 0 none cs

def Place.startsWith (p : Place) (text : String) : Bool := text.toList.isPrefixOf p.rest

/-- Is the character one half of a doubled one, as in `||` and `**`? -/
def Place.isDoubled (p : Place) : Bool :=
  match p.rest with
  | c :: rest => rest.head? == some c || p.before == some c
  | [] => false

/-! ## Brackets and literals -/

def closeFrom (s : Scan) (offset : Nat) : List Char → Option Nat
  | [] => none
  | c :: rest => do
    let next ← s.step? c
    if next.closers = [] ∧ next.mode = .code then some offset else closeFrom next (offset + 1) rest

/-- The offset of the bracket that closes the one at the beginning. -/
def matchingClose? : List Char → Option Nat
  | c :: rest => (closerOf? c).bind fun closer => closeFrom ⟨[closer], .code⟩ 1 rest
  | [] => none

/-- The length of a literal's rest up to and with its closing quote. -/
def literalRest? (quote : Char) : List Char → Option Nat
  | [] => none
  | '\\' :: rest =>
    match rest with
    | _ :: rest => (literalRest? quote rest).map (· + 2)
    | [] => none
  | c :: rest => if c = quote then some 1 else (literalRest? quote rest).map (· + 1)

/-- The length of the literal at the beginning, quotes included. -/
def literalLength? : List Char → Option Nat
  | c :: rest => if c = '"' ∨ c = '\'' then (literalRest? c rest).map (· + 1) else none
  | [] => none

/-! ## Parts of a text -/

/-- A part of a text and the offset it begins at. -/
structure Span where
  start : Nat
  chars : List Char
  deriving DecidableEq, Repr

namespace Span

/-- The part between two offsets relative to this span. -/
def slice (s : Span) (first last : Nat) : Span :=
  ⟨s.start + first, (s.chars.drop first).take (last - first)⟩

def tail (s : Span) (first : Nat) : Span := ⟨s.start + first, s.chars.drop first⟩

/-- What the bracket at the beginning encloses, and what follows its closing bracket. -/
def enclosed? (s : Span) : Option (Span × Span) :=
  (matchingClose? s.chars).map fun close => (s.slice 1 close, s.tail (close + 1))

/-- The pieces between separators at the given offsets. -/
def cutAt (s : Span) (first : Nat) : List Nat → List Span
  | [] => [s.tail first]
  | offset :: rest => s.slice first offset :: s.cutAt (offset + 1) rest

/-- The pieces between the commas on the surface. -/
def pieces? (s : Span) : Option (List Span) :=
  (surface? s.chars).map fun places =>
    s.cutAt 0 ((places.filter (·.startsWith ",")).map (·.offset))

/-- The pieces of a bracketed list, where one comma may follow the last. -/
def items? (s : Span) : Option (List Span) :=
  if s.chars = [] then some []
  else s.pieces?.map fun pieces =>
    if 1 < pieces.length ∧ pieces.getLast?.any (·.chars = []) then pieces.dropLast else pieces

end Span

end Groq.Query
