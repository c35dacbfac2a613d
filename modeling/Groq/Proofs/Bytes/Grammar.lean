/-
  Groq.Proofs.Bytes.Grammar — the grammar over byte ranges.

  The rules of `Groq.Query.Grammar` with every offset counted in bytes, as a parser of UTF-8 text
  computes them: names, numbers, brackets, literals and the surface are scanned on bytes, and text
  is cut out at the offsets found. A range that is out of order or beyond the end, a byte that is
  not there and a cut inside a character are a `fault`, which ends the run; nothing else differs.
  The scanners compare with ASCII characters only, so they run on bytes as they do on text.
-/

import Groq.Proofs.Bytes.Text
import Groq.Query.Parser

namespace Groq.Query

/-- Why a run over bytes ends early. -/
inductive Stop where
  | exhausted (cause : Exhausted)
  | fault
  deriving DecidableEq, Repr

/-- What was found where. -/
abbrev ByteMemory := Std.HashMap (ByteSpan × Level) (Option Expr)

abbrev Checked := ExceptT Stop (StateM ByteMemory)

/-- What has to be there. -/
def checked {α : Type} (a : Option α) : OptionT Checked α :=
  match a with
  | some a => pure a
  | none => OptionT.lift (throw .fault)

/-! ## Scanning -/

/-- The byte at an offset, with the one before it and all from it on. -/
def placeAt? (bs : List Char) (i : Nat) : Option Place :=
  match bs.drop i with
  | c :: rest => some ⟨i, if i = 0 then none else bs[i - 1]?, c :: rest⟩
  | [] => none

/-- The surface, with the byte at each of its offsets. -/
def surfaceBytes? (text : List Char) : Option (Option (List Place)) :=
  match surface? (bytes text) with
  | some places => (places.mapM fun p => placeAt? (bytes text) p.offset).map some
  | none => some none

def surfaceBytes (text : List Char) : OptionT Checked (List Place) := do
  require (← checked (surfaceBytes? text))

/-- The offset of the bracket that closes the one at an offset. -/
def matchingByte? (text : List Char) (first : Nat) : Option Nat :=
  match (bytes text).drop first with
  | c :: rest => (closerOf? c).bind fun closer => closeFrom ⟨[closer], .code⟩ (first + 1) rest
  | [] => none

/-- The name at an offset, empty if there is none. -/
def nameFrom? (text : List Char) (first : Nat) : Option (List Char) := do
  let rest ← dropBytes? text first
  sliceBytes? text first (first + (nameAt (bytes rest)).length)

def digitsFrom? (bs : List Char) (first : Nat) : Option Nat :=
  if first ≤ bs.length then some (Text.takeDigits (bs.drop first)).1.length else none

/-- The length of the fraction at an offset, point included. -/
def fractionLength? (bs : List Char) (first : Nat) : Option Nat :=
  if bs[first]? = some '.' ∧ bs[first + 1]?.any Char.isDigit then (digitsFrom? bs (first + 1)).map (· + 1)
  else some 0

/-- Is there a sign? -/
def signLength (c : Option Char) : Nat := if c = some '+' ∨ c = some '-' then 1 else 0

/-- The length of the exponent at an offset. -/
def exponentLength? (bs : List Char) (first : Nat) : Option Nat :=
  if bs[first]? = some 'e' ∨ bs[first]? = some 'E' then do
    let sign := signLength bs[first + 1]?
    let digits ← digitsFrom? bs (first + 1 + sign)
    return if digits = 0 then 0 else 1 + sign + digits
  else some 0

/-- The length of the number at the beginning. -/
def numberLength? (bs : List Char) : Option Nat := do
  let whole ← digitsFrom? bs 0
  if whole = 0 then return 0
  let fraction ← fractionLength? bs whole
  let exponent ← exponentLength? bs (whole + fraction)
  return whole + fraction + exponent

/-- What stands between the quotes of the literal of this length at the beginning. -/
def literalBody? (text : List Char) (length : Nat) : Option (List Char) := do
  sliceBytes? text 1 (← less? length 1)

/-- The number of `.^` from an offset on. -/
def parentsFrom? (text : List Char) (first : Nat) : Option Nat :=
  match h : dropBytes? text first with
  | none => none
  | some rest => if marks : ['.', '^'] <+: rest then (parentsFrom? text (first + 2)).map (· + 1) else some 0
termination_by (bytes text).length - first
decreasing_by
  obtain ⟨⟨front, behind⟩, cut, rfl⟩ := Option.map_eq_some_iff.mp h
  obtain ⟨rfl, rfl⟩ := cutBytes_eq_some.mp cut
  obtain ⟨tail, rfl⟩ := marks
  rw [bytes_append, List.length_append]
  have two : 0 < (bytes (['.', '^'] ++ tail)).length := by
    apply List.length_pos_iff.mpr
    rw [ne_eq, bytes_eq_nil]
    exact List.cons_ne_nil _ _
  omega

/-- The pieces between separators at the given offsets, up to `last`. -/
def cutsAt (last first : Nat) : List Nat → List (Nat × Nat)
  | [] => [(first, last)]
  | offset :: rest => (first, offset) :: cutsAt last (offset + 1) rest

section Rules

variable (source : List Char) (constant? : Expr → Option Value)
variable (parse : Level → ByteSpan → OptionT Checked Expr) (follow : Expr → ByteSpan → OptionT Checked Expr)

/-- The pieces between the commas on the surface. -/
def byteCuts (b : ByteSpan) : OptionT Checked (List (Nat × Nat)) := do
  let text ← checked (b.text? source)
  let places ← surfaceBytes text
  return cutsAt (bytes text).length 0 ((places.filter (·.startsWith ",")).map (·.offset))

/-- What the bracket at an offset encloses, and the offset behind the closing one. -/
def byteEnclosed (b : ByteSpan) (text : List Char) (first : Nat) : OptionT Checked (ByteSpan × Nat) := do
  let close ← require (matchingByte? text first)
  let inside ← checked (b.slice? source (first + 1) close)
  return (inside, close + 1)

/-! ## Lists -/

/-- A range without the sort mark it ends in. -/
def byteKey (b : ByteSpan) (mark : String) : OptionT Checked ByteSpan := do
  let last ← checked (less? b.length mark.utf8ByteSize)
  checked (b.slice? source 0 last)

def byteArgument (sortKeys : Bool) (b : ByteSpan) : OptionT Checked Expr := do
  let text ← checked (b.text? source)
  if sortKeys ∧ " desc ".toList.isSuffixOf text then
    let key ← byteKey source b " desc "
    Expr.desc <$> parse .pipe key
  else if sortKeys ∧ " asc ".toList.isSuffixOf text then
    let key ← byteKey source b " asc "
    Expr.asc <$> parse .pipe key
  else parse .pipe b

def byteArguments (sortKeys : Bool) (b : ByteSpan) : OptionT Checked (List Expr) :=
  if b.isEmpty then return []
  else do
    let cuts ← byteCuts source b
    cuts.mapM fun cut => do
      let piece ← checked (b.slice? source cut.1 cut.2)
      byteArgument source parse sortKeys piece

def byteItems (b : ByteSpan) : OptionT Checked (List ByteSpan) :=
  if b.isEmpty then return []
  else do
    let cuts ← byteCuts source b
    let items ← checked (cuts.mapM fun cut => b.slice? source cut.1 cut.2)
    return if 1 < items.length ∧ items.getLast?.any (·.isEmpty) then items.dropLast else items

def byteArrayElement (b : ByteSpan) : OptionT Checked Element := do
  let text ← checked (b.text? source)
  if "...".toList.isPrefixOf text then
    let rest ← checked (b.tail? source 3)
    Element.splat <$> parse .pipe rest
  else Element.item <$> parse .pipe b

def byteArrayElements (b : ByteSpan) : OptionT Checked (List Element) := do
  let items ← byteItems source b
  items.mapM (byteArrayElement source parse)

def byteObjectAttribute (b : ByteSpan) : OptionT Checked Attribute := do
  let text ← checked (b.text? source)
  if "...".toList.isPrefixOf text then
    let rest ← checked (b.tail? source 3)
    if rest.isEmpty then return .splat .this else Attribute.splat <$> parse .pipe rest
  else
    let places ← checked (surfaceBytes? text)
    match places.bind (·.find? fun p => p.startsWith ":" && !p.isDoubled) with
    | some colon => do
      let key ← checked (takeBytes? text colon.offset)
      if literalLength? (bytes key) = some (bytes key).length then
        let body ← checked (literalBody? key (bytes key).length)
        let name ← require (unescape? body)
        let rest ← checked (b.tail? source (colon.offset + 1))
        Attribute.named (String.ofList name) <$> parse .pipe rest
      else failure
    | none => do
      let value ← parse .pipe b
      let name ← require value.implicitKey?
      return .named name value

def byteObjectBody (b : ByteSpan) : OptionT Checked Expr := do
  let items ← byteItems source b
  return .object (← items.mapM (byteObjectAttribute source parse))

/-! ## Traversals -/

def byteSliceBound (b : ByteSpan) : OptionT Checked Int := do
  let e ← parse .sum b
  require ((constant? e).bind Value.integer?)

def byteBracket (base : Expr) (b : ByteSpan) : OptionT Checked Expr :=
  if b.isEmpty then return .arrayCoerce base
  else do
    let text ← checked (b.text? source)
    let places ← checked (surfaceBytes? text)
    match places.bind (·.find? (·.startsWith "..")) with
    | some mark => do
      let inclusive := !mark.startsWith "..."
      let first ← checked (b.slice? source 0 mark.offset)
      let last ← checked (b.tail? source (mark.offset + (if inclusive then 2 else 3)))
      let left ← byteSliceBound constant? parse first
      let right ← byteSliceBound constant? parse last
      return .slice base left right inclusive
    | none => do
      let inner ← parse .pipe b
      match constant? inner with
      | some (.number x) => return elementAt base (← require (Double.integer? x))
      | some (.string name) => return .field base name
      | _ => return .filter base inner

/-- One traversal at an offset, and the offset behind it. -/
def byteTraversal (base : Expr) (b : ByteSpan) (text : List Char) (i : Nat) : OptionT Checked (Expr × Nat) := do
  let c ← checked (bytes text)[i]?
  if c = '.' then
    let name ← checked (nameFrom? text (i + 1))
    if name = [] then failure
    else return (.field base (String.ofList name), i + 1 + (bytes name).length)
  else if c = '-' ∧ (bytes text)[i + 1]? = some '>' then
    let name ← checked (nameFrom? text (i + 2))
    if name = [] then return (.deref base, i + 2)
    else return (.field (.deref base) (String.ofList name), i + 2 + (bytes name).length)
  else if c = '[' then
    let (inside, behind) ← byteEnclosed source b text i
    return (← byteBracket source constant? parse base inside, behind)
  else if c = '{' then
    let (inside, behind) ← byteEnclosed source b text i
    return (.projection base (← byteObjectBody source parse inside), behind)
  else failure

/-! ## Operands -/

def byteCall (library name : List Char) (b : ByteSpan) (text : List Char) (first : Nat) :
    OptionT Checked (Expr × Nat) := do
  let (inside, behind) ← byteEnclosed source b text first
  return (.call (String.ofList library) (String.ofList name) (← byteArguments source parse false inside), behind)

def byteNamedOperand (b : ByteSpan) : OptionT Checked (Expr × Nat) := do
  let text ← checked (b.text? source)
  let name ← checked (nameFrom? text 0)
  let length := (bytes name).length
  let after ← checked (dropBytes? text length)
  if "::".toList.isPrefixOf after then
    let inner ← checked (nameFrom? text (length + 2))
    let behind := length + 2 + (bytes inner).length
    if inner = [] ∨ (bytes text)[behind]? ≠ some '(' then failure
    else byteCall source parse name inner b text behind
  else if (bytes text)[length]? = some '(' then byteCall source parse "global".toList name b text length
  else return (nameOperand (String.ofList name), length)

/-- The operand at the beginning of a range, and the offset behind it. -/
def byteOperand (b : ByteSpan) : OptionT Checked (Expr × Nat) := do
  let text ← checked (b.text? source)
  let c ← checked (bytes text)[0]?
  if c = '"' ∨ c = '\'' then
    let length ← require (literalLength? (bytes text))
    let body ← checked (literalBody? text length)
    let content ← require (unescape? body)
    return (.literal (.string (String.ofList content)), length)
  else if c.isDigit then
    let length ← checked (numberLength? (bytes text))
    let digits ← checked (takeBytes? text length)
    let (n, _) ← require (Double.numeral? digits)
    return (.literal (.number n.toFloat), length)
  else if c = '$' then
    let name ← checked (nameFrom? text 1)
    if name = [] then failure
    else return (.parameter (String.ofList name), 1 + (bytes name).length)
  else if c = '@' then return (.this, 1)
  else if c = '^' then
    let more ← checked (parentsFrom? text 1)
    return (.parent (1 + more), 1 + 2 * more)
  else if c = '*' then return (.everything, 1)
  else if c = '(' then
    let (inside, behind) ← byteEnclosed source b text 0
    return (.group (← parse .pipe inside), behind)
  else if c = '[' then
    let (inside, behind) ← byteEnclosed source b text 0
    return (.array (← byteArrayElements source parse inside), behind)
  else if c = '{' then
    let (inside, behind) ← byteEnclosed source b text 0
    return (← byteObjectBody source parse inside, behind)
  else if beginsName c then byteNamedOperand source parse b
  else failure

/-! ## Levels -/

def bytePipeTarget (base : Expr) (b : ByteSpan) : OptionT Checked Expr := do
  let text ← checked (b.text? source)
  if text.head? = some '{' then
    let (inside, behind) ← byteEnclosed source b text 0
    let body ← byteObjectBody source parse inside
    let rest ← checked (b.tail? source behind)
    follow (.projection base body) rest
  else
    let name ← checked (nameFrom? text 0)
    if name = [] ∨ (bytes text)[(bytes name).length]? ≠ some '(' then failure
    else
      let (inside, behind) ← byteEnclosed source b text (bytes name).length
      let args ← byteArguments source parse true inside
      let rest ← checked (b.tail? source behind)
      follow (.pipeCall (String.ofList name) base args) rest

def bytePipeLevel (b : ByteSpan) : OptionT Checked Expr := do
  let text ← checked (b.text? source)
  let places ← surfaceBytes text
  let split (p : Place) : OptionT Checked Expr := do
    let left ← checked (b.slice? source 0 p.offset)
    let base ← parse .pipe left
    let right ← checked (b.tail? source (p.offset + 1))
    bytePipeTarget source parse follow base right
  firstSuccess split (places.filter isPipe).reverse <|> parse .or b

def byteInfixLevel (level : Level) (rule : InfixRule) (b : ByteSpan) : OptionT Checked Expr := do
  let text ← checked (b.text? source)
  let places ← surfaceBytes text
  let split (candidate : Place × Found) : OptionT Checked Expr := do
    let (p, found) := candidate
    let behind ← checked (b.tail? source (p.offset + found.length))
    let right ← parse (rule.rightLevel level) behind
    let before ← checked (b.slice? source 0 p.offset)
    let left ← parse (rule.leftLevel level) before
    return found.connective.apply left right
  firstSuccess split (rule.candidates places) <|> parse level.tighter b

def byteSignLevel (b : ByteSpan) : OptionT Checked Expr := do
  let rest ← checked (b.tail? source 1)
  let text ← checked (b.text? source)
  let c ← checked (bytes text)[0]?
  if c = '!' then Expr.not <$> parse .sign rest <|> parse .power b
  else if c = '-' then Expr.negate <$> parse .sign rest <|> parse .power b
  else if c = '+' then Expr.positive <$> parse .sign rest <|> parse .power b
  else parse .power b

def byteOperandLevel (b : ByteSpan) : OptionT Checked Expr := do
  let text ← checked (b.text? source)
  let c ← checked (bytes text)[0]?
  if c = '-' then
    let rest ← checked (b.tail? source 1)
    Expr.negate <$> parse .operand rest
  else if c = '+' then
    let rest ← checked (b.tail? source 1)
    Expr.positive <$> parse .operand rest
  else
    let (head, behind) ← byteOperand source parse b
    let rest ← checked (b.tail? source behind)
    follow head rest

def byteRule (level : Level) (b : ByteSpan) : OptionT Checked Expr :=
  match level with
  | .pipe => bytePipeLevel source parse follow b
  | .sign => byteSignLevel source parse b
  | .operand => byteOperandLevel source parse follow b
  | level =>
    match level.infix? with
    | some r => byteInfixLevel source parse level r b
    | none => failure

end Rules

/-! ## Recursion -/

/-- The result kept for this level and range, or else the computed one, which is kept. -/
def rememberedBytes (l : Level) (b : ByteSpan) (compute : OptionT Checked Expr) : OptionT Checked Expr :=
  OptionT.mk do
    match (← get)[(b, l)]? with
    | some result => return result
    | none =>
      let result ← compute.run
      modify (·.insert (b, l) result)
      return result

def Stop.inTraversals : Stop → Stop
  | exhausted _ => exhausted .inTraversals
  | fault => fault

section Recursion

variable (source : List Char) (constant? : Expr → Option Value)

mutual

/-- Parse a range at a level with so much depth left. -/
def byteLevel : (depth : Nat) → Level → ByteSpan → OptionT Checked Expr
  | 0, l, b => if b.isEmpty then failure else rememberedBytes l b (OptionT.lift (throw (.exhausted .atLevel)))
  | depth + 1, l, b =>
    if b.isEmpty then failure
    else rememberedBytes l b
      (byteRule source (byteLevel depth)
        (fun base b => do byteFollow depth base b (← checked (b.text? source)) 0) l b)

/-- Apply the traversals of a text from an offset on. -/
def byteFollow : (depth : Nat) → Expr → ByteSpan → (text : List Char) → Nat → OptionT Checked Expr
  | 0, base, _, text, i =>
    if (bytes text).length ≤ i then return base else OptionT.lift (throw (.exhausted .inTraversals))
  | depth + 1, base, b, text, i =>
    if (bytes text).length ≤ i then return base
    else OptionT.mk <| ExceptT.adapt Stop.inTraversals <| OptionT.run do
      let (base, i) ← byteTraversal source constant? (byteLevel depth) base b text i
      byteFollow depth base b text i

end

end Recursion

/-! ## Parsing -/

structure ByteParser where
  source : List Char
  limits : Limits
  memory : ByteMemory
  spent : Nat

namespace ByteParser

def ofText (source : List Char) (limits : Limits) : ByteParser := ⟨source, limits, ∅, 0⟩

/-- What a run without a fault comes to. -/
def outcome? (p : ByteParser) : Except Stop (Option Expr) → Option (Except ParseError Expr)
  | .ok (some e) => some (.ok e)
  | .ok none => some (.error (.noMatch (String.ofList p.source)))
  | .error (.exhausted _) => some (.error (.tooDeep p.limits.parse))
  | .error .fault => none

def unreturned : Except Stop (Option Expr) → Nat
  | .error (.exhausted .atLevel) => 1
  | _ => 0

/-- Parse the whole text; `none` if there is a fault. -/
def run (p : ByteParser) : Option (Except ParseError Expr) × ByteParser :=
  let attempt := byteLevel p.source (constant? p.limits) (p.limits.parse - p.spent) .pipe ⟨0, (bytes p.source).length⟩
  let (result, memory) := attempt.run.run.run p.memory
  (p.outcome? result, { p with memory, spent := p.spent + unreturned result })

/-- A parser after so many runs. -/
def after (source : List Char) (limits : Limits) : Nat → ByteParser
  | 0 => ofText source limits
  | runs + 1 => (after source limits runs).run.2

end ByteParser

end Groq.Query
