/-
  Groq.Query.Grammar — the grammar of queries, over spans of text in normal form.

  A level looks for its operators on the surface of its span, tries them as split points, and takes
  the first where both sides parse; where none does, the next tighter level takes the span. Two
  rules depend on a value: slice bounds, and what stands in `base[…]`, which is an index, a name
  or a condition, depending on what it evaluates to without a scope (`constant?`).

  The rules are plain functions of the parsers they use: `parse`, for a level and a span, and
  `follow`, for the traversals behind an operand. `level` and `follow` tie them together and spend
  one unit of depth for each level entered and each traversal. They run in any monad that can
  report that the depth ran out, and where, and may remember results (`Attempts`).
-/

import Groq.Query.Level
import Groq.Query.Word

namespace Groq.Query

/-- Parsing runs out of depth with `tooDeep`, and `inTraversals` marks a part in which that would be
    among the traversals of an operand. A result may be looked up with `lookUp` before it is computed,
    and is handed to `keep` afterwards. -/
class Attempts (m : Type → Type) extends Monad m where
  tooDeep {α : Type} : m α
  inTraversals {α : Type} : m α → m α
  lookUp : Level → Span → m (Option (Option Expr))
  keep : Level → Span → Option Expr → m Unit

section Rules

variable {m : Type → Type} [Monad m]

/-- Parse a span at a level; `none` where it does not match. -/
abbrev Parse (m : Type → Type) := Level → Span → OptionT m Expr

/-- Apply the traversals of a span to an operand. -/
abbrev Follow (m : Type → Type) := Expr → Span → OptionT m Expr

def require {α : Type} (a : Option α) : OptionT m α := OptionT.mk (pure a)

/-- The first success, in order. -/
def firstSuccess {α β : Type} (f : α → OptionT m β) : List α → OptionT m β
  | [] => failure
  | a :: rest => f a <|> firstSuccess f rest

variable (constant? : Expr → Option Value) (parse : Parse m)

/-! ## Lists -/

def argument (sortKeys : Bool) (s : Span) : OptionT m Expr :=
  let key (mark : String) := s.slice 0 (s.chars.length - mark.length)
  if sortKeys ∧ " desc ".toList.isSuffixOf s.chars then Expr.desc <$> parse .pipe (key " desc ")
  else if sortKeys ∧ " asc ".toList.isSuffixOf s.chars then Expr.asc <$> parse .pipe (key " asc ")
  else parse .pipe s

/-- Arguments of a call. Behind a pipe they may end in a direction. -/
def arguments (sortKeys : Bool) (s : Span) : OptionT m (List Expr) :=
  if s.chars = [] then return []
  else do
    let pieces ← require s.pieces?
    pieces.mapM (argument parse sortKeys)

def isSplat (s : Span) : Bool := "...".toList.isPrefixOf s.chars

def arrayElement (s : Span) : OptionT m Element :=
  if isSplat s then Element.splat <$> parse .pipe (s.tail 3)
  else Element.item <$> parse .pipe s

def arrayElements (s : Span) : OptionT m (List Element) := do
  let items ← require s.items?
  items.mapM (arrayElement parse)

/-- The colon between key and value: the first on the surface that is not one of two. -/
def keyColon? (s : Span) : Option Nat := do
  let places ← surface? s.chars
  let place ← places.find? fun p => p.startsWith ":" && !p.isDoubled
  return place.offset

def objectAttribute (s : Span) : OptionT m Attribute :=
  if isSplat s then
    let rest := s.tail 3
    if rest.chars = [] then return .splat .this else Attribute.splat <$> parse .pipe rest
  else
    match keyColon? s with
    | some colon => do
      let key := s.chars.take colon
      if literalLength? key = some key.length then
        let name ← require (literalText? key)
        Attribute.named name <$> parse .pipe (s.tail (colon + 1))
      else failure
    | none => do
      let value ← parse .pipe s
      let name ← require value.implicitKey?
      return .named name value

/-- The inside of an object literal or projection. -/
def objectBody (s : Span) : OptionT m Expr := do
  let items ← require s.items?
  return .object (← items.mapM (objectAttribute parse))

/-! ## Traversals -/

def sliceBound (s : Span) : OptionT m Int := do
  let e ← parse .sum s
  require ((constant? e).bind Value.integer?)

/-- The offset of the first `..` on the surface. -/
def rangeMark? (s : Span) : Option Place := do
  let places ← surface? s.chars
  places.find? (·.startsWith "..")

/-- An index from the end is the first element of the slice that holds only that one. -/
def elementAt (base : Expr) (index : Int) : Expr :=
  if 0 ≤ index then .element base index else .element (.slice base index index true) 0

/-- `base[…]`, by what stands between the brackets. -/
def bracket (base : Expr) (s : Span) : OptionT m Expr :=
  if s.chars = [] then return .arrayCoerce base
  else
    match rangeMark? s with
    | some mark => do
      let inclusive := !mark.startsWith "..."
      let left ← sliceBound constant? parse (s.slice 0 mark.offset)
      let right ← sliceBound constant? parse (s.tail (mark.offset + (if inclusive then 2 else 3)))
      return .slice base left right inclusive
    | none => do
      let inner ← parse .pipe s
      match constant? inner with
      | some (.number x) => return elementAt base (← require (Double.integer? x))
      | some (.string name) => return .field base name
      | _ => return .filter base inner

/-- One traversal of an operand, and what follows it. -/
def traversal (base : Expr) (s : Span) : OptionT m (Expr × Span) :=
  match s.chars with
  | '.' :: rest =>
    let name := nameAt rest
    if name = [] then failure
    else return (.field base (String.ofList name), s.tail (1 + name.length))
  | '-' :: '>' :: rest =>
    let name := nameAt rest
    if name = [] then return (.deref base, s.tail 2)
    else return (.field (.deref base) (String.ofList name), s.tail (2 + name.length))
  | '[' :: _ => do
    let (inside, rest) ← require s.enclosed?
    return (← bracket constant? parse base inside, rest)
  | '{' :: _ => do
    let (inside, rest) ← require s.enclosed?
    return (.projection base (← objectBody parse inside), rest)
  | _ => failure

/-! ## Operands -/

/-- The number of `.^` at the beginning. -/
def countParents : List Char → Nat
  | '.' :: '^' :: rest => countParents rest + 1
  | _ => 0

def nameOperand (name : String) : Expr :=
  if name = "true" then .literal (.bool true)
  else if name = "false" then .literal (.bool false)
  else if name = "null" then .literal .null
  else .ownField name

/-- A call, with its arguments in the brackets at the beginning of the span. -/
def callOperand (library name : List Char) (s : Span) : OptionT m (Expr × Span) := do
  let (inside, rest) ← require s.enclosed?
  return (.call (String.ofList library) (String.ofList name) (← arguments parse false inside), rest)

/-- A word, an attribute of the current value or a call. -/
def namedOperand (s : Span) : OptionT m (Expr × Span) :=
  let name := nameAt s.chars
  let after := s.tail name.length
  match after.chars with
  | ':' :: ':' :: rest =>
    let inner := nameAt rest
    let after := after.tail (2 + inner.length)
    if inner = [] ∨ after.chars.head? ≠ some '(' then failure
    else callOperand parse name inner after
  | '(' :: _ => callOperand parse "global".toList name after
  | _ => return (nameOperand (String.ofList name), after)

/-- The operand at the beginning of a span, and what follows it. -/
def operand (s : Span) : OptionT m (Expr × Span) :=
  match s.chars with
  | [] => failure
  | c :: rest =>
    if c = '"' ∨ c = '\'' then do
      let length ← require (literalLength? s.chars)
      let text ← require (literalText? (s.chars.take length))
      return (.literal (.string text), s.tail length)
    else if c.isDigit then do
      let (n, after) ← require (Double.numeral? s.chars)
      return (.literal (.number n.toFloat), s.tail (s.chars.length - after.length))
    else if c = '$' then
      let name := nameAt rest
      if name = [] then failure
      else return (.parameter (String.ofList name), s.tail (1 + name.length))
    else if c = '@' then return (.this, s.tail 1)
    else if c = '^' then
      let more := countParents rest
      return (.parent (1 + more), s.tail (1 + 2 * more))
    else if c = '*' then return (.everything, s.tail 1)
    else if c = '(' then do
      let (inside, after) ← require s.enclosed?
      return (.group (← parse .pipe inside), after)
    else if c = '[' then do
      let (inside, after) ← require s.enclosed?
      return (.array (← arrayElements parse inside), after)
    else if c = '{' then do
      let (inside, after) ← require s.enclosed?
      return (← objectBody parse inside, after)
    else if beginsName c then namedOperand parse s
    else failure

/-! ## Levels -/

/-- What may stand behind a pipe: a projection or a call, followed by traversals. -/
def pipeTarget (follow : Follow m) (base : Expr) (s : Span) : OptionT m Expr :=
  match s.chars with
  | '{' :: _ => do
    let (inside, rest) ← require s.enclosed?
    follow (.projection base (← objectBody parse inside)) rest
  | _ =>
    let name := nameAt s.chars
    let after := s.tail name.length
    if name = [] ∨ after.chars.head? ≠ some '(' then failure
    else do
      let (inside, rest) ← require after.enclosed?
      follow (.pipeCall (String.ofList name) base (← arguments parse true inside)) rest

def pipeLevel (follow : Follow m) (s : Span) : OptionT m Expr := do
  let places ← require (surface? s.chars)
  let split (p : Place) : OptionT m Expr := do
    let base ← parse .pipe (s.slice 0 p.offset)
    pipeTarget parse follow base (s.tail (p.offset + 1))
  firstSuccess split (places.filter isPipe).reverse <|> parse .or s

/-- The right side is tried before the left one. -/
def infixLevel (level : Level) (rule : InfixRule) (s : Span) : OptionT m Expr := do
  let places ← require (surface? s.chars)
  let split (candidate : Place × Found) : OptionT m Expr := do
    let (p, found) := candidate
    let right ← parse (rule.rightLevel level) (s.tail (p.offset + found.length))
    let left ← parse (rule.leftLevel level) (s.slice 0 p.offset)
    return found.connective.apply left right
  firstSuccess split (rule.candidates places) <|> parse level.tighter s

def signLevel (s : Span) : OptionT m Expr :=
  match s.chars with
  | '!' :: _ => Expr.not <$> parse .sign (s.tail 1) <|> parse .power s
  | '-' :: _ => Expr.negate <$> parse .sign (s.tail 1) <|> parse .power s
  | '+' :: _ => Expr.positive <$> parse .sign (s.tail 1) <|> parse .power s
  | _ => parse .power s

/-- A sign here binds tighter than a power. -/
def operandLevel (follow : Follow m) (s : Span) : OptionT m Expr :=
  match s.chars with
  | '-' :: _ => Expr.negate <$> parse .operand (s.tail 1)
  | '+' :: _ => Expr.positive <$> parse .operand (s.tail 1)
  | _ => do
    let (head, rest) ← operand parse s
    follow head rest

def rule (follow : Follow m) (level : Level) (s : Span) : OptionT m Expr :=
  match level with
  | .pipe => pipeLevel parse follow s
  | .sign => signLevel parse s
  | .operand => operandLevel parse follow s
  | level =>
    match level.infix? with
    | some r => infixLevel parse level r s
    | none => failure

end Rules

/-! ## Recursion -/

section Recursion

variable {m : Type → Type} [Attempts m]

/-- The result kept for this level and span, or else the computed one, which is kept. -/
def remembered (l : Level) (s : Span) (compute : OptionT m Expr) : OptionT m Expr :=
  OptionT.mk do
    match ← Attempts.lookUp l s with
    | some result => return result
    | none =>
      let result ← compute.run
      Attempts.keep l s result
      return result

variable (constant? : Expr → Option Value)

mutual

/-- Parse a span at a level with so much depth left. -/
def level : (depth : Nat) → Level → Span → OptionT m Expr
  | 0, l, s => if s.chars = [] then failure else remembered l s (OptionT.mk Attempts.tooDeep)
  | depth + 1, l, s =>
    if s.chars = [] then failure
    else remembered l s (rule (level depth) (follow depth) l s)

/-- Apply traversals until the span is used up. -/
def follow : (depth : Nat) → Expr → Span → OptionT m Expr
  | 0, base, s =>
    if s.chars = [] then return base else OptionT.mk (Attempts.inTraversals Attempts.tooDeep)
  | depth + 1, base, s =>
    if s.chars = [] then return base
    else OptionT.mk <| Attempts.inTraversals <| OptionT.run do
      let (base, rest) ← traversal constant? (level depth) base s
      follow depth base rest

end

end Recursion

end Groq.Query
