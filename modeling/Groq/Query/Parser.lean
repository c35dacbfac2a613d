/-
  Groq.Query.Parser — parsing query text.

  A parser holds a text in normal form and remembers what it found at each level in each span, so
  that trying many split points stays polynomial. What it remembers it keeps for its next run. A run
  that ends at a level for which there is no depth left leaves that much less depth to the next.
-/

import Groq.Eval
import Groq.Query.Grammar
import Groq.Query.Normal
import Std.Data.HashMap

namespace Groq.Query

/-- Where parsing came to the end of its depth: at a level, or among the traversals of an operand. -/
inductive Exhausted where
  | atLevel
  | inTraversals
  deriving DecidableEq, Repr

/-! ## Without memory -/

instance : Attempts (Except Exhausted) where
  tooDeep := .error .atLevel
  inTraversals attempt := attempt.mapError fun _ => .inTraversals
  lookUp _ _ := .ok none
  keep _ _ _ := .ok ()

/-! ## With memory -/

/-- A level, and the offset and length of a span. -/
structure Spot where
  level : Level
  start : Nat
  length : Nat
  deriving DecidableEq, Hashable, Repr

def Span.spot (s : Span) (level : Level) : Spot := ⟨level, s.start, s.chars.length⟩

/-- What was found where. -/
abbrev Memory := Std.HashMap Spot (Option Expr)

abbrev Remembering := ExceptT Exhausted (StateM Memory)

instance : Attempts Remembering where
  tooDeep := throw .atLevel
  inTraversals := ExceptT.adapt fun _ => .inTraversals
  lookUp level s := return (← get)[s.spot level]?
  keep level s result := modify (·.insert (s.spot level) result)

structure Parser where
  text : List Char
  limits : Limits
  memory : Memory
  /-- Depth that earlier runs did not give back. -/
  spent : Nat

namespace Parser

def ofText (text : List Char) (limits : Limits) : Parser := ⟨text, limits, ∅, 0⟩

def outcome (p : Parser) : Except Exhausted (Option Expr) → Except ParseError Expr
  | .ok (some e) => .ok e
  | .ok none => .error (.noMatch (String.ofList p.text))
  | .error _ => .error (.tooDeep p.limits.parse)

/-- The depth a run leaves spent: the level that could not be entered, unless it was looked for
    among traversals, which give back whatever was spent since they began. -/
def unreturned : Except Exhausted (Option Expr) → Nat
  | .error .atLevel => 1
  | _ => 0

/-- Parse the whole text as one query. -/
def run (p : Parser) : Except ParseError Expr × Parser :=
  let attempt : OptionT Remembering Expr :=
    level (constant? p.limits) (p.limits.parse - p.spent) .pipe ⟨0, p.text⟩
  let (result, memory) := attempt.run.run.run p.memory
  (p.outcome result, { p with memory, spent := p.spent + unreturned result })

end Parser

/-- Parse query text: bring it to normal form, then parse that. -/
def parse (limits : Limits) (query : String) : Except ParseError Expr := do
  let text ← (normalizeChars query.toList).mapError .lexical
  (Parser.ofText text limits).run.1

end Groq.Query
