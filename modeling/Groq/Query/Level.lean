/-
  Groq.Query.Level — the levels of precedence and their operators.

  From weakest to tightest: pipe, or, and, comparison, sum, product, sign, power, operand. The infix
  levels say how an operator is recognised at a place of the surface and how it associates. A
  comparison does not associate, a power associates to the right, all others to the left.
-/

import Groq.Expr
import Groq.Query.Surface

namespace Groq.Query

inductive Level where
  | pipe
  | or
  | and
  | comparison
  | sum
  | product
  | sign
  | power
  | operand
  deriving DecidableEq, Hashable, Repr

def Level.tighter : Level → Level
  | pipe => or
  | or => and
  | and => comparison
  | comparison => sum
  | sum => product
  | product => sign
  | sign => power
  | power => operand
  | operand => operand

/-! ## Operators -/

inductive Connective where
  | or
  | and
  | binary (op : BinaryOp)
  deriving DecidableEq, Repr

def Connective.apply : Connective → Expr → Expr → Expr
  | or, left, right => .or left right
  | and, left, right => .and left right
  | binary op, left, right => .binary op left right

/-- An operator at a place, and its length. -/
structure Found where
  connective : Connective
  length : Nat
  deriving DecidableEq, Repr

def orAt? (p : Place) : Option Found := if p.startsWith "||" then some ⟨.or, 2⟩ else none

def andAt? (p : Place) : Option Found := if p.startsWith "&&" then some ⟨.and, 2⟩ else none

/-- The second half of `===` is no operator, and neither is the end of `->` or `=>`. -/
def comparisonAt? (p : Place) : Option Found :=
  if p.startsWith "==" then if p.before = some '=' then none else some ⟨.binary .equal, 2⟩
  else if p.startsWith "!=" then some ⟨.binary .notEqual, 2⟩
  else if p.startsWith "<=" then some ⟨.binary .lessEqual, 2⟩
  else if p.startsWith ">=" then some ⟨.binary .greaterEqual, 2⟩
  else if p.startsWith "<" then some ⟨.binary .less, 1⟩
  else if p.startsWith ">" then
    if p.before = some '-' ∨ p.before = some '=' then none else some ⟨.binary .greater, 1⟩
  else if p.startsWith " in " then some ⟨.binary .isIn, 4⟩
  else if p.startsWith " match " then some ⟨.binary .matchText, 7⟩
  else none

def sumAt? (p : Place) : Option Found :=
  if p.startsWith "+" then some ⟨.binary .add, 1⟩
  else if p.startsWith "-" ∧ !p.startsWith "->" then some ⟨.binary .subtract, 1⟩
  else none

def productAt? (p : Place) : Option Found :=
  if p.startsWith "*" ∧ !p.isDoubled then some ⟨.binary .multiply, 1⟩
  else if p.startsWith "/" then some ⟨.binary .divide, 1⟩
  else if p.startsWith "%" then some ⟨.binary .modulo, 1⟩
  else none

def powerAt? (p : Place) : Option Found :=
  if p.startsWith "**" then some ⟨.binary .power, 2⟩ else none

def isPipe (p : Place) : Bool := p.startsWith "|" && !p.isDoubled

/-! ## Infix levels -/

inductive Associativity where
  | left
  | right
  | neither
  deriving DecidableEq, Repr

structure InfixRule where
  find? : Place → Option Found
  associativity : Associativity

/-- How the operators of a level are found; the levels that are not infix have no rule. -/
def Level.infix? : Level → Option InfixRule
  | or => some ⟨orAt?, .left⟩
  | and => some ⟨andAt?, .left⟩
  | comparison => some ⟨comparisonAt?, .neither⟩
  | sum => some ⟨sumAt?, .left⟩
  | product => some ⟨productAt?, .left⟩
  | power => some ⟨powerAt?, .right⟩
  | _ => none

/-- The level of what stands left of an operator. -/
def InfixRule.leftLevel (r : InfixRule) (level : Level) : Level :=
  match r.associativity with
  | .left => level
  | _ => level.tighter

/-- The level of what stands right of an operator. -/
def InfixRule.rightLevel (r : InfixRule) (level : Level) : Level :=
  match r.associativity with
  | .right => level
  | _ => level.tighter

/-- The operators on the surface, in the order in which they are tried. -/
def InfixRule.candidates (r : InfixRule) (places : List Place) : List (Place × Found) :=
  let found := places.filterMap fun p => (r.find? p).map (p, ·)
  match r.associativity with
  | .right => found
  | _ => found.reverse

end Groq.Query
