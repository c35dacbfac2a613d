/-
  Groq.Expr — the tree of a query.

  A query reads the dataset (`everything`), the current value (`this`), the values around it
  (`parent`) and parameters; it follows fields, elements, slices and references, filters and
  projects, calls functions, and combines values with operators. Sort marks (`asc`, `desc`) mean
  something only as arguments of `order`.
-/

import Groq.Value

namespace Groq

inductive BinaryOp where
  | equal
  | notEqual
  | less
  | lessEqual
  | greater
  | greaterEqual
  | isIn
  | matchText
  | add
  | subtract
  | multiply
  | divide
  | modulo
  | power
  deriving DecidableEq, Repr

def BinaryOp.symbol : BinaryOp → String
  | equal => "=="
  | notEqual => "!="
  | less => "<"
  | lessEqual => "<="
  | greater => ">"
  | greaterEqual => ">="
  | isIn => "in"
  | matchText => "match"
  | add => "+"
  | subtract => "-"
  | multiply => "*"
  | divide => "/"
  | modulo => "%"
  | power => "**"

mutual

inductive Expr where
  | literal (v : Value)
  | this
  | parent (levels : Nat)
  | everything
  | parameter (name : String)
  | array (elements : List Element)
  | object (attributes : List Attribute)
  /-- A field of the current value. -/
  | ownField (name : String)
  | field (base : Expr) (name : String)
  | element (base : Expr) (index : Int)
  | slice (base : Expr) (left right : Int) (inclusive : Bool)
  | filter (base body : Expr)
  | projection (base body : Expr)
  | deref (base : Expr)
  | arrayCoerce (base : Expr)
  | group (base : Expr)
  | call (library name : String) (args : List Expr)
  | pipeCall (name : String) (base : Expr) (args : List Expr)
  | and (left right : Expr)
  | or (left right : Expr)
  | not (base : Expr)
  | neg (base : Expr)
  | pos (base : Expr)
  | binary (op : BinaryOp) (left right : Expr)
  | asc (base : Expr)
  | desc (base : Expr)

/-- An entry of an array literal; a splat spreads an array into the one around it. -/
inductive Element where
  | item (e : Expr)
  | splat (e : Expr)

/-- An entry of an object literal; a splat writes the fields of an object into the one around it. -/
inductive Attribute where
  | named (name : String) (e : Expr)
  | splat (e : Expr)

end

instance : Inhabited Expr := ⟨.this⟩

namespace Expr

/-- `-base`, where a number literal takes the sign itself. -/
def negate : Expr → Expr
  | literal (.number x) => literal (.number (-x))
  | base => neg base

/-- `+base`, where a number literal stays as it is. -/
def positive : Expr → Expr
  | literal (.number x) => literal (.number x)
  | base => pos base

/-- The name under which an expression without one enters an object: that of the field it reads. -/
def implicitKey? : Expr → Option String
  | ownField name => some name
  | field _ name => some name
  | deref base => base.implicitKey?
  | arrayCoerce base => base.implicitKey?
  | element base _ => base.implicitKey?
  | filter base _ => base.implicitKey?
  | slice base _ _ _ => base.implicitKey?
  | projection base _ => base.implicitKey?
  | _ => none

end Expr

end Groq
