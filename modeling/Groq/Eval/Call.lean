/-
  Groq.Eval.Call — calling functions.

  A call has its arguments as expressions and evaluates those it needs, in the environment it stands
  in. A wrong number of arguments, or arguments of the wrong type, make null. An environment without
  a scope, as constants are evaluated in, halts whatever asks for the scope.
-/

import Groq.Builtin
import Groq.Double.Rounding
import Groq.Expr
import Groq.Scope
import Groq.Value.Collection
import Groq.Value.Geography
import Groq.Value.Order
import Groq.Value.PortableText

namespace Groq

/-- Where an expression is evaluated. -/
inductive Env where
  | constant
  | inScope (s : Scope)

/-- Why evaluation stopped. -/
inductive Halt where
  /-- A constant asked for the scope. -/
  | needsScope
  | failed (e : EvalError)
  deriving DecidableEq, Repr

abbrev Step := Except Halt Value

def Env.scope : Env → Except Halt Scope
  | constant => .error .needsScope
  | inScope s => .ok s

def Scope.push (s : Scope) (this : Value) : Except Halt Scope := (s.nested this).mapError .failed

structure Call where
  env : Env
  args : List Expr
  eval : Env → Expr → Step

namespace Call

def arg (c : Call) (e : Expr) : Step := c.eval c.env e

/-! ## By number of arguments -/

def nullary (c : Call) (f : Context → Value) : Step :=
  match c.args with
  | [] => return f (← c.env.scope).context
  | _ => return .null

def unary (c : Call) (f : Value → Value) : Step :=
  match c.args with
  | [e] => return f (← c.arg e)
  | _ => return .null

def binary (c : Call) (f : Value → Value → Value) : Step :=
  match c.args with
  | [e₁, e₂] => return f (← c.arg e₁) (← c.arg e₂)
  | _ => return .null

/-! ## Functions with rules of their own -/

/-- The first argument that is not null; those behind it are not evaluated. -/
def firstDefined (c : Call) : List Expr → Step
  | [] => return .null
  | e :: rest => do
    let v ← c.arg e
    if v.isNull then c.firstDefined rest else return v

/-- The precision of `round`: a whole number of 32 bits, or 0 for null. -/
def places? : Value → Option Nat
  | .null => some 0
  | v =>
    match v.integer? with
    | some n => if 0 ≤ n ∧ n < Nat.pow 2 32 then some n.toNat else none
    | none => none

def roundNumber (x : Float) (precision : Value) : Value :=
  match (places? precision).bind (Double.roundTo x) with
  | some rounded => .number rounded
  | none => .null

/-- The precision is evaluated only for a number. -/
def round (c : Call) : Step :=
  match c.args with
  | [e] => do
    let .number x ← c.arg e | return .null
    return roundNumber x .null
  | [e, precision] => do
    let .number x ← c.arg e | return .null
    return roundNumber x (← c.arg precision)
  | _ => return .null

/-- The ids of a string or of an array of strings. -/
def idSet? : Value → Option (List String)
  | .string s => some [s]
  | .array items => items.mapM Value.string?
  | _ => none

mutual

/-- Is there a reference to one of the ids in the value, at any depth? -/
def refersTo (ids : List String) : Value → Bool
  | .array items => anyRefersTo ids items
  | .object fields =>
    ((Value.object fields).reference?).any (ids.contains ·.id) || anyFieldRefersTo ids fields
  | _ => false
termination_by structural v => v

def anyRefersTo (ids : List String) : List Value → Bool
  | [] => false
  | item :: rest => refersTo ids item || anyRefersTo ids rest
termination_by structural items => items

def anyFieldRefersTo (ids : List String) : List (String × Value) → Bool
  | [] => false
  | (_, value) :: rest => refersTo ids value || anyFieldRefersTo ids rest
termination_by structural fields => fields

end

def references (c : Call) : Step :=
  if c.args = [] then return .null
  else do
    let scope ← c.env.scope
    let values ← c.args.mapM c.arg
    return match values.mapM idSet? with
      | some ids => .bool (refersTo ids.flatten scope.this)
      | none => .null

/-- What a change did to its document. -/
def operation (delta : Delta) : Value :=
  match delta.before.isNull, delta.after.isNull with
  | true, false => .string "create"
  | false, false => .string "update"
  | false, true => .string "delete"
  | true, true => .null

def toDateTime : Value → Value
  | .string s => ((Instant.ofText? s).map .dateTime).getD .null
  | .dateTime t => .dateTime t
  | _ => .null

def run (c : Call) : Builtin → Step
  | .after => c.nullary (·.delta.after)
  | .before => c.nullary (·.delta.before)
  | .operation => c.nullary fun context => operation context.delta
  | .now => c.nullary fun context => .string context.now.toText
  | .instant => c.nullary fun context => .dateTime context.now
  | .datasetName => c.nullary fun context => .string context.client.dataset
  | .projectId => c.nullary fun context => .string context.client.projectId
  | .count => c.unary Value.count
  | .dateTime => c.unary toDateTime
  | .defined => c.unary fun v => .bool !v.isNull
  | .geometry => c.unary Value.geometry
  | .length => c.unary Value.length
  | .lower => c.unary Value.lower
  | .upper => c.unary Value.upper
  | .portableText => c.unary Value.portableText
  | .blockText => c.unary Value.blockText
  | .toText => c.unary Value.toPlainString
  | .compact => c.unary Value.compact
  | .unique => c.unary Value.unique
  | .mean => c.unary Value.mean
  | .maximum => c.unary Value.maximum
  | .minimum => c.unary Value.minimum
  | .sum => c.unary Value.sum
  | .intersects => c.binary Value.intersects
  | .join => c.binary Value.join
  | .split => c.binary Value.split
  | .startsWith => c.binary Value.startsWith
  | .distance => c.binary Value.distance
  | .latLng => c.binary Value.latLng
  | .coalesce => c.firstDefined c.args
  | .round => c.round
  | .references => c.references

/-! ## Sorting -/

/-- A sort key and its direction, which a mark around the key gives. -/
def sortKey : Expr → Expr × Value.Direction
  | .asc base => (base, .ascending)
  | .desc base => (base, .descending)
  | e => (e, .ascending)

/-- Sort an array by keys, each evaluated with the item as current value. -/
def order (c : Call) : Value → Step
  | .array items =>
    if c.args = [] then return .null
    else do
      let scope ← c.env.scope
      let keys := c.args.map sortKey
      let rows ← items.mapM fun item => do
        let frame ← scope.push item
        let values ← keys.mapM fun (key, _) => c.eval (.inScope frame) key
        return (values, item)
      let precedes (a b : List Value × Value) : Bool :=
        Value.compareRows (keys.map (·.2)) a.1 b.1 == .lt
      return .array ((Value.sortRows precedes rows).map (·.2))
  | _ => return .null

def runPipe (c : Call) (base : Value) : PipeBuiltin → Step
  | .order => c.order base

end Call

end Groq
