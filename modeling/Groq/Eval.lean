/-
  Groq.Eval — evaluating expressions.

  `node` evaluates one node and leaves its subexpressions to the function it is given; `evalAt` ties
  the knot, one unit of depth for each node inside another. Nothing in the data is an error: what
  does not fit is null. Only the bounds on depth and on frames stop an evaluation, and, where there
  is no scope, anything that asks for one.
-/

import Groq.Eval.Call
import Groq.Limits
import Groq.Value.Access
import Groq.Value.Arithmetic
import Groq.Value.TextMatch

namespace Groq

namespace Eval

/-! ## Operators -/

/-- A comparison; values that are not ordered make null. -/
def comparison (holds : Ordering → Bool) (a b : Value) : Value :=
  ((Value.order? a b).map fun ordering => Value.bool (holds ordering)).getD .null

def applyBinary : BinaryOp → Value → Value → Value
  | .equal, a, b => .bool (a.equals b)
  | .notEqual, a, b => .bool !(a.equals b)
  | .less, a, b => comparison Ordering.isLT a b
  | .lessEqual, a, b => comparison Ordering.isLE a b
  | .greater, a, b => comparison Ordering.isGT a b
  | .greaterEqual, a, b => comparison Ordering.isGE a b
  | .isIn, a, b => a.isIn b
  | .matchText, a, b => a.textMatch b
  | .add, a, b => a.add b
  | .subtract, a, b => a.subtract b
  | .multiply, a, b => Value.numeric (· * ·) a b
  | .divide, a, b => Value.numeric (· / ·) a b
  | .modulo, a, b => Value.numeric Double.remainder a b
  | .power, a, b => Value.numeric Float.pow a b

/-! ## Literals -/

variable (eval : Env → Expr → Step)

/-- The items of an array literal; splatted arrays go in item by item. -/
def elements (env : Env) : List Element → Except Halt (List Value)
  | [] => return []
  | .item e :: rest => return (← eval env e) :: (← elements env rest)
  | .splat e :: rest => do
    let v ← eval env e
    let rest ← elements env rest
    return match v with
      | .array items => items ++ rest
      | v => v :: rest

/-- Write the entries of an object literal into `fields`. -/
def attributes (env : Env) (fields : List (String × Value)) :
    List Attribute → Except Halt (List (String × Value))
  | [] => return fields
  | .named name e :: rest => do
    let v ← eval env e
    attributes env (Fields.insert name v fields) rest
  | .splat e :: rest => do
    let v ← eval env e
    attributes env (Fields.merge fields (v.fields?.getD [])) rest

/-! ## Frames -/

/-- The items for which the body is true, each with itself as current value. -/
def keep (scope : Scope) (body : Expr) (items : List Value) : Except Halt (List Value) :=
  items.filterM fun item => do
    let frame ← scope.push item
    let v ← eval (.inScope frame) body
    return v.isTrue

/-- The body for one value as current value. -/
def within (scope : Scope) (body : Expr) (v : Value) : Step := do
  let frame ← scope.push v
  eval (.inScope frame) body

def filter (env : Env) (base body : Expr) : Step := do
  let scope ← env.scope
  match base with
  | .everything => return .array (← keep eval scope body scope.context.dataset)
  | base =>
    match ← eval env base with
    | .array items => return .array (← keep eval scope body items)
    | _ => return .null

def projection (env : Env) (base body : Expr) : Step := do
  let scope ← env.scope
  match base with
  | .everything => return .array (← scope.context.dataset.mapM (within eval scope body))
  | base =>
    match ← eval env base with
    | .array items => return .array (← items.mapM (within eval scope body))
    | .null => return .null
    | v => within eval scope body v

/-! ## Nodes -/

def node (env : Env) : Expr → Step
  | .literal v => return v
  | .this => return (← env.scope).this
  | .parent levels => return (((← env.scope).ancestor? levels).map (·.this)).getD .null
  | .everything => return .array (← env.scope).context.dataset
  | .parameter name => return ((← env.scope).context.parameter? name).getD .null
  | .array entries => return .array (← elements eval env entries)
  | .object entries => return .object (← attributes eval env [] entries)
  | .ownField name => return (← env.scope).this.readField name
  | .field base name => return (← eval env base).readField name
  | .element base index => return (← eval env base).element index
  | .slice base left right inclusive => return (← eval env base).slice inclusive left right
  | .filter base body => filter eval env base body
  | .projection base body => projection eval env base body
  | .deref base => do
    let context := (← env.scope).context
    return context.dereference (← eval env base)
  | .arrayCoerce base => return (← eval env base).arrayOrNull
  | .group base => eval env base
  | .call library name args =>
    match Builtin.find? library name with
    | some f => Call.run ⟨env, args, eval⟩ f
    | none => return .null
  | .pipeCall name base args => do
    let v ← eval env base
    match PipeBuiltin.find? name with
    | some f => Call.runPipe ⟨env, args, eval⟩ v f
    | none => return .null
  | .and left right => return (← eval env left).and (← eval env right)
  | .or left right => return (← eval env left).or (← eval env right)
  | .not base => return (← eval env base).not
  | .neg base => return (← eval env base).neg
  | .pos base => return (← eval env base).pos
  | .binary op left right => return applyBinary op (← eval env left) (← eval env right)
  | .asc _ => return .null
  | .desc _ => return .null

end Eval

/-- Evaluate with so much depth left. -/
def evalAt (limits : Limits) : (depth : Nat) → Env → Expr → Step
  | 0, _, _ => .error (.failed (.tooDeep limits.eval))
  | depth + 1, env, e => Eval.node (evalAt limits depth) env e

/-- The value of a query in a context, from the root frame. -/
def evaluate (limits : Limits) (context : Context) (e : Expr) : Except EvalError Value :=
  match evalAt limits limits.eval (.inScope (Scope.root context limits.scope)) e with
  | .ok v => .ok v
  | .error (.failed cause) => .error cause
  | .error .needsScope => .ok .null

/-- The value of an expression that needs no scope; none for any other. -/
def constant? (limits : Limits) (e : Expr) : Option Value :=
  (evalAt limits limits.eval .constant e).toOption

end Groq
