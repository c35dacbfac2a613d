/-
  Groq.Expr.Unknown — the calls in a query that name no function.

  Such a call evaluates to null. They are listed in the order in which the tree is visited: a call
  before its arguments, a pipe call before its base and then its arguments.
-/

import Groq.Builtin
import Groq.Expr

namespace Groq.Expr

/-- A call by library and name, or one behind a pipe by name. -/
inductive Callee where
  | function (library name : String)
  | pipe (name : String)
  deriving DecidableEq, Repr

def Callee.isKnown : Callee → Bool
  | function library name => Builtin.isDefined library name
  | pipe name => Builtin.isPipeDefined name

def Callee.text : Callee → String
  | function library name => library ++ "::" ++ name
  | pipe name => "|" ++ name

/-- The callee alone if it is unknown. -/
def Callee.ifUnknown (c : Callee) : List Callee := if c.isKnown then [] else [c]

mutual

def unknownCalls : Expr → List Callee
  | call library name args => (Callee.function library name).ifUnknown ++ unknownInArgs args
  | pipeCall name base args =>
    (Callee.pipe name).ifUnknown ++ unknownCalls base ++ unknownInArgs args
  | array elements => unknownInElements elements
  | object attributes => unknownInAttributes attributes
  | field base _ => unknownCalls base
  | element base _ => unknownCalls base
  | slice base _ _ _ => unknownCalls base
  | deref base => unknownCalls base
  | arrayCoerce base => unknownCalls base
  | group base => unknownCalls base
  | not base => unknownCalls base
  | neg base => unknownCalls base
  | pos base => unknownCalls base
  | asc base => unknownCalls base
  | desc base => unknownCalls base
  | filter base body => unknownCalls base ++ unknownCalls body
  | projection base body => unknownCalls base ++ unknownCalls body
  | and left right => unknownCalls left ++ unknownCalls right
  | or left right => unknownCalls left ++ unknownCalls right
  | binary _ left right => unknownCalls left ++ unknownCalls right
  | literal _ => []
  | this => []
  | parent _ => []
  | everything => []
  | parameter _ => []
  | ownField _ => []
termination_by structural e => e

def unknownInArgs : List Expr → List Callee
  | [] => []
  | e :: rest => unknownCalls e ++ unknownInArgs rest
termination_by structural args => args

def unknownInElement : Element → List Callee
  | .item e => unknownCalls e
  | .splat e => unknownCalls e
termination_by structural e => e

def unknownInElements : List Element → List Callee
  | [] => []
  | e :: rest => unknownInElement e ++ unknownInElements rest
termination_by structural elements => elements

def unknownInAttribute : Attribute → List Callee
  | .named _ e => unknownCalls e
  | .splat e => unknownCalls e
termination_by structural a => a

def unknownInAttributes : List Attribute → List Callee
  | [] => []
  | a :: rest => unknownInAttribute a ++ unknownInAttributes rest
termination_by structural attributes => attributes

end

end Groq.Expr
