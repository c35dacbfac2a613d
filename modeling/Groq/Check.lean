/-
  Groq.Check — running queries: in a context, or over a dataset and parameters given as text.

  A check finds errors in the order query, dataset, parameters, evaluation; it may stop after the
  query.
-/

import Groq.Dataset
import Groq.Query.Parser

namespace Groq

/-- Parse and evaluate a query. -/
def runQuery (limits : Limits) (context : Context) (query : String) : Except QueryError Value := do
  let e ← (Query.parse limits query).mapError .parse
  (evaluate limits context e).mapError .eval

structure Check where
  query : String
  /-- Text of the dataset, empty if there is none. -/
  input : Option String := none
  /-- Texts of the parameters. -/
  parameters : List String := []
  /-- Stop when the query is parsed. -/
  parseOnly : Bool := false
  limits : Limits := {}

namespace Check

inductive Outcome where
  | parsed (e : Expr)
  | value (v : Value)

inductive Failure where
  | query (cause : QueryError)
  | dataset (cause : Dataset.ReadError)
  | parameter (cause : Dataset.ParameterError)

def Failure.message : Failure → String
  | query cause => cause.message
  | dataset cause => cause.message
  | parameter cause => cause.message

def readInput (c : Check) : Except Dataset.ReadError (List Value) :=
  match c.input with
  | some input => Dataset.read input
  | none => .ok []

/-- The tree of the query. -/
def tree (c : Check) : Except Failure Expr :=
  (Query.parse c.limits c.query).mapError fun cause => .query (.parse cause)

/-- What a check of this tree comes to. -/
def answer (c : Check) (now : Instant) (e : Expr) : Except Failure Outcome := do
  if c.parseOnly then return .parsed e
  let documents ← c.readInput.mapError .dataset
  let parameters ← (c.parameters.mapM Dataset.readParameter).mapError .parameter
  let context := (Context.ofDataset documents now).withParameters parameters
  let v ← (evaluate c.limits context e).mapError fun cause => .query (.eval cause)
  return .value v

def run (c : Check) (now : Instant) : Except Failure Outcome := do c.answer now (← c.tree)

end Check

end Groq
