/-
  Groq.Scope — the frames around the value a query looks at.

  A frame has a current value (`this`) and the frames outside it, down to the root, whose value is
  null. Filters, projections and sorting push a frame for each item; all frames share one context
  and one bound on their number.
-/

import Groq.Context

namespace Groq

structure Scope where
  context : Context
  maxDepth : Nat
  this : Value
  /-- The values of the frames outside this one, innermost first. -/
  outer : List Value

namespace Scope

def root (context : Context) (maxDepth : Nat) : Scope := ⟨context, maxDepth, .null, []⟩

/-- The number of frames outside this one. -/
def depth (s : Scope) : Nat := s.outer.length

/-- Push a frame for a value. -/
def nested (s : Scope) (this : Value) : Except EvalError Scope :=
  if s.depth < s.maxDepth then .ok { s with this, outer := s.this :: s.outer }
  else .error (.scopeTooDeep s.maxDepth)

def parent? (s : Scope) : Option Scope :=
  match s.outer with
  | this :: outer => some { s with this, outer }
  | [] => none

/-- The frame `levels` frames outside this one. -/
def ancestor? (s : Scope) : Nat → Option Scope
  | 0 => some s
  | levels + 1 => s.parent?.bind (·.ancestor? levels)

end Scope

end Groq
