/-
  Groq.Scope.Frame — frames, each linked to the one it stands on.

  A frame knows the frame it was pushed on, its own number and the bound, and it holds its value: as its own, or lent
  by something that outlives it, such as the dataset. What an evaluation needs of this are the values from the current
  frame outwards, which is all that `Groq.Scope` keeps; `Frame.scope` is that view.
-/

import Groq.Scope

namespace Groq.Scope

/-- How a frame has its value. -/
inductive Held where
  | owned (v : Value)
  | lent (v : Value)

def Held.value : Held → Value
  | owned v => v
  | lent v => v

inductive Frame where
  | root (context : Context) (maxDepth : Nat)
  | inner (parent : Frame) (context : Context) (held : Held) (depth maxDepth : Nat)

namespace Frame

def context : Frame → Context
  | root context _ => context
  | inner _ context _ _ _ => context

def parent? : Frame → Option Frame
  | root _ _ => none
  | inner parent _ _ _ _ => some parent

/-- The root owns a null. -/
def held : Frame → Held
  | root _ _ => .owned .null
  | inner _ _ held _ _ => held

def depth : Frame → Nat
  | root _ _ => 0
  | inner _ _ _ depth _ => depth

def maxDepth : Frame → Nat
  | root _ maxDepth => maxDepth
  | inner _ _ _ _ maxDepth => maxDepth

def this (f : Frame) : Value := f.held.value

/-- The value back, when the frame is given up; one that was lent is copied. -/
def intoThis (f : Frame) : Value :=
  match f.held with
  | .owned v => v
  | .lent v => v

def push (f : Frame) (held : Held) : Except EvalError Frame :=
  if f.maxDepth ≤ f.depth then .error (.scopeTooDeep f.maxDepth)
  else .ok (inner f f.context held (f.depth + 1) f.maxDepth)

/-- Push a frame for a value of its own. -/
def nested (f : Frame) (v : Value) : Except EvalError Frame := f.push (.owned v)

/-- Push a frame for a value that outlives it. -/
def nestedLent (f : Frame) (v : Value) : Except EvalError Frame := f.push (.lent v)

/-- The frame so many links up. -/
def ancestor? (f : Frame) : (levels : Nat) → Option Frame
  | 0 => some f
  | levels + 1 => f.parent?.bind (·.ancestor? levels)

/-- What evaluation sees of a frame. -/
def scope : Frame → Scope
  | root context maxDepth => Scope.root context maxDepth
  | inner parent context held _ maxDepth => ⟨context, maxDepth, held.value, parent.scope.this :: parent.scope.outer⟩

end Frame

end Groq.Scope
