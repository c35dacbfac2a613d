/-
  Groq.Limits — bounds on the depth of queries and of their evaluation.

  They bound the recursion of the parser (and with it the height of its trees), the depth of
  expressions the evaluator walks, and the number of frames inside one another.
-/

namespace Groq

structure Limits where
  parse : Nat := 256
  eval : Nat := 512
  scope : Nat := 256
  deriving DecidableEq, Repr

namespace Limits

def uniform (depth : Nat) : Limits := ⟨depth, depth, depth⟩

end Limits

end Groq
