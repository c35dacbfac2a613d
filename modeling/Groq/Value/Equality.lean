/-
  Groq.Value.Equality — when two values are the same, and when a query calls them equal.

  `same` is structural: the order of fields does not matter and NaN is not itself. The `==` of
  queries (`equals`) also takes an instant for equal to any text that reads as it, at any depth, in
  either direction.
-/

import Groq.Instant.Text
import Groq.Value

namespace Groq.Value

/-! ## Structural -/

mutual

def same : Value → Value → Bool
  | null, null => true
  | bool a, bool b => a == b
  | number a, number b => a == b
  | string a, string b => a == b
  | dateTime a, dateTime b => a == b
  | array a, array b => sameItems a b
  | object a, object b => a.length == b.length && sameFields a b
  | _, _ => false
termination_by structural a => a

def sameItems : List Value → List Value → Bool
  | [], [] => true
  | a :: as, b :: bs => same a b && sameItems as bs
  | _, _ => false
termination_by structural as => as

/-- Has every field on the left the same value on the right? -/
def sameFields : List (String × Value) → List (String × Value) → Bool
  | [], _ => true
  | (key, a) :: as, bs =>
    (match Fields.find? key bs with
      | some b => same a b
      | none => false) && sameFields as bs
termination_by structural as => as

end

instance : BEq Value := ⟨same⟩

/-! ## As queries see it -/

def readsAs (s : String) (t : Instant) : Bool := Instant.ofText? s == some t

mutual

/-- Like `same`, but an instant on the left also matches text on the right. -/
def matchesText : Value → Value → Bool
  | dateTime t, string s => readsAs s t
  | array a, array b => matchesItems a b
  | object a, object b => a.length == b.length && matchesFields a b
  | a, b => same a b
termination_by structural a => a

def matchesItems : List Value → List Value → Bool
  | [], [] => true
  | a :: as, b :: bs => matchesText a b && matchesItems as bs
  | _, _ => false
termination_by structural as => as

def matchesFields : List (String × Value) → List (String × Value) → Bool
  | [], _ => true
  | (key, a) :: as, bs =>
    (match Fields.find? key bs with
      | some b => matchesText a b
      | none => false) && matchesFields as bs
termination_by structural as => as

end

/-- The operator `==`. -/
def equals (a b : Value) : Bool := matchesText a b || matchesText b a

end Groq.Value
