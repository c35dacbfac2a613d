/-
  Groq.Fields — key-value lists that remember when a key first came.

  Writing a key that is present replaces its value and leaves it where it stands; a new key goes to
  the end. So every list built by `insert` holds each key once.
-/

namespace Groq.Fields

variable {α : Type}

def find? (key : String) : List (String × α) → Option α
  | [] => none
  | (name, value) :: rest => if name = key then some value else find? key rest

def insert (key : String) (value : α) : List (String × α) → List (String × α)
  | [] => [(key, value)]
  | (name, old) :: rest =>
    if name = key then (name, value) :: rest else (name, old) :: insert key value rest

/-- Write the entries into `fields` one after the other. -/
def merge (fields entries : List (String × α)) : List (String × α) :=
  entries.foldl (fun fields (key, value) => insert key value fields) fields

end Groq.Fields
