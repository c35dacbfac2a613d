/-
  Groq.Context — what a query is evaluated against.

  A dataset is a list of documents, found by their `_id` through an index; where an id occurs twice
  the first document counts. Beside it stand parameters, the two versions of a changed document,
  the project, the types that references may lead to (all, unless restricted), and the time.
-/

import Groq.Error
import Groq.Value
import Std.Data.HashMap

namespace Groq

/-- The project and dataset a query runs against. -/
structure Client where
  projectId : String := ""
  dataset : String := ""
  deriving DecidableEq, Repr

/-- A document before and after a change. -/
structure Delta where
  before : Value := .null
  after : Value := .null

structure Context where
  dataset : List Value
  /-- The first document of each id. -/
  index : Std.HashMap String Value
  parameters : List (String × Value)
  delta : Delta
  client : Client
  referenceTypes : Option (List String)
  now : Instant

namespace Context

def documentId? (document : Value) : Option String := document.stringField? "_id"

def indexById (dataset : List Value) : Std.HashMap String Value :=
  dataset.foldl (fun index document =>
    match documentId? document with
    | some id => index.insertIfNew id document
    | none => index) ∅

/-- A dataset with nothing beside it. -/
def ofDataset (dataset : List Value) (now : Instant) : Context :=
  ⟨dataset, indexById dataset, [], {}, {}, none, now⟩

/-! ## Settings -/

def withParameter (c : Context) (name : String) (value : Value) : Context :=
  { c with parameters := Fields.insert name value c.parameters }

def withParameters (c : Context) (parameters : List (String × Value)) : Context :=
  { c with parameters := Fields.merge c.parameters parameters }

def withDelta (c : Context) (before after : Value) : Context := { c with delta := ⟨before, after⟩ }

def withClient (c : Context) (client : Client) : Context := { c with client }

def withReferenceTypes (c : Context) (types : List String) : Context :=
  { c with referenceTypes := some types }

def withNow (c : Context) (now : Instant) : Context := { c with now }

/-! ## Looking up -/

def parameter? (c : Context) (name : String) : Option Value := Fields.find? name c.parameters

def document? (c : Context) (id : String) : Option Value := c.index[id]?

/-- May references lead to this document? -/
def allows (c : Context) (document : Value) : Bool :=
  match c.referenceTypes with
  | none => true
  | some types => (document.stringField? "_type").any types.contains

def resolve? (c : Context) (r : Value.Reference) : Option Value :=
  (c.document? r.id).bind fun document => if c.allows document then some document else none

mutual

/-- The document a reference leads to, or null; an array is followed item by item. -/
def dereference (c : Context) : Value → Value
  | .array items => .array (dereferenceItems c items)
  | v => (v.reference?.bind c.resolve?).getD .null
termination_by structural v => v

def dereferenceItems (c : Context) : List Value → List Value
  | [] => []
  | item :: rest => dereference c item :: dereferenceItems c rest
termination_by structural items => items

end

end Context

/-! ## Documents -/

/-- The fields a document must have, as strings. -/
def requiredFields : List String := ["_id", "_type"]

def validateDocument (v : Value) : Except DocumentError Unit :=
  match v.fields? with
  | none => .error (.notAnObject v.typeName)
  | some _ =>
    match requiredFields.find? fun name => (v.stringField? name).isNone with
    | some name => .error (.missingField name)
    | none => .ok ()

end Groq
