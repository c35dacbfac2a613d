/-
  Groq.Builtin — the functions queries can call, by library and name.

  An unqualified name is in the library `global`. `find?` is what evaluation goes by; `vocabulary`
  lists the names for reports. Functions behind a pipe have names of their own.
-/

namespace Groq

inductive Builtin where
  | after
  | before
  | coalesce
  | count
  | dateTime
  | defined
  | geometry
  | length
  | lower
  | now
  | operation
  | portableText
  | references
  | round
  | toText
  | upper
  | compact
  | intersects
  | join
  | unique
  | split
  | startsWith
  | mean
  | maximum
  | minimum
  | sum
  | instant
  | distance
  | latLng
  | blockText
  | datasetName
  | projectId
  deriving DecidableEq, Repr

namespace Builtin

def findGlobal? : String → Option Builtin
  | "after" => some after
  | "before" => some before
  | "coalesce" => some coalesce
  | "count" => some count
  | "dateTime" => some dateTime
  | "defined" => some defined
  | "geo" => some geometry
  | "length" => some length
  | "lower" => some lower
  | "now" => some now
  | "operation" => some operation
  | "pt" => some portableText
  | "references" => some references
  | "round" => some round
  | "string" => some toText
  | "upper" => some upper
  | _ => none

def findArray? : String → Option Builtin
  | "compact" => some compact
  | "intersects" => some intersects
  | "join" => some join
  | "unique" => some unique
  | _ => none

def findString? : String → Option Builtin
  | "lower" => some lower
  | "split" => some split
  | "startsWith" => some startsWith
  | "upper" => some upper
  | _ => none

def findMath? : String → Option Builtin
  | "avg" => some mean
  | "max" => some maximum
  | "min" => some minimum
  | "sum" => some sum
  | _ => none

def findGeo? : String → Option Builtin
  | "distance" => some distance
  | "latLng" => some latLng
  | _ => none

def findProject? : String → Option Builtin
  | "dataset" => some datasetName
  | "projectId" => some projectId
  | _ => none

/-- The function a qualified name stands for. -/
def find? (library name : String) : Option Builtin :=
  match library with
  | "global" => findGlobal? name
  | "array" => findArray? name
  | "string" => findString? name
  | "math" => findMath? name
  | "dateTime" => if name = "now" then some instant else none
  | "geo" => findGeo? name
  | "pt" => if name = "text" then some blockText else none
  | "sanity" => findProject? name
  | _ => none

end Builtin

/-- The functions that may stand behind a pipe. -/
inductive PipeBuiltin where
  | order
  deriving DecidableEq, Repr

def PipeBuiltin.find? (name : String) : Option PipeBuiltin :=
  if name = "order" then some .order else none

namespace Builtin

/-- The names of each library. -/
def vocabulary : List (String × List String) :=
  [("global", ["after", "before", "coalesce", "count", "dateTime", "defined", "geo", "length",
      "lower", "now", "operation", "pt", "references", "round", "string", "upper"]),
    ("array", ["compact", "intersects", "join", "unique"]),
    ("string", ["lower", "split", "startsWith", "upper"]),
    ("math", ["avg", "max", "min", "sum"]),
    ("dateTime", ["now"]),
    ("geo", ["distance", "latLng"]),
    ("pt", ["text"]),
    ("sanity", ["dataset", "projectId"])]

def isDefined (library name : String) : Bool :=
  (vocabulary.lookup library).any (·.contains name)

def pipeVocabulary : List String := ["order"]

def isPipeDefined (name : String) : Bool := pipeVocabulary.contains name

end Builtin

end Groq
