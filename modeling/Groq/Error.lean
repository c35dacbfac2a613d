/-
  Groq.Error — everything that can go wrong, by cause, and its wording.

  A query may be refused as text, as a query or for its depth; evaluation stops only at a depth
  limit. Data of the wrong shape is never an error: it makes null.
-/

namespace Groq

/-- Why a text does not divide into words, literals and marks. Positions count characters. -/
inductive LexicalError where
  | unterminatedString (position : Nat)
  | unsupportedEscape (position : Nat)
  deriving DecidableEq, Repr

def LexicalError.message : LexicalError → String
  | unterminatedString n => "unterminated string literal starting at position " ++ toString n
  | unsupportedEscape n =>
    "unicode escape sequences are not supported (position " ++ toString n ++ ")"

inductive ParseError where
  | lexical (cause : LexicalError)
  /-- The text, in normal form, is no query. -/
  | noMatch (text : String)
  | tooDeep (limit : Nat)
  deriving DecidableEq, Repr

def ParseError.message : ParseError → String
  | lexical cause => cause.message
  | noMatch text => "syntax error: `" ++ text ++ "` does not match the GROQ grammar"
  | tooDeep limit => "query nesting exceeds the configured limit of " ++ toString limit

inductive EvalError where
  | tooDeep (limit : Nat)
  | scopeTooDeep (limit : Nat)
  deriving DecidableEq, Repr

def EvalError.message : EvalError → String
  | tooDeep limit => "expression nesting exceeds the configured limit of " ++ toString limit
  | scopeTooDeep limit => "scope chain exceeds the configured limit of " ++ toString limit

/-- Why a query gave no value. -/
inductive QueryError where
  | parse (cause : ParseError)
  | eval (cause : EvalError)
  deriving DecidableEq, Repr

def QueryError.message : QueryError → String
  | parse cause => "parse error: " ++ cause.message
  | eval cause => "evaluation error: " ++ cause.message

/-- Why a value cannot be stored as a document. -/
inductive DocumentError where
  | notAnObject (found : String)
  | missingField (name : String)
  deriving DecidableEq, Repr

def DocumentError.message : DocumentError → String
  | notAnObject found => "expected a document object, found " ++ found
  | missingField name => "document has no string `" ++ name ++ "` field"

end Groq
