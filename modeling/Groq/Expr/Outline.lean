/-
  Groq.Expr.Outline — trees as indented text, a node on each line above its parts.
-/

import Groq.Expr
import Groq.Value.Text

namespace Groq.Expr

/-- Lines one step further in. -/
def stepIn (lines : List String) : List String := lines.map ("  " ++ ·)

def quotedName (name : String) : String := String.ofList (Json.quoted name)

mutual

def outline : Expr → List String
  | literal v => ["literal " ++ v.compactText]
  | this => ["this"]
  | parent levels => ["parent " ++ toString levels]
  | everything => ["everything"]
  | parameter name => ["parameter " ++ quotedName name]
  | array elements => "array" :: stepIn (outlineElements elements)
  | object attributes => "object" :: stepIn (outlineAttributes attributes)
  | ownField name => ["field " ++ quotedName name]
  | field base name => ("field " ++ quotedName name ++ " of") :: stepIn (outline base)
  | element base index => ("element " ++ toString index ++ " of") :: stepIn (outline base)
  | slice base left right inclusive =>
    ("slice " ++ toString left ++ (if inclusive then ".." else "...") ++ toString right ++ " of") ::
      stepIn (outline base)
  | filter base body => "filter" :: stepIn (outline base ++ outline body)
  | projection base body => "projection" :: stepIn (outline base ++ outline body)
  | deref base => "deref" :: stepIn (outline base)
  | arrayCoerce base => "items" :: stepIn (outline base)
  | group base => "group" :: stepIn (outline base)
  | call library name args => ("call " ++ library ++ "::" ++ name) :: stepIn (outlineArgs args)
  | pipeCall name base args =>
    ("pipe " ++ name) :: stepIn (outline base ++ outlineArgs args)
  | and left right => "and" :: stepIn (outline left ++ outline right)
  | or left right => "or" :: stepIn (outline left ++ outline right)
  | not base => "not" :: stepIn (outline base)
  | neg base => "neg" :: stepIn (outline base)
  | pos base => "pos" :: stepIn (outline base)
  | binary op left right => op.symbol :: stepIn (outline left ++ outline right)
  | asc base => "asc" :: stepIn (outline base)
  | desc base => "desc" :: stepIn (outline base)
termination_by structural e => e

def outlineArgs : List Expr → List String
  | [] => []
  | e :: rest => outline e ++ outlineArgs rest
termination_by structural args => args

def outlineElement : Element → List String
  | .item e => outline e
  | .splat e => "splat" :: stepIn (outline e)
termination_by structural e => e

def outlineElements : List Element → List String
  | [] => []
  | e :: rest => outlineElement e ++ outlineElements rest
termination_by structural elements => elements

def outlineAttribute : Attribute → List String
  | .named name e => (quotedName name ++ ":") :: stepIn (outline e)
  | .splat e => "splat" :: stepIn (outline e)
termination_by structural a => a

def outlineAttributes : List Attribute → List String
  | [] => []
  | a :: rest => outlineAttribute a ++ outlineAttributes rest
termination_by structural attributes => attributes

end

def outlineText (e : Expr) : String := String.intercalate "\n" e.outline

end Groq.Expr
