/-
  Groq.Value.TextMatch — the operator `match`: words of a text against terms with wildcards.

  Words are the runs of letters and digits in lower case; terms may also hold `*`, which stands for
  any characters, even none. A text matches when there is a term and every term matches some word.
  Arrays count by the strings in them.
-/

import Groq.Text.Case
import Groq.Text.Numeric
import Groq.Value

namespace Groq.Value

/-! ## Words -/

/-- The maximal runs of characters to keep, the first of which begins with `run` (last first). -/
def runsFrom (keep : Char → Bool) (run : List Char) : List Char → List (List Char)
  | [] => if run = [] then [] else [run.reverse]
  | c :: rest =>
    if keep c then runsFrom keep (c :: run) rest
    else if run = [] then runsFrom keep [] rest
    else run.reverse :: runsFrom keep [] rest

def words (cs : List Char) : List (List Char) :=
  (runsFrom Text.isAlphanumeric [] cs).map Text.lower

def terms (cs : List Char) : List (List Char) :=
  (runsFrom (fun c => Text.isAlphanumeric c || c = '*') [] cs).map Text.lower

/-! ## Wildcards -/

/-- The parts of a term between its stars: the first, and those that follow a star. -/
def starParts : List Char → List Char × List (List Char)
  | [] => ([], [])
  | c :: rest =>
    let (first, more) := starParts rest
    if c = '*' then ([], first :: more) else (c :: first, more)

/-- What follows the first place where `part` stands. -/
def after? (part : List Char) : List Char → Option (List Char)
  | [] => if part = [] then some [] else none
  | c :: rest =>
    if part.isPrefixOf (c :: rest) then some ((c :: rest).drop part.length) else after? part rest

/-- Do the parts, each behind a star, make up the text? The last one must end it. -/
def matchesParts : List (List Char) → List Char → Bool
  | [], cs => cs = []
  | [last], cs => last.isSuffixOf cs
  | part :: rest, cs =>
    match after? part cs with
    | some cs => matchesParts rest cs
    | none => false

def matchesTerm (term word : List Char) : Bool :=
  let (first, more) := starParts term
  first.isPrefixOf word && matchesParts more (word.drop first.length)

/-! ## The operator -/

/-- The strings of a string or an array. -/
def texts? : Value → Option (List String)
  | string s => some [s]
  | array items => some (items.filterMap string?)
  | _ => none

def matchesAll (words terms : List (List Char)) : Bool :=
  terms != [] && terms.all fun term => words.any (matchesTerm term)

def textMatch (text pattern : Value) : Value :=
  match text.texts?, pattern.texts? with
  | some texts, some patterns =>
    bool (matchesAll (texts.flatMap (words ·.toList)) (patterns.flatMap (terms ·.toList)))
  | _, _ => null

end Groq.Value
