/-
  Groq.Main — the command line.

  A check without a dataset reads one from standard input unless that is a terminal. Errors go to
  standard error: exit code 1 for a query or its data, 2 for the command line.
-/

import Groq.Command
import Groq.Expr.Outline
import Groq.Expr.Unknown
import Std.Time.DateTime

namespace Groq

def currentInstant : IO Instant := do
  let now ← Std.Time.Timestamp.now
  return Instant.carry now.val.second.val now.val.nano.val

def refuse (message : String) (code : UInt32) : IO UInt32 := do
  IO.eprintln message
  return code

/-- The check with a dataset from standard input where it needs one. -/
def Check.withStandardInput (c : Check) : IO Check := do
  if c.input.isSome || c.parseOnly then return c
  let input ← IO.getStdin
  if ← input.isTty then return c
  return { c with input := some (← input.readToEnd) }

def Check.print (display : Display) : Check.Outcome → IO Unit
  | .parsed _ => IO.println "Syntax is valid"
  | .value v => IO.println (if display.indented then v.indentedText else v.compactText)

def Check.perform (c : Check) (display : Display) : IO UInt32 := do
  let c ← c.withStandardInput
  match c.tree with
  | .error e => refuse e.message 1
  | .ok tree =>
    if display.outline then IO.println tree.outlineText
    for callee in tree.unknownCalls do
      IO.eprintln ("unknown function, it will evaluate to null: " ++ callee.text)
    match c.answer (← currentInstant) tree with
    | .error e => refuse e.message 1
    | .ok outcome =>
      Check.print display outcome
      return 0

def Command.perform : Command → IO UInt32
  | .check c display => c.perform display
  | .normalize query =>
    match Query.normalize query with
    | .error e => refuse (QueryError.parse (.lexical e)).message 1
    | .ok text => do
      IO.println text
      return 0
  | .help => do
    IO.println Command.usage
    return 0
  | .version => do
    IO.println Command.versionText
    return 0

end Groq

def main (arguments : List String) : IO UInt32 :=
  match Groq.Command.ofArguments arguments with
  | .ok command => command.perform
  | .error e => Groq.refuse e.message 2
