/-
  Groq.Command — what a command line asks for.

  `check` runs a query over a dataset, `normalize` prints a query in normal form. Options of `check`
  stand anywhere among its arguments, a value behind its option or joined to it by `=`, and each but
  `--param` at most once; behind `--` nothing is an option.
-/

import Groq.Check
import Groq.Text.Digits

namespace Groq

/-- What a check prints, and how. -/
structure Display where
  indented : Bool := false
  outline : Bool := false

inductive Command where
  | check (c : Check) (display : Display)
  | normalize (query : String)
  | help
  | version

/-- Why arguments are no command. -/
inductive UsageError where
  | noCommand
  | unknownCommand (name : String)
  | noQuery
  | noValue (option : String)
  | badValue (option text : String)
  | unexpected (argument : String)
  | repeated (option : String)
  deriving DecidableEq, Repr

namespace UsageError

def message : UsageError → String
  | noCommand => "error: a command is required, one of check and normalize"
  | unknownCommand name => "error: unrecognized subcommand '" ++ name ++ "'"
  | noQuery => "error: the query is missing"
  | noValue option => "error: a value is required for '" ++ option ++ "'"
  | badValue option text => "error: invalid value '" ++ text ++ "' for '" ++ option ++ "'"
  | unexpected argument => "error: unexpected argument '" ++ argument ++ "'"
  | repeated option => "error: the argument '" ++ option ++ "' cannot be used multiple times"

end UsageError

namespace Command

def usage : String := String.intercalate "\n" [
  "groq - run GROQ queries against a JSON dataset",
  "",
  "Usage: groq check [OPTIONS] <QUERY>",
  "       groq normalize <QUERY>",
  "",
  "Options of check:",
  "  -i, --input <INPUT>      Dataset as a JSON array or NDJSON (standard input if absent)",
  "      --param <NAME=JSON>  Query parameter, repeatable",
  "  -p, --pretty             Pretty-print the output",
  "      --syntax-only        Only validate syntax, don't execute",
  "      --ast                Print the parsed syntax tree",
  "      --max-depth <N>      Override every parse/evaluation depth limit"]

def versionText : String := "groq 0.1.0"

/-! ## Arguments of a check -/

/-- The arguments read so far. -/
structure Arguments where
  query : Option String := none
  input : Option String := none
  /-- Last first. -/
  parameters : List String := []
  indented : Bool := false
  parseOnly : Bool := false
  outline : Bool := false
  depth : Option Nat := none

inductive Setting where
  | input
  | parameter
  | depth

def setting? : String → Option Setting
  | "-i" => some .input
  | "--input" => some .input
  | "--param" => some .parameter
  | "--max-depth" => some .depth
  | _ => none

/-- A number in decimal digits, with or without a plus. -/
def number? (text : String) : Option Nat :=
  let digits := match text.toList with
    | '+' :: rest => rest
    | cs => cs
  if digits ≠ [] ∧ digits.all Char.isDigit then some (Text.decimalValue digits) else none

namespace Arguments

def set (a : Arguments) (setting : Setting) (option text : String) : Except UsageError Arguments :=
  match setting with
  | .input =>
    if a.input.isSome then .error (.repeated option) else .ok { a with input := some text }
  | .parameter => .ok { a with parameters := text :: a.parameters }
  | .depth =>
    match number? text with
    | none => .error (.badValue option text)
    | some n =>
      if a.depth.isSome then .error (.repeated option) else .ok { a with depth := some n }

def setQuery (a : Arguments) (text : String) : Except UsageError Arguments :=
  if a.query.isSome then .error (.unexpected text) else .ok { a with query := some text }

def flag (a : Arguments) (option : String) : Except UsageError Arguments :=
  match option with
  | "-p" => pretty option
  | "--pretty" => pretty option
  | "--syntax-only" =>
    if a.parseOnly then .error (.repeated option) else .ok { a with parseOnly := true }
  | "--ast" => if a.outline then .error (.repeated option) else .ok { a with outline := true }
  | _ => .error (.unexpected option)
where
  pretty (option : String) : Except UsageError Arguments :=
    if a.indented then .error (.repeated option) else .ok { a with indented := true }

/-- An option and a value joined to it. -/
def joined? (argument : String) : Option (String × String) :=
  let cs := argument.toList
  match cs.dropWhile (· != '=') with
  | _ :: value => some (String.ofList (cs.takeWhile (· != '=')), String.ofList value)
  | [] => none

def isOption (argument : String) : Bool :=
  match argument.toList with
  | '-' :: _ :: _ => true
  | _ => false

/-- An argument that stands alone: a flag, an option with its value, or the query. -/
def single (a : Arguments) (argument : String) : Except UsageError Arguments :=
  if isOption argument then
    match joined? argument with
    | none => a.flag argument
    | some (option, value) =>
      match setting? option with
      | some setting => a.set setting option value
      | none => .error (.unexpected argument)
  else a.setQuery argument

def read (a : Arguments) : List String → Except UsageError Arguments
  | [] => .ok a
  | "--" :: rest => rest.foldlM setQuery a
  | [argument] =>
    match setting? argument with
    | some _ => .error (.noValue argument)
    | none => a.single argument
  | argument :: next :: rest =>
    match setting? argument with
    | some setting => do (← a.set setting argument next).read rest
    | none => do (← a.single argument).read (next :: rest)

def command (a : Arguments) : Except UsageError Command :=
  match a.query with
  | none => .error .noQuery
  | some query =>
    let limits := match a.depth with
      | some depth => Limits.uniform depth
      | none => {}
    .ok (.check ⟨query, a.input, a.parameters.reverse, a.parseOnly, limits⟩ ⟨a.indented, a.outline⟩)

end Arguments

/-! ## Command lines -/

def ofCheckArguments (arguments : List String) : Except UsageError Command := do
  (← Arguments.read {} arguments).command

def ofNormalizeArguments : List String → Except UsageError Command
  | [] => .error .noQuery
  | ["--"] => .error .noQuery
  | ["--", query] => .ok (.normalize query)
  | [query] => if Arguments.isOption query then .error (.unexpected query) else .ok (.normalize query)
  | _ :: argument :: _ => .error (.unexpected argument)

def asksHelp (argument : String) : Bool := argument == "-h" || argument == "--help"

def asksVersion (argument : String) : Bool := argument == "-V" || argument == "--version"

def ofArguments : List String → Except UsageError Command
  | [] => .error .noCommand
  | name :: arguments =>
    if asksHelp name || (arguments.takeWhile (· != "--")).any asksHelp then .ok .help
    else if asksVersion name then .ok .version
    else
      match name with
      | "check" => ofCheckArguments arguments
      | "normalize" => ofNormalizeArguments arguments
      | _ => .error (.unknownCommand name)

end Command

end Groq
