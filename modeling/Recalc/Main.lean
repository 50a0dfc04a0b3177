import Recalc.Command
import Recalc.Json.Indented

/-! The command line: checks a model, or evaluates it over an input. -/
namespace Recalc.CommandLine

/-- What `eval` is told besides the model's file. -/
structure EvalOptions where
  model : Option String := none
  input : Option String := none
  changes : Option String := none
  backend : Backend := .optimizing
  indented : Bool := false

inductive Request where
  | eval (model : String) (options : EvalOptions)
  | check (model : String)

def usage : String :=
  "usage: recalc eval MODEL [--input JSON] [--compiler simple|optimizing] [--apply JSON] " ++
  "[--pretty]\n       recalc check MODEL"

/-- Separates `--name=value` into two arguments. -/
def splitOption (arg : String) : List String :=
  if arg.startsWith "--" then
    match arg.splitOn "=" with
    | name :: value :: more => [name, String.intercalate "=" (value :: more)]
    | _ => [arg]
  else [arg]

def evalOptions (o : EvalOptions) : List String → Except String EvalOptions
  | [] => .ok o
  | "--pretty" :: rest | "-p" :: rest => evalOptions { o with indented := true } rest
  | "--input" :: text :: rest | "-i" :: text :: rest =>
    evalOptions { o with input := some text } rest
  | "--apply" :: text :: rest | "-a" :: text :: rest =>
    evalOptions { o with changes := some text } rest
  | "--compiler" :: name :: rest | "-c" :: name :: rest => match Backend.ofName? name with
    | some backend => evalOptions { o with backend } rest
    | none => .error (Backend.unknownMessage name)
  | arg :: rest => match o.model with
    | none =>
      if arg.startsWith "-" then .error usage else evalOptions { o with model := some arg } rest
    | some _ => .error usage

def request : List String → Except String Request
  | "eval" :: args => do
    let o ← evalOptions {} (args.flatMap splitOption)
    match o.model with
    | some model => .ok (.eval model o)
    | none => .error usage
  | ["check", model] => .ok (.check model)
  | _ => .error usage

def errorText (e : CommandError) : String := e.message?.getD "Invalid JSON"

def summaryLines (s : Command.Summary) : List String :=
  let counts := s!"Model is valid: {s.outputs.length} outputs, {s.mutators.length} mutators, " ++
    s!"{s.nodes} nodes"
  if s.functions.isEmpty then [counts]
  else [counts, "Library functions required: " ++ String.intercalate ", " s.functions]

/-- All that stands on standard input, unless someone would have to type it. -/
def pipedInput : IO (Option String) := do
  let stdin ← IO.getStdin
  if ← stdin.isTty then return none
  return some (← stdin.readToEnd)

def run : Request → IO (Except CommandError (List String))
  | .check path => do
    let model ← IO.FS.readFile path
    return (Command.check model .optimizing).map summaryLines
  | .eval path o => do
    let model ← IO.FS.readFile path
    let input ← match o.input with
      | some text => pure (some text)
      | none => pipedInput
    let write (j : Json) := if o.indented then j.renderIndented 0 else j.render
    return (Command.eval model input o.changes o.backend).map fun j => [write j]

end Recalc.CommandLine

open Recalc.CommandLine in
def main (args : List String) : IO UInt32 := do
  match request args with
  | .error message =>
    IO.eprintln message
    return 2
  | .ok r =>
    match ← (run r).toBaseIO with
    | .error e =>
      IO.eprintln s!"IO error: {e}"
      return 1
    | .ok (.error e) =>
      IO.eprintln (errorText e)
      return 1
    | .ok (.ok lines) =>
      for line in lines do
        IO.println line
      return 0
