import Recalc.Instance.Basic
import Recalc.Program.Compile

/-! The commands: checking a model, and evaluating it over an input after some mutations. -/
namespace Recalc

/-- An entry of a list of mutations that is not a name with arguments. -/
inductive MutationFault where
  | notAList
  | noName
  deriving DecidableEq

def MutationFault.message : MutationFault → String
  | .notAList => "expected an array"
  | .noName => "expected a mutator name first"

/-- Why a command fails. -/
inductive CommandError where
  | compile (e : CompileError)
  | runtime (e : RuntimeError)
  | json
  | noInput
  | invalidMutation (index : Nat) (fault : MutationFault)

/-- The message of an error, except for malformed text. -/
def CommandError.message? : CommandError → Option String
  | .compile e => e.message?.map ("Compile error: " ++ ·)
  | .runtime e => some ("Runtime error: " ++ e.message)
  | .json => none
  | .noInput => some "No input provided. Use --input or pipe JSON to stdin."
  | .invalidMutation index fault =>
    some s!"Invalid mutation at position {index}: {fault.message}"

namespace Command

/-- What a check reports about a model. -/
structure Summary where
  outputs : List String
  mutators : List String
  nodes : Nat
  functions : List String

def check (model : String) (backend : Backend) : Except CommandError Summary := do
  let p ← (Program.compileText model backend).mapError .compile
  return {
    outputs := p.outputs.map Prod.fst
    mutators := p.mutators.map Prod.fst
    nodes := p.entries.size
    functions := p.functions }

/-- The functions that the commands offer: one that gives back its receiver. -/
def builtins : Library := Library.empty.insert "tap" fun args => args.headD .null

/-- One mutation: a name and its arguments. -/
def mutation (index : Nat) : Json → Except CommandError (String × List Value)
  | .arr (.str name :: args) => .ok (name, args.map Value.ofJson)
  | .arr _ => .error (.invalidMutation index .noName)
  | _ => .error (.invalidMutation index .notAList)

def mutationsFrom : Nat → List Json → Except CommandError (List (String × List Value))
  | _, [] => .ok []
  | index, j :: rest => do
    let m ← mutation index j
    return m :: (← mutationsFrom (index + 1) rest)

def mutations (text : String) : Except CommandError (List (String × List Value)) :=
  match Json.parse? text with
  | some (.arr entries) => mutationsFrom 0 entries
  | _ => .error .json

/-- Applies mutations in order. -/
def applyAll : List (String × List Value) → Step Unit
  | [] => return
  | (name, args) :: rest => do
    Instance.invoke name args
    applyAll rest

/-- The outputs of a model over an input after some mutations, as one document. -/
def eval (model : String) (input : Option String) (changes : Option String) (backend : Backend) :
    Except CommandError Json := do
  let p ← (Program.compileText model backend).mapError .compile
  let changes ← match changes with
    | some text => mutations text
    | none => pure []
  let input ← match input with
    | some text => pure text
    | none => .error .noInput
  let document ← match Json.parse? input with
    | some j => pure j
    | none => .error .json
  let i ← (Instance.create p (Value.ofJson document) builtins).mapError .runtime
  let (result, i) := (applyAll changes).run i
  let _ ← result.mapError .runtime
  return i.values.toJson

end Command

end Recalc
