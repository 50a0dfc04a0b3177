import Recalc.Model.Reader
import Recalc.Program.Lowering

/-! Compiling a model, from its definitions or from its text. -/
namespace Recalc

/-- Why a text does not compile. -/
inductive CompileError where
  | json
  | definition (e : DefinitionError)
  | scope (e : ScopeError)

/-- The message of an error, except for malformed text. -/
def CompileError.message? : CompileError → Option String
  | .json => none
  | .definition e => some e.message
  | .scope e => some e.message

namespace Backend

def name : Backend → String
  | simple => "simple"
  | optimizing => "optimizing"

def ofName? : String → Option Backend
  | "simple" => some simple
  | "optimizing" => some optimizing
  | _ => none

/-- The message for a name that is no backend's. -/
def unknownMessage (name : String) : String :=
  s!"unknown compiler `{name}` (expected `simple` or `optimizing`)"

end Backend

namespace Program

/-- An output's node must not read a function from outside. -/
def lowerOutput (name : String) (e : Expr) : LowerM NodeId := do
  let id ← Lowering.expr name e
  if ((← get).entry id).free ≠ [] then throw (.unboundVariable name)
  return id

/-- Outputs and their nodes, in the order of their names. -/
def lowerOutputs : List (String × Definition) → LowerM (List (String × NodeId))
  | [] => return []
  | (name, .output e) :: rest => do
    let id ← lowerOutput name e
    return (name, id) :: (← lowerOutputs rest)
  | (_, .setter _) :: rest => lowerOutputs rest
  | (_, .splice _) :: rest => lowerOutputs rest

def mutatorOf? : Definition → Option Mutator
  | .output _ => none
  | .setter path => some ⟨.set, path⟩
  | .splice path => some ⟨.splice, path⟩

/-- Every reference of an output must be bound by a function around it in that output. -/
def compile (model : Model) (backend : Backend) : Except ScopeError Program := do
  let (outputs, table) ← (lowerOutputs model.definitions).run NodeTable.empty
  return {
    backend
    entries := table.entries
    outputs
    mutators := model.definitions.filterMap fun (name, d) => (mutatorOf? d).map (name, ·)
    functions := Fields.keys table.functions }

/-- Compiles the model that a text is. -/
def compileText (text : String) (backend : Backend) : Except CompileError Program :=
  match Json.parse? text with
  | none => .error .json
  | some document => match Model.ofJson document with
    | .error e => .error (.definition e)
    | .ok model => (compile model backend).mapError .scope

end Program

/-- The backend that options ask for: an object or a list with at most that one entry, which is a
name, or an object from the name to null. -/
def Backend.ofOptions? (text : String) : Option Backend := do
  let document ← Json.read? text
  let choice (j : Json) : Option Backend := match j with
    | .str name => ofName? name
    | .obj [(name, .null)] => ofName? name
    | _ => none
  match document with
  | .obj [] => some optimizing
  | .arr [] => some optimizing
  | .obj [("compiler", j)] => choice j
  | .arr [j] => choice j
  | _ => none

end Recalc
