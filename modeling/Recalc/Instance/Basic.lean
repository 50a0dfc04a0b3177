import Recalc.Graph.Evaluation
import Recalc.Pass.Basic
import Recalc.Path.Write

/-! Live instances of a program: a document, the outputs last committed, and mutators. A failed
mutation or recalculation leaves document and outputs as they were. -/
namespace Recalc

/-- How many arguments a mutator takes. -/
inductive ArgumentCount where
  | exactly (n : Nat)
  | path (n : Nat)
  | atLeast (n : Nat)
  deriving DecidableEq

def ArgumentCount.text : ArgumentCount → String
  | .exactly n => s!"exactly {n}"
  | .path n => s!"{n} path"
  | .atLeast n => s!"at least {n}"

/-- Why arguments of a mutator cannot be used. -/
inductive MutatorFault where
  | notASetter
  | notASplice
  | start
  | deleteCount
  deriving DecidableEq

def MutatorFault.message : MutatorFault → String
  | .notASetter => "is a splice, not a setter"
  | .notASplice => "is a setter, not a splice"
  | .start => "splice start must be an integer"
  | .deleteCount => "splice delete count must be an integer"

/-- Why a step of an instance fails. -/
inductive RuntimeError where
  | unknownMutator (name : String)
  | argumentCount (name : String) (expected : ArgumentCount) (found : Nat)
  | invalidArgument (name : String) (fault : MutatorFault)
  | path (e : PathError)
  | eval (e : EvalError)
  | batchInProgress
  | noBatchInProgress
  | unknownFunction (name : String)

def RuntimeError.message : RuntimeError → String
  | .unknownMutator name => s!"unknown mutator `{name}`"
  | .argumentCount name expected found => s!"`{name}` takes {expected.text} arguments, got {found}"
  | .invalidArgument name fault => s!"invalid argument for `{name}`: {fault.message}"
  | .path e => e.message
  | .eval e => e.message
  | .batchInProgress => "a batch is already in progress"
  | .noBatchInProgress => "no batch is in progress"
  | .unknownFunction name => s!"the function library does not define `{name}`"

/-- What a backend keeps between recalculations. -/
inductive Engine where
  | simple
  | optimizing (g : Graph)

def Engine.start : Backend → Engine
  | .simple => .simple
  | .optimizing => .optimizing .empty

/-- Recalculates all outputs over a document. -/
def Engine.refresh (p : Program) (lib : Library) (model : Value) :
    Engine → Except EvalError (List Value) × Engine × Work
  | .simple =>
    let (result, work) := Pass.run p lib model
    (result, .simple, work)
  | .optimizing g =>
    let (result, g, work) := g.refresh p lib model
    (result, .optimizing g, work)

/-- A program at work on a document. A batch in progress holds the document from before it. -/
structure Instance where
  program : Program
  library : Library
  engine : Engine
  model : Value
  outputs : List Value
  snapshot : Option Value
  /-- The work of the last recalculation. -/
  work : Work
  /-- The library calls of all recalculations, in order. -/
  journal : Array Call

/-- A step of an instance. Its effects stay when it fails. -/
abbrev Step := ExceptT RuntimeError (StateM Instance)

namespace Instance

/-- Starts a program on a document. -/
def create (p : Program) (model : Value) (lib : Library) : Except RuntimeError Instance :=
  match p.functions.find? fun f => !lib.contains f with
  | some missing => .error (.unknownFunction missing)
  | none =>
    let (result, engine, work) := (Engine.start p.backend).refresh p lib model
    match result with
    | .error e => .error (.eval e)
    | .ok outputs => .ok {
        program := p, library := lib, engine, model, outputs, snapshot := none, work
        journal := work.calls }

/-! ### Looking -/

def isBatching (i : Instance) : Bool := i.snapshot.isSome

/-- The value of an output, as last committed. -/
def get? (i : Instance) (name : String) : Option Value :=
  Fields.get? name ((i.program.outputs.map Prod.fst).zip i.outputs)

/-- All outputs as one object. -/
def values (i : Instance) : Value :=
  .obj (Fields.ofList ((i.program.outputs.map Prod.fst).zip i.outputs))

/-! ### Recalculating -/

/-- Recalculates over the current document. -/
def recalculate : StateM Instance (Except EvalError (List Value)) := fun i =>
  let (result, engine, work) := i.engine.refresh i.program i.library i.model
  (result, { i with engine, work, journal := i.journal ++ work.calls })

/-- Goes back to a document, and recalculates the outputs over it. -/
def restore (rollback : Value) : StateM Instance Unit := do
  modify fun i => { i with model := rollback }
  match ← recalculate with
  | .ok outputs => modify fun i => { i with outputs }
  | .error _ => pure ()

/-- Recalculates the outputs. On failure the document goes back to the given one, and the outputs
are recalculated over that. -/
def commit (rollback : Value) : Step Unit := do
  match ← recalculate with
  | .ok outputs => modify fun i => { i with outputs }
  | .error e =>
    restore rollback
    throw (.eval e)

/-- Takes a new document, and recalculates unless a batch is in progress. -/
def apply (next : Value) : Step Unit := do
  let i ← get
  set { i with model := next }
  if i.isBatching then return
  commit i.model

/-! ### Mutators -/

/-- The mutator of a name, which must be of a kind. -/
def mutator (p : Program) (name : String) (kind : MutatorKind) : Except RuntimeError Mutator :=
  match p.mutator? name with
  | none => .error (.unknownMutator name)
  | some m =>
    if m.kind = kind then .ok m
    else .error (.invalidArgument name (match kind with
      | .set => .notASetter
      | .splice => .notASplice))

/-- The document after a setter, which takes the arguments of its path and then a value. -/
def afterSet (p : Program) (model : Value) (name : String) (args : List Value) :
    Except RuntimeError Value := do
  let m ← mutator p name .set
  if args.length ≠ m.arity + 1 then
    .error (.argumentCount name (.exactly (m.arity + 1)) args.length)
  else
    let keys ← (Path.resolve m.path args.dropLast).mapError .path
    (Path.set model keys (args.getLastD .null)).mapError .path

/-- The document after a splice. -/
def afterSplice (p : Program) (model : Value) (name : String) (args : List Value) (start : Int)
    (deleted : Nat) (inserted : List Value) : Except RuntimeError Value := do
  let m ← mutator p name .splice
  if args.length ≠ m.arity then
    .error (.argumentCount name (.path m.arity) args.length)
  else
    let keys ← (Path.resolve m.path args).mapError .path
    (Path.splice model keys start deleted inserted).mapError .path

def set (name : String) (args : List Value) : Step Unit := do
  let i ← MonadState.get
  apply (← MonadExcept.ofExcept (afterSet i.program i.model name args))

def splice (name : String) (args : List Value) (start : Int) (deleted : Nat)
    (inserted : List Value) : Step Unit := do
  let i ← MonadState.get
  apply (← MonadExcept.ofExcept (afterSplice i.program i.model name args start deleted inserted))

/-- The parts of a splice in flat arguments: where it starts, how many elements go, and those that
come. Without a count everything after the start goes. -/
def spliceParts (name : String) : List Value → Except RuntimeError (Int × Nat × List Value)
  | [] => .error (.invalidArgument name .start)
  | start :: rest => do
    let start ← match start.toInt? with
      | some n => pure n
      | none => .error (.invalidArgument name .start)
    match rest with
    | [] => return (start, Word.capacity - 1, [])
    | count :: items => match count.toInt? with
      | some n => return (start, n.toNat, items)
      | none => .error (.invalidArgument name .deleteCount)

/-- Calls any mutator with flat arguments. -/
def invoke (name : String) (args : List Value) : Step Unit := do
  let i ← MonadState.get
  match i.program.mutator? name with
  | none => throw (.unknownMutator name)
  | some m => match m.kind with
    | .set => set name args
    | .splice =>
      if args.length ≤ m.arity then
        throw (.argumentCount name (.atLeast (m.arity + 1)) args.length)
      let (start, deleted, items) ←
        MonadExcept.ofExcept (spliceParts name (args.drop m.arity))
      splice name (args.take m.arity) start deleted items

/-! ### Batches -/

/-- Puts off recalculation until the batch ends. -/
def startBatch : Step Unit := do
  let i ← MonadState.get
  if i.isBatching then throw .batchInProgress
  MonadState.set { i with snapshot := some i.model }

/-- Recalculates once for all mutations of a batch. On failure the document is that from before the
batch. -/
def endBatch : Step Unit := do
  let i ← MonadState.get
  match i.snapshot with
  | none => throw .noBatchInProgress
  | some before =>
    MonadState.set { i with snapshot := none }
    commit before

/-- Drops the mutations of a batch in progress. -/
def abandon (i : Instance) : Instance :=
  match i.snapshot with
  | some before => { i with model := before, snapshot := none }
  | none => i

/-- Runs steps inside a batch. If they fail their mutations are dropped. The steps may have effects
of their own, which stay. -/
def batch {m : Type → Type} [Monad m] {α : Type}
    (steps : ExceptT RuntimeError (StateT Instance m) α) :
    ExceptT RuntimeError (StateT Instance m) α := fun i =>
  match startBatch i with
  | (.error e, i) => pure (.error e, i)
  | (.ok _, i) => do
    match ← steps i with
    | (.error e, i) => pure (.error e, i.abandon)
    | (.ok a, i) => match endBatch i with
      | (.error e, i) => pure (.error e, i)
      | (.ok _, i) => pure (.ok a, i)

end Instance

end Recalc
