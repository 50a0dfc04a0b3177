import Recalc.Graph.Sweep
import Recalc.Library
import Recalc.Program.Combine
import Recalc.Verb.Collection

/-! Recalculation over a graph of cells. A read first verifies the cells that the last computation
read, in order; a cell is computed again only if one of them has changed since. -/
namespace Recalc

namespace CellEnv
variable {ι : Type}

def lookup (env : CellEnv ι) (lambda : LambdaId) : Except EvalError (CellBinding ι) :=
  match env.find? fun e => e.1 = lambda with
  | some (_, b) => .ok b
  | none => .error (.argument (.unbound lambda))

def context (env : CellEnv ι) (lambda : LambdaId) : Except EvalError (Handle ι) := do
  match (← lookup env lambda).context with
  | some h => return h
  | none => .error (.argument (.noContext lambda))

def insertBinding (lambda : LambdaId) (b : CellBinding ι) : CellEnv ι → CellEnv ι
  | [] => [(lambda, b)]
  | (l, c) :: rest =>
    if l < lambda then (l, c) :: insertBinding lambda b rest else (lambda, b) :: (l, c) :: rest

/-- Binds a function, in place of an earlier binding of it. -/
def bind (env : CellEnv ι) (lambda : LambdaId) (b : CellBinding ι) : CellEnv ι :=
  insertBinding lambda b (env.filter fun e => e.1 ≠ lambda)

/-- The bindings of the functions that a node reads. -/
def restrict (p : Program) (id : NodeId) (env : CellEnv ι) : CellEnv ι :=
  env.filter fun e => (p.free id).contains e.1

end CellEnv

/-! ### Nodes -/

/-- How an evaluation gets at cells: the name of the document's cell, the name of the cell for a
key, and the value of a cell. -/
structure CellAccess (m : Type → Type) (ι : Type) where
  model : ι
  intern : CellKey ι → m ι
  pull : ι → m Value

namespace CellAccess
variable {m : Type → Type} [Monad m] [MonadExceptOf EvalError m] {ι : Type}
variable (cells : CellAccess m ι) (p : Program)

@[specialize]
def read : Handle ι → m Value
  | .const v => return v
  | .cell id => cells.pull id

/-- Where the value of a node comes from. An access to a cell is a slot of it, for which only the
key is read. -/
@[specialize]
def handleWithin : Nat → NodeId → CellEnv ι → m (Handle ι)
  | 0, _, _ => throw .tooDeep
  | fuel + 1, id, env => match p.node id with
    | .literal v => return .const v
    | .root => return .cell cells.model
    | .val l => do
      let b ← MonadExcept.ofExcept (CellEnv.lookup env l)
      return b.val
    | .key l => do
      let b ← MonadExcept.ofExcept (CellEnv.lookup env l)
      return .const b.key
    | .context l => MonadExcept.ofExcept (CellEnv.context env l)
    | .get o k => do
      let o ← handleWithin fuel o env
      let k ← handleWithin fuel k env
      let key ← cells.read k
      match o with
      | .cell source => return .cell (← cells.intern (.slot source key))
      | .const v => return .const (← MonadExcept.ofExcept (v.get key))
    | _ => return .cell (← cells.intern (.node id (CellEnv.restrict p id env)))

/-- Where the value of a node comes from. The parts of a node come before it, so its position bounds
the depth. -/
@[specialize]
def handle (id : NodeId) (env : CellEnv ι) : m (Handle ι) := cells.handleWithin p (id + 1) id env

@[specialize]
def readNode (id : NodeId) (env : CellEnv ι) : m Value := do
  let h ← cells.handle p id env
  cells.read h

/-- What an element of an iteration is bound to: a slot of the source, or the element itself when
the source is a constant. -/
@[specialize]
def elementHandle (source : Handle ι) (key element : Value) : m (Handle ι) :=
  match source with
  | .cell id => return .cell (← cells.intern (.slot id key))
  | .const _ => return .const element

/-- Where the context of an iteration comes from. It is read even if the body never does. -/
@[specialize]
def contextHandle (env : CellEnv ι) : Option NodeId → m (Option (Handle ι))
  | none => return none
  | some c => do
    let h ← cells.handle p c env
    let _ ← cells.read h
    return some h

/-- The value of a node under bindings. -/
@[specialize]
def evalNode (invoke : String → List Value → m Value) (id : NodeId) (env : CellEnv ι) : m Value :=
  match p.node id with
  | .root | .literal _ | .val _ | .key _ | .context _ | .get _ _ => cells.readNode p id env
  | .iterate verb source lambda body ctx => do
    let source ← cells.handle p source env
    let elements ← cells.read source
    let ctx ← cells.contextHandle p env ctx
    verb.iterate elements fun key element => do
      let val ← cells.elementHandle source key element
      cells.readNode p body (CellEnv.bind env lambda ⟨val, key, ctx⟩)
  | node => node.combine (fun c => cells.readNode p c env) invoke

end CellAccess

namespace Graph

/-- A graph during a recalculation, with the cells read by the current computation, the last first,
the cells computed so far, the last first, and the library calls so far. -/
structure State where
  graph : Graph
  reads : List CellId := []
  computed : List CellId := []
  calls : Array Call := #[]

abbrev CellM := ExceptT EvalError (StateM State)

/-! ### Reading -/

def internCell (key : CellKey CellId) : CellM CellId := do
  let s ← get
  let (id, graph) := s.graph.intern key
  set { s with graph }
  return id

/-- Brings a cell up to date, notes that it was read, and gives its value. -/
def pull (verify : CellId → CellM Unit) (id : CellId) : CellM Value := do
  verify id
  modify fun s => { s with reads := id :: s.reads }
  return (← get).graph.value id

/-- The cells of the graph, brought up to date as they are read. -/
def access (verify : CellId → CellM Unit) : CellAccess CellM CellId where
  model := modelCell
  intern := internCell
  pull := pull verify

/-- Calls a library function and keeps a record of it. -/
def invoke (lib : Library) (function : String) (args : List Value) : CellM Value := do
  let v ← MonadExcept.ofExcept (lib.call function args)
  modify fun s => { s with calls := s.calls.push ⟨function, args⟩ }
  return v

/-- The value that a key stands for. -/
def compute (p : Program) (lib : Library) (verify : CellId → CellM Unit) :
    CellKey CellId → CellM Value
  | .slot source key => do
    let _ ← pull verify source
    MonadExcept.ofExcept (((← get).graph.cell source).access.val key)
  | .node id env => (access verify).evalNode p (invoke lib) id env
  | .model => return (← get).graph.value modelCell
  | .vacant => return (← get).graph.value modelCell

/-! ### Verifying -/

/-- Computes a cell and keeps the value with the cells read for it. A failed computation leaves the
cell as it was. -/
def recompute (compute : CellKey CellId → CellM Value) (id : CellId) : CellM Unit :=
  ExceptT.mk fun s =>
    let (result, t) := (compute (s.graph.cell id).key).run { s with reads := [] }
    match result with
    | .error e => (.error e, { t with reads := s.reads })
    | .ok v => (.ok (), { t with
        graph := t.graph.store id v t.reads.reverse
        reads := s.reads
        computed := id :: t.computed })

/-- Verifies cells in order up to the first that changed after the given revision, and tells whether
there is one. -/
def anyChanged (verify : CellId → CellM Unit) (since : Revision) : List CellId → CellM Bool
  | [] => return false
  | id :: rest => do
    verify id
    if since < ((← get).graph.cell id).changedAt then return true
    anyChanged verify since rest

/-- Brings a cell up to date. The fuel bounds how deep cells read each other. -/
def verify (p : Program) (lib : Library) : Nat → CellId → CellM Unit
  | 0, _ => throw .tooDeep
  | fuel + 1, id => do
    let g := (← get).graph
    let cell := g.cell id
    if cell.key.isModel then return
    else if cell.value.isNone then recompute (compute p lib (verify p lib fuel)) id
    else if cell.verifiedAt = g.revision then return
    else if ← anyChanged (verify p lib fuel) cell.verifiedAt cell.deps then
      recompute (compute p lib (verify p lib fuel)) id
    else modify fun s => { s with graph := s.graph.confirm id }

/-- How deep cells of a program can read each other. A cell reads cells of smaller weight, where the
weight of a node at most doubles from one node of the table to the next. -/
def depthBound (p : Program) : Nat := Nat.pow 4 (p.entries.size + 1)

/-- The cell of an output and its value. -/
def readOutput (p : Program) (lib : Library) (node : NodeId) : CellM (CellId × Value) := do
  let id ← internCell (.node node [])
  let v ← pull (verify p lib (depthBound p)) id
  return (id, v)

/-- Reads all outputs over a document. -/
def readOutputs (p : Program) (lib : Library) (model : Value) (g : Graph) :
    Except EvalError (List (CellId × Value)) × State :=
  let outputs := p.outputs.mapM fun (_, node) => readOutput p lib node
  outputs.run { graph := g.advance.setModel model }

def State.work (s : State) : Work := ⟨s.computed.length, s.calls⟩

/-- Recalculates all outputs over a document. After success the graph is swept if it has grown. -/
def refresh (p : Program) (lib : Library) (model : Value) (g : Graph) :
    Except EvalError (List Value) × Graph × Work :=
  match readOutputs p lib model g with
  | (.error e, s) => (.error e, s.graph, s.work)
  | (.ok cells, s) =>
    let graph := if s.graph.wantsSweep then s.graph.sweep (cells.map Prod.fst) else s.graph
    (.ok (cells.map Prod.snd), graph, s.work)

end Graph

end Recalc
