import Recalc.Library
import Recalc.Program.Combine
import Recalc.Value.Code
import Recalc.Verb.Collection

/-! Recalculation from scratch: every output is evaluated anew. Within one pass the bindings of
functions are numbered, and iterations and calls are remembered for each choice of the bindings that
they read. -/
namespace Recalc.Pass

/-- The number of a binding within a pass. There is no bound on it: numbers of 32 bits are these for
the first 2³² bindings of a pass. -/
abbrev BindingId := Nat

/-- What tells one binding of a function from another: the iteration that makes it, the bindings
around that iteration, and the key of the element. -/
structure BindingKey where
  iteration : NodeId
  outer : List BindingId
  key : Value

instance : BEq BindingKey :=
  ⟨fun a b => a.iteration = b.iteration && a.outer = b.outer && a.key == b.key⟩

instance : Coded BindingKey where
  code k := mixCode (k.outer.foldl mixCode k.iteration) (Coded.code k.key)
  code_eq a b h := by
    simp only [BEq.beq, Bool.and_eq_true, decide_eq_true_eq] at h
    rw [h.1.1, h.1.2, Coded.code_eq _ _ h.2]

/-- A node and the bindings that it reads. -/
structure MemoKey where
  node : NodeId
  bindings : List BindingId
  deriving DecidableEq

instance : Coded MemoKey where
  code k := k.bindings.foldl mixCode k.node
  code_eq a b h := by rw [eq_of_beq h]

/-- What a function's references stand for while its body is evaluated. -/
structure Binding where
  lambda : LambdaId
  val : Value
  key : Value
  context : Option Value
  id : BindingId

/-- The bindings around a place, the innermost first. -/
abbrev Env := List Binding

def Env.find? (env : Env) (lambda : LambdaId) : Option Binding :=
  List.find? (fun b => b.lambda = lambda) env

def Env.lookup (env : Env) (lambda : LambdaId) : Except EvalError Binding :=
  match Env.find? env lambda with
  | some b => .ok b
  | none => .error (.argument (.unbound lambda))

/-- The context of a function's binding. -/
def Env.context (env : Env) (lambda : LambdaId) : Except EvalError Value := do
  match (← Env.lookup env lambda).context with
  | some v => return v
  | none => .error (.argument (.unbound lambda))

/-- The bindings that a node reads. -/
def bindingsRead (p : Program) (id : NodeId) (env : Env) : List BindingId :=
  (p.free id).filterMap fun l => (Env.find? env l).map Binding.id

section Step
variable {m : Type → Type} [Monad m] [MonadExceptOf EvalError m]

/-- The value of the context of an iteration, if it has one. -/
def contextValue (eval : NodeId → m Value) : Option NodeId → m (Option Value)
  | none => return none
  | some c => some <$> eval c

/-- The value of a node over a document, with its parts evaluated by the given evaluator. An access
evaluates the object before the key, an iteration its source before its context. -/
def step (p : Program) (model : Value) (invoke : String → List Value → m Value)
    (number : BindingKey → m BindingId) (eval : NodeId → Env → m Value) (id : NodeId) (env : Env) :
    m Value :=
  match p.node id with
  | .root => pure model
  | .literal v => pure v
  | .val l => do
    let b ← MonadExcept.ofExcept (Env.lookup env l)
    return b.val
  | .key l => do
    let b ← MonadExcept.ofExcept (Env.lookup env l)
    return b.key
  | .context l => MonadExcept.ofExcept (Env.context env l)
  | .get o k => do
    let o ← eval o env
    let k ← eval k env
    MonadExcept.ofExcept (o.get k)
  | .iterate verb source lambda body ctx => do
    let source ← eval source env
    let ctx ← contextValue (fun c => eval c env) ctx
    let outer := bindingsRead p id env
    verb.iterate source fun key element => do
      let binding ← number ⟨id, outer, key⟩
      eval body (⟨lambda, element, key, ctx, binding⟩ :: env)
  | node => node.combine (fun c => eval c env) invoke

end Step

/-- Values remembered within a pass, the bindings numbered in it, how many there are, and the work
done. -/
structure State where
  memo : Table MemoKey Value
  numbers : Table BindingKey BindingId
  count : Nat
  work : Work

def State.start : State := ⟨.empty, .empty, 0, .none⟩

abbrev PassM := ExceptT EvalError (StateM State)

/-- The number of a binding, a new one on first use. -/
def number (key : BindingKey) : PassM BindingId := do
  match (← get).numbers.find? key with
  | some n => return n
  | none => modifyGet fun s =>
      (s.count, { s with numbers := s.numbers.insert key s.count, count := s.count + 1 })

/-- Calls a library function and keeps a record of it. -/
def invoke (lib : Library) (function : String) (args : List Value) : PassM Value := do
  let v ← MonadExcept.ofExcept (lib.call function args)
  modify fun s => { s with work := s.work.recordCall ⟨function, args⟩ }
  return v

/-- Evaluates a node, with its parts evaluated by the given evaluator, or recalls its value. -/
def evalWith (p : Program) (lib : Library) (model : Value) (eval : NodeId → Env → PassM Value)
    (id : NodeId) (env : Env) : PassM Value := do
  let compute : PassM Value := do
    modify fun s => { s with work := s.work.countEvaluation }
    step p model (invoke lib) number eval id env
  if (p.node id).hoist || (p.node id).isCall then
    let key : MemoKey := ⟨id, bindingsRead p id env⟩
    match (← get).memo.find? key with
    | some v => return v
    | none =>
      let v ← compute
      modify fun s => { s with memo := s.memo.insert key v }
      return v
  else compute

/-- The value of a node. The parts of a node come before it, so a node's position bounds the
depth. -/
def eval (p : Program) (lib : Library) (model : Value) : Nat → NodeId → Env → PassM Value
  | 0, _, _ => throw .tooDeep
  | fuel + 1, id, env => evalWith p lib model (eval p lib model fuel) id env

/-- The values of all outputs in order, and the work done for them. -/
def run (p : Program) (lib : Library) (model : Value) : Except EvalError (List Value) × Work :=
  let outputs := p.outputs.mapM fun (_, id) => eval p lib model (id + 1) id []
  let (result, state) := outputs.run .start
  (result, state.work)

end Recalc.Pass
