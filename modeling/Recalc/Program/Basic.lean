import Recalc.Expr.Basic
import Recalc.Path.Basic

/-! Compiled models: a table of nodes that share their common parts. -/
namespace Recalc

/-- The position of a node in its table. There is no bound on it: a table whose positions have 32
bits is this one as long as it has at most 2³² nodes. -/
abbrev NodeId := Nat

/-- One expression whose parts are nodes. The receiver of a call is its first argument. -/
inductive Node where
  | root
  | literal (v : Value)
  | array (items : List NodeId)
  | object (fields : List (String × NodeId))
  | val (lambda : LambdaId)
  | key (lambda : LambdaId)
  | context (lambda : LambdaId)
  | get (object key : NodeId)
  | iterate (verb : CollectionVerb) (source : NodeId) (lambda : LambdaId) (body : NodeId)
    (context : Option NodeId)
  | unary (verb : UnaryVerb) (operand : NodeId)
  | range (stop start step : NodeId)
  | ternary (condition consequent alternative : NodeId)
  | and (items : List NodeId)
  | or (items : List NodeId)
  | binary (verb : BinaryVerb) (left right : NodeId)
  | call (function : String) (args : List NodeId)
  deriving BEq, Inhabited

namespace Node

/-- The parts of a node, a context before the body. -/
def children : Node → List NodeId
  | root => []
  | literal _ => []
  | array items => items
  | object fields => fields.map Prod.snd
  | val _ => []
  | key _ => []
  | context _ => []
  | get o k => [o, k]
  | iterate _ source _ body ctx => source :: ctx.toList ++ [body]
  | unary _ operand => [operand]
  | range stop start step => [stop, start, step]
  | ternary condition consequent alternative => [condition, consequent, alternative]
  | and items => items
  | or items => items
  | binary _ left right => [left, right]
  | call _ args => args

/-- Whether a node is worth computing once for all bindings it does not read. -/
def hoist : Node → Bool
  | iterate verb _ _ _ _ => verb.token.info.hoist
  | unary verb _ => verb.token.info.hoist
  | _ => false

def isCall : Node → Bool
  | call _ _ => true
  | _ => false

def literal? : Node → Option Value
  | literal v => some v
  | _ => none

end Node

/-- A node with the functions it reads from outside, in increasing order: all of them, and those
whose context it reads. -/
structure Entry where
  node : Node
  free : List LambdaId
  contexts : List LambdaId
  deriving Inhabited

/-- The two ways to recalculate outputs. -/
inductive Backend where
  | simple
  | optimizing
  deriving DecidableEq, Repr

inductive MutatorKind where
  | set
  | splice
  deriving DecidableEq, Repr

/-- A compiled mutator. Its arity is the number of arguments that its path takes. -/
structure Mutator where
  kind : MutatorKind
  path : List Segment
  deriving DecidableEq, Repr

def Mutator.arity (m : Mutator) : Nat := Path.arity m.path

/-- A compiled model. Outputs, mutators and functions are in the order of their names. -/
structure Program where
  backend : Backend
  entries : Array Entry
  outputs : List (String × NodeId)
  mutators : List (String × Mutator)
  functions : List String

namespace Program

def entry (p : Program) (id : NodeId) : Entry := p.entries.getD id default

def node (p : Program) (id : NodeId) : Node := (p.entry id).node

def free (p : Program) (id : NodeId) : List LambdaId := (p.entry id).free

def mutator? (p : Program) (name : String) : Option Mutator := Fields.get? name p.mutators

/-- The nodes that outputs depend on, in increasing order. Parts come before the nodes they are part
of, so one walk from the last node down finds them. -/
def reachable (p : Program) : List NodeId :=
  let start := p.outputs.map Prod.snd
  (List.range p.entries.size).reverse.foldl (fun (found, wanted) id =>
    if id ∈ wanted then (id :: found, (p.node id).children ++ wanted) else (found, wanted))
    (([] : List NodeId), start) |>.1

end Program

end Recalc
