import Recalc.Expr.Exact
import Recalc.Program.Basic
import Std.Data.TreeMap

/-! Lowering expressions into a table in which equal nodes are one. A shared expression is lowered
on its first occurrence only. -/
namespace Recalc

/-! ### Sets of functions, as increasing lists -/

namespace LambdaSet

def insert (l : LambdaId) : List LambdaId → List LambdaId
  | [] => [l]
  | m :: rest => if l < m then l :: m :: rest else if l = m then m :: rest else m :: insert l rest

def union (a b : List LambdaId) : List LambdaId := b.foldl (fun s l => insert l s) a

def erase (l : LambdaId) (s : List LambdaId) : List LambdaId := s.filter (· ≠ l)

def unions (sets : List (List LambdaId)) : List LambdaId := sets.foldl union []

end LambdaSet

/-! ### Tables -/

/-- Nodes so far, the names of the library functions that they call, and the nodes of shared
expressions by label. -/
structure NodeTable where
  entries : Array Entry
  functions : Fields Unit
  shared : Std.TreeMap Nat (Expr × NodeId)

namespace NodeTable

def empty : NodeTable := ⟨#[], [], .empty⟩

def entry (t : NodeTable) (id : NodeId) : Entry := t.entries.getD id default

/-- The functions that a node reads from outside, by what its parts read. An iteration binds its
function in its body alone. -/
def outside (t : NodeTable) (read : Entry → List LambdaId) : Node → List LambdaId
  | .iterate _ source lambda body ctx =>
    LambdaSet.union
      (LambdaSet.unions ((source :: ctx.toList).map fun c => read (t.entry c)))
      (LambdaSet.erase lambda (read (t.entry body)))
  | node => LambdaSet.unions (node.children.map fun c => read (t.entry c))

def free (t : NodeTable) : Node → List LambdaId
  | .val l => [l]
  | .key l => [l]
  | .context l => [l]
  | node => t.outside Entry.free node

def contexts (t : NodeTable) : Node → List LambdaId
  | .context l => [l]
  | node => t.outside Entry.contexts node

/-- The node's place in the table, a new one if no equal node has one. -/
def intern (t : NodeTable) (node : Node) : NodeId × NodeTable :=
  match t.entries.findIdx? (fun e => e.node == node) with
  | some id => (id, t)
  | none =>
    (t.entries.size, { t with entries := t.entries.push ⟨node, t.free node, t.contexts node⟩ })

/-- The node of a shared expression that has been lowered. -/
def sharedNode? (t : NodeTable) (label : Nat) (e : Expr) : Option NodeId :=
  (t.shared.get? label).bind fun (known, id) => if known.exact e then some id else none

/-- The literals that all of some nodes are. -/
def literals? (t : NodeTable) (ids : List NodeId) : Option (List Value) :=
  ids.mapM fun id => (t.entry id).node.literal?

end NodeTable

/-! ### Expressions -/

/-- Why a model does not compile. -/
inductive ScopeError where
  | unboundVariable (output : String)
  | missingContext (output : String)
  deriving DecidableEq

def ScopeError.message : ScopeError → String
  | .unboundVariable output => s!"output `{output}` reads a lambda variable outside of its function"
  | .missingContext output =>
    s!"output `{output}` reads `context` of a function declared without one"

/-- Lowering, which grows a table of nodes. -/
abbrev LowerM := StateT NodeTable (Except ScopeError)

namespace Lowering

def intern (node : Node) : LowerM NodeId := fun t => .ok (t.intern node)

/-- An array of constants is a constant. -/
def internArray (items : List NodeId) : LowerM NodeId := do
  match (← get).literals? items with
  | some values => intern (.literal (.arr values))
  | none => intern (.array items)

/-- An object of constants is a constant. -/
def internObject (fields : List (String × NodeId)) : LowerM NodeId := do
  match (← get).literals? (fields.map Prod.snd) with
  | some values => intern (.literal (.obj (Fields.ofList ((fields.map Prod.fst).zip values))))
  | none => intern (.object fields)

/-- An iteration whose body reads its context must have one. -/
def internIteration (output : String) (verb : CollectionVerb) (source : NodeId) (lambda : LambdaId)
    (body : NodeId) (ctx : Option NodeId) : LowerM NodeId := do
  if ctx.isNone && ((← get).entry body).contexts.contains lambda then
    throw (.missingContext output)
  intern (.iterate verb source lambda body ctx)

def addFunction (name : String) : LowerM Unit :=
  modify fun t => { t with functions := Fields.insert name () t.functions }

mutual

/-- The node for an expression of the named output. -/
def expr (output : String) : Expr → LowerM NodeId
  | .root => intern .root
  | .val l => intern (.val l)
  | .key l => intern (.key l)
  | .context l => intern (.context l)
  | .literal v => intern (.literal v)
  | .array items => do internArray (← exprs output items)
  | .object fields => do internObject (← fieldExprs output fields)
  | .get o k => do
    let o ← expr output o
    let k ← expr output k
    intern (.get o k)
  | .iterate verb source lambda body ctx => do
    let source ← expr output source
    let ctx ← optionExpr output ctx
    let body ← expr output body
    internIteration output verb source lambda body ctx
  | .unary verb operand => do intern (.unary verb (← expr output operand))
  | .range stop start step => do
    let stop ← expr output stop
    let start ← expr output start
    let step ← expr output step
    intern (.range stop start step)
  | .ternary condition consequent alternative => do
    let condition ← expr output condition
    let consequent ← expr output consequent
    let alternative ← expr output alternative
    intern (.ternary condition consequent alternative)
  | .and items => do intern (.and (← exprs output items))
  | .or items => do intern (.or (← exprs output items))
  | .binary verb left right => do
    let left ← expr output left
    let right ← expr output right
    intern (.binary verb left right)
  | .call function receiver args => do
    addFunction function
    let receiver ← expr output receiver
    let args ← exprs output args
    intern (.call function (receiver :: args))
  | .shared label e => do
    match (← get).sharedNode? label e with
    | some id => return id
    | none =>
      let id ← expr output e
      modify fun t => { t with shared := t.shared.insert label (e, id) }
      return id

def exprs (output : String) : List Expr → LowerM (List NodeId)
  | [] => return []
  | e :: rest => do
    let id ← expr output e
    return id :: (← exprs output rest)

def fieldExprs (output : String) : List (String × Expr) → LowerM (List (String × NodeId))
  | [] => return []
  | (k, e) :: rest => do
    let id ← expr output e
    return (k, id) :: (← fieldExprs output rest)

def optionExpr (output : String) : Option Expr → LowerM (Option NodeId)
  | none => return none
  | some e => return some (← expr output e)

end

end Lowering

end Recalc
