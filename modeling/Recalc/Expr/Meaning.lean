import Recalc.Expr.Basic
import Recalc.Library
import Recalc.Verb.Binary
import Recalc.Verb.Collection
import Recalc.Verb.Range
import Recalc.Verb.Unary

/-! What an expression means over a document, read off its tree. The references of a function stand
for the innermost iteration around them that has the function. -/
namespace Recalc.Expr

/-- What the references of one function stand for. -/
structure Local where
  lambda : LambdaId
  val : Value
  key : Value
  context : Option Value

/-- The innermost binding of a function. -/
def find (env : List Local) (lambda : LambdaId) : Except EvalError Local :=
  match env.find? fun b => b.lambda = lambda with
  | some b => .ok b
  | none => .error (.argument (.unbound lambda))

def findContext (env : List Local) (lambda : LambdaId) : Except EvalError Value := do
  match (← find env lambda).context with
  | some v => return v
  | none => .error (.argument (.unbound lambda))

mutual

/-- The value of an expression. Operands are evaluated in order, as far as they are needed; an
access evaluates the object before the key, an iteration its source, its context, and then its body
for each element. -/
def eval (lib : Library) (model : Value) (env : List Local) : Expr → Except EvalError Value
  | root => .ok model
  | val l => (find env l).map Local.val
  | key l => (find env l).map Local.key
  | context l => findContext env l
  | literal v => .ok v
  | array items => (evalItems lib model env items).map .arr
  | object fields => (evalFields lib model env fields).map fun fs => .obj (Fields.ofList fs)
  | get o k => do
    let o ← eval lib model env o
    let k ← eval lib model env k
    o.get k
  | iterate verb source lambda body ctx => do
    let source ← eval lib model env source
    let ctx ← evalOption lib model env ctx
    verb.iterate source fun key element =>
      eval lib model (⟨lambda, element, key, ctx⟩ :: env) body
  | unary verb operand => do
    let v ← eval lib model env operand
    verb.apply v
  | range stop start step => do
    let stop ← eval lib model env stop
    let start ← eval lib model env start
    let step ← eval lib model env step
    Range.apply stop start step
  | ternary condition consequent alternative => do
    let v ← eval lib model env condition
    if v.truthy then eval lib model env consequent else eval lib model env alternative
  | and items => evalWhile lib model env Value.truthy (.bool true) items
  | or items => evalWhile lib model env (fun v => !v.truthy) (.bool false) items
  | binary verb left right => do
    let left ← eval lib model env left
    let right ← eval lib model env right
    verb.apply left right
  | call function receiver args => do
    let receiver ← eval lib model env receiver
    let args ← evalItems lib model env args
    lib.call function (receiver :: args)
  | shared _ e => eval lib model env e

def evalItems (lib : Library) (model : Value) (env : List Local) :
    List Expr → Except EvalError (List Value)
  | [] => .ok []
  | e :: rest => do
    let v ← eval lib model env e
    return v :: (← evalItems lib model env rest)

def evalFields (lib : Library) (model : Value) (env : List Local) :
    List (String × Expr) → Except EvalError (List (String × Value))
  | [] => .ok []
  | (k, e) :: rest => do
    let v ← eval lib model env e
    return (k, v) :: (← evalFields lib model env rest)

def evalOption (lib : Library) (model : Value) (env : List Local) :
    Option Expr → Except EvalError (Option Value)
  | none => .ok none
  | some e => (eval lib model env e).map some

/-- Evaluates operands while their values satisfy a test, and gives the last value. -/
def evalWhile (lib : Library) (model : Value) (env : List Local) (test : Value → Bool)
    (last : Value) : List Expr → Except EvalError Value
  | [] => .ok last
  | e :: rest => do
    let v ← eval lib model env e
    if test v then evalWhile lib model env test v rest else return v

end

end Recalc.Expr
