import Recalc.Expr.Error

/-! The flat form of a verb expression: a token and its operands in order. -/
namespace Recalc

/-- One operand of a flat form. -/
inductive Operand where
  | expr (e : Expr)
  | func (lambda : Lambda)

def Operand.text : Operand → String
  | .expr e => e.text
  | .func lambda =>
    s!"func#{lambda.id} {lambda.body.text} context=" ++ lambda.context.elim "none" Expr.text

/-- The expression that an operand is, for a token that takes no function there. -/
def Operand.toExpr (token : Token) : Operand → Except DefinitionError Expr
  | .expr e => .ok e
  | .func _ => .error (.unexpectedFunction token)

namespace Expr

/-- The flat form of a reference or a verb. Literals have none. -/
def flatten : Expr → Option (Token × List Operand)
  | root => some (.root, [])
  | val _ => some (.val, [])
  | key _ => some (.key, [])
  | context _ => some (.context, [])
  | literal _ => none
  | array _ => none
  | object _ => none
  | get o k => some (.get, [.expr k, .expr o])
  | iterate verb source lambda body ctx =>
    some (verb.token, .func ⟨lambda, body, ctx⟩ :: .expr source :: ctx.toList.map .expr)
  | unary verb operand => some (verb.token, [.expr operand])
  | range stop start step => some (.range, [.expr stop, .expr start, .expr step])
  | ternary condition consequent alternative =>
    some (.ternary, [.expr condition, .expr consequent, .expr alternative])
  | and items => some (.and, items.map .expr)
  | or items => some (.or, items.map .expr)
  | binary verb left right => some (verb.token, [.expr left, .expr right])
  | call function receiver args =>
    some (.call, .expr (literal (.str function)) :: .expr receiver :: args.map .expr)
  | shared _ e => flatten e

def tooFew (token : Token) : Except DefinitionError Expr :=
  .error (.arity token token.info.arity 0)

/-- An iteration from a function, a source, and perhaps a context that replaces the function's. -/
def assembleIteration (token : Token) (verb : CollectionVerb) :
    List Operand → Except DefinitionError Expr
  | .func lambda :: source :: rest => do
    let source ← source.toExpr token
    match rest with
    | [] => return iterate verb source lambda.id lambda.body lambda.context
    | ctx :: _ => return iterate verb source lambda.id lambda.body (some (← ctx.toExpr token))
  | [.func _] => tooFew token
  | _ => .error (.expectedFunction token)

/-- The name of the function that a call names. -/
def functionName (token : Token) : Expr → Except DefinitionError String
  | literal (.str name) => .ok name
  | shared _ e => functionName token e
  | e => .error (.invalidOperand token (.functionName e))

/-- Verbs and references outside of the three families. -/
def assembleOther (token : Token) (operands : List Operand) : Except DefinitionError Expr :=
  match token, operands with
  | .root, _ => .ok root
  | .val, _ | .key, _ | .context, _ => .error (.unboundReference token)
  | .arg0, _ | .arg1, _ => .error (.invalidOperand token .setterArgument)
  | .and, items => return and (← items.mapM (·.toExpr token))
  | .or, items => return or (← items.mapM (·.toExpr token))
  | .ternary, a :: b :: c :: _ =>
    return ternary (← a.toExpr token) (← b.toExpr token) (← c.toExpr token)
  | .get, k :: o :: _ => do
    let k ← k.toExpr token
    return get (← o.toExpr token) k
  | .range, stop :: rest => do
    let stop ← stop.toExpr token
    match rest with
    | [] => return range stop (literal (.int 0)) (literal (.int 1))
    | [start] => return range stop (← start.toExpr token) (literal (.int 1))
    | start :: step :: _ => return range stop (← start.toExpr token) (← step.toExpr token)
  | .call, name :: receiver :: args => do
    let function ← functionName token (← name.toExpr token)
    return call function (← receiver.toExpr token) (← args.mapM (·.toExpr token))
  | .ternary, _ | .get, _ | .range, _ | .call, _ => tooFew token
  | _, _ => .error (.internal token)

/-- The expression with a given flat form. Internal tokens, wrong numbers of operands and functions
out of place are refused, in this order. -/
def assemble (token : Token) (operands : List Operand) : Except DefinitionError Expr :=
  let info := token.info
  if info.internal then .error (.internal token)
  else if !info.arity.admits (operands.length + 1) then
    .error (.arity token info.arity (operands.length + 1))
  else match CollectionVerb.ofToken? token, UnaryVerb.ofToken? token, BinaryVerb.ofToken? token with
    | some verb, _, _ => assembleIteration token verb operands
    | none, some verb, _ => match operands with
      | a :: _ => return unary verb (← a.toExpr token)
      | [] => tooFew token
    | none, none, some verb => match operands with
      | a :: b :: _ => return binary verb (← a.toExpr token) (← b.toExpr token)
      | _ => tooFew token
    | none, none, none => assembleOther token operands

/-- Applies a token with an expression as receiver; the arguments are the other operands. -/
def chain (e : Expr) (token : Token) (args : List Operand) : Except DefinitionError Expr :=
  let info := token.info
  if info.terminal then .error (.notAVerb token)
  else match info.receiver with
    | none => .error (.notChainable token)
    | some position =>
      let before := min (position - 1) args.length
      assemble token (args.take before ++ .expr e :: args.drop before)

end Expr

end Recalc
