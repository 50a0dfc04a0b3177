import Recalc.Expr.Flat
import Recalc.Model.Basic

/-! Reading a model from a JSON document. An expression is an array headed by a token's name; the
references to a function's element, key and context say how many functions further out they look. -/
namespace Recalc

/-- Where the reader stands: the number for the next function, and the functions around the current
place, the innermost first. -/
structure Scope where
  next : LambdaId
  enclosing : List LambdaId

/-- Reading, which may fail and moves through scopes either way. -/
abbrev ReadM := ExceptT DefinitionError (StateM Scope)

namespace Reader

/-- Reads a function's body inside of a new function, and leaves the function afterwards whether the
body was read or not. -/
def function (body : ReadM Expr) : ReadM Lambda :=
  ExceptT.mk fun scope =>
    let id := scope.next
    let (result, after) := body.run ⟨id + 1, id :: scope.enclosing⟩
    (result.map fun e => ⟨id, e, none⟩, { after with enclosing := after.enclosing.tail })

/-- How many functions further out a reference looks. -/
def depth (token : Token) : List Json → Except DefinitionError Nat
  | [] => .ok 0
  | [.num n] => match n.toUInt64? with
    | some d => .ok d
    | none => .error (.invalidOperand token (.depth n))
  | operands => .error (.arity token ⟨1, some 2⟩ (operands.length + 1))

/-- The function that a reference belongs to. The place after the depth must be a 64-bit one. -/
def referent (token : Token) (enclosing : List LambdaId) (depth : Nat) :
    Except DefinitionError LambdaId :=
  if Word.capacity ≤ depth + 1 then .error (.depthOverflow token)
  else match enclosing[depth]? with
    | some id => .ok id
    | none => .error (.unboundReference token)

/-- A reference to the element, the key or the context of a function around it. -/
def reference (token : Token) (operands : List Json) : ReadM Expr := do
  let d ← MonadExcept.ofExcept (depth token operands)
  let id ← MonadExcept.ofExcept (referent token (← get).enclosing d)
  return match token with
    | .val => .val id
    | .key => .key id
    | _ => .context id

mutual

def expr : Json → ReadM Expr
  | .arr (.str head :: operands) =>
    if head = "$quote" then
      match operands with
      | [v] => return .literal (Value.ofJson v)
      | _ => throw (.invalidOperand .topLevel .quoteCount)
    else match Token.ofName? head with
      | none => throw (.unknownVerb head)
      | some .val => reference .val operands
      | some .key => reference .key operands
      | some .context => reference .context operands
      | some .func => throw (.unexpectedFunction .func)
      | some token => do
        let operands ← operandList operands
        MonadExcept.ofExcept (Expr.assemble token operands)
  | .arr items => return .array (← itemList items)
  | .obj fields => return .object (← fieldList fields)
  | j => return .literal (Value.ofJson j)

def itemList : List Json → ReadM (List Expr)
  | [] => return []
  | j :: rest => do
    let e ← expr j
    return e :: (← itemList rest)

def fieldList : List (String × Json) → ReadM (List (String × Expr))
  | [] => return []
  | (k, j) :: rest => do
    let e ← expr j
    return (k, e) :: (← fieldList rest)

/-- Operands in order. One headed by the function token is a function and has one body. -/
def operandList : List Json → ReadM (List Operand)
  | [] => return []
  | .arr (.str "func" :: parts) :: rest => do
    let lambda ← match parts with
      | [body] => function (expr body)
      | _ => throw (.arity .func ⟨2, some 2⟩ (parts.length + 1))
    return .func lambda :: (← operandList rest)
  | j :: rest => do
    let e ← expr j
    return .expr e :: (← operandList rest)

end

/-- One step of a mutator's path. -/
def segment : Json → Except DefinitionError Segment
  | .str name => .ok (.field name)
  | .arr [.str "arg0"] => .ok (.arg 0)
  | .arr [.str "arg1"] => .ok (.arg 1)
  | .num n => match n.toUInt64? with
    | some i => .ok (.index i)
    | none => .error (.invalidSegment (.num n))
  | j => .error (.invalidSegment j)

def definition : Json → ReadM Definition
  | .arr (.str "$setter" :: segments) =>
    return .setter (← MonadExcept.ofExcept (segments.mapM segment))
  | .arr (.str "$splice" :: segments) =>
    return .splice (← MonadExcept.ofExcept (segments.mapM segment))
  | j => return .output (← expr j)

/-- Definitions in the order of their names. -/
def definitions : List (String × Json) → ReadM (List (String × Definition))
  | [] => return []
  | (name, j) :: rest => do
    let d ← definition j
    return (name, d) :: (← definitions rest)

/-- A model is an object from names to definitions. -/
def model : Json → ReadM Model
  | .obj fields => return ⟨Fields.ofList (← definitions fields), Fields.sorted_ofList _⟩
  | _ => throw (.invalidOperand .topLevel .notAModel)

end Reader

/-- Outside of all functions, with no function numbered yet. -/
def Scope.start : Scope := ⟨0, []⟩

/-- The model that a document is. -/
def Model.ofJson (document : Json) : Except DefinitionError Model :=
  ((Reader.model document).run Scope.start).1

end Recalc
