import Recalc.Program.Basic
import Recalc.Verb.Binary
import Recalc.Verb.Range
import Recalc.Verb.Unary

/-! The value of a node from the values of its parts. -/
namespace Recalc

variable {m : Type → Type} [Monad m] [MonadExceptOf EvalError m]

/-- Reads nodes in order while their values satisfy a test, and gives the last value read. -/
def readWhile (read : NodeId → m Value) (test : Value → Bool) (last : Value) :
    List NodeId → m Value
  | [] => pure last
  | id :: rest => do
    let v ← read id
    if test v then readWhile read test v rest else pure v

/-- The values of named parts, in order. -/
def readFields (read : NodeId → m Value) : List (String × NodeId) → m (List (String × Value))
  | [] => pure []
  | (k, id) :: rest => do
    let v ← read id
    let fields ← readFields read rest
    return (k, v) :: fields

namespace Node

/-- The value of a node that is neither a reference nor an access nor an iteration: its parts are
read in order, as far as they are needed. -/
def combine (read : NodeId → m Value) (invoke : String → List Value → m Value) : Node → m Value
  | array items => do
    let values ← items.mapM read
    return .arr values
  | object fields => do
    let fields ← readFields read fields
    return .obj (Fields.ofList fields)
  | unary verb operand => do
    let v ← read operand
    MonadExcept.ofExcept (verb.apply v)
  | range stop start step => do
    let stop ← read stop
    let start ← read start
    let step ← read step
    MonadExcept.ofExcept (Range.apply stop start step)
  | ternary condition consequent alternative => do
    let v ← read condition
    if v.truthy then read consequent else read alternative
  | and items => readWhile read Value.truthy (.bool true) items
  | or items => readWhile read (fun v => !v.truthy) (.bool false) items
  | binary verb left right => do
    let left ← read left
    let right ← read right
    MonadExcept.ofExcept (verb.apply left right)
  | call function args => do
    let values ← args.mapM read
    invoke function values
  | _ => pure .null

end Node

end Recalc
