import Recalc.Number.Shortest
import Recalc.Value.Basic
import Recalc.Verb.Basic

/-! Why an evaluation fails, and the messages for it. -/
namespace Recalc

/-- The number of a function of a model. Its element, key and context references carry it. It is a
natural number without a bound, so two functions never get one number. With 32 bits that holds of
the first 2³² functions. -/
abbrev LambdaId := Nat

/-- What an operand has to be. -/
inductive Shape where
  | array
  | object
  | container
  | objects
  | collection
  | numbers
  deriving DecidableEq, Repr

def Shape.text : Shape → String
  | .array => "an array"
  | .object => "an object"
  | .container => "an array or object"
  | .objects => "an array of objects"
  | .collection => "a collection"
  | .numbers => "numbers"

/-- A value of the wrong kind. -/
inductive TypeFault where
  | key (found : Kind)
  | index (found : Kind)
  | access (receiver key : Kind)
  | operand (verb : Token) (expected : Shape) (found : Kind)
  | comparison (verb : Token) (left right : Kind)
  | arithmetic (verb : Token) (left right : Kind)
  deriving DecidableEq

def TypeFault.message : TypeFault → String
  | .key found => s!"cannot use {found.name} as an object key"
  | .index found => s!"cannot index an array with {found.name}"
  | .access receiver field => s!"cannot access {receiver.name} with {field.name} key"
  | .operand verb expected found => s!"{verb.name} expects {expected.text}, got {found.name}"
  | .comparison verb left right =>
    s!"cannot compare {left.name} with {right.name} using `{verb.name}`"
  | .arithmetic verb left right =>
    s!"cannot apply `{verb.name}` to {left.name} and {right.name}"

/-- The longest sequence that a range may have. -/
def rangeLimit : Nat := 16777216

/-- A value of the right kind that cannot be used. -/
inductive ArgumentFault where
  | zeroStep
  | step (x : Double)
  | length (count : Double)
  | unbound (lambda : LambdaId)
  | noContext (lambda : LambdaId)
  | custom (message : String)
  deriving DecidableEq

/-- Doubles in messages never have an exponent, nor a fraction when they are whole. -/
def plainLayout : NumberLayout := ⟨fun _ => true, false⟩

def plainText (x : Double) : String :=
  if Double.isNaN x then "NaN"
  else if Double.isFinite x then plainLayout.write x
  else if Double.isNegative x then "-inf"
  else "inf"

def ArgumentFault.message : ArgumentFault → String
  | .zeroStep => "range step cannot be 0"
  | .step x => s!"invalid range step {plainText x}"
  | .length count => s!"range of {plainText count} elements exceeds the limit of {rangeLimit}"
  | .unbound lambda => s!"lambda #{lambda} is not bound here"
  | .noContext lambda => s!"lambda #{lambda} has no context"
  | .custom message => message

/-- Why an evaluation fails. No program made by the compiler is too deep. -/
inductive EvalError where
  | type (fault : TypeFault)
  | divisionByZero
  | unknownFunction (name : String)
  | argument (fault : ArgumentFault)
  | tooDeep
  deriving DecidableEq

def EvalError.message : EvalError → String
  | .type fault => "type error: " ++ fault.message
  | .divisionByZero => "division by zero"
  | .unknownFunction name => s!"unknown function `{name}`"
  | .argument fault => "invalid argument: " ++ fault.message
  | .tooDeep => "evaluation is nested too deeply"

end Recalc
