import Recalc.Number.Decimal
import Recalc.Value.Equality
import Recalc.Verb.Error

/-! Comparison and arithmetic. Integers stay integers while the result is a 64-bit one, two doubles
follow IEEE 754, and an integer with a double is computed in decimal. -/
namespace Recalc.BinaryVerb

def floatResult (verb : BinaryVerb) (a b : Double) : Double :=
  match verb with
  | .plus => a + b
  | .minus => a - b
  | .mult => a * b
  | .div => a / b
  | _ => Double.rem a b

/-- An integer that 64 bits hold. -/
def bounded (n : Int) : Option Int := if Word.fits n then some n else none

/-- The exact 64-bit result, if there is one. The divisor is not zero, and a remainder is never too
large. -/
def exactResult? (verb : BinaryVerb) (a b : Int) : Option Int :=
  match verb with
  | .plus => bounded (a + b)
  | .minus => bounded (a - b)
  | .mult => bounded (a * b)
  | .div => if a.tmod b = 0 then bounded (a.tdiv b) else none
  | _ => some (a.tmod b)

def divides : BinaryVerb → Bool
  | .div => true
  | .mod => true
  | _ => false

/-- A result that is not a 64-bit integer is the double for it. -/
def integers (verb : BinaryVerb) (a b : Int) : Except EvalError Value :=
  if verb.divides && b = 0 then .error .divisionByZero
  else match verb.exactResult? a b with
    | some n => .ok (.int n)
    | none => .ok (.float (verb.floatResult (Double.ofInt a) (Double.ofInt b)))

def decimalResult? (verb : BinaryVerb) (a b : Decimal) : Option Decimal :=
  match verb with
  | .plus => a.add b
  | .minus => a.sub b
  | .mult => a.mul b
  | .div => a.div b
  | .mod => a.rem b
  | _ => none

/-- A whole 64-bit decimal is an integer, another decimal a double. Without a decimal result the
operands are taken as doubles. -/
def mixed (verb : BinaryVerb) (a b : Double) (x y : Option Decimal) : Value :=
  match (do verb.decimalResult? (← x) (← y)) with
  | some r => match r.toInt?.filter Word.fits with
    | some n => .int n
    | none => .float r.toFloat
  | none => .float (verb.floatResult a b)

def arithmetic (verb : BinaryVerb) (left right : Value) : Except EvalError Value :=
  match left, right with
  | .int a, .int b => verb.integers a b
  | .float a, .float b => .ok (.float (verb.floatResult a b))
  | .int a, .float b =>
    .ok (verb.mixed (Double.ofInt a) b (some (Decimal.ofInt a)) (Decimal.ofFloat? b))
  | .float a, .int b =>
    .ok (verb.mixed a (Double.ofInt b) (Decimal.ofFloat? a) (some (Decimal.ofInt b)))
  | .str a, .str b =>
    if verb = .plus then .ok (.str (a ++ b))
    else .error (.type (.arithmetic verb.token .string .string))
  | a, b => .error (.type (.arithmetic verb.token a.kind b.kind))

/-- How two values are ordered, nothing when a NaN is among them. -/
def order (verb : BinaryVerb) (left right : Value) : Except EvalError (Option Ordering) :=
  match left, right with
  | .int a, .int b => .ok (some (compare a b))
  | .str a, .str b => .ok (some (compare a b))
  | a, b => match a.toFloat?, b.toFloat? with
    | some x, some y => .ok (Double.compare? x y)
    | _, _ => .error (.type (.comparison verb.token a.kind b.kind))

/-- Whether an order satisfies a comparison. -/
def satisfied (verb : BinaryVerb) : Option Ordering → Bool
  | none => false
  | some o => match verb with
    | .gt => o = .gt
    | .lt => o = .lt
    | .gte => o ≠ .lt
    | .lte => o ≠ .gt
    | _ => false

def comparison (verb : BinaryVerb) (left right : Value) : Except EvalError Value := do
  return .bool (verb.satisfied (← verb.order left right))

def apply (verb : BinaryVerb) (left right : Value) : Except EvalError Value :=
  match verb with
  | .eq => .ok (.bool (left == right))
  | .gt | .lt | .gte | .lte => verb.comparison left right
  | .plus | .minus | .mult | .div | .mod => verb.arithmetic left right

end Recalc.BinaryVerb
