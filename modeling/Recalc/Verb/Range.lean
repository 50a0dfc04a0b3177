import Recalc.Verb.Error

/-! Sequences of numbers from a start, by a step, up to but without an end. -/
namespace Recalc.Range

/-- How many of start, start + step, … lie before the end in the direction of the step. -/
def count (stop start step : Int) : Nat :=
  let span := stop - start
  if decide (0 < span) = decide (0 < step) ∧ span ≠ 0 then
    (span.natAbs + step.natAbs - 1) / step.natAbs
  else 0

/-- How many elements a whole count asks for. It must not be above the limit. -/
def length (count : Double) : Except EvalError Nat :=
  if !Double.isFinite count ||
      Double.compare? count (Double.ofNat rangeLimit) = some .gt then
    .error (.argument (.length count))
  else .ok ((Double.toInt? count).getD 0).toNat

/-- A range of integers. An element is cut to 64 bits, which changes none before the end. -/
def ofInts (stop start step : Int) : Except EvalError Value :=
  if step = 0 then .error (.argument .zeroStep)
  else do
    let n ← length (Double.ofNat (count stop start step))
    return .arr ((List.range n).map fun (i : Nat) => .int (Word.wrap (start + i * step)))

/-- A range of doubles. It is empty when an end of it is a NaN. -/
def ofFloats (stop start step : Double) : Except EvalError Value :=
  if Double.isZero step || !Double.isFinite step then .error (.argument (.step step))
  else if Double.isNaN start || Double.isNaN stop then .ok (.arr [])
  else do
    let n ← length (Double.ceil ((stop - start) / step))
    return .arr ((List.range n).map fun i => .float (start + Double.ofNat i * step))

def number (v : Value) : Except EvalError Double :=
  match v.toFloat? with
  | some x => .ok x
  | none => .error (.type (.operand .range .numbers v.kind))

/-- Three whole numbers give integers, other numbers give doubles. -/
def apply (stop start step : Value) : Except EvalError Value :=
  match stop.toInt?, start.toInt?, step.toInt? with
  | some stop, some start, some step => ofInts stop start step
  | _, _, _ => do
    let stop ← number stop
    let start ← number start
    let step ← number step
    ofFloats stop start step

end Recalc.Range
