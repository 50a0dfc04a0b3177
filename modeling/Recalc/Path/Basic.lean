import Recalc.Text.Quoted
import Recalc.Verb.Access

/-! Locations of a document as mutators declare them, and as lists of keys once their arguments are
filled in. -/
namespace Recalc

/-- One step of a declared path: a field, a position, or an argument of the mutator. -/
inductive Segment where
  | field (name : String)
  | index (n : Nat)
  | arg (n : Nat)
  deriving DecidableEq, Repr

def Segment.text : Segment → String
  | .field name => "[" ++ Quoted.text name ++ "]"
  | .index n => s!"[{n}]"
  | .arg n => s!"[arg{n}]"

/-- A key that its place in a path cannot take. -/
inductive KeyFault where
  | field (key : Value)
  | index (key : Value)
  | argument (key : Value) (position : Nat)
  | absent (position : Nat)

def KeyFault.message : KeyFault → String
  | .field key => key.text
  | .index key => s!"{key.text} is not an array index"
  | .argument key i => s!"{key.text} (argument {i} must be a string or an integer)"
  | .absent i => s!"missing argument {i}"

/-- Why a write fails. Locations are given by their keys. -/
inductive PathError where
  | missing (location : List Value)
  | outOfBounds (location : List Value) (index length : Nat)
  | notAContainer (location : List Value) (found : Kind)
  | notAnArray (location : List Value) (found : Kind)
  | invalidKey (fault : KeyFault)

namespace Path

def text : List Value → String
  | [] => "the model root"
  | keys => String.join (keys.map fun k => "[" ++ k.text ++ "]")

/-- The number of arguments that a declared path takes. -/
def arity (path : List Segment) : Nat :=
  path.foldl (fun n s => match s with
    | .arg i => max n (i + 1)
    | _ => n) 0

end Path

def PathError.message : PathError → String
  | .missing location => s!"no value at {Path.text location}"
  | .outOfBounds location index length =>
    s!"index {index} out of bounds for array of length {length} at {Path.text location}"
  | .notAContainer location found => s!"cannot descend into {found.name} at {Path.text location}"
  | .notAnArray location found =>
    s!"splice target {Path.text location} is {found.name}, not an array"
  | .invalidKey fault => s!"invalid path key {fault.message}"

end Recalc
