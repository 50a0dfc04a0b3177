import Recalc.Fields
import Recalc.Number.Double
import Recalc.Number.Word

/-! The values that flow through models, outputs and library calls. -/
namespace Recalc

/-- The kinds of values, as messages name them. -/
inductive Kind where
  | null
  | boolean
  | integer
  | float
  | string
  | array
  | object
  deriving DecidableEq, Repr

def Kind.name : Kind → String
  | .null => "null"
  | .boolean => "boolean"
  | .integer => "integer"
  | .float => "float"
  | .string => "string"
  | .array => "array"
  | .object => "object"

/-- A value. Integers and doubles are apart. That integers are signed 64-bit ones and that the fields
of an object are sorted by key is said of values by `WellFormed`: a proof about the fields of an
object cannot be part of the type that the fields belong to, and the position of an element is a
value however long the array is. -/
inductive Value where
  | null
  | bool (b : Bool)
  | int (n : Int)
  | float (x : Double)
  | str (s : String)
  | arr (items : List Value)
  | obj (fields : List (String × Value))
  deriving Inhabited

namespace Value

def kind : Value → Kind
  | null => .null
  | bool _ => .boolean
  | int _ => .integer
  | float _ => .float
  | str _ => .string
  | arr _ => .array
  | obj _ => .object

/-- Null, false, zero, NaN and the empty string count as false; every container counts as true. -/
def truthy : Value → Bool
  | null => false
  | bool b => b
  | int n => n ≠ 0
  | float x => !Double.isZero x && !Double.isNaN x
  | str s => s ≠ ""
  | arr _ => true
  | obj _ => true

/-- The 64-bit integer that a double is, if it is whole and in range. -/
def wholeFloat? (x : Double) : Option Int := (Double.toInt? x).filter Word.fits

/-- The integer that a number is. -/
def toInt? : Value → Option Int
  | int n => some n
  | float x => wholeFloat? x
  | _ => none

/-- A number as a double, an integer rounded to the nearest one. -/
def toFloat? : Value → Option Double
  | int n => some (Double.ofInt n)
  | float x => some x
  | _ => none

mutual

/-- What documents and verbs give: the integers are signed 64-bit ones and the fields of objects are
in order, at every depth. -/
def WellFormed : Value → Prop
  | null => True
  | bool _ => True
  | int n => Word.fits n = true
  | float _ => True
  | str _ => True
  | arr items => WellFormedItems items
  | obj fields => Fields.Sorted fields ∧ WellFormedFields fields

def WellFormedItems : List Value → Prop
  | [] => True
  | v :: rest => WellFormed v ∧ WellFormedItems rest

def WellFormedFields : List (String × Value) → Prop
  | [] => True
  | (_, v) :: rest => WellFormed v ∧ WellFormedFields rest

end

/-- The number of elements or fields of a container. -/
def length? : Value → Option Nat
  | arr items => some items.length
  | obj fields => some fields.length
  | _ => none

end Value

/-- A value with 64-bit integers and with sorted fields at every depth. -/
abbrev WellFormedValue := {v : Value // v.WellFormed}

end Recalc
