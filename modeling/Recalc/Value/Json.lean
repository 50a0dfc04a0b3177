import Recalc.Json.Reader
import Recalc.Value.Basic

/-! Values to and from JSON documents, and the text of a value. -/
namespace Recalc.Value

/-- A number of a document: a signed 64-bit integer, or else a double. -/
def ofJsonNumber (n : JsonNumber) : Value :=
  match n.toInt64? with
  | some i => int i
  | none => float n.toFloat

mutual

def ofJson : Json → Value
  | .null => null
  | .bool b => bool b
  | .num n => ofJsonNumber n
  | .str s => str s
  | .arr items => arr (ofJsonItems items)
  | .obj fields => obj (ofJsonFields fields)

def ofJsonItems : List Json → List Value
  | [] => []
  | j :: rest => ofJson j :: ofJsonItems rest

def ofJsonFields : List (String × Json) → List (String × Value)
  | [] => []
  | (k, j) :: rest => (k, ofJson j) :: ofJsonFields rest

end

mutual

/-- The document for a value. A double that is no JSON number becomes null. -/
def toJson : Value → Json
  | null => .null
  | bool b => .bool b
  | int n => .num (.int n)
  | float x => match JsonNumber.ofFloat? x with
    | some n => .num n
    | none => .null
  | str s => .str s
  | arr items => .arr (toJsonItems items)
  | obj fields => .obj (toJsonFields fields)

def toJsonItems : List Value → List Json
  | [] => []
  | v :: rest => toJson v :: toJsonItems rest

def toJsonFields : List (String × Value) → List (String × Json)
  | [] => []
  | (k, v) :: rest => (k, toJson v) :: toJsonFields rest

end

/-- The text of a value: its document, compactly. -/
def text (v : Value) : String := v.toJson.render

end Recalc.Value
