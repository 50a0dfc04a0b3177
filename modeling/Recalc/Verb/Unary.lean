import Recalc.Verb.Access

/-! Verbs on one value. -/
namespace Recalc.UnaryVerb

/-- The verb that merges objects and takes, of two fields with one name, the earlier or the later. -/
def merging (earlierWins : Bool) : UnaryVerb := if earlierWins then .defaults else .assign

/-- Adds the fields of one more object to those gathered so far. -/
def addFields (earlierWins : Bool) (gathered fields : Fields Value) : Fields Value :=
  fields.foldl (fun out (key, v) =>
    if earlierWins then Fields.insertNew key v out else Fields.insert key v out) gathered

/-- One more element of a merge. Nulls are passed over, and the first object is taken as it is. -/
def mergeStep (earlierWins : Bool) (out : Option (Fields Value)) (item : Value) :
    Except EvalError (Option (Fields Value)) :=
  match item with
  | .null => .ok out
  | .obj fields => match out with
    | none => .ok (some fields)
    | some gathered => .ok (some (addFields earlierWins gathered fields))
  | v => .error (.type (.operand (merging earlierWins).token .objects v.kind))

/-- Combines the objects of an array into one. -/
def merge (earlierWins : Bool) (operand : Value) : Except EvalError Value :=
  match operand with
  | .arr items => return .obj ((← items.foldlM (mergeStep earlierWins) none).getD [])
  | v => .error (.type (.operand (merging earlierWins).token .objects v.kind))

def apply (verb : UnaryVerb) (operand : Value) : Except EvalError Value :=
  match verb, operand with
  | .not, v => .ok (.bool !v.truthy)
  | .values, .obj fields => .ok (.arr (Fields.values fields))
  | .values, .arr items => .ok (.arr items)
  | .values, .null => .ok (.arr [])
  | .values, v => .error (.type (.operand .values .object v.kind))
  | .keys, .obj fields => .ok (.arr ((Fields.keys fields).map .str))
  | .keys, .arr items => .ok (.arr ((List.range items.length).map fun (i : Nat) => .int i))
  | .keys, .null => .ok (.arr [])
  | .keys, v => .error (.type (.operand .keys .object v.kind))
  | .assign, v => merge false v
  | .defaults, v => merge true v
  | .size, .arr items => .ok (.int items.length)
  | .size, .obj fields => .ok (.int fields.length)
  | .size, .str s => .ok (.int s.length)
  | .size, .null => .ok (.int 0)
  | .size, v => .error (.type (.operand .size .collection v.kind))

end Recalc.UnaryVerb
