import Recalc.Path.Basic

/-! Writing at a location of a document. A failing write leaves no trace. -/
namespace Recalc.Path

/-- The key for one segment. Arguments must be strings, integers or whole doubles; positions wrap
into the 64-bit integers. -/
def resolveSegment (args : List Value) : Segment → Except PathError Value
  | .field name => .ok (.str name)
  | .index n => .ok (.int (Word.wrap n))
  | .arg i => match args[i]? with
    | none => .error (.invalidKey (.absent i))
    | some (.str s) => .ok (.str s)
    | some (.int n) => .ok (.int n)
    | some (.float x) =>
      if (Value.wholeFloat? x).isSome then .ok (.float x)
      else .error (.invalidKey (.argument (.float x) i))
    | some key => .error (.invalidKey (.argument key i))

/-- Fills the arguments into a declared path. -/
def resolve (path : List Segment) (args : List Value) : Except PathError (List Value) :=
  path.mapM (resolveSegment args)

def fieldName (key : Value) : Except PathError String :=
  match key.keyText? with
  | some name => .ok name
  | none => .error (.invalidKey (.field key))

def position (key : Value) : Except PathError Nat :=
  match key.arrayIndex? with
  | some i => if 0 ≤ i then .ok i.toNat else .error (.invalidKey (.index key))
  | none => .error (.invalidKey (.index key))

/-- Changes the value at the end of a path, all of which must exist. The keys walked so far tell
where an error is. -/
def modify (change : Value → Except PathError Value) (walked : List Value) :
    List Value → Value → Except PathError Value
  | [], v => change v
  | key :: rest, .obj fields => do
    let name ← fieldName key
    match Fields.get? name fields with
    | none => .error (.missing (walked ++ [key]))
    | some child =>
      let child ← modify change (walked ++ [key]) rest child
      return .obj (Fields.insert name child fields)
  | key :: rest, .arr items => do
    let i ← position key
    match items[i]? with
    | none => .error (.outOfBounds (walked ++ [key]) i items.length)
    | some child =>
      let child ← modify change (walked ++ [key]) rest child
      return .arr (items.set i child)
  | _ :: _, v => .error (.notAContainer walked v.kind)

/-- Puts a value into a container: a field may be new, and the position after the last element
appends. -/
def put (parents : List Value) (key value : Value) : Value → Except PathError Value
  | .obj fields => do
    let name ← fieldName key
    return .obj (Fields.insert name value fields)
  | .arr items => do
    let i ← position key
    if i < items.length then return .arr (items.set i value)
    else if i = items.length then return .arr (items ++ [value])
    else .error (.outOfBounds (parents ++ [key]) i items.length)
  | v => .error (.notAContainer parents v.kind)

/-- Writes a value at a path. The empty path replaces the document. -/
def set (root : Value) (keys : List Value) (value : Value) : Except PathError Value :=
  match keys.getLast? with
  | none => .ok value
  | some last => modify (put keys.dropLast last value) [] keys.dropLast root

/-- Where a splice starts: a negative start counts from the end, and both ends clamp. -/
def spliceStart (length : Nat) (start : Int) : Nat :=
  if start < 0 then ((length : Int) + start).toNat else min start.toNat length

/-- Removes elements from a position on and puts others there. -/
def spliceItems (items : List Value) (start : Int) (deleted : Nat) (inserted : List Value) :
    List Value :=
  let first := spliceStart items.length start
  let next := first + min deleted (items.length - first)
  items.take first ++ inserted ++ items.drop next

/-- Splices the array at a path. -/
def splice (root : Value) (keys : List Value) (start : Int) (deleted : Nat)
    (inserted : List Value) : Except PathError Value :=
  modify (fun
    | .arr items => .ok (.arr (spliceItems items start deleted inserted))
    | v => .error (.notAnArray keys v.kind)) [] keys root

end Recalc.Path
