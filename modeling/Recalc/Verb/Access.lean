import Recalc.Value.Json
import Recalc.Verb.Error

/-! Values as keys, and access to a field or an element. -/
namespace Recalc.Value

/-- The field name for a key. Containers cannot be keys. -/
def keyText? : Value → Option String
  | str s => some s
  | null => some "null"
  | bool b => some (if b then "true" else "false")
  | int n => some (toString n)
  | float x => match wholeFloat? x with
    | some n => some (toString n)
    | none => some (text (float x))
  | arr _ => none
  | obj _ => none

def propertyKey (key : Value) : Except EvalError String :=
  match keyText? key with
  | some name => .ok name
  | none => .error (.type (.key key.kind))

/-- The position for a key: a whole number, or its text. -/
def arrayIndex? : Value → Option Int
  | str s => Word.ofText? s
  | v => v.toInt?

/-- The element at a position, or null past either end. -/
def element (items : List Value) (i : Int) : Value :=
  if 0 ≤ i then items.getD i.toNat null else null

def isContainer : Value → Bool
  | arr _ => true
  | obj _ => true
  | _ => false

/-- Access to an array through its elements by position. -/
def getAt (element : Int → Value) (key : Value) : Except EvalError Value :=
  if key.isContainer then .error (.type (.index key.kind))
  else .ok ((arrayIndex? key).elim null element)

/-- Field or element access. Null has every key, and a missing key gives null. -/
def get (object key : Value) : Except EvalError Value :=
  match object with
  | null => .ok null
  | obj fields => do
    let name ← propertyKey key
    return (Fields.get? name fields).getD null
  | arr items => getAt (element items) key
  | v => .error (.type (.access v.kind key.kind))

/-- Access to one value at many keys, for which its parts are laid out on first use. -/
def accessor : (v : Value) → { access : Value → Except EvalError Value // access = v.get }
  | arr items =>
    let elements : Thunk (Array Value) := .mk fun _ => items.toArray
    ⟨getAt fun i => if 0 ≤ i then elements.get.getD i.toNat null else null, by
      funext key
      simp only [get]
      congr
      funext i
      simp [element, elements, Thunk.get, Array.getD_eq_getD_getElem?]⟩
  | obj fields =>
    let tree : Thunk (Std.TreeMap String Value) := .mk fun _ => Fields.tree fields
    ⟨fun key => do
      let name ← propertyKey key
      return tree.get[name]?.getD null, by
      funext key
      simp only [get, tree, Thunk.get, Fields.get?_tree]⟩
  | v => ⟨v.get, rfl⟩

end Recalc.Value
