import Recalc.Verb.Access

/-! Verbs that call a function on each element of a container. A verb lists its entries, visits them
in order, and gathers the results. -/
namespace Recalc.CollectionVerb

/-- What a verb goes through. -/
def expects : CollectionVerb → Shape
  | .map | .filter | .any | .keyBy => .array
  | .mapValues | .mapKeys | .filterBy | .anyValues => .object
  | .groupBy => .container

/-- The elements of an array with their positions. -/
def itemEntries (items : List Value) : List (Value × Value) :=
  items.zipIdx.map fun (v, i) => (.int i, v)

/-- The values of an object with their field names. -/
def fieldEntries (fields : Fields Value) : List (Value × Value) :=
  fields.map fun (k, v) => (.str k, v)

/-- The keys and elements that a verb goes through, in order. -/
def entries (verb : CollectionVerb) (source : Value) : Except EvalError (List (Value × Value)) :=
  match verb.expects, source with
  | .array, .arr items => .ok (itemEntries items)
  | .object, .obj fields => .ok (fieldEntries fields)
  | .container, .arr items => .ok (itemEntries items)
  | .container, .obj fields => .ok (fieldEntries fields)
  | shape, v => .error (.type (.operand verb.token shape v.kind))

/-- Whether a verb is done after a result. A result that should be a key and is none is an error. -/
def settle (verb : CollectionVerb) (result : Value) : Except EvalError Bool :=
  match verb with
  | .any | .anyValues => .ok result.truthy
  | .keyBy | .mapKeys | .groupBy => result.propertyKey.map fun _ => false
  | .map | .filter | .mapValues | .filterBy => .ok false

/-- Calls the function on each entry in order until the verb is done, and lists the results. -/
def visit {m : Type → Type} [Monad m] [MonadExceptOf EvalError m] (verb : CollectionVerb)
    (body : Value → Value → m Value) : List (Value × Value) → m (List Value)
  | [] => pure []
  | (key, element) :: rest => do
    let result ← body key element
    let done ← MonadExcept.ofExcept (verb.settle result)
    if done then return [result]
    let results ← visit verb body rest
    return result :: results

def keyName (v : Value) : String := v.keyText?.getD ""

/-- Elements by key, each group in the order of the elements. -/
def groupItems (visited : List ((Value × Value) × Value)) : Fields Value :=
  Fields.mapValues .arr (Fields.group (visited.map fun (e, r) => (keyName r, e.2)))

/-- Fields by key, each group an object. -/
def groupFields (visited : List ((Value × Value) × Value)) : Fields Value :=
  Fields.mapValues (fun fields => .obj (Fields.ofList fields))
    (Fields.group (visited.map fun (e, r) => (keyName r, (keyName e.1, e.2))))

/-- The value of a verb, from the results of the entries it visited. -/
def gather (verb : CollectionVerb) (source : Value) (entries : List (Value × Value))
    (results : List Value) : Value :=
  let visited := entries.zip results
  match verb with
  | .map => .arr results
  | .filter => .arr (visited.filterMap fun (e, r) => if r.truthy then some e.2 else none)
  | .any | .anyValues => .bool (results.any Value.truthy)
  | .keyBy | .mapKeys => .obj (Fields.ofList (visited.map fun (e, r) => (keyName r, e.2)))
  | .mapValues => .obj (Fields.ofList (visited.map fun (e, r) => (keyName e.1, r)))
  | .filterBy => .obj (Fields.ofList (visited.filterMap fun (e, r) =>
      if r.truthy then some (keyName e.1, e.2) else none))
  | .groupBy => match source with
    | .obj _ => .obj (groupFields visited)
    | _ => .obj (groupItems visited)

/-- Applies a verb to a container through a function of key and element. -/
def iterate {m : Type → Type} [Monad m] [MonadExceptOf EvalError m] (verb : CollectionVerb)
    (source : Value) (body : Value → Value → m Value) : m Value := do
  let entries ← MonadExcept.ofExcept (verb.entries source)
  let results ← verb.visit body entries
  return verb.gather source entries results

end Recalc.CollectionVerb
