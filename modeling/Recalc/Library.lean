import Recalc.Text.Quoted
import Recalc.Verb.Error

/-! Functions supplied from outside, which models call by name, and the record of such calls. -/
namespace Recalc

/-- Functions by name. Each takes the receiver of a call followed by the other arguments. -/
structure Library where
  functions : Fields (List Value → Value)

namespace Library

def empty : Library := ⟨[]⟩

def insert (lib : Library) (name : String) (f : List Value → Value) : Library :=
  ⟨Fields.insert name f lib.functions⟩

def get? (lib : Library) (name : String) : Option (List Value → Value) :=
  Fields.get? name lib.functions

def contains (lib : Library) (name : String) : Bool := (lib.get? name).isSome

/-- The result of the function of a name. -/
def call (lib : Library) (name : String) (args : List Value) : Except EvalError Value :=
  match lib.get? name with
  | some f => .ok (f args)
  | none => .error (.unknownFunction name)

/-- The names of a library, in order. -/
def text (lib : Library) : String :=
  let names := (Fields.keys lib.functions).map Quoted.text
  "FunctionLibrary \x7b functions: [" ++ String.intercalate ", " names ++ "] \x7d"

end Library

/-- One call of a library function. -/
structure Call where
  function : String
  args : List Value

/-- The work of one recalculation: how many values were computed, and the calls made, in order. -/
structure Work where
  evaluated : Nat := 0
  calls : Array Call := #[]

namespace Work

def none : Work := {}

def countEvaluation (w : Work) : Work := { w with evaluated := w.evaluated + 1 }

def recordCall (w : Work) (c : Call) : Work := { w with calls := w.calls.push c }

end Work

end Recalc
