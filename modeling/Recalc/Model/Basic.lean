import Recalc.Expr.Basic
import Recalc.Path.Basic

/-! Models: named outputs and mutators. -/
namespace Recalc

/-- What a name of a model stands for. -/
inductive Definition where
  | output (e : Expr)
  | setter (path : List Segment)
  | splice (path : List Segment)

/-- Definitions by name, in the order of the names. -/
@[ext]
structure Model where
  definitions : Fields Definition
  sorted : Fields.Sorted definitions

namespace Model

def empty : Model := ⟨[], List.Pairwise.nil⟩

/-- Adds a definition; a later one of the same name counts. -/
def insert (m : Model) (name : String) (d : Definition) : Model :=
  ⟨Fields.insert name d m.definitions, Fields.sorted_insert m.sorted⟩

def size (m : Model) : Nat := m.definitions.length

end Model

end Recalc
