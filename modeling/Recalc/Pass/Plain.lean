import Recalc.Pass.Basic

/-! Evaluation with nothing remembered: the value of a node from the values of its parts, each time
it is asked for. -/
namespace Recalc.Pass

/-- The value of a node, computed anew. Bindings need no numbers here. The parts of a node come
before it, so a node's position bounds the depth. -/
def plain (p : Program) (lib : Library) (model : Value) :
    Nat → NodeId → Env → Except EvalError Value
  | 0, _, _ => .error .tooDeep
  | fuel + 1, id, env => step p model lib.call (fun _ => .ok 0) (plain p lib model fuel) id env

/-- The values of all outputs in order. -/
def plainOutputs (p : Program) (lib : Library) (model : Value) : Except EvalError (List Value) :=
  p.outputs.mapM fun (_, id) => plain p lib model (id + 1) id []

end Recalc.Pass
