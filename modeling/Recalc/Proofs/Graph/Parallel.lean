import Recalc.Proofs.Origin.Meaning

/-! Evaluation with two ways to get at cells. Ways that correspond cell by cell correspond on every
node, whatever values they meet. -/
namespace Recalc

namespace Correspondence
variable {m n : Type → Type} [Monad m] [Monad n] [MonadExceptOf EvalError m]
  [MonadExceptOf EvalError n] {ι : Type}

/-- Computations that correspond, whatever they give. -/
def Alike (R : Correspondence m n) {α : Type} (x : m α) (y : n α) : Prop :=
  R.rel (fun _ => True) x y

/-- Two ways to get at the same cells that correspond. -/
structure Accesses (R : Correspondence m n) (cells : CellAccess m ι) (cells' : CellAccess n ι) :
    Prop where
  model : cells.model = cells'.model
  intern : ∀ key, R.Alike (cells.intern key) (cells'.intern key)
  pull : ∀ id, R.Alike (cells.pull id) (cells'.pull id)

namespace Accesses
variable {R : Correspondence m n} {cells : CellAccess m ι} {cells' : CellAccess n ι}
  (h : R.Accesses cells cells') {p : Program}
include h

private theorem read (handle : Handle ι) : R.Alike (cells.read handle) (cells'.read handle) := by
  cases handle with
  | const v => exact R.pure trivial
  | cell id => exact h.pull id

private theorem handleWithin (fuel : Nat) (id : NodeId) (env : CellEnv ι) :
    R.Alike (cells.handleWithin p fuel id env) (cells'.handleWithin p fuel id env) := by
  induction fuel generalizing id with
  | zero => exact R.throw .tooDeep
  | succ fuel ih =>
    unfold CellAccess.handleWithin
    cases p.node id with
    | literal v => exact R.pure trivial
    | root =>
      rw [h.model]
      exact R.pure trivial
    | val l => exact R.bind (R.ofExcept _ fun _ _ => trivial) fun _ _ => R.pure trivial
    | key l => exact R.bind (R.ofExcept _ fun _ _ => trivial) fun _ _ => R.pure trivial
    | context l => exact R.ofExcept _ fun _ _ => trivial
    | get o k =>
      apply R.bind (ih o)
      intro object _
      apply R.bind (ih k)
      intro handle _
      apply R.bind (h.read handle)
      intro key _
      cases object with
      | cell source => exact R.bind (h.intern _) fun _ _ => R.pure trivial
      | const v => exact R.bind (R.ofExcept _ fun _ _ => trivial) fun _ _ => R.pure trivial
    | _ => exact R.bind (h.intern _) fun _ _ => R.pure trivial

private theorem handle (id : NodeId) (env : CellEnv ι) :
    R.Alike (cells.handle p id env) (cells'.handle p id env) := h.handleWithin (id + 1) id env

private theorem readNode (id : NodeId) (env : CellEnv ι) :
    R.Alike (cells.readNode p id env) (cells'.readNode p id env) :=
  R.bind (h.handle id env) fun handle _ => h.read handle

private theorem elementHandle (source : Handle ι) (key element : Value) :
    R.Alike (cells.elementHandle source key element) (cells'.elementHandle source key element) := by
  cases source with
  | cell id => exact R.bind (h.intern _) fun _ _ => R.pure trivial
  | const v => exact R.pure trivial

private theorem contextHandle (env : CellEnv ι) (ctx : Option NodeId) :
    R.Alike (cells.contextHandle p env ctx) (cells'.contextHandle p env ctx) := by
  cases ctx with
  | none => exact R.pure trivial
  | some c =>
    apply R.bind (h.handle c env)
    intro handle _
    exact R.bind (h.read handle) fun _ _ => R.pure trivial

/-- The values of a node correspond if calls do. -/
theorem evalNode {invoke : String → List Value → m Value} {invoke' : String → List Value → n Value}
    (hi : ∀ f args, R.Alike (invoke f args) (invoke' f args)) (id : NodeId) (env : CellEnv ι) :
    R.Alike (cells.evalNode p invoke id env) (cells'.evalNode p invoke' id env) := by
  cases hr : (p.node id).isReference with
  | true =>
    rw [cells.evalNode_reference invoke hr, cells'.evalNode_reference invoke' hr]
    exact h.readNode id env
  | false =>
    cases hn : p.node id with
    | iterate verb source lambda body ctx =>
      rw [cells.evalNode_iterate invoke hn, cells'.evalNode_iterate invoke' hn]
      apply R.bind (h.handle source env)
      intro handle _
      apply R.bind (h.read handle)
      intro elements _
      apply R.bind (h.contextHandle env ctx)
      intro context _
      apply R.iterate_entries (verbClass_any p) trivial
      intro _ _ e _
      apply R.bind (h.elementHandle handle e.1 e.2)
      intro val _
      exact h.readNode body _
    | _ =>
      have hit : (p.node id).isIterate = false := by simp [hn, Node.isIterate]
      rw [cells.evalNode_combine invoke hr hit, cells'.evalNode_combine invoke' hr hit]
      apply R.combine (verbClass_any p)
      · intro c _
        exact h.readNode c env
      · intro _ f args _
        exact hi f args

end Accesses

end Correspondence

end Recalc
