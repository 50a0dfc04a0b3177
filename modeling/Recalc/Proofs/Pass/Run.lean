import Recalc.Pass.Basic
import Recalc.Proofs.Origin.Scope

/-! What the steps of a pass do to its state: numbers, remembered values and recorded calls. -/
namespace Recalc.Pass

theorem number_run (key : BindingKey) (s : State) : (number key).run s =
    match s.numbers.find? key with
    | some n => (.ok n, s)
    | none => (.ok s.count,
        { s with numbers := s.numbers.insert key s.count, count := s.count + 1 }) := by
  change ExceptT.run (match s.numbers.find? key with
    | some n => pure n
    | none => _ : PassM BindingId) s = _
  cases s.numbers.find? key <;> rfl

theorem invoke_run_error {lib : Library} {function : String} {args : List Value} {e : EvalError}
    (h : lib.call function args = .error e) (s : State) :
    (invoke lib function args).run s = (.error e, s) := by
  rw [invoke, h]
  rfl

theorem invoke_run_ok {lib : Library} {function : String} {args : List Value} {v : Value}
    (h : lib.call function args = .ok v) (s : State) : (invoke lib function args).run s =
      (.ok v, { s with work := s.work.recordCall ⟨function, args⟩ }) := by
  rw [invoke, h]
  rfl

theorem eval_run {p : Program} {lib : Library} {model : Value} {id : NodeId} {env : Env}
    (fuel : Nat) (s : State) : (eval p lib model (fuel + 1) id env).run s =
      let computed := (step p model (invoke lib) number (eval p lib model fuel) id env).run
        { s with work := s.work.countEvaluation }
      if (p.node id).hoist || (p.node id).isCall then
        match s.memo.find? ⟨id, bindingsRead p id env⟩ with
        | some v => (.ok v, s)
        | none => match computed with
          | (.ok v, t) => (.ok v, { t with memo := t.memo.insert ⟨id, bindingsRead p id env⟩ v })
          | (.error e, t) => (.error e, t)
      else computed := by
  rw [eval, evalWith]
  split
  · change ExceptT.run (match s.memo.find? ⟨id, bindingsRead p id env⟩ with
      | some v => pure v
      | none => _ : PassM Value) s = _
    cases s.memo.find? ⟨id, bindingsRead p id env⟩ with
    | some v => rfl
    | none =>
      rcases hrun : (step p model (invoke lib) number (eval p lib model fuel) id env).run
        { s with work := s.work.countEvaluation } with ⟨r, t⟩
      cases r with
      | error e => exact run_bind_error hrun
      | ok v => exact run_bind_ok hrun
  · rfl

/-- A node that is neither a reference nor an access nor an iteration combines its parts. -/
theorem step_combine {m : Type → Type} [Monad m] [MonadExceptOf EvalError m] {p : Program}
    {model : Value} {invoke : String → List Value → m Value} {number : BindingKey → m BindingId}
    {eval : NodeId → Env → m Value} {id : NodeId} {env : Env}
    (hr : (p.node id).isReference = false) (hi : (p.node id).isIterate = false) :
    step p model invoke number eval id env =
      (p.node id).combine (fun c => eval c env) invoke := by
  unfold step
  cases hn : p.node id <;> first | rfl | simp [hn, Node.isReference, Node.isIterate] at hr hi

end Recalc.Pass
