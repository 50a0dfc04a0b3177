import Recalc.Proofs.Pass.Plain
import Recalc.Proofs.Program.Links

/-! A pass finds every binding, context and function that it looks for, and its fuel suffices: it
fails only where a verb or a library function fails. -/
namespace Recalc.Pass

/-- A function is bound, with or without a context. -/
def Env.Binds (env : Env) (l : LambdaId) (c : Bool) : Prop :=
  ∃ b, Env.lookup env l = .ok b ∧ b.context.isSome = c

theorem Env.binds_self (b : Binding) (env : Env) :
    Env.Binds (b :: env) b.lambda b.context.isSome := by
  refine ⟨b, ?_, rfl⟩
  simp [Env.lookup, Env.find?]

theorem Env.binds_cons {b : Binding} {env : Env} {l : LambdaId} {c : Bool} (hl : l ≠ b.lambda)
    (h : Env.Binds env l c) : Env.Binds (b :: env) l c := by
  obtain ⟨found, hf, hc⟩ := h
  refine ⟨found, ?_, hc⟩
  rw [← hf]
  simp [Env.lookup, Env.find?, Ne.symm hl]

/-- A pass that fails for no reason other than those of a linkage. -/
def contract (L : Linkage) : Contract PassM where
  fails := L.fails
  values := L.values
  holds P x := ∀ s, (∀ a t, x.run s = (.ok a, t) → P a) ∧ ∀ e t, x.run s = (.error e, t) → L.fails e
  pure h s := by
    constructor
    · rintro _ _ ⟨⟩
      exact h
    · rintro _ _ ⟨⟩
  bind {_ _ P Q x f} hx hf s := by
    rcases hr : x.run s with ⟨r, t⟩
    cases r with
    | error e =>
      rw [run_bind_error hr]
      refine ⟨by rintro _ _ ⟨⟩, ?_⟩
      rintro _ _ ⟨⟩
      exact (hx s).2 e t hr
    | ok a =>
      rw [run_bind_ok hr]
      exact hf a ((hx s).1 a t hr) t
  throw h s := by
    constructor
    · rintro _ _ ⟨⟩
    · rintro _ _ ⟨⟩
      exact h

variable {L : Linkage} {model : Value} {env : Env} {id : NodeId}

private theorem meets_number (key : BindingKey) : (contract L).Meets (number key) := by
  intro s
  rw [number_run]
  cases s.numbers.find? key with
  | some n => exact ⟨fun _ _ _ => trivial, by rintro _ _ ⟨⟩⟩
  | none => exact ⟨fun _ _ _ => trivial, by rintro _ _ ⟨⟩⟩

private theorem meets_invoke {function : String} (hf : function ∈ L.program.functions)
    (args : List Value) : (contract L).Meets (invoke L.library function args) := by
  intro s
  cases hc : L.library.call function args with
  | error e =>
    rw [invoke_run_error hc]
    refine ⟨fun _ _ _ => trivial, ?_⟩
    rintro _ _ ⟨⟩
    exact L.call function hf args e hc
  | ok v =>
    rw [invoke_run_ok hc]
    exact ⟨fun _ _ _ => trivial, by rintro _ _ ⟨⟩⟩

private theorem meets_binding {l : LambdaId} {c : Bool} {α : Type} {f : Binding → PassM α}
    (hb : Env.Binds env l c) (hf : ∀ b, b.context.isSome = c → (contract L).Meets (f b)) :
    (contract L).Meets (MonadExcept.ofExcept (Env.lookup env l) >>= f) := by
  obtain ⟨b, hl, hc⟩ := hb
  rw [hl]
  exact (contract L).bind ((contract L).pure (P := (· = b)) rfl) fun _ h => h ▸ hf b hc

variable (model) in
/-- A node that is covered by the bindings around it meets the contract, if its parts do. -/
theorem meets_step {eval : NodeId → Env → PassM Value}
    (ih : ∀ c ∈ (L.program.node id).children, ∀ env, L.program.Covers c (Env.Binds env) →
      (contract L).Meets (eval c env)) (hc : L.program.Covers id (Env.Binds env)) :
    (contract L).Meets (step L.program model (invoke L.library) number eval id env) := by
  have reference {kind : ReferenceKind} {l : LambdaId}
      (hn : (L.program.node id).reference? = some (kind, l)) := L.linked.covers_reference hc hn
  have part (hi : (L.program.node id).isIterate = false) (c : NodeId)
      (h : c ∈ (L.program.node id).children) : (contract L).Meets (eval c env) :=
    ih c h env (L.linked.covers_part hc hi h)
  by_cases hr : (L.program.node id).isReference = true
  · unfold step
    cases hn : L.program.node id with
    | root | literal v => exact (contract L).pure trivial
    | val l | key l =>
      obtain ⟨c, hb, -⟩ := reference (by rw [hn]; rfl)
      exact meets_binding hb fun b _ => (contract L).pure trivial
    | context l =>
      obtain ⟨c, ⟨b, hl, hb⟩, hx⟩ := reference (by rw [hn]; rfl)
      obtain ⟨v, hv⟩ := Option.isSome_iff_exists.mp (hb.trans (hx rfl))
      have found : Env.context env l = .ok v := by
        simp [Env.context, hl, hv, bind, Except.bind, pure, Except.pure]
      simp only [found]
      exact (contract L).pure trivial
    | get o k =>
      have hi : (L.program.node id).isIterate = false := by rw [hn]; rfl
      apply (contract L).bind (part hi o (by simp [hn, Node.children]))
      intro o _
      apply (contract L).bind (part hi k (by simp [hn, Node.children]))
      intro k _
      exact (contract L).meets_ofExcept (o.aboutValues_get k)
    | _ => simp [hn, Node.isReference] at hr
  · replace hr : (L.program.node id).isReference = false := by simpa using hr
    by_cases hi : (L.program.node id).isIterate = true
    · cases hn : L.program.node id with
      | iterate verb source lambda body ctx =>
        have outer (c : NodeId) (h : c ∈ source :: ctx.toList) : (contract L).Meets (eval c env) :=
          ih c (by rw [hn]; exact List.mem_append_left _ h) env
            (L.linked.covers_source hn hc h)
        simp only [step, hn]
        apply (contract L).bind (outer source List.mem_cons_self)
        intro elements _
        have context : (contract L).holds (fun v => v.isSome = ctx.isSome)
            (contextValue (fun c => eval c env) ctx) := by
          cases ctx with
          | none => exact (contract L).pure rfl
          | some c =>
            change (contract L).holds _ (eval c env >>= fun v => pure (some v))
            exact (contract L).bind (outer c (by simp)) fun v _ => (contract L).pure rfl
        apply (contract L).bind context
        intro v hv
        apply (contract L).iterate
        intro key element
        apply (contract L).bind (meets_number _)
        intro n _
        refine ih body (by simp [hn, Node.children]) _ (L.linked.covers_body hn hc ?_ ?_)
        · intro l c hne hb
          exact Env.binds_cons hne hb
        · rw [← hv]
          exact Env.binds_self ⟨lambda, element, key, v, n⟩ env
      | _ => simp [hn, Node.isIterate] at hi
    · replace hi : (L.program.node id).isIterate = false := by simpa using hi
      rw [step_combine hr hi]
      refine (contract L).combine (part hi) fun function ids hn args => ?_
      exact meets_invoke (L.linked.call id function ids hn) args

/-- Evaluation of a node that is covered by the bindings around it, with fuel for its position. -/
theorem meets_eval {fuel : Nat} (hf : id < fuel) (hc : L.program.Covers id (Env.Binds env)) :
    (contract L).Meets (eval L.program L.library model fuel id env) := by
  induction fuel generalizing id env with
  | zero => cases hf
  | succ fuel ih =>
    intro s
    have parts (c : NodeId) (h : c ∈ (L.program.node id).children) (env : Env)
        (hc : L.program.Covers c (Env.Binds env)) :
        (contract L).Meets (eval L.program L.library model fuel c env) :=
      ih (Nat.lt_of_lt_of_le (L.linked.lawful.child_lt id c h) (Nat.le_of_lt_succ hf)) hc
    have computed := meets_step model parts hc { s with work := s.work.countEvaluation }
    refine ⟨fun _ _ _ => trivial, fun e t h => ?_⟩
    rw [eval_run] at h
    simp only at h
    split at h
    · split at h
      · cases h
      · split at h
        · cases h
        · rename_i e' t' hrun
          cases h
          exact computed.2 e t hrun
    · exact computed.2 e t h

/-- A pass over a linked program fails only for the reasons of the linkage. -/
theorem run_fails {e : EvalError} (h : (run L.program L.library model).1 = .error e) :
    L.fails e := by
  have outputs : (contract L).Meets (L.program.outputs.mapM fun o =>
      eval L.program L.library model (o.2 + 1) o.2 []) := by
    apply (contract L).mapM
    intro o ho
    exact meets_eval (Nat.lt_succ_self o.2) (L.linked.covers_output ho _)
  exact (outputs .start).2 e _ (Prod.ext h rfl)

/-! ### Bindings that are told apart

A node is recalled, and the elements of an iteration are numbered, by the bindings that the node
reads. These are looked up without a failure if one is not there. -/

/-- Evaluation that fails wherever a function that a node reads is not bound. -/
def evalChecked (p : Program) (lib : Library) (model : Value) : Nat → NodeId → Env → PassM Value
  | 0, _, _ => throw .tooDeep
  | fuel + 1, id, env => do
    let _ ← (p.free id).mapM fun l => (MonadExcept.ofExcept (Env.lookup env l) : PassM Binding)
    evalWith p lib model (evalChecked p lib model fuel) id env

/-- A pass whose evaluations are checked. -/
def runChecked (p : Program) (lib : Library) (model : Value) :
    Except EvalError (List Value) × Work :=
  let outputs := p.outputs.mapM fun (_, id) => evalChecked p lib model (id + 1) id []
  let (result, state) := outputs.run .start
  (result, state.work)

variable {p : Program} {lib : Library} {fuel : Nat}

private theorem mapM_lookup {ls : List LambdaId} (h : ∀ l ∈ ls, ∃ b, Env.lookup env l = .ok b) :
    ∃ bs, (ls.mapM fun l => (MonadExcept.ofExcept (Env.lookup env l) : PassM Binding)) =
      pure bs := by
  induction ls with
  | nil => exact ⟨[], rfl⟩
  | cons l rest ih =>
    obtain ⟨⟨b, hb⟩, others⟩ := List.forall_mem_cons.mp h
    obtain ⟨bs, hbs⟩ := ih others
    refine ⟨b :: bs, ?_⟩
    rw [List.mapM_cons, hb, hbs]
    rfl

/-- Where the bindings cover a node, a check of its evaluation passes, and those of its parts. -/
theorem evalChecked_eq (hp : p.Linked) (hf : id < fuel) (hc : p.Covers id (Env.Binds env)) :
    evalChecked p lib model fuel id env = eval p lib model fuel id env := by
  induction fuel generalizing id env with
  | zero => cases hf
  | succ fuel ih =>
    have parts (c : NodeId) (h : c ∈ (p.node id).children) (env : Env)
        (hc : p.Covers c (Env.Binds env)) :
        evalChecked p lib model fuel c env = eval p lib model fuel c env :=
      ih (Nat.lt_of_lt_of_le (hp.lawful.child_lt id c h) (Nat.le_of_lt_succ hf)) hc
    obtain ⟨bs, found⟩ := mapM_lookup fun l hl =>
      let ⟨_, ⟨b, hb, _⟩, _⟩ := hc l hl
      ⟨b, hb⟩
    rw [evalChecked, eval, found, pure_bind, evalWith, evalWith]
    have same : step p model (invoke lib) number (evalChecked p lib model fuel) id env =
        step p model (invoke lib) number (eval p lib model fuel) id env := by
      refine step_congr (fun _ _ => rfl) hp.lawful (fun hi c h => ?_)
        (fun verb source lambda body ctx hn c h => ?_)
        fun verb source lambda body ctx hn element key v hv => ?_
      · exact parts c h env (hp.covers_part hc hi h)
      · exact parts c (by rw [hn]; exact List.mem_append_left _ h) env (hp.covers_source hn hc h)
      · refine bind_congr fun n => parts body (by simp [hn, Node.children]) _ ?_
        refine hp.covers_body hn hc (fun l c hne hb => Env.binds_cons hne hb) ?_
        rw [← hv]
        exact Env.binds_self ⟨lambda, element, key, v, n⟩ env
    rw [same]

/-- A pass finds the binding of every function that a node reads, wherever it evaluates the node. -/
theorem runChecked_eq (hp : p.Linked) : runChecked p lib model = run p lib model := by
  have outputs : (p.outputs.mapM fun o => evalChecked p lib model (o.2 + 1) o.2 []) =
      p.outputs.mapM fun o => eval p lib model (o.2 + 1) o.2 [] := by
    refine mapM_congr fun o ho => ?_
    exact evalChecked_eq hp (Nat.lt_succ_self o.2) (hp.covers_output ho _)
  simp only [runChecked, outputs]
  rfl

end Recalc.Pass
