import Recalc.Proofs.Pass.Recall
import Recalc.Proofs.Program.Combine

/-! Evaluation that looks at both parts of every access. The object of an access may be evaluated
before its key or after it, and if both fail, the order decides for which reason the access fails.
An evaluation is fair if that never happens with two different reasons. -/
namespace Recalc

/-- A value, or a failure. A failure is fair if on the way to it no access had an object and a key
that fail for different reasons. -/
inductive Judged (α : Type) where
  | ok (a : α)
  | error (e : EvalError) (fair : Bool)

namespace Judged
variable {α β : Type}

def result : Judged α → Except EvalError α
  | ok a => .ok a
  | error e _ => .error e

def fair : Judged α → Bool
  | ok _ => true
  | error _ fair => fair

instance : Monad Judged where
  pure := ok
  bind x f := match x with
    | ok a => f a
    | error e fair => error e fair

instance : LawfulMonad Judged := LawfulMonad.mk' Judged
  (by
    intro α x
    cases x <;> rfl)
  (by
    intro α β a f
    rfl)
  (by
    intro α β γ x f g
    cases x <;> rfl)

instance : MonadExceptOf EvalError Judged where
  throw e := error e true
  tryCatch x handler := match x with
    | ok a => ok a
    | error e _ => handler e

theorem bind_of_ok {x : Judged α} {f : α → Judged β} {a : α} (h : x.result = .ok a) :
    x >>= f = f a := by
  cases x with
  | ok b =>
    cases h
    rfl
  | error e fair => cases h

theorem result_bind_of_error {x : Judged α} {f : α → Judged β} {e : EvalError}
    (h : x.result = .error e) : (x >>= f).result = .error e := by
  cases x with
  | ok b => cases h
  | error e fair =>
    cases h
    rfl

theorem fair_bind_of_error {x : Judged α} {f : α → Judged β} {e : EvalError}
    (h : x.result = .error e) : (x >>= f).fair = x.fair := by
  cases x with
  | ok b => cases h
  | error e fair => rfl

private theorem result_bind (x : Judged α) (f : α → Judged β) :
    (x >>= f).result = x.result >>= fun a => (f a).result := by
  cases x <;> rfl

theorem result_ofExcept (r : Except EvalError α) :
    (MonadExcept.ofExcept r : Judged α).result = r := by
  cases r <;> rfl

theorem fair_ofExcept (r : Except EvalError α) :
    (MonadExcept.ofExcept r : Judged α).fair = true := by
  cases r <;> rfl

/-- An access, of which both parts are evaluated in any case. If both fail, the object decides. -/
def access (object key : Judged Value) : Judged Value :=
  match object, key with
  | ok o, ok k => MonadExcept.ofExcept (o.get k)
  | ok _, error e fair => error e fair
  | error e fair, ok _ => error e fair
  | error e fair, error e' fair' => error e (fair && fair' && e = e')

theorem result_access (object key : Judged Value) : (access object key).result = (do
    let o ← object.result
    let k ← key.result
    o.get k) := by
  cases object with
  | error e fair => cases key <;> rfl
  | ok o =>
    cases key with
    | error e fair => rfl
    | ok k => exact result_ofExcept _

/-- If an access is fair, so are its parts, and if both fail it is for one reason. -/
theorem fair_of_access {object key : Judged Value} (h : (access object key).fair = true) :
    object.fair = true ∧ key.fair = true ∧
      ∀ e e', object.result = .error e → key.result = .error e' → e = e' := by
  cases object with
  | ok o =>
    cases key with
    | ok k => exact ⟨rfl, rfl, by rintro e e' ⟨⟩⟩
    | error e' fair' => exact ⟨rfl, h, by rintro e e' ⟨⟩⟩
  | error e fair =>
    cases key with
    | ok k => exact ⟨h, rfl, by rintro e e' - ⟨⟩⟩
    | error e' fair' =>
      simp only [access, Judged.fair, Bool.and_eq_true, decide_eq_true_eq] at h
      refine ⟨h.1.1, h.1.2, ?_⟩
      rintro _ _ ⟨⟩ ⟨⟩
      exact h.2

/-- The result of a judged evaluation, as a relation to evaluations that only give results. -/
def correspondence : Correspondence Judged (Except EvalError) where
  rel P x y := x.result = y ∧ ∀ a, y = .ok a → P a
  pure h := by
    refine ⟨rfl, ?_⟩
    rintro _ ⟨⟩
    exact h
  bind {α β P Q x y f g} hx hf := by
    rw [result_bind, hx.1]
    cases hy : y with
    | error e => exact ⟨rfl, by rintro _ ⟨⟩⟩
    | ok a => exact hf a (hx.2 a hy)
  throw e := ⟨rfl, by rintro _ ⟨⟩⟩

end Judged

namespace Pass
variable (p : Program) (lib : Library) (model : Value)

/-- The value of a node with both parts of every access evaluated. The parts of a node come before
it, so a node's position bounds the depth. -/
def judge : Nat → NodeId → Env → Judged Value
  | 0, _, _ => throw .tooDeep
  | fuel + 1, id, env => match p.node id with
    | .get o k => Judged.access (judge fuel o env) (judge fuel k env)
    | _ => step p model (fun f args => MonadExcept.ofExcept (lib.call f args)) (fun _ => pure 0)
        (judge fuel) id env

/-- The judged value of a node. -/
def judged (id : NodeId) (env : Env) : Judged Value := judge p lib model (id + 1) id env

/-- The judged values of all outputs in order. -/
def judgedOutputs : Judged (List Value) := p.outputs.mapM fun o => judged p lib model o.2 []

/-- In the evaluation of the outputs no access has an object and a key that fail for different
reasons. -/
def Fair : Prop := (judgedOutputs p lib model).fair = true

variable {p lib model} {id : NodeId} {env env' : Env} {n k : Nat}

private theorem judge_get {o c : NodeId} (h : p.node id = .get o c) :
    judge p lib model (n + 1) id env =
      Judged.access (judge p lib model n o env) (judge p lib model n c env) := by
  rw [judge]
  simp only [h]

private theorem judge_step (h : ∀ o c, p.node id ≠ .get o c) : judge p lib model (n + 1) id env =
    step p model (fun f args => MonadExcept.ofExcept (lib.call f args)) (fun _ => pure 0)
      (judge p lib model n) id env := by
  rw [judge]
  split
  · rename_i o c hn
    exact absurd hn (h o c)
  · rfl

private theorem lookup_of_find {l : LambdaId} {b : Expr.Local}
    (h : Expr.find env.locals l = .ok b) : ∃ c, Env.lookup env l = .ok c ∧ c.toLocal = b := by
  rw [find_locals] at h
  cases hc : Env.lookup env l with
  | error e => simp [hc, Except.map] at h
  | ok c =>
    rw [hc] at h
    exact ⟨c, rfl, Except.ok.inj h⟩

/-- Bindings that a node reads decide its judged value, whatever depth beyond the node's position
there is. -/
theorem judge_congr (hl : p.Lawful) (hn : id < n) (hk : id < k) (h : Alike p id env env') :
    judge p lib model n id env = judge p lib model k id env' := by
  induction n generalizing k id env env' with
  | zero => cases hn
  | succ n ih =>
    cases k with
    | zero => cases hk
    | succ k =>
      have part (c : NodeId) (hc : c ∈ (p.node id).children) (e e' : Env) (he : Alike p c e e') :
          judge p lib model n c e = judge p lib model k c e' := by
        have lt := hl.child_lt id c hc
        exact ih (Nat.lt_of_lt_of_le lt (Nat.le_of_lt_succ hn))
          (Nat.lt_of_lt_of_le lt (Nat.le_of_lt_succ hk)) he
      by_cases hg : ∃ o c, p.node id = .get o c
      · obtain ⟨o, c, hg⟩ := hg
        have here (d : NodeId) (hd : d ∈ (p.node id).children) : Alike p d env env' :=
          fun l hm => h l (hl.free_part (by rw [hg]; rfl) hd hm)
        have mo : o ∈ (p.node id).children := by simp [hg, Node.children]
        have mc : c ∈ (p.node id).children := by simp [hg, Node.children]
        rw [judge_get hg, judge_get hg, part o mo _ _ (here o mo), part c mc _ _ (here c mc)]
      · replace hg : ∀ o c, p.node id ≠ .get o c := by simpa using hg
        rw [judge_step hg, judge_step hg]
        exact step_congr_alike hl h part

section
variable (hl : p.Lawful)
include hl

theorem judged_congr (h : Alike p id env env') :
    judged p lib model id env = judged p lib model id env' :=
  judge_congr hl (Nat.lt_succ_self id) (Nat.lt_succ_self id) h

private theorem judge_part {c : NodeId} (hc : c ∈ (p.node id).children) (env : Env) :
    judge p lib model id c env = judged p lib model c env :=
  judge_congr hl (hl.child_lt id c hc) (Nat.lt_succ_self c) fun _ _ => rfl

theorem judged_get {o c : NodeId} (h : p.node id = .get o c) : judged p lib model id env =
    Judged.access (judged p lib model o env) (judged p lib model c env) := by
  rw [judged, judge_get h, judge_part hl (by simp [h, Node.children]),
    judge_part hl (by simp [h, Node.children])]

private theorem judged_step (h : ∀ o c, p.node id ≠ .get o c) : judged p lib model id env =
    step p model (fun f args => MonadExcept.ofExcept (lib.call f args)) (fun _ => pure 0)
      (judged p lib model) id env := by
  rw [judged, judge_step h]
  refine step_congr_alike hl (fun _ _ => rfl) fun c hc e e' he => ?_
  rw [judge_part hl hc]
  exact judged_congr hl he

theorem judged_root (h : p.node id = .root) : judged p lib model id env = pure model := by
  rw [judged_step hl (by simp [h])]
  simp only [step, h]

theorem judged_literal {v : Value} (h : p.node id = .literal v) :
    judged p lib model id env = pure v := by
  rw [judged_step hl (by simp [h])]
  simp only [step, h]

theorem judged_val {l : LambdaId} {b : Expr.Local} (h : p.node id = .val l)
    (hb : Expr.find env.locals l = .ok b) : judged p lib model id env = pure b.val := by
  obtain ⟨c, hc, rfl⟩ := lookup_of_find hb
  rw [judged_step hl (by simp [h])]
  simp only [step, h, hc]
  rfl

theorem judged_key {l : LambdaId} {b : Expr.Local} (h : p.node id = .key l)
    (hb : Expr.find env.locals l = .ok b) : judged p lib model id env = pure b.key := by
  obtain ⟨c, hc, rfl⟩ := lookup_of_find hb
  rw [judged_step hl (by simp [h])]
  simp only [step, h, hc]
  rfl

theorem judged_context {l : LambdaId} {b : Expr.Local} {v : Value} (h : p.node id = .context l)
    (hb : Expr.find env.locals l = .ok b) (hv : b.context = some v) :
    judged p lib model id env = pure v := by
  have found : Expr.findContext env.locals l = .ok v := by
    simp [Expr.findContext, hb, hv, bind, Except.bind, pure, Except.pure]
  rw [judged_step hl (by simp [h])]
  simp only [step, h]
  rw [← findContext_locals, found]
  rfl

theorem judged_iterate {verb : CollectionVerb} {source body : NodeId} {lambda : LambdaId}
    {ctx : Option NodeId} (h : p.node id = .iterate verb source lambda body ctx) :
    judged p lib model id env = (do
      let source ← judged p lib model source env
      let ctx ← contextValue (fun c => judged p lib model c env) ctx
      verb.iterate source fun key element =>
        judged p lib model body (⟨lambda, element, key, ctx, 0⟩ :: env)) := by
  rw [judged_step hl (by simp [h])]
  simp only [step, h, pure_bind]

theorem judged_combine (hr : (p.node id).isReference = false) (hi : (p.node id).isIterate = false) :
    judged p lib model id env = (p.node id).combine (fun c => judged p lib model c env)
      fun f args => MonadExcept.ofExcept (lib.call f args) := by
  rw [judged_step hl, step_combine hr hi]
  intro o c hn
  rw [hn] at hr
  cases hr

end

/-! ### Results -/

/-- Evaluations of the parts of a node that correspond give corresponding evaluations of the
node. -/
theorem step_corresponds {m n : Type → Type} [Monad m] [Monad n] [LawfulMonad m]
    [LawfulMonad n] [MonadExceptOf EvalError m] [MonadExceptOf EvalError n] (R : Correspondence m n)
    {invoke : String → List Value → m Value} {invoke' : String → List Value → n Value}
    (hi : ∀ f args, R.rel (fun _ => True) (invoke f args) (invoke' f args))
    {eval : NodeId → Env → m Value} {eval' : NodeId → Env → n Value}
    (he : ∀ c e, R.rel (fun _ => True) (eval c e) (eval' c e)) (id : NodeId) (env : Env) :
    R.rel (fun _ => True) (step p model invoke (fun _ => pure 0) eval id env)
      (step p model invoke' (fun _ => pure 0) eval' id env) := by
  cases hn : p.node id with
  | root | literal v =>
    simp only [step, hn]
    exact R.pure trivial
  | val l | key l =>
    simp only [step, hn]
    exact R.bind (R.ofExcept (P := fun _ => True) _ fun _ _ => trivial) fun _ _ => R.pure trivial
  | context l =>
    simp only [step, hn]
    exact R.ofExcept _ fun _ _ => trivial
  | get o k =>
    simp only [step, hn]
    apply R.bind (he o env)
    intro object _
    apply R.bind (he k env)
    intro key _
    exact R.ofExcept _ fun _ _ => trivial
  | iterate verb source lambda body ctx =>
    simp only [step, hn]
    apply R.bind (he source env)
    intro elements _
    have context : R.rel (fun _ => True) (contextValue (fun c => eval c env) ctx)
        (contextValue (fun c => eval' c env) ctx) := by
      cases ctx with
      | none => exact R.pure trivial
      | some c =>
        rw [contextValue, contextValue, map_eq_pure_bind, map_eq_pure_bind]
        exact R.bind (he c env) fun _ _ => R.pure trivial
    apply R.bind context
    intro context _
    apply R.iterate_entries (verbClass_any p) trivial
    intro _ _ e _
    exact R.bind (R.pure (P := fun _ => True) trivial) fun _ _ => he body _
  | _ =>
    have hr : (p.node id).isReference = false := by simp [hn, Node.isReference]
    have hit : (p.node id).isIterate = false := by simp [hn, Node.isIterate]
    rw [step_combine hr hit, step_combine hr hit]
    exact R.combine (verbClass_any p) (fun c _ => he c env) fun _ f args _ => hi f args

/-- A judged evaluation has the result of the plain one. -/
theorem result_judge (n : Nat) (id : NodeId) (env : Env) :
    (judge p lib model n id env).result = plain p lib model n id env := by
  induction n generalizing id env with
  | zero => rfl
  | succ n ih =>
    by_cases hg : ∃ o c, p.node id = .get o c
    · obtain ⟨o, c, hg⟩ := hg
      rw [judge_get hg, plain_get hg, ← ih, ← ih, Judged.result_access]
    · rw [judge_step (by simpa using hg), plain]
      refine (step_corresponds Judged.correspondence (fun f args => ?_) (fun c e => ?_) id env).1
      · exact ⟨Judged.result_ofExcept _, fun _ _ => trivial⟩
      · exact ⟨ih c e, fun _ _ => trivial⟩

theorem result_judgedOutputs :
    (judgedOutputs p lib model).result = plainOutputs p lib model := by
  refine (Judged.correspondence.mapM (P := fun _ => True) fun o _ => ?_).1
  exact ⟨result_judge _ _ _, fun _ _ => trivial⟩

end Pass

end Recalc
