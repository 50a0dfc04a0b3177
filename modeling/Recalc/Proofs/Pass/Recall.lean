import Recalc.Proofs.Pass.Plain
import Recalc.Proofs.Program.Ordered
import Recalc.Proofs.Value.Keys

/-! What a pass remembers never shows. A number stands for one binding, which the iteration, the
numbers around it and the key of the element determine; a remembered value is the value of its node
wherever the node reads the same numbers. -/
namespace Recalc.Pass

/-- The value of one output, evaluated in a pass of its own. -/
def evalOutput (p : Program) (lib : Library) (model : Value) (id : NodeId) :
    Except EvalError Value := ((eval p lib model (id + 1) id []).run .start).1

/-- A program over a document, with a closed class of values. -/
structure Scene where
  program : Program
  library : Library
  model : Value
  domain : Value → Prop
  lawful : program.Lawful
  closed : ClosedClass program library domain
  model_mem : domain model

/-- The values of a binding are of a class. -/
structure Binding.Within (D : Value → Prop) (b : Binding) : Prop where
  val : D b.val
  key : D b.key
  context : ∀ v, b.context = some v → D v

namespace Scene
variable (S : Scene)

def value (id : NodeId) (env : Env) : Except EvalError Value :=
  Pass.value S.program S.library S.model id env

/-- What an iteration binds its function to for the element at a key. -/
def bound (env : Env) (iteration : NodeId) (key : Value) : Except EvalError Expr.Local :=
  match S.program.node iteration with
  | .iterate _ source lambda _ ctx => do
    let elements ← S.value source env
    let context ← contextValue (fun c => S.value c env) ctx
    let element ← elements.get key
    return ⟨lambda, element, key, context⟩
  | _ => .error (.argument (.unbound 0))

variable {S} {log log' : List Expr.Local} {id : NodeId} {env env' : Env}

private theorem bound_congr (h : Alike S.program id env env') (key : Value) :
    S.bound env id key = S.bound env' id key := by
  unfold bound
  split
  · rename_i verb source lambda body ctx hn
    have outside (c : NodeId) (hc : c ∈ source :: ctx.toList) : S.value c env = S.value c env' :=
      value_congr S.lawful fun l hm => h l (S.lawful.free_source hn hc hm)
    have context : contextValue (fun c => S.value c env) ctx =
        contextValue (fun c => S.value c env') ctx := by
      cases ctx with
      | none => rfl
      | some c => rw [contextValue, contextValue, outside c (by simp)]
    rw [outside source List.mem_cons_self, context]
  · rfl

/-! ### Numbers -/

variable (S) in
/-- The functions that a node reads are bound, and their numbers stand in a log for what they are
bound to. -/
def Logged (log : List Expr.Local) (id : NodeId) (env : Env) : Prop :=
  ∀ l ∈ S.program.free id, ∃ b, Env.find? env l = some b ∧ log[b.id]? = some b.toLocal ∧
    b.Within S.domain

theorem Logged.later (h : S.Logged log id env) (hl : log <+: log') : S.Logged log' id env := by
  intro l hm
  obtain ⟨b, hb, hlog, hw⟩ := h l hm
  obtain ⟨rest, rfl⟩ := hl
  refine ⟨b, hb, ?_, hw⟩
  rw [List.getElem?_append_left (List.getElem?_eq_some_iff.mp hlog).1, hlog]

private theorem Logged.part (h : S.Logged log id env) {c : NodeId}
    (hf : ∀ l ∈ S.program.free c, l ∈ S.program.free id) : S.Logged log c env :=
  fun l hm => h l (hf l hm)

theorem Logged.bind (h : S.Logged log id env) {lambda : LambdaId} {body : NodeId}
    (hf : ∀ l ∈ S.program.free body, l ≠ lambda → l ∈ S.program.free id) {b : Binding}
    (hb : b.lambda = lambda) (hlog : log[b.id]? = some b.toLocal) (hw : b.Within S.domain) :
    S.Logged log body (b :: env) := by
  intro l hm
  by_cases he : b.lambda = l
  · exact ⟨b, by simp [Env.find?, he], hlog, hw⟩
  · obtain ⟨c, hc, hrest⟩ := h l (hf l hm fun heq => he (hb.trans heq.symm))
    refine ⟨c, ?_, hrest⟩
    rw [Env.find?, List.find?_cons_of_neg (by simpa using he)]
    exact hc

/-- Equal numbers stand for equal bindings. -/
theorem Logged.alike (h : S.Logged log id env) (h' : S.Logged log id env')
    (same : bindingsRead S.program id env = bindingsRead S.program id env') :
    Alike S.program id env env' := by
  unfold Logged bindingsRead Alike at *
  generalize S.program.free id = lambdas at *
  induction lambdas with
  | nil => simp
  | cons l rest ih =>
    obtain ⟨b, hb, hlog, -⟩ := h l List.mem_cons_self
    obtain ⟨b', hb', hlog', -⟩ := h' l List.mem_cons_self
    rw [List.filterMap_cons_some (b := b.id) (by simp [hb]),
      List.filterMap_cons_some (b := b'.id) (by simp [hb'])] at same
    obtain ⟨first, later⟩ := List.cons.inj same
    have hlocal : b.toLocal = b'.toLocal := by
      rw [first, hlog'] at hlog
      exact (Option.some.inj hlog).symm
    refine List.forall_mem_cons.mpr ⟨?_, ?_⟩
    · rw [find_locals, find_locals, Env.lookup, Env.lookup, hb, hb']
      exact congrArg Except.ok hlocal
    · exact ih (fun m hm => h m (List.mem_cons_of_mem _ hm))
        (fun m hm => h' m (List.mem_cons_of_mem _ hm)) later

variable (S) in
/-- The state of a pass with a log of what its numbers stand for. -/
structure Remembers (s : State) (log : List Expr.Local) : Prop where
  count : s.count = log.length
  numbers : ∀ key n, key.key.canon = key.key → s.numbers.find? key = some n →
    ∃ env b, S.Logged log key.iteration env ∧
      bindingsRead S.program key.iteration env = key.outer ∧
      S.bound env key.iteration key.key = .ok b ∧ log[n]? = some b
  memo : ∀ id ids v, s.memo.find? ⟨id, ids⟩ = some v →
    ∃ env, S.Logged log id env ∧ bindingsRead S.program id env = ids ∧
      S.value id env = .ok v ∧ S.domain v

private theorem remembers_start : S.Remembers .start [] where
  count := rfl
  numbers key n _ h := by simp [State.start, Table.find?_empty] at h
  memo id ids v h := by simp [State.start, Table.find?_empty] at h

variable {s t : State}

/-- A longer log fits a state with the same memory. -/
theorem Remembers.later (h : S.Remembers s log) (hl : log <+: log') (hm : t.memo = s.memo)
    (hn : t.numbers = s.numbers) (count : t.count = log'.length) : S.Remembers t log' where
  count := count
  numbers key n hk hf := by
    obtain ⟨env, b, hlog, hr, hb, hget⟩ := h.numbers key n hk (hn ▸ hf)
    obtain ⟨rest, rfl⟩ := hl
    refine ⟨env, b, hlog.later (List.prefix_append _ _), hr, hb, ?_⟩
    rw [List.getElem?_append_left (List.getElem?_eq_some_iff.mp hget).1, hget]
  memo id ids v hf := by
    obtain ⟨env, hlog, hrest⟩ := h.memo id ids v (hm ▸ hf)
    exact ⟨env, hlog.later hl, hrest⟩

private theorem Remembers.memoize (h : S.Remembers s log) {v : Value} (hlog : S.Logged log id env)
    (hv : S.value id env = .ok v) (hd : S.domain v) :
    S.Remembers { s with memo := s.memo.insert ⟨id, bindingsRead S.program id env⟩ v } log where
  count := h.count
  numbers := h.numbers
  memo id' ids' v' hf := by
    rw [Table.find?_insert] at hf
    split at hf
    · rename_i heq
      cases eq_of_beq heq
      cases hf
      exact ⟨env, hlog, rfl, hv, hd⟩
    · exact h.memo id' ids' v' hf

private theorem bindingKey_eq_of_canon {key key' : BindingKey} (hk : key.key.canon = key.key)
    (hk' : key'.key.canon = key'.key) (h : (key == key') = true) : key = key' := by
  obtain ⟨iteration, outer, k⟩ := key
  obtain ⟨iteration', outer', k'⟩ := key'
  have h : (decide (iteration = iteration') && decide (outer = outer') && k == k') = true := h
  simp only [Bool.and_eq_true, decide_eq_true_eq] at h
  obtain ⟨⟨rfl, rfl⟩, hkey⟩ := h
  obtain rfl : k = k' := by rwa [Value.beq_iff, hk, hk'] at hkey
  rfl

/-- The number of a binding stands for it. -/
theorem Remembers.number (h : S.Remembers s log) {key : Value} {b : Expr.Local}
    (hk : key.canon = key) (hlog : S.Logged log id env) (hb : S.bound env id key = .ok b) :
    ∃ n t log', (number ⟨id, bindingsRead S.program id env, key⟩).run s = (.ok n, t) ∧
      log <+: log' ∧ S.Remembers t log' ∧ log'[n]? = some b := by
  rw [number_run]
  cases hf : s.numbers.find? ⟨id, bindingsRead S.program id env, key⟩ with
  | some n =>
    obtain ⟨env', b', hlog', hr, hb', hn⟩ := h.numbers _ n hk hf
    rw [bound_congr (hlog'.alike hlog hr), hb] at hb'
    cases hb'
    exact ⟨n, s, log, rfl, List.prefix_refl log, h, hn⟩
  | none =>
    have hl : log <+: log ++ [b] := List.prefix_append _ _
    have last : (log ++ [b])[s.count]? = some b := by simp [h.count]
    refine ⟨s.count, _, log ++ [b], rfl, hl, ?_, last⟩
    have kept : S.Remembers { s with count := s.count + 1 } (log ++ [b]) :=
      h.later hl rfl rfl (by simp [h.count])
    refine { kept with numbers := fun key' n hk' hf' => ?_ }
    rw [Table.find?_insert] at hf'
    split at hf'
    · rename_i heq
      cases bindingKey_eq_of_canon hk hk' heq
      cases hf'
      exact ⟨env, b, hlog.later hl, rfl, hb, last⟩
    · exact kept.numbers key' n hk' hf'

/-! ### A pass gives what evaluation anew gives -/

variable {α β : Type} {P : α → Prop} {Q : β → Prop}

variable (S) in
/-- A run ends as a result says, with a longer log if it succeeds. -/
def Ends (log : List Expr.Local) (P : α → Prop) (y : Except EvalError α) :
    Except EvalError α × State → Prop
  | (.ok v, t) => ∃ log', log <+: log' ∧ S.Remembers t log' ∧ y = .ok v ∧ P v
  | (.error e, _) => y = .error e

variable (S) in
/-- A computation of a pass has a result, from all logs later than a given one. -/
def Gives (log : List Expr.Local) (P : α → Prop) (x : PassM α) (y : Except EvalError α) : Prop :=
  ∀ s log', log <+: log' → S.Remembers s log' → S.Ends log' P y (x.run s)

theorem Ends.later {y : Except EvalError α} {r : Except EvalError α × State}
    (h : S.Ends log' P y r) (hl : log <+: log') : S.Ends log P y r := by
  obtain ⟨result, t⟩ := r
  cases result with
  | error e => exact h
  | ok v =>
    obtain ⟨log'', hl', hrest⟩ := h
    exact ⟨log'', hl.trans hl', hrest⟩

theorem Gives.later {x : PassM α} {y : Except EvalError α} (h : S.Gives log P x y)
    (hl : log <+: log') : S.Gives log' P x y := fun s log'' hl' => h s log'' (hl.trans hl')

theorem Gives.pure {v : α} (h : P v) : S.Gives log P (Pure.pure v) (.ok v) :=
  fun _ log' _ hr => ⟨log', List.prefix_refl log', hr, rfl, h⟩

theorem Gives.bind {x : PassM α} {f : α → PassM β} {y : Except EvalError α}
    {g : α → Except EvalError β} (hx : S.Gives log P x y)
    (hf : ∀ log' v, log <+: log' → P v → y = .ok v → S.Gives log' Q (f v) (g v)) :
    S.Gives log Q (x >>= f) (y >>= g) := by
  intro s log' hl hr
  have first := hx s log' hl hr
  rcases hrun : x.run s with ⟨r, t⟩
  rw [hrun] at first
  cases r with
  | error e =>
    cases first
    rw [run_bind_error hrun]
    rfl
  | ok v =>
    obtain ⟨log'', hl', hr', rfl, hP⟩ := first
    rw [run_bind_ok hrun]
    exact (hf log'' v (hl.trans hl') hP rfl t log'' (List.prefix_refl _) hr').later hl'

variable (S) in
/-- Having a result, from one log, as a relation between computations with the same results. -/
def correspondence (log : List Expr.Local) : Correspondence PassM (Except EvalError) where
  rel P x y := S.Gives log P x y
  pure h := Gives.pure h
  bind hx hf := hx.bind fun _ v hl hP _ => (hf v hP).later hl
  throw _ := fun _ _ _ _ => rfl

private theorem Gives.number {key : Value} {b : Expr.Local} {f : BindingId → PassM β}
    {y : Except EvalError β} (hlog : S.Logged log id env) (hk : key.canon = key)
    (hb : S.bound env id key = .ok b)
    (hf : ∀ log' n, log <+: log' → log'[n]? = some b → S.Gives log' Q (f n) y) :
    S.Gives log Q (Pass.number ⟨id, bindingsRead S.program id env, key⟩ >>= f) y := by
  intro s log' hl hr
  obtain ⟨n, t, log'', hrun, hl', hr', hn⟩ := hr.number hk (hlog.later hl) hb
  rw [run_bind_ok hrun]
  exact (hf log'' n (hl.trans hl') hn t log'' (List.prefix_refl _) hr').later hl'

private theorem Gives.invoke {function : String} {args : List Value} (ha : ∀ v ∈ args, S.domain v) :
    S.Gives log S.domain (Pass.invoke S.library function args) (S.library.call function args) := by
  intro s log' hl hr
  cases hc : S.library.call function args with
  | error e =>
    rw [invoke_run_error hc]
    rfl
  | ok v =>
    rw [invoke_run_ok hc]
    exact ⟨log', List.prefix_refl _, hr.later (List.prefix_refl _) rfl rfl hr.count, rfl,
      S.closed.call function args v ha hc⟩

theorem Gives.ofExcept (r : Except EvalError α) (h : ∀ v, r = .ok v → P v) :
    S.Gives log P (MonadExcept.ofExcept r) r := by
  cases r with
  | error e => exact fun _ _ _ _ => rfl
  | ok v => exact Gives.pure (h v rfl)

private theorem value_iteration {verb : CollectionVerb} {source body : NodeId} {lambda : LambdaId}
    {ctx : Option NodeId} (hn : S.program.node id = .iterate verb source lambda body ctx) :
    S.value id env = (do
      let source ← S.value source env
      let ctx ← contextValue (fun c => S.value c env) ctx
      verb.iterate source fun key element =>
        S.value body (⟨lambda, element, key, ctx, 0⟩ :: env)) := value_iterate S.lawful hn

/-- The value of a context, if there is one. -/
private theorem Gives.context {eval : NodeId → Env → PassM Value} {ctx : Option NodeId}
    (parts : ∀ c ∈ ctx, S.Gives log S.domain (eval c env) (S.value c env)) :
    S.Gives log (fun o => ∀ v, o = some v → S.domain v) (contextValue (fun c => eval c env) ctx)
      (contextValue (fun c => S.value c env) ctx) := by
  cases ctx with
  | none => exact Gives.pure (by simp)
  | some c =>
    rw [contextValue, contextValue, map_eq_pure_bind, map_eq_pure_bind]
    refine (parts c rfl).bind fun log' v _ hv _ => Gives.pure ?_
    rintro _ ⟨⟩
    exact hv

variable {eval : NodeId → Env → PassM Value}

private theorem Gives.iterate {verb : CollectionVerb} {source body : NodeId} {lambda : LambdaId}
    {ctx : Option NodeId} (hn : S.program.node id = .iterate verb source lambda body ctx)
    (hlog : S.Logged log id env)
    (parts : ∀ log env, ∀ c ∈ (S.program.node id).children, S.Logged log c env →
      S.Gives log S.domain (eval c env) (S.value c env)) :
    S.Gives log S.domain (step S.program S.model (Pass.invoke S.library) Pass.number eval id env)
      (S.value id env) := by
  rw [hn] at parts
  have outside {c : NodeId} (hc : c ∈ source :: ctx.toList) {log' : List Expr.Local}
      (hl : log <+: log') : S.Gives log' S.domain (eval c env) (S.value c env) :=
    parts log' env c (List.mem_append_left _ hc)
      ((hlog.later hl).part fun l hm => S.lawful.free_source hn hc hm)
  rw [value_iteration hn]
  simp only [step, hn]
  refine (outside List.mem_cons_self (List.prefix_refl _)).bind
    fun log₁ elements hl₁ helements hsource => ?_
  refine (Gives.context fun c hc => outside (List.mem_cons_of_mem _ (Option.mem_toList.mpr hc))
    hl₁).bind fun log₂ context hl₂ hcontext hctx => ?_
  refine (S.correspondence log₂).iterate_entries S.closed.toVerbClass helements fun es hes e he => ?_
  obtain ⟨hkey, helement, hget⟩ := S.closed.entries verb elements es helements hes e he
  have hb : S.bound env id e.1 = .ok ⟨lambda, e.2, e.1, context⟩ := by
    simp only [bound, hn]
    rw [hsource, hctx]
    change (elements.get e.1 >>= _) = _
    rw [hget]
    rfl
  refine Gives.number (hlog.later (hl₁.trans hl₂))
    (CollectionVerb.isKey_of_mem_entries hes e he).canon_eq hb fun log₃ n hl₃ hnumber => ?_
  have inner : S.Logged log₃ body (⟨lambda, e.2, e.1, context, n⟩ :: env) :=
    (hlog.later (hl₁.trans (hl₂.trans hl₃))).bind
      (fun l hm hne => S.lawful.free_body hn hm hne) rfl hnumber ⟨helement, hkey, hcontext⟩
  have same : S.value body (⟨lambda, e.2, e.1, context, 0⟩ :: env) =
      S.value body (⟨lambda, e.2, e.1, context, n⟩ :: env) :=
    value_congr S.lawful ((show Alike S.program id env env from fun _ _ => rfl).bind
      (fun l hm hne => S.lawful.free_body hn hm hne) rfl rfl)
  rw [same]
  exact parts log₃ _ body (by simp [Node.children]) inner

/-- The parts of a node give its value. -/
private theorem Gives.step (hlog : S.Logged log id env)
    (parts : ∀ log env, ∀ c ∈ (S.program.node id).children, S.Logged log c env →
      S.Gives log S.domain (eval c env) (S.value c env)) :
    S.Gives log S.domain (step S.program S.model (Pass.invoke S.library) Pass.number eval id env)
      (S.value id env) := by
  have reads {l : LambdaId} (hm : (S.program.node id).Needs S.program.free l) :
      ∃ b, Env.lookup env l = .ok b ∧ b.Within S.domain := by
    obtain ⟨b, hb, -, hw⟩ := hlog l ((S.lawful.mem_free id l).mpr hm)
    exact ⟨b, by simp [Env.lookup, hb], hw⟩
  have here (hi : (S.program.node id).isIterate = false) (c : NodeId)
      (hc : c ∈ (S.program.node id).children) :
      S.Gives log S.domain (eval c env) (S.value c env) :=
    parts log env c hc (hlog.part fun l hm => S.lawful.free_part hi hc hm)
  cases hn : S.program.node id with
  | root =>
    rw [value, Pass.value, plain_root hn]
    simp only [Pass.step, hn]
    exact Gives.pure S.model_mem
  | literal v =>
    rw [value, Pass.value, plain_literal hn]
    simp only [Pass.step, hn]
    exact Gives.pure (S.closed.literal id v hn)
  | val l =>
    obtain ⟨b, hb, hw⟩ := reads (l := l) (by simp [hn, Node.Needs])
    rw [value, Pass.value, plain_val hn, find_locals, hb]
    simp only [Pass.step, hn, hb]
    exact Gives.pure hw.val
  | key l =>
    obtain ⟨b, hb, hw⟩ := reads (l := l) (by simp [hn, Node.Needs])
    rw [value, Pass.value, plain_key hn, find_locals, hb]
    simp only [Pass.step, hn, hb]
    exact Gives.pure hw.key
  | context l =>
    obtain ⟨b, hb, hw⟩ := reads (l := l) (by simp [hn, Node.Needs])
    rw [value, Pass.value, plain_context hn, findContext_locals]
    simp only [Pass.step, hn]
    refine Gives.ofExcept _ fun v hv => hw.context v ?_
    obtain ⟨b', same, hv⟩ := except_bind_eq_ok.mp hv
    cases hb.symm.trans same
    split at hv <;> cases hv
    assumption
  | get o k =>
    have hi : (S.program.node id).isIterate = false := by simp [hn, Node.isIterate]
    rw [value, value_get S.lawful hn]
    simp only [Pass.step, hn]
    refine (here hi o (by simp [hn, Node.children])).bind fun log₁ object hl₁ hobject _ => ?_
    refine ((here hi k (by simp [hn, Node.children])).later hl₁).bind fun _ key _ _ _ => ?_
    exact Gives.ofExcept _ fun v hv => S.closed.get object key v hobject hv
  | iterate verb source lambda body ctx => exact Gives.iterate hn hlog parts
  | _ =>
    have hi : (S.program.node id).isIterate = false := by simp [hn, Node.isIterate]
    have hr : (S.program.node id).isReference = false := by simp [hn, Node.isReference]
    rw [step_combine hr hi, value, value_combine S.lawful hr hi]
    exact (S.correspondence log).combine S.closed.toVerbClass (here hi)
      fun _ f args ha => Gives.invoke ha

/-- Every evaluation of a pass gives the value of its node. -/
theorem eval_gives {fuel : Nat} (hf : id < fuel) (hlog : S.Logged log id env) :
    S.Gives log S.domain (Pass.eval S.program S.library S.model fuel id env) (S.value id env) := by
  induction fuel generalizing id env log with
  | zero => cases hf
  | succ fuel ih =>
    have computed : S.Gives log S.domain (Pass.step S.program S.model (Pass.invoke S.library)
        Pass.number (Pass.eval S.program S.library S.model fuel) id env) (S.value id env) :=
      Gives.step hlog fun log env c hc h =>
        ih (Nat.lt_of_lt_of_le (S.lawful.child_lt id c hc) (Nat.le_of_lt_succ hf)) h
    intro s log' hl hs
    have counted : S.Remembers { s with work := s.work.countEvaluation } log' :=
      hs.later (List.prefix_refl _) rfl rfl hs.count
    have ends := computed _ log' hl counted
    rw [eval_run]
    split
    · cases hm : s.memo.find? ⟨id, bindingsRead S.program id env⟩ with
      | some v =>
        obtain ⟨env', hlog', hread, hv, hd⟩ := hs.memo id _ v hm
        have same : S.value id env' = S.value id env :=
          value_congr S.lawful (hlog'.alike (hlog.later hl) hread)
        exact ⟨log', List.prefix_refl _, hs, same ▸ hv, hd⟩
      | none =>
        rcases hrun : (Pass.step S.program S.model (Pass.invoke S.library) Pass.number
          (Pass.eval S.program S.library S.model fuel) id env).run
            { s with work := s.work.countEvaluation } with ⟨r, t⟩
        rw [hrun] at ends
        cases r with
        | error e => exact ends
        | ok v =>
          obtain ⟨log'', hl', ht, hv, hd⟩ := ends
          exact ⟨log'', hl', ht.memoize (hlog.later (hl.trans hl')) hv hd, hv, hd⟩
    · exact ends

variable (S) in
/-- An output has no bindings around it. -/
theorem logged_output {o : String × NodeId} (ho : o ∈ S.program.outputs)
    (log : List Expr.Local) : S.Logged log o.2 [] := by
  intro l hl
  rw [S.lawful.output_free o ho] at hl
  cases hl

private theorem Gives.run_eq {x : PassM α} {y : Except EvalError α} (h : S.Gives [] P x y) :
    (x.run .start).1 = y := by
  have ends := h .start [] (List.prefix_refl _) remembers_start
  rcases hrun : x.run .start with ⟨r, t⟩
  rw [hrun] at ends
  cases r with
  | error e => exact ends.symm
  | ok v =>
    obtain ⟨-, -, -, rfl, -⟩ := ends
    rfl

theorem evalOutput_eq {o : String × NodeId} (ho : o ∈ S.program.outputs) :
    evalOutput S.program S.library S.model o.2 = S.value o.2 [] :=
  (eval_gives (Nat.lt_succ_self o.2) (S.logged_output ho [])).run_eq

variable (S) in
theorem run_eq_plain : (Pass.run S.program S.library S.model).1 =
    plainOutputs S.program S.library S.model := by
  refine Gives.run_eq (S := S) (P := fun vs => ∀ v ∈ vs, S.domain v) ?_
  exact (S.correspondence []).mapM fun o ho =>
    eval_gives (Nat.lt_succ_self o.2) (S.logged_output ho [])

end Scene

/-- The scene of a compiled model, with the values whose fields are in order. -/
def Scene.ofCompiled {m : Model} {b : Backend} {p : Program} {lib : Library} {model : Value}
    (hc : Program.compile m b = .ok p) (hm : m.Ordered) (hl : lib.Ordered) (hd : model.Ordered) :
    Scene where
  program := p
  library := lib
  model := model
  domain := Value.Ordered
  lawful := Program.lawful_of_compile hc
  closed := closedClass_ordered hc hm hl
  model_mem := hd

/-- What a pass remembers never shows: it gives the values of all outputs, or the first error, that
evaluation with nothing remembered gives. -/
theorem run_eq_plainOutputs {m : OrderedModel} {b : Backend} {p : Program} {lib : OrderedLibrary}
    {model : OrderedValue} (hc : Program.compile m b = .ok p) :
    (run p lib model).1 = plainOutputs p lib model :=
  (Scene.ofCompiled hc m.property lib.property model.property).run_eq_plain

/-! ### A model with repeated parts -/

private def truthyCounts : Expr :=
  .shared 0 (.iterate .map (.get .root (.literal (.str "rows"))) 1
    (.call "count" (.iterate .filter (.val 1) 1 (.val 1) none) []) none)

/-- Counts what is truthy in each row. Both iterations have one function, two outputs have the outer
iteration in common, and the third is a constant with a repeated field. -/
def counting : OrderedModel :=
  ⟨⟨[("counts", .output truthyCounts), ("first", .output (.get truthyCounts (.literal (.int 0)))),
    ("limits", .output (.array [.literal (.int 0),
      .object [("low", .literal (.int 1)), ("low", .literal (.int 2))]]))], by decide⟩, by decide⟩

private def count : List Value → Value
  | [.arr items] => .int items.length
  | _ => .null

private theorem ordered_count (args : List Value) : (count args).Ordered := by
  unfold count
  split <;> trivial

def countLibrary : OrderedLibrary :=
  ⟨⟨[("count", count)]⟩, Library.call_class (List.forall_mem_singleton.mpr fun args _ =>
    ordered_count args)⟩

def rows : OrderedValue :=
  ⟨.obj [("rows", .arr [.arr [.float (.round false 1 (-1)), .int 0, .int 2], .arr []])], by decide⟩

theorem run_counting : ∃ p, Program.compile counting .simple = .ok p ∧
    (run p countLibrary rows).1 = plainOutputs p countLibrary rows := by
  obtain ⟨p, hp⟩ := Program.compile_of_wellScoped (m := counting) (b := .simple) (by decide)
  exact ⟨p, hp, run_eq_plainOutputs hp⟩

end Recalc.Pass
