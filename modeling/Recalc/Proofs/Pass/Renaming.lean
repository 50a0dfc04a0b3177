import Recalc.Proofs.Pass.Safety
import Recalc.Proofs.Program.Lockstep
import Recalc.Proofs.Program.Renaming

/-! Passes over a program with its functions renumbered. The lists of bindings that nodes read are
in another order, but two such lists of one node are equal in both programs or in none. So both
passes number and remember in step. -/
namespace Recalc.Pass

/-! ### Bindings -/

/-- The binding with its function renumbered. -/
def Binding.rename (f : LambdaId → LambdaId) (b : Binding) : Binding :=
  { b with lambda := f b.lambda }

def Env.rename (f : LambdaId → LambdaId) (env : Env) : Env := env.map (Binding.rename f)

/-- The number of the binding of a function, which is arbitrary if there is none. -/
def Env.number (env : Env) (l : LambdaId) : BindingId := ((Env.find? env l).map Binding.id).getD 0

section
variable {f : LambdaId → LambdaId} (hf : Function.Injective f) {env : Env}
include hf

private theorem Env.find?_rename (l : LambdaId) :
    Env.find? (env.rename f) (f l) = (Env.find? env l).map (Binding.rename f) := by
  unfold Env.find? Env.rename
  rw [List.find?_map]
  congr 2
  funext b
  simp [Binding.rename, hf.eq_iff]

private theorem Env.number_rename (l : LambdaId) :
    Env.number (env.rename f) (f l) = Env.number env l := by
  rw [Env.number, Env.find?_rename hf, Env.number]
  cases Env.find? env l <;> rfl

private theorem Env.lookup_rename {l : LambdaId} {b : Binding} (h : Env.lookup env l = .ok b) :
    Env.lookup (env.rename f) (f l) = .ok (b.rename f) := by
  unfold Env.lookup at h ⊢
  rw [Env.find?_rename hf]
  cases hb : Env.find? env l with
  | none =>
    rw [hb] at h
    cases h
  | some found =>
    rw [hb] at h
    cases h
    rfl

private theorem Env.binds_rename {l : LambdaId} {c : Bool} (h : Env.Binds env l c) :
    Env.Binds (env.rename f) (f l) c := by
  obtain ⟨b, hb, hc⟩ := h
  exact ⟨b.rename f, Env.lookup_rename hf hb, hc⟩

end

private theorem bindingsRead_eq {p : Program} {id : NodeId} {env : Env}
    (h : ∀ l ∈ p.free id, ∃ c, Env.Binds env l c) :
    bindingsRead p id env = (p.free id).map (Env.number env) := by
  unfold bindingsRead
  rw [← List.filterMap_eq_map]
  refine List.filterMap_congr fun l hl => ?_
  obtain ⟨c, b, hb, -⟩ := h l hl
  unfold Env.lookup at hb
  cases hfound : Env.find? env l with
  | none =>
    rw [hfound] at hb
    cases hb
  | some found => simp [Env.number, hfound]

/-! ### States -/

/-- Two ways to number the bindings of functions that agree up to the numbers of functions. -/
def Agree (N : Renaming) (g g' : LambdaId → BindingId) : Prop := ∀ l, g' (N.map l) = g l

variable {N : Renaming} {g g' h h' : LambdaId → BindingId}

/-- Lists of bindings of one node are equal in both programs or in none. -/
theorem Agree.map_free_iff (hg : Agree N g g') (hh : Agree N h h') (id : NodeId) :
    (N.after.free id).map g' = (N.after.free id).map h' ↔
      (N.before.free id).map g = (N.before.free id).map h := by
  rw [List.map_inj_left, List.map_inj_left]
  constructor
  · intro same l hl
    rw [← hg l, ← hh l]
    exact same (N.map l) ((N.mem_free id l).mpr hl)
  · intro same l hl
    obtain ⟨k, hk, rfl⟩ := N.exists_of_mem_free hl
    rw [hg k, hh k]
    exact same k hk

/-- The key of a node's value, where the bindings of functions are numbered in a given way. -/
def memoKey (p : Program) (id : NodeId) (g : LambdaId → BindingId) : MemoKey :=
  ⟨id, (p.free id).map g⟩

/-- The key of a binding that an iteration makes. -/
def bindingKey (p : Program) (id : NodeId) (g : LambdaId → BindingId) (key : Value) : BindingKey :=
  ⟨id, (p.free id).map g, key⟩

private theorem Agree.beq_memoKey (hg : Agree N g g') (hh : Agree N h h') (id other : NodeId) :
    (memoKey N.after id g' == memoKey N.after other h') =
      (memoKey N.before id g == memoKey N.before other h) := by
  rw [Bool.eq_iff_iff, beq_iff_eq, beq_iff_eq]
  simp only [memoKey, MemoKey.mk.injEq]
  refine and_congr_right fun hid => ?_
  subst hid
  exact hg.map_free_iff hh id

private theorem Agree.beq_bindingKey (hg : Agree N g g') (hh : Agree N h h') (id other : NodeId)
    (key key' : Value) :
    (bindingKey N.after id g' key == bindingKey N.after other h' key') =
      (bindingKey N.before id g key == bindingKey N.before other h key') := by
  rw [Bool.eq_iff_iff]
  change (decide (id = other) && decide (_ = _) && key == key') = true ↔
    (decide (id = other) && decide (_ = _) && key == key') = true
  simp only [Bool.and_eq_true, decide_eq_true_iff]
  refine and_congr_left fun _ => and_congr_right fun hid => ?_
  subst hid
  exact hg.map_free_iff hh id

/-- Passes that have remembered the same values and numbered the same bindings, up to the order of
the bindings that a node reads. -/
structure State.Renames (N : Renaming) (s t : State) : Prop where
  memo : ∀ id g g', Agree N g g' →
    t.memo.find? (memoKey N.after id g') = s.memo.find? (memoKey N.before id g)
  numbers : ∀ id g g', Agree N g g' → ∀ key,
    t.numbers.find? (bindingKey N.after id g' key) = s.numbers.find? (bindingKey N.before id g key)
  count : t.count = s.count
  work : t.work = s.work

variable {s t : State}

private theorem State.renames_start : State.Renames N .start .start where
  memo id g g' _ := by simp [State.start, Table.find?_empty]
  numbers id g g' _ key := by simp [State.start, Table.find?_empty]
  count := rfl
  work := rfl

private theorem State.Renames.remember (hs : State.Renames N s t) (hg : Agree N g g') (id : NodeId)
    (v : Value) : State.Renames N
      { s with memo := s.memo.insert (memoKey N.before id g) v }
      { t with memo := t.memo.insert (memoKey N.after id g') v } where
  memo other h h' hh := by
    simp only [Table.find?_insert, hg.beq_memoKey hh, hs.memo other h h' hh]
  numbers := hs.numbers
  count := hs.count
  work := hs.work

private theorem State.Renames.number (hs : State.Renames N s t) (hg : Agree N g g') (id : NodeId)
    (key : Value) (b : BindingId) (n : Nat) : State.Renames N
      { s with numbers := s.numbers.insert (bindingKey N.before id g key) b, count := n }
      { t with numbers := t.numbers.insert (bindingKey N.after id g' key) b, count := n } where
  memo := hs.memo
  numbers other h h' hh key' := by
    simp only [Table.find?_insert, hg.beq_bindingKey hh, hs.numbers other h h' hh]
  count := rfl
  work := hs.work

/-! ### Evaluation -/

/-- Computations of the two passes that go in step. -/
abbrev Twins (N : Renaming) {α : Type} (x y : PassM α) : Prop := Lockstep (State.Renames N) x y

private theorem twins_number (hg : Agree N g g') (id : NodeId) (key : Value) :
    Twins N (number (bindingKey N.before id g key)) (number (bindingKey N.after id g' key)) := by
  intro s t hs
  rw [number_run, number_run, hs.numbers id g g' hg key, hs.count]
  cases s.numbers.find? (bindingKey N.before id g key) with
  | some n => exact ⟨rfl, hs⟩
  | none => exact ⟨rfl, hs.number hg id key _ _⟩

private theorem twins_invoke (lib : Library) (function : String) (args : List Value) :
    Twins N (invoke lib function args) (invoke lib function args) := by
  intro s t hs
  cases hc : lib.call function args with
  | error e =>
    rw [invoke_run_error hc, invoke_run_error hc]
    exact ⟨rfl, hs⟩
  | ok v =>
    rw [invoke_run_ok hc, invoke_run_ok hc]
    refine ⟨rfl, hs.memo, hs.numbers, hs.count, ?_⟩
    exact congrArg (Work.recordCall · _) hs.work

variable {id : NodeId} {env : Env}

/-- The lists of bindings that a node reads agree. -/
theorem bindingsRead_rename (hc : N.before.Covers id (Env.Binds env)) :
    bindingsRead N.before id env = (N.before.free id).map (Env.number env) ∧
      bindingsRead N.after id (env.rename N.map) =
        (N.after.free id).map (Env.number (env.rename N.map)) := by
  have bound (l : LambdaId) (hl : l ∈ N.before.free id) : ∃ c, Env.Binds env l c := by
    obtain ⟨c, hb, -⟩ := hc l hl
    exact ⟨c, hb⟩
  refine ⟨bindingsRead_eq bound, bindingsRead_eq fun l hl => ?_⟩
  obtain ⟨k, hk, rfl⟩ := N.exists_of_mem_free hl
  obtain ⟨c, hb⟩ := bound k hk
  exact ⟨c, Env.binds_rename N.injective hb⟩

private theorem agree_number (env : Env) :
    Agree N (Env.number env) (Env.number (env.rename N.map)) :=
  Env.number_rename N.injective

/-- A node that is covered by the bindings around it is evaluated in step if its parts are. -/
theorem twins_step (lib : Library) (model : Value) {eval eval' : NodeId → Env → PassM Value}
    (ih : ∀ c ∈ (N.before.node id).children, ∀ env, N.before.Covers c (Env.Binds env) →
      Twins N (eval c env) (eval' c (env.rename N.map)))
    (hc : N.before.Covers id (Env.Binds env)) :
    Twins N (step N.before model (invoke lib) number eval id env)
      (step N.after model (invoke lib) number eval' id (env.rename N.map)) := by
  let R := lockstep (State.Renames N)
  have node := N.node id
  have reference {kind : ReferenceKind} {l : LambdaId}
      (hn : (N.before.node id).reference? = some (kind, l)) := N.linked.covers_reference hc hn
  have part (hi : (N.before.node id).isIterate = false) (c : NodeId)
      (h : c ∈ (N.before.node id).children) : Twins N (eval c env) (eval' c (env.rename N.map)) :=
    ih c h env (N.linked.covers_part hc hi h)
  cases hn : N.before.node id with
  | root | literal v =>
    rw [hn] at node
    simp only [step, hn, node, Node.rename]
    exact (R.pure (P := fun _ => True) trivial).1
  | val l | key l =>
    rw [hn] at node
    obtain ⟨c, ⟨b, hb, -⟩, -⟩ := reference (by rw [hn]; rfl)
    simp only [step, hn, node, Node.rename, hb, Env.lookup_rename N.injective hb]
    exact (R.pure (P := fun _ => True) trivial).1
  | context l =>
    rw [hn] at node
    obtain ⟨c, ⟨b, hb, hs⟩, hx⟩ := reference (by rw [hn]; rfl)
    obtain ⟨v, hv⟩ := Option.isSome_iff_exists.mp (hs.trans (hx rfl))
    have found : Env.context env l = .ok v := by
      simp [Env.context, hb, hv, bind, Except.bind, pure, Except.pure]
    have found' : Env.context (env.rename N.map) (N.map l) = .ok v := by
      simp [Env.context, Env.lookup_rename N.injective hb, Binding.rename, hv, bind, Except.bind,
        pure, Except.pure]
    simp only [step, hn, node, Node.rename, found, found']
    exact (R.pure (P := fun _ => True) trivial).1
  | get o k =>
    rw [hn] at node
    have hi : (N.before.node id).isIterate = false := by rw [hn]; rfl
    simp only [step, hn, node, Node.rename]
    refine (part hi o (by simp [hn, Node.children])).bind fun _ o _ _ => ?_
    refine (part hi k (by simp [hn, Node.children])).bind fun _ k _ _ => ?_
    exact (R.ofExcept (P := fun _ => True) _ fun _ _ => trivial).1
  | iterate verb source lambda body ctx =>
    rw [hn] at node
    have outer (c : NodeId) (h : c ∈ source :: ctx.toList) :
        Twins N (eval c env) (eval' c (env.rename N.map)) :=
      ih c (by rw [hn]; exact List.mem_append_left _ h) env (N.linked.covers_source hn hc h)
    obtain ⟨read, read'⟩ := bindingsRead_rename hc
    simp only [step, hn, node, Node.rename, read, read']
    refine (outer source List.mem_cons_self).bind fun _ elements _ _ => ?_
    have context : R.rel (fun v => v.isSome = ctx.isSome) (contextValue (fun c => eval c env) ctx)
        (contextValue (fun c => eval' c (env.rename N.map)) ctx) := by
      cases ctx with
      | none => exact R.pure rfl
      | some c =>
        change R.rel _ (eval c env >>= fun v => pure (some v))
          (eval' c (env.rename N.map) >>= fun v => pure (some v))
        exact R.bind ((outer c (by simp)).rel (P := fun _ => True) fun _ => trivial) fun v _ =>
          R.pure rfl
    refine context.1.bind fun s v t hv => ?_
    have given := context.2 s v t hv
    refine (R.iterate_entries (verbClass_any N.before) trivial fun _ _ e _ => ?_).1
    refine R.bind ((twins_number (agree_number env) id e.1).rel (P := fun _ => True) fun _ =>
      trivial) fun n _ => ?_
    refine (ih body (by simp [hn, Node.children]) (⟨lambda, e.2, e.1, v, n⟩ :: env) ?_).rel
      fun _ => trivial
    refine N.linked.covers_body hn hc (fun l c hne hb => Env.binds_cons hne hb) ?_
    rw [← given]
    exact Env.binds_self ⟨lambda, e.2, e.1, v, n⟩ env
  | _ =>
    have hr : (N.before.node id).isReference = false := by simp [hn, Node.isReference]
    have hi : (N.before.node id).isIterate = false := by simp [hn, Node.isIterate]
    have same : N.after.node id = N.before.node id := by rw [node, hn]; rfl
    rw [step_combine hr hi, step_combine (same ▸ hr) (same ▸ hi), same]
    refine (R.combine (verbClass_any N.before) (fun c h => ?_) fun _ function args _ => ?_).1
    · exact (part hi c h).rel fun _ => trivial
    · exact (twins_invoke lib function args).rel fun _ => trivial

/-- Evaluation goes in step. -/
theorem twins_eval (lib : Library) (model : Value) (fuel : Nat)
    (hc : N.before.Covers id (Env.Binds env)) :
    Twins N (eval N.before lib model fuel id env)
      (eval N.after lib model fuel id (env.rename N.map)) := by
  induction fuel generalizing id env with
  | zero => exact fun s t hs => ⟨rfl, hs⟩
  | succ fuel ih =>
    have parts (c : NodeId) (_ : c ∈ (N.before.node id).children) (inner : Env)
        (covered : N.before.Covers c (Env.Binds inner)) :
        Twins N (eval N.before lib model fuel c inner)
          (eval N.after lib model fuel c (inner.rename N.map)) := ih covered
    have computed := twins_step lib model parts hc
    obtain ⟨read, read'⟩ := bindingsRead_rename hc
    have kind : ((N.after.node id).hoist || (N.after.node id).isCall) =
        ((N.before.node id).hoist || (N.before.node id).isCall) := by
      rw [N.node id]
      cases N.before.node id <;> rfl
    intro s t hs
    have counted : State.Renames N { s with work := s.work.countEvaluation }
        { t with work := t.work.countEvaluation } :=
      ⟨hs.memo, hs.numbers, hs.count, congrArg Work.countEvaluation hs.work⟩
    obtain ⟨r, s', t', hrun, hrun', hs'⟩ := computed.run counted
    have memo := hs.memo id _ _ (agree_number env)
    unfold memoKey at memo
    rw [eval_run, eval_run, kind, read, read', memo, hrun, hrun']
    simp only
    split
    · split
      · exact ⟨rfl, hs⟩
      · cases r with
        | error e => exact ⟨rfl, hs'⟩
        | ok v => exact ⟨rfl, hs'.remember (agree_number env) id v⟩
    · exact ⟨rfl, hs'⟩

/-- A pass gives the same outputs with the same work. -/
theorem run_rename (N : Renaming) (lib : Library) (model : Value) :
    run N.after lib model = run N.before lib model := by
  have outputs : Twins N
      (N.before.outputs.mapM fun o => eval N.before lib model (o.2 + 1) o.2 [])
      (N.after.outputs.mapM fun o => eval N.after lib model (o.2 + 1) o.2 []) := by
    rw [N.renames.outputs]
    have output (o : String × NodeId) (ho : o ∈ N.before.outputs) :
        (lockstep (State.Renames N)).rel (fun _ => True)
          (eval N.before lib model (o.2 + 1) o.2 []) (eval N.after lib model (o.2 + 1) o.2 []) :=
      (twins_eval lib model _ (N.linked.covers_output ho _)).rel fun _ => trivial
    exact ((lockstep (State.Renames N)).mapM output).1
  obtain ⟨result, states⟩ := outputs _ _ State.renames_start
  exact Prod.ext result states.work

end Recalc.Pass
