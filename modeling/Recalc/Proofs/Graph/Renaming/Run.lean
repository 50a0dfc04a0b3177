import Recalc.Proofs.Graph.Renaming.Cells
import Recalc.Proofs.Graph.Verify
import Recalc.Proofs.Program.Lockstep

/-! Recalculation of a program with its functions renumbered: it goes in step with that of the
program itself, from reading one node to whole recalculations. -/
namespace Recalc.Graph
variable {N : Renaming}

/-- A state of a recalculation with the functions of all keys renumbered. -/
structure State.Renames (N : Renaming) (s t : State) : Prop where
  graph : s.graph.Renames N t.graph
  reads : t.reads = s.reads
  computed : t.computed = s.computed
  calls : t.calls = s.calls

/-- Computations of the two recalculations that go in step. -/
abbrev Twins (N : Renaming) {α : Type} (x y : CellM α) : Prop := Lockstep (State.Renames N) x y

private abbrev twin (N : Renaming) : Correspondence CellM CellM := lockstep (State.Renames N)

private theorem twins_pure {α : Type} (a : α) : Twins N (pure a) (pure a) :=
  fun _ _ hs => ⟨rfl, hs⟩

private theorem twins_ofExcept {α : Type} (r : Except EvalError α) :
    Twins N (MonadExcept.ofExcept r) (MonadExcept.ofExcept r) :=
  ((twin N).ofExcept (P := fun _ => True) r fun _ _ => trivial).1

/-! ### Nodes -/

private theorem twins_internCell {key key' : CellKey CellId} (hk : key.Renames N key') :
    Twins N (internCell key) (internCell key') := by
  intro s t hs
  obtain ⟨same, graph⟩ := hs.graph.intern hk
  exact ⟨congrArg Except.ok same, graph, hs.reads, hs.computed, hs.calls⟩

private theorem twins_invoke (lib : Library) (function : String) (args : List Value) :
    Twins N (invoke lib function args) (invoke lib function args) := by
  refine (twins_ofExcept _).bind fun _ v _ _ => Lockstep.bind (Lockstep.modify ?_) fun _ _ _ _ =>
    twins_pure v
  intro s t hs
  exact ⟨hs.graph, hs.reads, hs.computed, congrArg (Array.push · _) hs.calls⟩

section
variable {verify verify' : CellId → CellM Unit} (hv : ∀ id, Twins N (verify id) (verify' id))
  {id : NodeId} {env env' : CellEnv CellId}
include hv

private theorem twins_pull (id : CellId) : Twins N (pull verify id) (pull verify' id) := by
  refine (hv id).bind fun _ _ _ _ => ?_
  refine Lockstep.bind (Lockstep.modify ?_) fun _ _ _ _ => Lockstep.get ?_
  · intro s t hs
    exact ⟨hs.graph, congrArg (id :: ·) hs.reads, hs.computed, hs.calls⟩
  · intro s t hs
    exact ⟨congrArg Except.ok (hs.graph.value id), hs⟩

private theorem twins_read (h : Handle CellId) :
    Twins N ((access verify).read h) ((access verify').read h) := by
  cases h with
  | const v => exact twins_pure v
  | cell id => exact twins_pull hv id

private theorem twins_handleWithin (fuel : Nat) (h : env.Renames N id env') :
    Twins N ((access verify).handleWithin N.before fuel id env)
      ((access verify').handleWithin N.after fuel id env') := by
  induction fuel generalizing id with
  | zero => exact fun s t hs => ⟨rfl, hs⟩
  | succ fuel ih =>
    have node := N.node id
    have reference {kind : ReferenceKind} {l : LambdaId}
        (hn : (N.before.node id).reference? = some (kind, l)) :=
      N.linked.covers_reference h.serves.covers hn
    unfold CellAccess.handleWithin
    cases hn : N.before.node id with
    | literal v =>
      rw [hn] at node
      simp only [node, Node.rename]
      exact twins_pure _
    | root =>
      rw [hn] at node
      simp only [node, Node.rename]
      exact twins_pure _
    | val l | key l =>
      rw [hn] at node
      obtain ⟨c, ⟨b, hb, -⟩, -⟩ := reference (by rw [hn]; rfl)
      simp only [node, Node.rename, hb, h.lookup hb]
      exact twins_pure _
    | context l =>
      rw [hn] at node
      obtain ⟨c, ⟨b, hb, hs⟩, hx⟩ := reference (by rw [hn]; rfl)
      obtain ⟨x, hx⟩ := Option.isSome_iff_exists.mp (hs.trans (hx rfl))
      have found : CellEnv.context env l = .ok x := by
        simp [CellEnv.context, hb, hx, bind, Except.bind, pure, Except.pure]
      have found' : CellEnv.context env' (N.map l) = .ok x := by
        simp [CellEnv.context, h.lookup hb, hx, bind, Except.bind, pure, Except.pure]
      simp only [node, Node.rename, found, found']
      exact twins_pure x
    | get o k =>
      rw [hn] at node
      have hi : (N.before.node id).isIterate = false := by rw [hn]; rfl
      simp only [node, Node.rename]
      refine (ih (h.part hi (c := o) (by simp [hn, Node.children]))).bind fun _ object _ _ => ?_
      refine (ih (h.part hi (c := k) (by simp [hn, Node.children]))).bind fun _ handle _ _ => ?_
      refine (twins_read hv handle).bind fun _ key _ _ => ?_
      cases object with
      | cell source => exact (twins_internCell (.slot source key)).bind fun _ _ _ _ => twins_pure _
      | const v => exact (twins_ofExcept _).bind fun _ _ _ _ => twins_pure _
    | _ =>
      rw [hn] at node
      simp only [node, Node.rename]
      exact (twins_internCell (.node h.restrict)).bind fun _ _ _ _ => twins_pure _

private theorem twins_readNode (h : env.Renames N id env') :
    Twins N ((access verify).readNode N.before id env)
      ((access verify').readNode N.after id env') :=
  (twins_handleWithin hv (id + 1) h).bind fun _ handle _ _ => twins_read hv handle

omit hv in
private theorem twins_elementHandle (source : Handle CellId) (key element : Value) :
    Twins N ((access verify).elementHandle source key element)
      ((access verify').elementHandle source key element) := by
  cases source with
  | cell id => exact (twins_internCell (.slot id key)).bind fun _ _ _ _ => twins_pure _
  | const v => exact twins_pure _

/-- Both recalculations find the same context, and one exactly if the iteration has one. -/
theorem twins_contextHandle {ctx : Option NodeId}
    (h : ∀ c ∈ ctx.toList, env.Renames N c env') :
    (lockstep (State.Renames N)).rel (fun x => x.isSome = ctx.isSome)
      ((access verify).contextHandle N.before env ctx)
      ((access verify').contextHandle N.after env' ctx) := by
  cases ctx with
  | none => exact (twin N).pure rfl
  | some c =>
    have handle := twins_handleWithin hv (c + 1) (h c (by simp))
    refine (twin N).bind (handle.rel (P := fun _ => True) fun _ => trivial) fun handle _ => ?_
    refine (twin N).bind ((twins_read hv handle).rel (P := fun _ => True) fun _ => trivial)
      fun _ _ => ?_
    exact (twin N).pure rfl

/-- A node is evaluated in step. -/
theorem twins_evalNode (lib : Library) (h : env.Renames N id env') :
    Twins N ((access verify).evalNode N.before (invoke lib) id env)
      ((access verify').evalNode N.after (invoke lib) id env') := by
  have node := N.node id
  cases hr : (N.before.node id).isReference with
  | true =>
    have hr' : (N.after.node id).isReference = true := by
      rw [node]
      revert hr
      cases N.before.node id <;> exact fun h => h
    rw [CellAccess.evalNode_reference _ _ hr, CellAccess.evalNode_reference _ _ hr']
    exact twins_readNode hv h
  | false =>
    cases hn : N.before.node id with
    | iterate verb source lambda body ctx =>
      rw [hn] at node
      rw [CellAccess.evalNode_iterate _ _ hn, CellAccess.evalNode_iterate _ _ node]
      have outer := h.outer hn (c := source) List.mem_cons_self
      refine (twins_handleWithin hv (source + 1) outer).bind fun _ object _ _ => ?_
      refine (twins_read hv object).bind fun _ elements _ _ => ?_
      have contexts : (twin N).rel (fun x => x.isSome = ctx.isSome)
          ((access verify).contextHandle N.before env ctx)
          ((access verify').contextHandle N.after env' ctx) :=
        twins_contextHandle hv fun c hc => h.outer hn (List.mem_cons_of_mem _ hc)
      refine contexts.1.bind fun s context t run => ?_
      have given := contexts.2 s context t run
      refine ((twin N).iterate_entries (verbClass_any N.before) trivial fun _ _ e _ => ?_).1
      refine (Lockstep.bind (twins_elementHandle object e.1 e.2) fun _ val _ _ => ?_).rel
        fun _ => trivial
      exact twins_readNode hv (h.inner hn given)
    | _ =>
      have hi : (N.before.node id).isIterate = false := by simp [hn, Node.isIterate]
      have same : N.after.node id = N.before.node id := by
        rw [node]
        revert hr hi
        cases N.before.node id <;> simp [Node.rename, Node.isReference, Node.isIterate]
      rw [CellAccess.evalNode_combine _ _ hr hi, CellAccess.evalNode_combine _ _ (same ▸ hr)
        (same ▸ hi), same]
      refine ((twin N).combine (verbClass_any N.before) (fun c hc => ?_)
        fun _ function args _ => ?_).1
      · exact (twins_readNode hv (h.part hi hc)).rel fun _ => trivial
      · exact (twins_invoke lib function args).rel fun _ => trivial

/-! ### Cells -/

private theorem twins_compute (lib : Library) {key key' : CellKey CellId}
    (hk : key.Renames N key') :
    Twins N (compute N.before lib verify key) (compute N.after lib verify' key') := by
  cases hk with
  | model | vacant =>
    refine Lockstep.get fun s t hs => ?_
    exact ⟨congrArg Except.ok (hs.graph.value modelCell), hs⟩
  | slot source key =>
    refine (twins_pull hv source).bind fun _ _ _ _ => Lockstep.get fun s t hs => ?_
    rw [(hs.graph.cell source).access]
    exact twins_ofExcept _ s t hs
  | node h => exact twins_evalNode hv lib h

private theorem twins_recompute (lib : Library) (id : CellId) :
    Twins N (recompute (compute N.before lib verify) id)
      (recompute (compute N.after lib verify') id) := by
  intro s t hs
  have start : State.Renames N { s with reads := [] } { t with reads := [] } :=
    ⟨hs.graph, rfl, hs.computed, hs.calls⟩
  obtain ⟨r, s', t', hrun, hrun', hs'⟩ := (twins_compute hv lib (hs.graph.cell id).key).run start
  cases r with
  | error e =>
    rw [recompute_run_error hrun, recompute_run_error hrun']
    exact ⟨rfl, hs'.graph, hs.reads, hs'.computed, hs'.calls⟩
  | ok v =>
    rw [recompute_run_ok hrun, recompute_run_ok hrun']
    refine ⟨rfl, ?_, hs.reads, congrArg (id :: ·) hs'.computed, hs'.calls⟩
    rw [hs'.reads]
    exact hs'.graph.store id v _

private theorem twins_anyChanged (since : Revision) (ids : List CellId) :
    Twins N (anyChanged verify since ids) (anyChanged verify' since ids) := by
  induction ids with
  | nil => exact twins_pure false
  | cons id rest ih =>
    refine (hv id).bind fun _ _ _ _ => Lockstep.get fun s t hs => ?_
    rw [(hs.graph.cell id).changedAt]
    split
    · exact ⟨rfl, hs⟩
    · exact ih s t hs

private theorem twins_bring (lib : Library) (id : CellId) :
    Twins N (bring N.before lib verify id) (bring N.after lib verify' id) := by
  intro s t hs
  have cell := hs.graph.cell id
  rw [bring_run, bring_run, cell.key.isModel, cell.value, cell.verifiedAt, cell.deps,
    hs.graph.revision]
  split
  · exact ⟨rfl, hs⟩
  · split
    · exact twins_recompute hv lib id s t hs
    · split
      · exact ⟨rfl, hs⟩
      · refine (twins_anyChanged hv _ _).bind (fun _ changed _ _ => ?_) s t hs
        split
        · exact twins_recompute hv lib id
        · refine Lockstep.modify fun s t hs => ?_
          exact ⟨hs.graph.confirm id, hs.reads, hs.computed, hs.calls⟩

end

/-- Cells are brought up to date in step. -/
theorem twins_verify (lib : Library) (fuel : Nat) (id : CellId) :
    Twins N (verify N.before lib fuel id) (verify N.after lib fuel id) := by
  induction fuel generalizing id with
  | zero => exact fun s t hs => ⟨rfl, hs⟩
  | succ fuel ih => exact twins_bring ih lib id

/-! ### Recalculations -/

/-- A recalculation gives the same outputs with the same work, over graphs with the same cells. -/
theorem refresh_rename {g g' : Graph} (h : g.Renames N g') (lib : Library) (model : Value) :
    (g'.refresh N.after lib model).1 = (g.refresh N.before lib model).1 ∧
      (g.refresh N.before lib model).2.1.Renames N (g'.refresh N.after lib model).2.1 ∧
      (g'.refresh N.after lib model).2.2 = (g.refresh N.before lib model).2.2 := by
  have depth : depthBound N.after = depthBound N.before := by
    rw [depthBound, depthBound, N.renames.size]
  have output (o : String × NodeId) (ho : o ∈ N.before.outputs) :
      (lockstep (State.Renames N)).rel (fun _ => True) (readOutput N.before lib o.2)
        (readOutput N.after lib o.2) := by
    refine Lockstep.rel ?_ fun _ => trivial
    have key : CellKey.Renames N (.node o.2 []) (.node o.2 []) :=
      .node (CellEnv.renames_nil (N.linked.covers_output ho _))
    unfold readOutput
    rw [depth]
    refine (twins_internCell key).bind fun _ id _ _ => ?_
    exact (twins_pull (twins_verify lib _) id).bind fun _ _ _ _ => twins_pure _
  have outputs : Twins N (N.before.outputs.mapM fun o => readOutput N.before lib o.2)
      (N.after.outputs.mapM fun o => readOutput N.after lib o.2) := by
    rw [N.renames.outputs]
    exact ((lockstep (State.Renames N)).mapM output).1
  have start : State.Renames N { graph := g.advance.setModel model }
      { graph := g'.advance.setModel model } := ⟨h.advance.setModel model, rfl, rfl, rfl⟩
  obtain ⟨r, s, t, hrun, hrun', hs⟩ := outputs.run start
  have work : t.work = s.work := by rw [State.work, State.work, hs.computed, hs.calls]
  have read : readOutputs N.before lib model g = (r, s) := hrun
  have read' : readOutputs N.after lib model g' = (r, t) := hrun'
  unfold refresh
  rw [read, read']
  cases r with
  | error e => exact ⟨rfl, hs.graph, work⟩
  | ok cells =>
    have wants : t.graph.wantsSweep = s.graph.wantsSweep := by
      rw [wantsSweep, wantsSweep, hs.graph.live, hs.graph.count]
    refine ⟨rfl, ?_, work⟩
    simp only [wants]
    split
    · exact hs.graph.sweep _
    · exact hs.graph

end Recalc.Graph
