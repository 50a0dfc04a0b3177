import Recalc.Proofs.Graph.Opening.Handles

/-! The first recalculation of a graph as a whole. Evaluation over cells gives the judged value of
each node, and so the outputs are the judged ones. -/
namespace Recalc.Opening
open Recalc.Graph Trial
variable {O : Opening} {w : Trial}

/-! ### Nodes -/

section
variable {verify : CellId → CellM Unit} (hv : O.Verifies verify)
include hv

private theorem follows_readNode {id : NodeId} {env : CellEnv CellId} {e : Pass.Env}
    (hm : w.Means O.program id env e) :
    O.Follows w Value.Ordered ((access verify).readNode O.program id env) (O.judged id e) :=
  Tries.read hv (tries_handle hv hm)

/-- The context of an iteration is read, and what is bound to it stands for its value. -/
theorem tries_contextHandle {id source body : NodeId} {env : CellEnv CellId} {e : Pass.Env}
    {verb : CollectionVerb} {lambda : LambdaId} {ctx : Option NodeId}
    (hn : O.program.node id = .iterate verb source lambda body ctx)
    (hm : w.Means O.program id env e) :
    O.Tries w (fun v v' h => v.Calm v' ∧ h.isSome = ctx.isSome ∧
      ∃ x, (Pass.contextValue (fun c => O.judged c e) ctx).result = .ok x ∧
        Option.Rel (v'.Stands O.program (.context lambda)) h x)
      ((access verify).contextHandle O.program env ctx)
      (Pass.contextValue (fun c => O.judged c e) ctx) := by
  cases ctx with
  | none => exact Tries.pure fun v _ _ => ⟨.refl v, rfl, none, rfl, .none⟩
  | some c =>
    have means := hm.outer hn O.linked (c := c) (by simp)
    have read := Tries.thenRead hv (tries_handle hv means)
    have judged : Pass.contextValue (fun c => O.judged c e) (some c) =
        O.judged c e >>= fun a => pure (some a) := by
      rw [Pass.contextValue, map_eq_pure_bind]
    have same : (access verify).contextHandle O.program env (some c) =
        ((access verify).handle O.program c env >>= fun h =>
          (access verify).read h >>= fun a => pure (h, a)) >>= fun r => pure (some r.1) := by
      simp only [CellAccess.contextHandle, bind_assoc, pure_bind]
    rw [judged, same]
    refine read.andThen (fun _ _ => errs_bind_first) ?_
    rintro v v' ⟨h, a⟩ - - - holds
    have around : h.Within v'.graph.Live (O.program.Constant (.context lambda)) :=
      holds.known.mono (fun _ h => h) fun _ => .around hn
    refine ⟨pure (some a), fun u u' x => u' = u ∧ x = some h,
      Tries.pure fun _ _ _ => ⟨rfl, rfl⟩, fun e' h => .inl (errs_pure h), ?_⟩
    rintro u x - ⟨rfl, rfl⟩
    refine ⟨holds.calm, rfl, some a, ?_, .some ⟨around, holds.sense, holds.ordered⟩⟩
    rw [Judged.bind_of_ok holds.result]
    rfl

omit hv in
/-- What an element of an iteration is bound to stands for the element. -/
theorem tries_elementHandle {α : Type} {y : Judged α} {id source body : NodeId}
    {verb : CollectionVerb} {lambda : LambdaId} {ctx : Option NodeId}
    (hn : O.program.node id = .iterate verb source lambda body ctx) {object : Handle CellId}
    {elements key element : Value}
    (known : object.Within w.graph.Live (O.program.Constant (.node source)))
    (sense : (w.sense object).result = .ok elements) (ordered : element.Ordered)
    (got : elements.get key = .ok element) :
    O.Tries w (fun v v' h => v.Calm v' ∧ v'.Stands O.program (.element lambda) h element)
      ((access verify).elementHandle object key element) y := by
  cases object with
  | cell cell =>
    refine (tries_slot key known).map fun v v' slot hw onward hs => ?_
    obtain ⟨k, same, judged, -⟩ := hs.judged
    have source_ok : (v'.judged cell).result = .ok elements := by
      rw [(hw.trans onward).judged cell known]
      exact sense
    -- The key of the slot may be another one, but it gives the same element.
    have result : (v'.judged slot).result = .ok element := by
      rw [judged, Judged.bind_of_ok source_ok, Judged.result_ofExcept]
      exact (Value.get_eq_ok_congr same elements element).mpr got
    refine ⟨fun e he => (hs.pending e he).resolve_right fun failed => ?_, hs.live, result, ordered⟩
    rw [result] at failed
    cases failed
  | const c =>
    have same : c = elements := Except.ok.inj sense
    subst same
    exact Tries.pure fun v _ _ => ⟨.refl v, .element hn known got, rfl, ordered⟩

private theorem follows_iterate {id source body : NodeId} {env : CellEnv CellId} {e : Pass.Env}
    {verb : CollectionVerb} {lambda : LambdaId} {ctx : Option NodeId}
    (hn : O.program.node id = .iterate verb source lambda body ctx)
    (hm : w.Means O.program id env e) :
    O.Follows w Value.Ordered
      ((access verify).evalNode O.program (invoke O.library) id env) (O.judged id e) := by
  have hj : O.judged id e = _ := Pass.judged_iterate O.linked.lawful hn
  have means := hm.outer hn O.linked (c := source) List.mem_cons_self
  have read := Tries.thenRead hv (tries_handle hv means)
  have same : (access verify).evalNode O.program (invoke O.library) id env =
      ((access verify).handle O.program source env >>= fun h =>
        (access verify).read h >>= fun a => pure (h, a)) >>= (fun r => do
          let context ← (access verify).contextHandle O.program env ctx
          verb.iterate r.2 fun key element => do
            let val ← (access verify).elementHandle r.1 key element
            (access verify).readNode O.program body
              (CellEnv.bind env lambda ⟨val, key, context⟩)) := by
    rw [CellAccess.evalNode_iterate _ _ hn]
    simp only [bind_assoc, pure_bind]
  rw [hj, same]
  refine read.follow ?_
  rintro v₁ v₂ ⟨object, elements⟩ l₁ l₂ holds
  refine ⟨holds.calm, elements, holds.result, ?_⟩
  refine (tries_contextHandle hv hn (hm.onward (l₁.trans l₂))).follow ?_
  rintro v₃ v₄ context l₃ l₄ ⟨calm, hs, x, hx, rel⟩
  refine ⟨calm, x, hx, (O.correspondence v₄).iterate_entries O.closed.toVerbClass holds.ordered ?_⟩
  rintro es hes ⟨key, element⟩ he
  obtain ⟨-, ordered, got⟩ := O.closed.entries verb elements es holds.ordered hes _ he
  have isKey := CollectionVerb.isKey_of_mem_entries hes _ he
  -- The source and the context have been read, and the element is a slot of the source.
  have l := l₃.trans l₄
  have known := Handle.Within.mono l.live (fun _ h => h) holds.known
  have sense : (v₄.sense object).result = .ok elements := by
    rw [sense_onward l holds.known]
    exact holds.sense
  have val : O.Tries v₄ _ ((access verify).elementHandle object key element)
      (pure () : Judged Unit) := tries_elementHandle hn known sense ordered got
  refine val.follow (g := fun _ => O.judged body (⟨lambda, element, key, x, 0⟩ :: e)) ?_
  rintro v₅ v₆ h l₅ l₆ ⟨calm', stands⟩
  refine ⟨calm', (), rfl, follows_readNode hv ?_⟩
  have later := l₅.trans l₆
  refine ((hm.onward (l₁.trans l₂)).onward (l.trans later)).inner hn O.linked (c := ⟨lambda,
    element, key, x, 0⟩) ⟨rfl, stands, rfl, isKey, ?_⟩ hs
  generalize context = y at rel
  cases rel with
  | none => exact .none
  | some hs => exact .some (hs.onward later)

omit hv in
private theorem follows_invoke (function : String) {args : List Value}
    (ha : ∀ a ∈ args, a.Ordered) :
    O.Follows w Value.Ordered (invoke O.library function args)
      (MonadExcept.ofExcept (O.library.call function args)) := by
  cases hc : O.library.call function args with
  | error e =>
    rw [invoke, hc]
    exact (O.correspondence w).throw e
  | ok v =>
    intro s judged hs sound
    rw [invoke, hc]
    change O.Leads _ _ _ (.ok v, { s with calls := s.calls.push ⟨function, args⟩ })
    refine ⟨judged, .refl _, sound, ?_, by rintro e ⟨⟩⟩
    rintro _ ⟨⟩
    exact ⟨rfl, O.closed.call function args v ha hc, .refl _⟩

/-- The value of a node over cells is its judged value. -/
theorem follows_evalNode {id : NodeId} {env : CellEnv CellId} {e : Pass.Env}
    (hm : w.Means O.program id env e) :
    O.Follows w Value.Ordered
      ((access verify).evalNode O.program (invoke O.library) id env) (O.judged id e) := by
  cases hr : (O.program.node id).isReference with
  | true =>
    rw [CellAccess.evalNode_reference _ _ hr]
    exact follows_readNode hv hm
  | false =>
    cases hi : (O.program.node id).isIterate with
    | false =>
      have hj : O.judged id e = _ := Pass.judged_combine O.linked.lawful hr hi
      rw [CellAccess.evalNode_combine _ _ hr hi, hj]
      apply (O.correspondence w).combine O.closed.toVerbClass
      · intro c hc
        exact follows_readNode hv (hm.part O.linked hi hc)
      · intro _ f args ha
        exact follows_invoke f ha
    | true =>
      cases hn : O.program.node id with
      | iterate verb source lambda body ctx => exact follows_iterate hv hn hm
      | _ => simp [hn, Node.isIterate] at hi

/-! ### Whole recalculations -/

/-- Computing a key gives what it stands for. -/
theorem follows_compute {key : CellKey CellId} {j : Judged Value} (hk : O.Meant w key j) :
    O.Follows w Value.Ordered (compute O.program O.library verify key) j := by
  cases hk with
  | model =>
    intro s judged hs sound
    change O.Leads _ _ _ (.ok (s.graph.value modelCell), s)
    refine ⟨judged, .refl _, sound, ?_, by rintro e ⟨⟩⟩
    rintro _ ⟨⟩
    rw [Graph.value, show (s.graph.cell modelCell).value = _ from sound.model]
    exact ⟨rfl, O.ordered, .refl _⟩
  | @slot source key hl =>
    refine (tries_pull hv hl).follow ?_
    rintro v v' a hw onward ⟨⟨value, result⟩, ordered, calm⟩
    refine ⟨calm, a, result, ?_⟩
    have later := hw.trans onward
    intro s judged hs sound
    -- The value of the source stays, and access to it is access to the value.
    obtain ⟨same, -⟩ := sound.value_eq (hs.live _ (later.live _ hl))
      (hs.filled _ (later.live _ hl) value)
    rw [(later.trans hs).judged _ hl, result] at same
    have access : (s.graph.cell source).access.val key = a.get key := by
      rw [(s.graph.cell source).access.property, Except.ok.inj same]
      rfl
    change O.Leads _ _ _
      ((MonadExcept.ofExcept ((s.graph.cell source).access.val key) : CellM Value).run s)
    rw [access]
    exact (O.correspondence v').ofExcept (a.get key)
      (fun b hb => O.closed.get a key b ordered hb) s judged hs sound
  | node hm only => exact follows_evalNode hv hm

/-- Computing a cell gives it the value that it stands for. -/
theorem tries_recompute {id : CellId} (hl : w.graph.Live id) :
    O.Tries w (fun v v' _ => (v'.graph.cell id).value.isSome ∧ v.Calm v')
      (recompute (compute O.program O.library verify) id) (w.judged id) := by
  intro s judged hs sound
  have live : s.graph.Live id := hs.live id hl
  have computed := follows_compute hv (sound.meant id live)
  obtain ⟨judged', onward, sound', ok, error⟩ :=
    computed { s with reads := [] } judged (.refl _) sound
  rw [show Trial.judged ⟨s.graph, judged⟩ id = w.judged id from hs.judged id hl] at ok error
  rcases hrun : (compute O.program O.library verify (s.graph.cell id).key).run
    { s with reads := [] } with ⟨r, t⟩
  rw [hrun] at onward sound' ok error
  cases r with
  | error e =>
    rw [recompute_run_error hrun]
    refine ⟨judged', onward, sound', by rintro a ⟨⟩, ?_⟩
    rintro _ ⟨⟩
    exact error e rfl
  | ok v =>
    rw [recompute_run_ok hrun]
    obtain ⟨result, ordered, calm⟩ := ok v rfl
    have stands : (judged' id).result = .ok v := by
      rw [show judged' id = judged id from onward.judged id live,
        show judged id = w.judged id from hs.judged id hl]
      exact result
    obtain ⟨onward', sound'', filled, calm'⟩ :=
      sound'.store (onward.live id live) stands ordered t.reads.reverse
    refine ⟨judged', onward.trans onward', sound'', ?_, by rintro e ⟨⟩⟩
    rintro _ ⟨⟩
    exact ⟨filled, calm.trans calm'⟩

end

/-- Cells are brought up to date, with any fuel. -/
theorem verifies_verify (fuel : Nat) : O.Verifies (verify O.program O.library fuel) := by
  induction fuel with
  | zero => exact fun w id _ => Tries.throw fun _ => .inl rfl
  | succ fuel ih =>
    intro w id hl s judged hs sound
    have live : s.graph.Live id := hs.live id hl
    -- A cell with a value is left alone, since it is current.
    have kept (value : (s.graph.cell id).value.isSome) :
        O.Leads ⟨s.graph, judged⟩ (fun v' (_ : Unit) => (v'.graph.cell id).value.isSome ∧
          Calm ⟨s.graph, judged⟩ v') (w.judged id) (.ok (), s) :=
      ⟨judged, .refl _, sound, fun _ _ => ⟨value, .refl _⟩, by rintro e ⟨⟩⟩
    rw [verify_succ, bring_run]
    split
    · rename_i hm
      rw [sound.indexed.eq_modelCell live hm] at kept ⊢
      exact kept (by rw [show (s.graph.cell modelCell).value = _ from sound.model]; rfl)
    · split
      · exact tries_recompute ih hl s judged hs sound
      · rename_i hsome
        have value : (s.graph.cell id).value.isSome := by
          simpa [Option.isSome_iff_ne_none] using hsome
        obtain ⟨a, ha⟩ := Option.isSome_iff_exists.mp value
        rw [if_pos (sound.filled id a live ha).1]
        exact kept value

/-- Reading an output gives its judged value. -/
theorem follows_readOutput {o : String × NodeId} (ho : o ∈ O.program.outputs) :
    O.Follows w Value.Ordered (Prod.snd <$> readOutput O.program O.library o.2)
      (O.judged o.2 []) := by
  have means : w.Means O.program o.2 [] [] := by
    refine ⟨⟨List.Pairwise.nil, O.linked.covers_output ho _⟩, fun l hl => ?_⟩
    rw [O.linked.lawful.output_free o ho] at hl
    cases hl
  have read := Tries.read (verifies_verify (O := O) (depthBound O.program))
    (tries_cell means (by simp))
  have same : (Prod.snd <$> readOutput O.program O.library o.2) =
      (do return .cell (← internCell (.node o.2 []))) >>=
        (access (verify O.program O.library (depthBound O.program))).read := by
    simp only [readOutput, map_eq_pure_bind, bind_assoc, pure_bind, bind_pure]
    rfl
  rw [same]
  exact read

variable (O) in
/-- The state of a first recalculation before anything is read. -/
def start : Trial := ⟨Graph.empty.advance.setModel O.model, fun _ => pure O.model⟩

/-- At the start only the document is in use, and it has its value. -/
theorem cell_start (id : CellId) (hl : O.start.graph.Live id) : id = modelCell ∧
    (O.start.graph.cell id).key = .model ∧ (O.start.graph.cell id).value = some O.model ∧
    (O.start.graph.cell id).verifiedAt = O.start.graph.revision := by
  have here : id = modelCell := by
    have lt := hl.lt
    have size : O.start.graph.cells.size = 1 := rfl
    rw [size] at lt
    exact Nat.lt_one_iff.mp lt
  subst here
  exact ⟨rfl, rfl, rfl, rfl⟩

private theorem sound_start : O.Sound O.start := by
  have indexed : O.start.graph.Indexed :=
    ((World.layout_empty O.program).start O.model).1.indexed
  refine ⟨indexed, rfl, fun id v hl hv => ?_, fun id hl => ?_⟩
  · obtain ⟨-, -, value, verified⟩ := cell_start id hl
    cases value.symm.trans hv
    exact ⟨verified, rfl, O.ordered⟩
  · rw [(cell_start id hl).2.1]
    exact .model

private theorem not_pending_start (e : EvalError) : ¬ O.start.Pending e := by
  rintro ⟨id, hl, hv, -⟩
  cases (cell_start id hl).2.2.1.symm.trans hv

private theorem map_snd_mapM {α β γ : Type} (f : α → CellM (β × γ)) (as : List α) :
    List.map Prod.snd <$> as.mapM f = as.mapM fun a => Prod.snd <$> f a := by
  induction as with
  | nil => rfl
  | cons a rest ih =>
    rw [List.mapM_cons, List.mapM_cons, ← ih]
    simp only [map_eq_pure_bind, bind_assoc, pure_bind, List.map_cons]

private theorem run_map {α β : Type} (f : α → β) (x : CellM α) (s : State) :
    ((f <$> x).run s).1 = (x.run s).1.map f := by
  rw [map_eq_pure_bind]
  rcases hrun : x.run s with ⟨r, t⟩
  cases r with
  | error e =>
    rw [run_bind_error hrun]
    rfl
  | ok a =>
    rw [run_bind_ok hrun]
    rfl

private theorem refresh_result (p : Program) (lib : Library) (model : Value) (g : Graph) :
    (g.refresh p lib model).1 = (readOutputs p lib model g).1.map (List.map Prod.snd) := by
  rw [Graph.refresh]
  rcases readOutputs p lib model g with ⟨r, s⟩
  cases r <;> rfl

variable (O) in
/-- The first recalculation gives the judged outputs. If it fails, so do they, for the same reason if
the failure is fair. -/
theorem refresh_empty :
    (∀ outputs, (Graph.empty.refresh O.program O.library O.model).1 = .ok outputs →
      (Pass.judgedOutputs O.program O.library O.model).result = .ok outputs) ∧
    ∀ e, (Graph.empty.refresh O.program O.library O.model).1 = .error e → e = .tooDeep ∨
      ∃ e', (Pass.judgedOutputs O.program O.library O.model).result = .error e' ∧
        (Pass.Fair O.program O.library O.model → e = e') := by
  have follows : O.Follows O.start (fun vs => ∀ v ∈ vs, v.Ordered)
      (O.program.outputs.mapM fun o => Prod.snd <$> readOutput O.program O.library o.2)
      (Pass.judgedOutputs O.program O.library O.model) :=
    (O.correspondence O.start).mapM fun o ho => follows_readOutput ho
  rw [← map_snd_mapM] at follows
  obtain ⟨_, -, -, ok, error⟩ := follows { graph := O.start.graph } O.start.judged (.refl _)
    sound_start
  have result : (Graph.empty.refresh O.program O.library O.model).1 =
      ((List.map Prod.snd <$> O.program.outputs.mapM fun o =>
        readOutput O.program O.library o.2).run { graph := O.start.graph }).1 := by
    rw [refresh_result, run_map]
    rfl
  rw [result]
  refine ⟨fun outputs h => (ok outputs h).1, fun e h => ?_⟩
  rcases error e h with deep | ⟨e', he', same⟩
  · exact .inl deep
  · exact .inr ⟨e', he', fun fair => (same fair).resolve_right (not_pending_start e)⟩

end Recalc.Opening
