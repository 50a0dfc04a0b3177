import Recalc.Proofs.Graph.FromScratch
import Recalc.Proofs.Graph.Upkeep

/-! Bringing cells up to date, and whole recalculations, keep the layout of a graph. After a success
the cells of all outputs are current. -/
namespace Recalc

namespace Graph

/-- The cell of an output is current and has the given value. -/
structure Delivers (g : Graph) (node : NodeId) (x : CellId × Value) : Prop where
  live : g.Live x.1
  key : ((g.cell x.1).key == .node node []) = true
  current : g.Current x.1
  value : g.value x.1 = x.2

theorem Delivers.transfer {g g' : Graph} {node : NodeId} {x : CellId × Value}
    (h : Delivers g node x) (cell : g'.cell x.1 = g.cell x.1)
    (revision : g'.revision = g.revision) : Delivers g' node x := by
  refine ⟨?_, ?_, ?_, ?_⟩
  · rw [Live, cell]
    exact h.live
  · rw [cell]
    exact h.key
  · rw [Graph.Current, cell, revision]
    exact h.current
  · rw [Graph.value, cell]
    exact h.value

theorem cell_store {g : Graph} {id : CellId} (h : id < g.cells.size) (v : Value)
    (deps : List CellId) : (g.store id v deps).cell id =
      { (g.cell id).renew v g.revision with verifiedAt := g.revision, deps } :=
  (cell_setCell h _ id).trans (if_pos rfl)

theorem holds_eq {g : Graph} {id : CellId} (h : (g.cell id).value.isSome) (v : Value) :
    (g.cell id).holds v = (g.value id == v) := by
  obtain ⟨old, hold⟩ := Option.isSome_iff_exists.mp h
  rw [Cell.holds, Graph.value, hold]
  rfl

private theorem value_setModel {g : Graph} (h : modelCell < g.cells.size) (model : Value) :
    ((g.setModel model).value modelCell == model) = true := by
  rw [Graph.value, setModel, store, cell_setCell h, if_pos rfl]
  rcases (g.cell modelCell).renew_cases model g.revision with ⟨old, hold, same, he⟩ | he
  · simp only [he, hold]
    exact same
  · simp only [he]
    exact BEq.rfl

/-- The document of the last recalculation: its cell is current, with an equal value. -/
structure Reflects (g : Graph) (model : Value) : Prop where
  current : g.Current modelCell
  value : (g.value modelCell == model) = true

theorem Reflects.transfer {g g' : Graph} {model : Value} (h : Reflects g model)
    (cell : g'.cell modelCell = g.cell modelCell) (revision : g'.revision = g.revision) :
    Reflects g' model := by
  constructor
  · rw [Graph.Current, cell, revision]
    exact h.current
  · rw [Graph.value, cell]
    exact h.value

/-- The outputs of a recalculation are the values of their cells, which are current. -/
def Presents (g : Graph) (p : Program) (values : List Value) : Prop :=
  List.Forall₂ (fun o v => ∃ id, Delivers g o.2 (id, v)) p.outputs values

/-! ### Reading outputs -/

/-- The cell of an output and its value, with a way to bring cells up to date. -/
def readOutputBy (verify : CellId → CellM Unit) (node : NodeId) : CellM (CellId × Value) := do
  let id ← internCell (.node node [])
  let v ← pull verify id
  return (id, v)

/-- Reads all outputs over a document, with a way to bring cells up to date. -/
def readOutputsBy (verify : CellId → CellM Unit) (p : Program) (model : Value) (g : Graph) :
    Except EvalError (List (CellId × Value)) × State :=
  let outputs := p.outputs.mapM fun o => readOutputBy verify o.2
  outputs.run { graph := g.advance.setModel model }

theorem readOutputs_eq (p : Program) (lib : Library) (model : Value) (g : Graph) :
    readOutputs p lib model g = readOutputsBy (verify p lib (depthBound p)) p model g := rfl

end Graph

namespace Linkage
open Recalc.Graph
variable {L : Linkage} {α β : Type} {b c : Nat} {w : World} {s : State} {origin : CellId → Origin}
  {id : CellId} {verify : CellId → CellM Unit}

/-! ### Computing -/

theorem Keeps.get {R : World → α → Prop} {f : State → CellM α} (h : ∀ s, L.Keeps b w R (f s)) :
    L.Keeps b w R (get >>= f) :=
  fun s origin hs hr => h s s origin hs hr

/-- Computing a cell reads cells that are lighter than it. -/
theorem keeps_compute (hv : L.VerifiesAfter w (w.origin id).weight verify)
    (layout : w.Layout L.program) (hl : w.graph.Live id)
    (hm : (w.graph.cell id).key.isModel = false) :
    L.Keeps (w.origin id).weight w (fun _ _ => True)
      (compute L.program L.library verify (w.graph.cell id).key) := by
  have placed := layout.placed id hl
  have references := placed.references
  have weight : ∀ d ∈ (w.graph.cell id).key.references, (w.origin d).weight +
      Origin.height ((w.graph.cell id).key.canon.map w.origin) ≤ (w.origin id).weight := by
    intro d hd
    rw [placed.origin_eq]
    exact World.weight_of_reference hd
  cases hk : (w.graph.cell id).key with
  | model => simp [hk, CellKey.isModel] at hm
  | vacant => simp [Live, hk, CellKey.isVacant] at hl
  | slot source key =>
    rw [hk] at references weight
    have below : w.Below (w.origin source).weight source :=
      ⟨references source List.mem_cons_self, Nat.le_refl _⟩
    refine (keeps_pull hv below (weight source List.mem_cons_self)).bind fun w' _ _ _ => ?_
    refine Keeps.get fun s => ?_
    rw [(s.graph.cell source).access.property]
    exact keeps_ofExcept (Value.aboutValues_get _ key) fun _ _ => trivial
  | node n env =>
    have exact := placed.exact n env hk
    obtain ⟨m, hm, light⟩ : ∃ m, (w.origin id).weight = m + Nat.pow 4 n ∧
        ∀ d ∈ (CellKey.node n env).references, (w.origin d).weight ≤ m := by
      obtain ⟨m, hm, light⟩ := Origin.exists_weight ((w.graph.cell id).key.canon.map w.origin)
      rw [CellKey.references_map, CellKey.references_canon] at light
      rw [hk] at hm light
      refine ⟨m, ?_, fun d hd => light _ (List.mem_map_of_mem hd)⟩
      rw [placed.origin_eq, World.originOf, hk]
      exact hm
    rw [hk] at references
    have within : (CellKey.node n env).Within (w.Below m) fun _ => True :=
      CellKey.within_references fun d hd => ⟨references d hd, light d hd⟩
    exact keeps_evalNode hv ⟨within, exact.toServes⟩ (Nat.le_of_eq hm.symm)

/-- Computing a slot reads its source, and nothing else. -/
theorem reads_slot (hv : L.VerifiesAfter ⟨s.graph, origin⟩ c verify)
    (running : L.Running b s origin) {source : CellId} (hl : s.graph.Live source)
    (hw : (origin source).weight < c) {key v : Value} {t : State}
    (h : (compute L.program L.library verify (.slot source key)).run s = (.ok v, t)) :
    t.reads = source :: s.reads := by
  obtain ⟨-, -, -, hreads, -⟩ := hv b s origin source (.refl _ _) running hl hw
  rcases hrun : (verify source).run s with ⟨r, u⟩
  rw [hrun] at hreads
  cases r with
  | error e =>
    have failed : (compute L.program L.library verify (.slot source key)).run s = (.error e, u) :=
      run_bind_error (pull_run_error hrun)
    rw [failed] at h
    cases h
  | ok x =>
    have rest : (compute L.program L.library verify (.slot source key)).run s =
        (MonadExcept.ofExcept ((u.graph.cell source).access.val key) : CellM Value).run
          { u with reads := source :: u.reads } := run_bind_ok (pull_run_ok hrun)
    rw [rest] at h
    cases hg : (u.graph.cell source).access.val key with
    | error e =>
      rw [hg] at h
      cases h
    | ok x =>
      rw [hg] at h
      cases h
      exact congrArg (source :: ·) hreads

/-- Computing a cell anew brings it up to date. -/
theorem recompute_brings (hv : L.VerifiesAfter ⟨s.graph, origin⟩ (origin id).weight verify)
    (running : L.Running b s origin) (hl : s.graph.Live id)
    (hm : (s.graph.cell id).key.isModel = false) (hc : ¬ s.graph.Current id) :
    L.Brings b s origin id
      ((recompute (compute L.program L.library verify) id).run s) := by
  have start : L.Running (origin id).weight { s with reads := [] } origin :=
    ⟨running.layout, running.model, by simp⟩
  obtain ⟨origin', later, running', ends⟩ := keeps_compute (w := ⟨s.graph, origin⟩) hv
    running.layout hl hm { s with reads := [] } origin (.refl _ _) start
  rcases hrun : (compute L.program L.library verify (s.graph.cell id).key).run
    { s with reads := [] } with ⟨r, t⟩
  rw [hrun] at later running' ends
  have later : World.Later (origin id).weight ⟨s.graph, origin⟩ ⟨t.graph, origin'⟩ := later
  have restored (u : State) (hg : u.graph = t.graph) (hr : u.reads = s.reads) :
      L.Running b u origin' := by
    refine running.later (c := (origin id).weight) ?_ ?_ hr
    · rw [hg]
      exact later
    · rw [hg]
      exact running'.layout
  cases r with
  | error e =>
    rw [recompute_run_error hrun]
    exact ⟨origin', later.mono (Nat.le_succ _), restored _ rfl rfl, rfl, ends⟩
  | ok v =>
    rw [recompute_run_ok hrun]
    have hl' : t.graph.Live id := later.live id hl
    have same : origin' id = origin id := later.origin id hl
    have key : (t.graph.cell id).key = (s.graph.cell id).key := later.key id hl
    -- The cell is as heavy as the bound, so reading for it has left it alone.
    have hc' : ¬ t.graph.Current id := later.not_current hl (Nat.le_refl _) hc
    have layout : World.Layout L.program ⟨t.graph.store id v t.reads.reverse, origin'⟩ := by
      refine running'.layout.store hl' (fun d hd => ?_) (fun d hd => ?_) fun source k hk => ?_
      · obtain ⟨live, -, light⟩ := running'.reads d (List.mem_reverse.mp hd)
        refine ⟨live, ?_⟩
        change (origin' d).weight < (origin' id).weight
        rw [same]
        exact light
      · exact (running'.reads d (List.mem_reverse.mp hd)).2.1
      · have hk : (s.graph.cell id).key = .slot source k := key.symm.trans hk
        have placed := running.layout.placed id hl
        have mem : source ∈ (s.graph.cell id).key.references := by simp [hk, CellKey.references]
        have lighter : (origin source).weight < (origin id).weight := by
          have weight := World.weight_of_reference (w := ⟨s.graph, origin⟩) mem
          rw [← placed.origin_eq, hk] at weight
          exact weight
        rw [hk] at hrun
        rw [reads_slot (s := { s with reads := [] }) hv start (placed.references source mem)
          lighter hrun]
        rfl
    have stored : World.Later ((origin id).weight + 1) ⟨t.graph, origin'⟩
        ⟨t.graph.store id v t.reads.reverse, origin'⟩ := by
      refine World.later_setCell (w := ⟨t.graph, origin'⟩) hl' (Cell.key_renew _ _ _) hc' ?_
      change (origin' id).weight < (origin id).weight + 1
      rw [same]
      exact Nat.lt_succ_self _
    refine ⟨origin', (later.mono (Nat.le_succ _)).trans stored,
      (restored { t with reads := s.reads } rfl rfl).later stored layout rfl, rfl, ?_⟩
    exact Graph.current_store hl'.lt v _

/-! ### Checking what was read -/

/-- Checking lighter cells in order. If none has changed, they are all current. -/
theorem anyChanged_checks (hv : L.VerifiesAfter ⟨s.graph, origin⟩ c verify)
    (running : L.Running b s origin) (since : Revision) {ids : List CellId}
    (hd : ∀ d ∈ ids, s.graph.Live d ∧ (origin d).weight < c) :
    ∃ origin', World.Later c ⟨s.graph, origin⟩
        ⟨((anyChanged verify since ids).run s).2.graph, origin'⟩ ∧
      L.Running b ((anyChanged verify since ids).run s).2 origin' ∧
      ((anyChanged verify since ids).run s).2.reads = s.reads ∧
      L.Ends (fun changed => changed = false →
        ∀ d ∈ ids, ((anyChanged verify since ids).run s).2.graph.Current d)
        ((anyChanged verify since ids).run s).1 := by
  induction ids generalizing s origin with
  | nil =>
    refine ⟨origin, .refl c _, running, rfl, fun _ d hd => ?_⟩
    cases hd
  | cons d rest ih =>
    obtain ⟨live, light⟩ := hd d List.mem_cons_self
    obtain ⟨origin', brought, running', hreads, ends⟩ :=
      hv b s origin d (.refl _ _) running live light
    rcases hrun : (verify d).run s with ⟨r, t⟩
    rw [hrun] at brought running' hreads ends
    have later : World.Later c ⟨s.graph, origin⟩ ⟨t.graph, origin'⟩ := brought.mono light
    cases r with
    | error e =>
      rw [anyChanged_run_error since rest hrun]
      exact ⟨origin', later, running', hreads, ends⟩
    | ok u =>
      rw [anyChanged_run_ok since rest hrun]
      split
      · refine ⟨origin', later, running', hreads, fun h => ?_⟩
        cases h
      · have others : ∀ d ∈ rest, t.graph.Live d ∧ (origin' d).weight < c :=
          later.forall_live (P := (·.weight < c)) fun d hmem => hd d (List.mem_cons_of_mem _ hmem)
        obtain ⟨origin'', later', running'', hreads', ends'⟩ :=
          ih (hv.later later) running' others
        refine ⟨origin'', later.trans later', running'', hreads'.trans hreads, ?_⟩
        rcases hres : ((anyChanged verify since rest).run t).1 with e | changed
        · rw [hres] at ends'
          exact ends'
        · rw [hres] at ends'
          intro unchanged
          refine List.forall_mem_cons.mpr ⟨?_, ends' unchanged⟩
          exact later'.current (later.live d live) ends

/-! ### Verifying -/

private theorem confirm_brings (running : L.Running b s origin) (hl : s.graph.Live id)
    (hs : (s.graph.cell id).value.isSome) (hc : ¬ s.graph.Current id)
    (hd : ∀ d ∈ (s.graph.cell id).deps, s.graph.Current d) :
    L.Brings b s origin id (.ok (), { s with graph := s.graph.confirm id }) := by
  have later : World.Later ((origin id).weight + 1) ⟨s.graph, origin⟩
      ⟨s.graph.confirm id, origin⟩ :=
    World.later_setCell (w := ⟨s.graph, origin⟩) hl rfl hc (Nat.lt_succ_self _)
  refine ⟨origin, later, running.later later (running.layout.confirm hl hs hd) rfl, rfl, ?_⟩
  change (s.graph.confirm id).Current id
  unfold Graph.Current Graph.confirm
  rw [Graph.cell_setCell hl.lt, if_pos rfl]
  exact ⟨hs, rfl⟩

/-- Checking the cells that a cell has read, and then computing or confirming it, brings it up to
date. -/
theorem check_brings (hv : L.VerifiesAfter ⟨s.graph, origin⟩ (origin id).weight verify)
    (running : L.Running b s origin) (hl : s.graph.Live id) (hs : (s.graph.cell id).value.isSome)
    (hm : (s.graph.cell id).key.isModel = false) (hc : ¬ s.graph.Current id) :
    L.Brings b s origin id ((do
      if ← anyChanged verify (s.graph.cell id).verifiedAt (s.graph.cell id).deps then
        recompute (compute L.program L.library verify) id
      else modify fun s => { s with graph := s.graph.confirm id } : CellM Unit).run s) := by
  obtain ⟨origin', later, running', hreads, ends⟩ := anyChanged_checks hv running
    (s.graph.cell id).verifiedAt (running.layout.placed id hl).deps
  rcases hany : (anyChanged verify (s.graph.cell id).verifiedAt (s.graph.cell id).deps).run s
    with ⟨r, t⟩
  rw [hany] at later running' hreads ends
  have later : World.Later (origin id).weight ⟨s.graph, origin⟩ ⟨t.graph, origin'⟩ := later
  have same : origin' id = origin id := later.origin id hl
  have hl' : t.graph.Live id := later.live id hl
  have hcell : t.graph.cell id = s.graph.cell id := later.kept id hl (.inr (Nat.le_refl _))
  have hc' : ¬ t.graph.Current id := later.not_current hl (Nat.le_refl _) hc
  cases r with
  | error e =>
    rw [run_bind_error hany]
    exact ⟨origin', later.mono (Nat.le_succ _), running', hreads, ends⟩
  | ok changed =>
    rw [run_bind_ok hany]
    have brings : L.Brings b t origin' id ((if changed = true then
        recompute (compute L.program L.library verify) id
        else modify fun s => { s with graph := s.graph.confirm id } : CellM Unit).run t) := by
      cases changed with
      | true => exact recompute_brings (same.symm ▸ hv.later later) running' hl' (hcell ▸ hm) hc'
      | false => exact confirm_brings running' hl' (hcell ▸ hs) hc' (hcell ▸ ends rfl)
    obtain ⟨origin'', later', running'', hreads', ends'⟩ := brings
    rw [same] at later'
    exact ⟨origin'', (later.mono (Nat.le_succ _)).trans later', running'', hreads'.trans hreads,
      ends'⟩

/-- A cell is brought up to date by a way to bring all lighter cells up to date. -/
theorem bring_brings (hv : L.VerifiesAfter ⟨s.graph, origin⟩ (origin id).weight verify)
    (running : L.Running b s origin) (hl : s.graph.Live id) :
    L.Brings b s origin id ((bring L.program L.library verify id).run s) := by
  rcases bring_cases L.program L.library verify running.layout.indexed hl with
    ⟨hc, hrun⟩ | ⟨hm, hc, ⟨-, hrun⟩ | ⟨hs, hrun⟩⟩
  · rw [hrun]
    refine ⟨origin, .refl _ _, running, rfl, ?_⟩
    rcases hc with rfl | hc
    · exact running.model
    · exact hc
  · rw [hrun]
    exact recompute_brings hv running hl hm hc
  · rw [hrun]
    exact check_brings hv running hl hs hm hc

/-- With fuel above their weight, all cells are brought up to date. -/
theorem verifies (L : Linkage) (fuel : Nat) :
    L.Verifies fuel (Graph.verify L.program L.library fuel) := by
  induction fuel with
  | zero => exact fun b s origin id _ _ hw => absurd hw (Nat.not_lt_zero _)
  | succ fuel ih =>
    intro b s origin id running hl hw
    exact bring_brings ((ih.after _).mono (Nat.le_of_lt_succ hw)) running hl

/-! ### Outputs -/

theorem Keeps.mapM {f : α → CellM β} {R : α → World → β → Prop} {as : List α}
    (stable : ∀ a w w' x, World.Later b w w' → R a w x → R a w' x)
    (h : ∀ a ∈ as, L.Keeps b w (R a) (f a)) :
    L.Keeps b w (fun w' xs => List.Forall₂ (fun a x => R a w' x) as xs) (as.mapM f) := by
  induction as generalizing w with
  | nil => exact Keeps.pure fun _ _ => .nil
  | cons a rest ih =>
    rw [List.mapM_cons]
    refine (h a List.mem_cons_self).bind fun w₁ x l₁ hx => ?_
    have others := ih (w := w₁) fun a ha => (h a (List.mem_cons_of_mem _ ha)).later l₁
    refine others.bind fun w₂ xs l₂ hxs => ?_
    refine Keeps.pure fun w₃ l₃ => .cons (stable a w₁ w₃ x (l₂.trans l₃) hx) ?_
    exact hxs.imp fun a x => stable a w₂ w₃ x l₃

theorem keeps_readOutput (hv : L.VerifiesAfter w (depthBound L.program) verify)
    {o : String × NodeId} (ho : o ∈ L.program.outputs) :
    L.Keeps (depthBound L.program) w (fun w' x => Delivers w'.graph o.2 x)
      (readOutputBy verify o.2) := by
  have exact : CellEnv.Exact L.program o.2 ([] : CellEnv CellId) :=
    ⟨⟨.nil, L.linked.covers_output ho _⟩, by simp⟩
  have interned : L.Keeps (depthBound L.program) w
      (fun w' id => w'.Below (0 + Nat.pow 4 o.2) id ∧
        ((w'.graph.cell id).key == .node o.2 []) = true) (internCell (.node o.2 [])) := by
    apply keeps_intern rfl
    · simp [CellKey.references]
    · rintro m env ⟨⟩
      exact exact
    · exact fun _ => Nat.le_refl _
  have light : 0 + Nat.pow 4 o.2 < depthBound L.program := by
    rw [Nat.zero_add]
    exact Nat.pow_lt_pow_right (by decide) (Nat.lt_succ_of_lt (L.linked.lawful.output_lt o ho))
  refine interned.bind fun w₁ id l₁ h₁ => ?_
  refine (keeps_pull (hv.later l₁) h₁.1 light).bind fun w₂ v l₂ h₂ => ?_
  obtain ⟨live, current, value⟩ := h₂
  refine Keeps.pure fun w₃ l₃ => ?_
  have delivers : Delivers w₂.graph o.2 (id, v) := by
    refine ⟨live, ?_, current, value⟩
    change ((w₂.graph.cell id).key == _) = true
    rw [l₂.key id h₁.1.1]
    exact h₁.2
  exact delivers.transfer (l₃.kept id live (.inl current)) l₃.revision

/-- Reading the outputs keeps the layout, and gives the values of their cells if it succeeds, with
any way to bring cells up to date. -/
theorem readOutputsBy_keeps (hv : L.Verifies (depthBound L.program) verify)
    (layout : w.Layout L.program) (model : Value) :
    ∃ origin, World.Layout L.program
        ⟨(readOutputsBy verify L.program model w.graph).2.graph, origin⟩ ∧
      (readOutputsBy verify L.program model w.graph).2.graph.Reflects model ∧
      L.Ends (List.Forall₂ (fun o x =>
          Delivers (readOutputsBy verify L.program model w.graph).2.graph o.2 x) L.program.outputs)
        (readOutputsBy verify L.program model w.graph).1 := by
  obtain ⟨start, current⟩ := layout.start model
  have running : L.Running (depthBound L.program) { graph := w.graph.advance.setModel model }
      w.origin := ⟨start, current, by simp⟩
  have outputs : L.Keeps (depthBound L.program) ⟨w.graph.advance.setModel model, w.origin⟩
      (fun w' xs => List.Forall₂ (fun o x => Delivers w'.graph o.2 x) L.program.outputs xs)
      (L.program.outputs.mapM fun o => readOutputBy verify o.2) := by
    refine Keeps.mapM (fun o w w' x hl hx => ?_) fun o ho => keeps_readOutput (hv.after _) ho
    exact hx.transfer (hl.kept x.1 hx.live (.inl hx.current)) hl.revision
  obtain ⟨origin, later, running', ends⟩ := outputs _ w.origin (.refl _ _) running
  have reflects : (w.graph.advance.setModel model).Reflects model :=
    ⟨current, value_setModel (g := w.graph.advance) layout.indexed.live_model.lt model⟩
  refine ⟨origin, running'.layout, reflects.transfer ?_ later.revision, ends⟩
  exact later.kept _ start.indexed.live_model (.inl current)

theorem readOutputs_keeps (layout : w.Layout L.program) (model : Value) :
    ∃ origin, World.Layout L.program
        ⟨(readOutputs L.program L.library model w.graph).2.graph, origin⟩ ∧
      (readOutputs L.program L.library model w.graph).2.graph.Reflects model ∧
      L.Ends (List.Forall₂ (fun o x =>
          Delivers (readOutputs L.program L.library model w.graph).2.graph o.2 x) L.program.outputs)
        (readOutputs L.program L.library model w.graph).1 := by
  rw [readOutputs_eq]
  exact readOutputsBy_keeps (L.verifies _) layout model

/-- A recalculation keeps the layout. It gives the values of the cells of the outputs, or fails for a
reason of the linkage. -/
theorem refresh_keeps (layout : w.Layout L.program) (model : Value) :
    ∃ origin, World.Layout L.program ⟨(w.graph.refresh L.program L.library model).2.1, origin⟩ ∧
      (w.graph.refresh L.program L.library model).2.1.Reflects model ∧
      L.Ends (Presents (w.graph.refresh L.program L.library model).2.1 L.program)
        (w.graph.refresh L.program L.library model).1 := by
  obtain ⟨origin, layout', reflects, ends⟩ := readOutputs_keeps layout model
  unfold Graph.refresh
  rcases hread : Graph.readOutputs L.program L.library model w.graph with ⟨r, s⟩
  rw [hread] at layout' reflects ends
  cases r with
  | error e => exact ⟨origin, layout', reflects, ends⟩
  | ok cells =>
    have delivers : List.Forall₂ (fun o x => Delivers s.graph o.2 x) L.program.outputs cells := ends
    simp only
    split
    · have revision := (layout'.indexed.released (cells.map Prod.fst)).revision
      refine ⟨origin, layout'.sweep (cells.map Prod.fst), ?_, List.forall₂_map_right_iff.mpr ?_⟩
      · exact reflects.transfer (Graph.cell_sweep fun _ => Graph.reaches_model _ _) revision
      · refine (forall₂_mem delivers).imp fun o x hx => ⟨x.1, ?_⟩
        have root : x.1 ∈ cells.map Prod.fst := List.mem_map_of_mem hx.2.1
        exact hx.2.2.transfer (Graph.cell_sweep fun _ => Graph.reaches_root root) revision
    · refine ⟨origin, layout', reflects, List.forall₂_map_right_iff.mpr ?_⟩
      exact delivers.imp fun o x hx => ⟨x.1, hx⟩

/-- The layout after any recalculations. -/
theorem layout_after (L : Linkage) (documents : List Value) :
    ∃ origin, World.Layout L.program ⟨after L.program L.library documents, origin⟩ := by
  have steps (g : Graph) (origin : CellId → Origin) (layout : World.Layout L.program ⟨g, origin⟩) :
      ∃ origin, World.Layout L.program
        ⟨documents.foldl (fun g v => (g.refresh L.program L.library v).2.1) g, origin⟩ := by
    induction documents generalizing g origin with
    | nil => exact ⟨origin, layout⟩
    | cons v rest ih =>
      obtain ⟨origin', layout', -, -⟩ := refresh_keeps layout v
      exact ih _ origin' layout'
  exact steps .empty _ (World.layout_empty L.program)

end Linkage

end Recalc
