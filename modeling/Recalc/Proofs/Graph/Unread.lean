import Recalc.Proofs.Graph.Renewal

/-! Writes that nothing has read. After a success, a new document that gives equal values wherever
outputs depend on the document costs no call, and computes nothing but slots of the document. -/
namespace Recalc

def CellKey.isModelSlot : CellKey CellId → Bool
  | .slot source _ => source == Graph.modelCell
  | _ => false

namespace Graph

/-- A cell that outputs depend on, through the cells that cells have read. -/
def Behind (p : Program) (g : Graph) (id : CellId) : Prop :=
  ∃ o ∈ p.outputs, ∃ root, g.find? (.node o.2 []) = some root ∧
    Relation.ReflTransGen (fun a b => b ∈ (g.cell a).deps) root id

/-- A slot of the document. -/
def OnModel (g : Graph) (id : CellId) : Prop := (g.cell id).key.isModelSlot = true

instance (g : Graph) (id : CellId) : Decidable (g.OnModel id) := inferInstanceAs (Decidable (_ = _))

/-- A cell that has been read by one that outputs depend on. That slots of the document read it does
not count. -/
def Watched (p : Program) (g : Graph) (id : CellId) : Prop :=
  ∃ reader, g.Behind p reader ∧ id ∈ (g.cell reader).deps ∧ ¬ (g.OnModel reader ∧ id = modelCell)

/-- Whether a document gives a cell an equal value, if the cell is that of the document or one of
its slots. -/
def agrees (g : Graph) (document : Value) (id : CellId) : Bool :=
  match (g.cell id).key with
  | .model => g.value id == document
  | .slot source key => source != modelCell || (document.get key).toOption.any (g.value id == ·)
  | _ => true

/-- A document gives equal values to all of these cells that are watched. -/
def Unaffected (p : Program) (g : Graph) (document : Value) : Prop :=
  ∀ id, g.Watched p id → g.agrees document id = true

variable {p : Program} {g : Graph} {id d : CellId}

theorem OnModel.exists_key (h : g.OnModel id) : ∃ key, (g.cell id).key = .slot modelCell key := by
  unfold OnModel at h
  cases hk : (g.cell id).key with
  | slot source key =>
    rw [hk, CellKey.isModelSlot, beq_iff_eq] at h
    exact ⟨key, h ▸ rfl⟩
  | _ => simp [hk, CellKey.isModelSlot] at h

private theorem Behind.dep (h : g.Behind p id) (hd : d ∈ (g.cell id).deps) : g.Behind p d := by
  obtain ⟨o, ho, root, found, path⟩ := h
  exact ⟨o, ho, root, found, path.tail hd⟩

/-- Outputs have cells of nodes, so every slot behind them has been read by a cell behind them. -/
theorem Behind.watched (h : g.Behind p id) (hg : g.Indexed) (hs : g.OnModel id) :
    g.Watched p id := by
  obtain ⟨o, ho, root, found, path⟩ := h
  obtain ⟨key, hk⟩ := hs.exists_key
  rcases Relation.ReflTransGen.cases_tail path with rfl | ⟨reader, before, hd⟩
  · have same := (hg.found _ id found).2
    rw [hk] at same
    cases same
  · refine ⟨reader, ⟨o, ho, root, found, before⟩, hd, fun hm => ?_⟩
    rw [hm.2, hg.model] at hk
    cases hk

private theorem agrees_slot {document key : Value} (h : g.agrees document id = true)
    (hk : (g.cell id).key = .slot modelCell key) :
    ∃ v, document.get key = .ok v ∧ (g.value id == v) = true := by
  simp only [agrees, hk, bne_self_eq_false, Bool.false_or] at h
  cases hget : document.get key with
  | error e =>
    rw [hget] at h
    cases h
  | ok v =>
    rw [hget] at h
    exact ⟨v, rfl, h⟩

/-- Cells behind the outputs are among all cells that include those of the outputs and whatever they
have read. -/
theorem Behind.mem_of_closed {cells : List CellId} (h : g.Behind p id)
    (roots : ∀ o ∈ p.outputs, ∀ root ∈ g.find? (.node o.2 []), root ∈ cells)
    (closed : ∀ reader ∈ cells, ∀ d ∈ (g.cell reader).deps, d ∈ cells) : id ∈ cells := by
  obtain ⟨o, ho, root, found, path⟩ := h
  induction path with
  | refl => exact roots o ho root found
  | tail _ hd ih => exact closed _ ih _ hd

private theorem unaffected_of_closed (cells : List CellId) {document : Value}
    (roots : ∀ o ∈ p.outputs, ∀ root ∈ g.find? (.node o.2 []), root ∈ cells)
    (closed : ∀ reader ∈ cells, ∀ d ∈ (g.cell reader).deps, d ∈ cells)
    (agrees : ∀ reader ∈ cells, ∀ d ∈ (g.cell reader).deps,
      ¬ (g.OnModel reader ∧ d = modelCell) → g.agrees document d = true) :
    g.Unaffected p document := by
  rintro id ⟨reader, behind, hd, counts⟩
  exact agrees reader (behind.mem_of_closed roots closed) id hd counts

/-! ### A calm recalculation -/

/-- A graph in which everything behind the outputs is current, and a new document that is equal to
the last one or leaves what is watched unaffected. -/
structure Calm (p : Program) (w : World) (new : Value) : Prop where
  layout : w.Layout p
  document : w.graph.Current modelCell
  current : ∀ id, w.graph.Behind p id → w.graph.Current id
  calm : (w.graph.value modelCell == new) = true ∨ w.graph.Unaffected p new

/-- A state of a recalculation over a new document in which no cell behind the outputs has changed:
at most it has been verified, and only slots of the document have been computed. -/
structure Quiet (p : Program) (g : Graph) (new : Value) (s : State) : Prop where
  revision : s.graph.revision = g.revision + 1
  size : s.graph.cells.size = g.cells.size
  index : s.graph.index = g.index
  model : s.graph.cell modelCell = (g.advance.setModel new).cell modelCell
  cells : ∀ id, g.Behind p id → id ≠ modelCell → s.graph.cell id = g.cell id ∨
    s.graph.cell id = { g.cell id with verifiedAt := g.revision + 1 }
  calls : s.calls = #[]
  computed : ∀ id ∈ s.computed, g.OnModel id ∧ g.Watched p id
  unchanged : (g.value modelCell == new) = true → s.computed = []

variable {w : World} {new : Value} {lib : Library} {s : State}

private theorem Calm.live (h : Calm p w new) (hb : w.graph.Behind p id) : w.graph.Live id := by
  obtain ⟨o, ho, root, found, path⟩ := hb
  induction path with
  | refl => exact (h.layout.indexed.found _ root found).1
  | tail _ hd ih => exact ((h.layout.placed _ ih).deps _ hd).1

/-- The cell of an equal document has not changed. -/
theorem Calm.model_same (h : Calm p w new) (same : (w.graph.value modelCell == new) = true) :
    (w.graph.advance.setModel new).cell modelCell =
      { w.graph.cell modelCell with verifiedAt := w.graph.revision + 1 } := by
  have holds : (w.graph.advance.cell modelCell).holds new = true :=
    (holds_eq h.document.1 new).trans same
  rw [setModel, cell_store h.layout.advance.indexed.live_model.lt, Cell.renew, if_pos holds]
  rfl

/-- The cell of another document has its value now. -/
theorem setModel_other (layout : w.Layout p) (document : w.graph.Current modelCell)
    (other : (w.graph.value modelCell == new) = false) :
    ((w.graph.advance.setModel new).cell modelCell).value = some new ∧
      ((w.graph.advance.setModel new).cell modelCell).changedAt = w.graph.revision + 1 := by
  have holds : (w.graph.advance.cell modelCell).holds new = false :=
    (holds_eq document.1 new).trans other
  rw [setModel, cell_store layout.advance.indexed.live_model.lt, Cell.renew,
    if_neg (by simp [holds])]
  exact ⟨rfl, rfl⟩

theorem cell_setModel_of_ne (layout : w.Layout p) (hm : id ≠ modelCell) :
    (w.graph.advance.setModel new).cell id = w.graph.cell id := by
  rw [setModel, store, cell_setCell layout.advance.indexed.live_model.lt, if_neg hm]
  rfl

private theorem Calm.start (h : Calm p w new) :
    Quiet p w.graph new { graph := w.graph.advance.setModel new } where
  revision := rfl
  size := by simp [setModel, store, setCell, putCell, advance]
  index := rfl
  model := rfl
  cells id _ hm := .inl (cell_setModel_of_ne h.layout hm)
  calls := rfl
  computed := by simp
  unchanged _ := rfl

private theorem Quiet.value (hq : Quiet p g new s) (hb : g.Behind p id) (hm : id ≠ modelCell) :
    s.graph.value id = g.value id := by
  rw [Graph.value, Graph.value]
  rcases hq.cells id hb hm with he | he <;> rw [he]

/-- Cells behind the outputs, other than a new document, have not changed. -/
theorem Calm.changed_le (h : Calm p w new) (hq : Quiet p w.graph new s)
    (hb : w.graph.Behind p id)
    (hm : id = modelCell → (w.graph.value modelCell == new) = true) :
    (s.graph.cell id).changedAt ≤ w.graph.revision := by
  have placed := h.layout.placed id (h.live hb)
  have le := Nat.le_trans placed.changed_le placed.verified_le
  by_cases he : id = modelCell
  · subst he
    rw [hq.model, h.model_same (hm rfl)]
    exact le
  · rcases hq.cells id hb he with he | he <;> rw [he] <;> exact le

/-- Verifying one more cell keeps a state quiet. -/
theorem Quiet.setCell (hq : Quiet p g new s) (hb : id < g.cells.size) (hm : id ≠ modelCell)
    {c : Cell} (hc : c = { g.cell id with verifiedAt := g.revision + 1 })
    {reads computed : List CellId}
    (hd : ∀ j ∈ computed, g.OnModel j ∧ g.Watched p j)
    (hu : (g.value modelCell == new) = true → computed = []) :
    Quiet p g new { s with graph := s.graph.setCell id c, reads, computed } where
  revision := hq.revision
  size := by
    rw [← hq.size]
    simp [Graph.setCell, putCell]
  index := hq.index
  model := by
    rw [cell_setCell (hq.size ▸ hb), if_neg (Ne.symm hm)]
    exact hq.model
  cells j hj hjm := by
    rw [cell_setCell (hq.size ▸ hb)]
    by_cases he : j = id
    · subst he
      exact .inr ((if_pos rfl).trans hc)
    · rw [if_neg he]
      exact hq.cells j hj hjm
  calls := hq.calls
  computed := hd
  unchanged := hu

/-! ### Verifying -/

/-- From quiet states, verifying a cell succeeds and leads to a quiet state. -/
def Rests (p : Program) (g : Graph) (new : Value) (verify : CellId → CellM Unit) (id : CellId) :
    Prop :=
  ∀ s, Quiet p g new s →
    ∃ t, (verify id).run s = (.ok (), t) ∧ Quiet p g new t ∧ t.reads = s.reads

/-- The document needs no verification. -/
theorem verify_modelCell (fuel : Nat) (hm : (s.graph.cell modelCell).key = .model) :
    (verify p lib (fuel + 1) modelCell).run s = (.ok (), s) := by
  rw [verify_succ, bring_run, hm]
  rfl

private theorem Calm.verify_model (h : Calm p w new) (hq : Quiet p w.graph new s) (fuel : Nat) :
    (verify p lib (fuel + 1) modelCell).run s = (.ok (), s) := by
  apply verify_modelCell
  rw [hq.model]
  exact (h.layout.start new).1.indexed.model

/-- A slot of the document is computed from the document alone. -/
theorem compute_modelSlot (fuel : Nat) {key : Value} (hm : (s.graph.cell modelCell).key = .model) :
    (compute p lib (verify p lib (fuel + 1)) (.slot modelCell key)).run s =
      (MonadExcept.ofExcept ((s.graph.value modelCell).get key) : CellM Value).run
        { s with reads := modelCell :: s.reads } := by
  have rest : (compute p lib (verify p lib (fuel + 1)) (.slot modelCell key)).run s =
      (MonadExcept.ofExcept ((s.graph.cell modelCell).access.val key) : CellM Value).run
        { s with reads := modelCell :: s.reads } :=
    run_bind_ok (pull_run_ok (verify_modelCell fuel hm))
  rw [rest, (s.graph.cell modelCell).access.property]
  rfl

theorem recompute_modelSlot (fuel : Nat) {key v : Value}
    (hk : (s.graph.cell id).key = .slot modelCell key)
    (get : (s.graph.value modelCell).get key = .ok v)
    (hm : (s.graph.cell modelCell).key = .model) :
    (recompute (compute p lib (verify p lib (fuel + 1))) id).run s = (.ok (), { s with
      graph := s.graph.store id v [modelCell]
      computed := id :: s.computed }) := by
  have computed : (compute p lib (verify p lib (fuel + 1)) (s.graph.cell id).key).run
      { s with reads := [] } = (.ok v, { s with reads := [modelCell] }) := by
    rw [hk, compute_modelSlot (s := { s with reads := [] }) fuel hm, get]
    rfl
  exact recompute_run_ok computed

/-- Cells that rest and have not changed are found unchanged. -/
theorem anyChanged_rests {verify : CellId → CellM Unit} {ids : List CellId}
    (h : ∀ d ∈ ids, Rests p g new verify d ∧
      ∀ t, Quiet p g new t → (t.graph.cell d).changedAt ≤ g.revision)
    (hq : Quiet p g new s) : ∃ t, (anyChanged verify g.revision ids).run s = (.ok false, t) ∧
      Quiet p g new t ∧ t.reads = s.reads := by
  induction ids generalizing s with
  | nil => exact ⟨s, rfl, hq, rfl⟩
  | cons d rest ih =>
    obtain ⟨rests, unchanged⟩ := h d List.mem_cons_self
    obtain ⟨t, run, quiet, reads⟩ := rests s hq
    obtain ⟨u, run', quiet', reads'⟩ := ih (fun d hd => h d (List.mem_cons_of_mem _ hd)) quiet
    refine ⟨u, ?_, quiet', reads'.trans reads⟩
    rw [anyChanged_run_ok g.revision rest run, if_neg (Nat.not_lt.mpr (unchanged t quiet))]
    exact run'

private theorem Calm.ne_model (h : Calm p w new) (hs : w.graph.OnModel id) : id ≠ modelCell := by
  rintro rfl
  obtain ⟨key, hk⟩ := hs.exists_key
  rw [h.layout.indexed.model] at hk
  cases hk

private theorem Calm.not_isModel (h : Calm p w new) (hb : w.graph.Behind p id)
    (hm : id ≠ modelCell) :
    (w.graph.cell id).key.isModel = false := by
  by_contra hk
  exact hm (h.layout.indexed.eq_modelCell (h.live hb) (by simpa using hk))

/-- A cell that has been verified rests. -/
theorem Calm.verify_current (h : Calm p w new) (hq : Quiet p w.graph new s)
    (hb : w.graph.Behind p id) (hm : id ≠ modelCell) (fuel : Nat)
    (he : s.graph.cell id = { w.graph.cell id with verifiedAt := w.graph.revision + 1 }) :
    (verify p lib (fuel + 1) id).run s = (.ok (), s) := by
  have value := (h.current id hb).1
  rw [verify_succ, bring_run, he, hq.revision]
  simp only [h.not_isModel hb hm, Option.isNone_eq_false_iff.mpr value, Bool.false_eq_true,
    if_false, if_true]
  rfl

/-- A cell that has not been verified yet has its reads checked. -/
theorem Calm.verify_stale (h : Calm p w new) (hq : Quiet p w.graph new s)
    (hb : w.graph.Behind p id) (hm : id ≠ modelCell) (fuel : Nat)
    (he : s.graph.cell id = w.graph.cell id) :
    (verify p lib (fuel + 1) id).run s = (do
      if ← anyChanged (verify p lib fuel) w.graph.revision (w.graph.cell id).deps then
        recompute (compute p lib (verify p lib fuel)) id
      else modify fun s => { s with graph := s.graph.confirm id } : CellM Unit).run s := by
  obtain ⟨value, verified⟩ := h.current id hb
  have stale : ¬ w.graph.revision = w.graph.revision + 1 := (Nat.lt_succ_self _).ne
  rw [verify_succ, bring_run, he, hq.revision, verified]
  simp only [h.not_isModel hb hm, Option.isNone_eq_false_iff.mpr value, Bool.false_eq_true,
    if_false, stale]

/-- A cell none of whose reads has changed is confirmed. -/
theorem Calm.rests_of_deps (h : Calm p w new) {fuel : Nat} (hb : w.graph.Behind p id)
    (hm : id ≠ modelCell)
    (hd : ∀ d ∈ (w.graph.cell id).deps, Rests p w.graph new (verify p lib fuel) d ∧
      (d = modelCell → (w.graph.value modelCell == new) = true)) :
    Rests p w.graph new (verify p lib (fuel + 1)) id := by
  intro s hq
  rcases hq.cells id hb hm with stale | verified
  · obtain ⟨t, run, quiet, reads⟩ := anyChanged_rests (fun d hmem => ⟨(hd d hmem).1,
      fun t hq => h.changed_le hq (hb.dep hmem) (hd d hmem).2⟩) hq
    rw [h.verify_stale hq hb hm fuel stale, run_bind_ok run]
    refine ⟨{ t with graph := t.graph.confirm id }, rfl, ?_, reads⟩
    refine quiet.setCell (h.live hb).lt hm ?_ quiet.computed quiet.unchanged
    rw [quiet.revision]
    rcases quiet.cells id hb hm with he | he <;> rw [he]
  · exact ⟨s, h.verify_current hq hb hm fuel verified, hq, rfl⟩

/-- A document that is not equal to the last one is found changed. -/
theorem Calm.anyChanged_model (h : Calm p w new) (hq : Quiet p w.graph new s) (fuel : Nat)
    (other : (w.graph.value modelCell == new) = false) :
    (anyChanged (verify p lib (fuel + 1)) w.graph.revision [modelCell]).run s = (.ok true, s) := by
  rw [anyChanged_run_ok w.graph.revision [] (h.verify_model hq fuel), hq.model,
    (setModel_other h.layout h.document other).2, if_pos (Nat.lt_succ_self _)]
  rfl

/-- A slot of such a document is computed from the document alone. -/
theorem Calm.recompute_slot (h : Calm p w new) (hq : Quiet p w.graph new s) (fuel : Nat)
    (other : (w.graph.value modelCell == new) = false) {key v : Value}
    (hk : (s.graph.cell id).key = .slot modelCell key) (get : new.get key = .ok v) :
    (recompute (compute p lib (verify p lib (fuel + 1))) id).run s = (.ok (), { s with
      graph := s.graph.store id v [modelCell]
      computed := id :: s.computed }) := by
  apply recompute_modelSlot _ hk
  · rw [Graph.value, hq.model, (setModel_other h.layout h.document other).1]
    exact get
  · rw [hq.model]
    exact (h.layout.start new).1.indexed.model

/-- A slot of the document is confirmed, or computed again with an equal value. -/
theorem Calm.rests_slot (h : Calm p w new) {fuel : Nat} (hb : w.graph.Behind p id)
    (hs : w.graph.OnModel id) : Rests p w.graph new (verify p lib (fuel + 2)) id := by
  have hm := h.ne_model hs
  have watched := hb.watched h.layout.indexed hs
  have value := (h.current id hb).1
  obtain ⟨key, hk⟩ := hs.exists_key
  have deps : (w.graph.cell id).deps = [modelCell] :=
    (h.layout.placed id (h.live hb)).slot modelCell key hk value
  cases same : w.graph.value modelCell == new with
  | true =>
    refine h.rests_of_deps hb hm fun d hd => ⟨fun s hq => ?_, fun _ => same⟩
    rw [deps, List.mem_singleton] at hd
    subst hd
    exact ⟨s, h.verify_model hq fuel, hq, rfl⟩
  | false =>
    obtain ⟨v, get, equal⟩ := agrees_slot (h.calm.resolve_left (by simp [same]) id watched) hk
    intro s hq
    rcases hq.cells id hb hm with stale | verified
    · rw [h.verify_stale hq hb hm (fuel + 1) stale, deps,
        run_bind_ok (h.anyChanged_model hq fuel same)]
      refine ⟨_, h.recompute_slot hq fuel same (stale ▸ hk) get, ?_, rfl⟩
      refine hq.setCell (h.live hb).lt hm ?_ ?_ ?_
      · have holds : (w.graph.cell id).holds v = true := (holds_eq value v).trans equal
        rw [stale, Cell.renew, if_pos holds, hq.revision, ← deps]
      · exact List.forall_mem_cons.mpr ⟨⟨hs, watched⟩, hq.computed⟩
      · intro unchanged
        rw [same] at unchanged
        cases unchanged
    · exact ⟨s, h.verify_current hq hb hm (fuel + 1) verified, hq, rfl⟩

/-- With fuel above their weight, all cells behind the outputs rest. -/
theorem Calm.rests (h : Calm p w new) {fuel : Nat} (hb : w.graph.Behind p id)
    (hw : (w.origin id).weight < fuel) : Rests p w.graph new (verify p lib fuel) id := by
  induction fuel generalizing id with
  | zero => exact absurd hw (Nat.not_lt_zero _)
  | succ fuel ih =>
    by_cases hm : id = modelCell
    · subst hm
      exact fun s hq => ⟨s, h.verify_model hq fuel, hq, rfl⟩
    · have placed := h.layout.placed id (h.live hb)
      by_cases hs : w.graph.OnModel id
      · -- The slot is heavier than the document, so there is fuel left to look at the document.
        obtain ⟨key, hk⟩ := hs.exists_key
        have value := (h.current id hb).1
        have heavier : 0 < (w.origin id).weight := by
          refine Nat.lt_of_le_of_lt (Nat.zero_le _) (placed.deps modelCell ?_).2
          rw [placed.slot modelCell key hk value]
          exact List.mem_cons_self
        cases fuel with
        | zero => omega
        | succ fuel => exact h.rests_slot hb hs
      · refine h.rests_of_deps hb hm fun d hd => ⟨?_, fun he => ?_⟩
        · have lighter := (placed.deps d hd).2
          exact ih (hb.dep hd) (by omega)
        · subst he
          rcases h.calm with same | unaffected
          · exact same
          · have agrees := unaffected modelCell ⟨id, hb, hd, fun hn => hs hn.1⟩
            rw [Graph.agrees, h.layout.indexed.model] at agrees
            exact agrees

/-! ### Outputs -/

/-- The cell of an output is lighter than the fuel. -/
theorem Calm.light_output (h : Calm p w new) (hp : p.Lawful) {o : String × NodeId}
    (ho : o ∈ p.outputs) {root : CellId} (found : w.graph.find? (.node o.2 []) = some root) :
    (w.origin root).weight < depthBound p := by
  obtain ⟨live, same⟩ := h.layout.indexed.found _ root found
  have origin : w.origin root = w.originOf (.node o.2 []) := by
    rw [(h.layout.placed root live).origin_eq, World.originOf, CellKey.beq_iff.mp same]
    rfl
  have light : (w.originOf (.node o.2 [])).weight ≤ 0 + Nat.pow 4 o.2 :=
    World.weight_originOf_le (by simp [CellKey.references])
  rw [origin]
  refine Nat.lt_of_le_of_lt light ?_
  rw [Nat.zero_add]
  exact Nat.pow_lt_pow_right (by decide) (Nat.lt_succ_of_lt (hp.output_lt o ho))

theorem internCell_found {key : CellKey CellId} (found : s.graph.find? key = some id) :
    (internCell key).run s = (.ok id, s) := by
  have run : (internCell key).run s =
      (.ok (s.graph.intern key).1, { s with graph := (s.graph.intern key).2 }) := rfl
  rw [run, intern, found]

/-- An output keeps its cell and the value of it. -/
theorem Calm.readOutput (h : Calm p w new) (hp : p.Lawful) {o : String × NodeId}
    (ho : o ∈ p.outputs) {root : CellId} (found : w.graph.find? (.node o.2 []) = some root)
    (hq : Quiet p w.graph new s) : ∃ t, (readOutput p lib o.2).run s =
      (.ok (root, w.graph.value root), t) ∧ Quiet p w.graph new t := by
  have hb : w.graph.Behind p root := ⟨o, ho, root, found, .refl⟩
  have hm : root ≠ modelCell := by
    rintro rfl
    have same := (h.layout.indexed.found _ _ found).2
    rw [h.layout.indexed.model] at same
    cases same
  have interned : (internCell (.node o.2 [])).run s = (.ok root, s) := by
    apply internCell_found
    rw [find?, hq.index]
    exact found
  obtain ⟨t, verified, quiet, -⟩ := h.rests hb (h.light_output hp ho found) s hq
  have pulled := pull_run_ok verified
  rw [quiet.value hb hm] at pulled
  refine ⟨{ t with reads := root :: t.reads }, ?_, ⟨quiet.revision, quiet.size, quiet.index,
    quiet.model, quiet.cells, quiet.calls, quiet.computed, quiet.unchanged⟩⟩
  exact (run_bind_ok interned).trans (run_bind_ok pulled)

private theorem Calm.mapM_readOutput (h : Calm p w new) (hp : p.Lawful)
    {os : List (String × NodeId)}
    {values : List Value} (ho : ∀ o ∈ os, o ∈ p.outputs)
    (delivers : List.Forall₂ (fun o v => ∃ id, Delivers w.graph o.2 (id, v)) os values)
    (hq : Quiet p w.graph new s) : ∃ cells t, (os.mapM fun o => Graph.readOutput p lib o.2).run s =
      (.ok cells, t) ∧ cells.map Prod.snd = values ∧ Quiet p w.graph new t := by
  induction delivers generalizing s with
  | nil => exact ⟨[], s, rfl, rfl, hq⟩
  | @cons o v rest values first _ ih =>
    obtain ⟨root, delivers⟩ := first
    have found := h.layout.indexed.find_eq delivers.live delivers.key
    obtain ⟨t, run, quiet⟩ := h.readOutput hp (ho o List.mem_cons_self) found hq
    obtain ⟨cells, u, run', same, quiet'⟩ := ih (fun o hm => ho o (List.mem_cons_of_mem _ hm)) quiet
    refine ⟨(root, w.graph.value root) :: cells, u, ?_, ?_, quiet'⟩
    · rw [List.mapM_cons]
      exact (run_bind_ok run).trans (run_bind_ok run')
    · rw [List.map_cons, same, delivers.value]

/-- A calm recalculation gives the outputs again. -/
theorem Calm.refresh (h : Calm p w new) (hp : p.Lawful) {outputs : List Value}
    (presents : w.graph.Presents p outputs) :
    Quiet p w.graph new (readOutputs p lib new w.graph).2 ∧
      (w.graph.refresh p lib new).1 = .ok outputs ∧
      (w.graph.refresh p lib new).2.2 = (readOutputs p lib new w.graph).2.work := by
  obtain ⟨cells, t, run, same, quiet⟩ :=
    h.mapM_readOutput hp (fun _ ho => ho) presents h.start
  have read : readOutputs p lib new w.graph = (.ok cells, t) := run
  rw [Graph.refresh, read]
  exact ⟨quiet, congrArg Except.ok same, rfl⟩

theorem Presents.delivers {values : List Value} (h : g.Presents p values) {o : String × NodeId}
    (ho : o ∈ p.outputs) : ∃ x, Delivers g o.2 x := by
  unfold Presents at h
  generalize p.outputs = os at h ho
  induction h with
  | nil => cases ho
  | @cons _ v _ _ first _ ih =>
    rcases List.mem_cons.mp ho with rfl | ho
    · obtain ⟨id, delivers⟩ := first
      exact ⟨(id, v), delivers⟩
    · exact ih ho

/-- After a success, whatever is behind the outputs is current. -/
theorem current_of_presents (layout : w.Layout p) {outputs : List Value}
    (presents : w.graph.Presents p outputs) (hb : w.graph.Behind p id) :
    w.graph.Live id ∧ w.graph.Current id := by
  obtain ⟨o, ho, root, found, path⟩ := hb
  induction path with
  | refl =>
    obtain ⟨x, delivers⟩ := presents.delivers ho
    have found' := layout.indexed.find_eq delivers.live delivers.key
    rw [found] at found'
    cases found'
    exact ⟨delivers.live, delivers.current⟩
  | tail _ hd ih =>
    have placed := layout.placed _ ih.1
    exact ⟨(placed.deps _ hd).1, placed.current ih.2 _ hd⟩

variable {m : Model} {backend : Backend} {documents outputs : List Value} {old : Value}
  {work : Work}

/-- After a success over one document, reached in any way, a new document that leaves unaffected
what the outputs have read of the document gives the same outputs without a call, and computes only
slots of the document that have been read. Over an equal document nothing is computed at all. -/
theorem refresh_unread (hc : Program.compile m backend = .ok p)
    (hok : (after p lib documents).refresh p lib old = (.ok outputs, g, work)) (new : Value) :
    (g.Unaffected p new → (g.refresh p lib new).1 = .ok outputs ∧
      (g.refresh p lib new).2.2.calls = #[] ∧
      ∀ id ∈ (readOutputs p lib new g).2.computed, g.OnModel id ∧ g.Watched p id) ∧
    ((old == new) = true → (g.refresh p lib new).1 = .ok outputs ∧
      (g.refresh p lib new).2.2.calls = #[] ∧ (g.refresh p lib new).2.2.evaluated = 0) := by
  let L := Linkage.any (Program.linked_of_compile hc) lib
  obtain ⟨_, before⟩ := L.layout_after documents
  obtain ⟨origin, layout, reflects, presents⟩ := Linkage.refresh_keeps before old
  have hok : (after L.program L.library documents).refresh L.program L.library old =
      (.ok outputs, g, work) := hok
  rw [hok] at layout reflects presents
  have calm (h : (g.value modelCell == new) = true ∨ g.Unaffected p new) : Calm p ⟨g, origin⟩ new :=
    ⟨layout, reflects.current, fun _ hb => (current_of_presents layout presents hb).2, h⟩
  have lawful := Program.lawful_of_compile hc
  refine ⟨fun unaffected => ?_, fun same => ?_⟩
  · obtain ⟨quiet, result, spent⟩ := (calm (.inr unaffected)).refresh lawful presents
    have calls := (congrArg Work.calls spent).trans quiet.calls
    exact ⟨result, calls, quiet.computed⟩
  · have same : (g.value modelCell == new) = true := BEq.trans reflects.value same
    obtain ⟨quiet, result, spent⟩ := (calm (.inl same)).refresh lawful presents
    have calls := (congrArg Work.calls spent).trans quiet.calls
    refine ⟨result, calls, (congrArg Work.evaluated spent).trans ?_⟩
    exact congrArg List.length (quiet.unchanged same)

/-- Marks one of two fields. -/
def picking : Model :=
  ⟨[("picked", .output (.ternary (.get .root (.literal (.str "a")))
    (.call "mark" (.get .root (.literal (.str "a"))) [])
    (.call "mark" (.get .root (.literal (.str "b"))) [])))], by decide⟩

def pickingProgram : Program where
  backend := .optimizing
  entries := #[⟨.root, [], []⟩, ⟨.literal (.str "a"), [], []⟩, ⟨.get 0 1, [], []⟩,
    ⟨.call "mark" [2], [], []⟩, ⟨.literal (.str "b"), [], []⟩, ⟨.get 0 4, [], []⟩,
    ⟨.call "mark" [5], [], []⟩, ⟨.ternary 2 3 6, [], []⟩]
  outputs := [("picked", 7)]
  mutators := []
  functions := ["mark"]

private theorem compile_picking : Program.compile picking .optimizing = .ok pickingProgram := by
  with_unfolding_all rfl

def pickedDocument (b : Int) : Value := .obj [("a", .int 1), ("b", .int b)]

/-- The graph after the second field was picked and then the first. -/
def pickedGraph : Graph :=
  ((after pickingProgram markLibrary [.null]).refresh pickingProgram markLibrary
    (pickedDocument 2)).2.1

/-- A write to the field that is not picked. -/
theorem refresh_unread_picking : pickedGraph.Unaffected pickingProgram (pickedDocument 5) ∧
    ∃ outputs, (pickedGraph.refresh pickingProgram markLibrary (pickedDocument 5)).1 = .ok outputs ∧
      (pickedGraph.refresh pickingProgram markLibrary (pickedDocument 5)).2.2.calls = #[] ∧
      (pickedGraph.refresh pickingProgram markLibrary (pickedDocument 2)).1 = .ok outputs ∧
      (pickedGraph.refresh pickingProgram markLibrary (pickedDocument 2)).2.2.evaluated = 0 := by
  have unaffected : pickedGraph.Unaffected pickingProgram (pickedDocument 5) :=
    unaffected_of_closed [0, 1, 2, 5] (by decide +kernel) (by decide +kernel) (by decide +kernel)
  have ok : ((after pickingProgram markLibrary [.null]).refresh pickingProgram markLibrary
      (pickedDocument 2)).1.isOk = true := by decide +kernel
  rcases first : (after pickingProgram markLibrary [.null]).refresh pickingProgram markLibrary
    (pickedDocument 2) with ⟨r, g, work⟩
  have graph : pickedGraph = g := congrArg (fun r => r.2.1) first
  rw [first] at ok
  cases r with
  | error e => cases ok
  | ok outputs =>
    subst graph
    have unread := (refresh_unread compile_picking first (pickedDocument 5)).1 unaffected
    have same := (refresh_unread compile_picking first (pickedDocument 2)).2 BEq.rfl
    exact ⟨unaffected, outputs, unread.1, unread.2.1, same.1, same.2.2⟩

end Graph

end Recalc
