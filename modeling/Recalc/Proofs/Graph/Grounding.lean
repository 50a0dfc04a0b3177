import Recalc.Proofs.Graph.Reclaim

/-! Graphs with the origins of their cells. A graph is grounded when each cell in use has the origin
of its key, and the cells that it has read and those that its key names are in use. Then no two
cells have one origin, and all that a recalculation does to a graph keeps it grounded. -/
namespace Recalc

section
variable {ι κ : Type}

private theorem CellKey.handleCells_map (f : ι → κ) (h : Handle ι) :
    handleCells (h.map f) = (handleCells h).map f := by
  cases h <;> rfl

theorem CellKey.references_map (f : ι → κ) (key : CellKey ι) :
    (key.map f).references = key.references.map f := by
  cases key with
  | model | vacant | slot source key => rfl
  | node id env =>
    simp only [CellKey.map, references, CellEnv.map, List.flatMap_map, List.map_flatMap]
    congr 1
    funext e
    obtain ⟨l, val, key, ctx⟩ := e
    cases ctx <;> simp [CellBinding.map, handleCells_map]

theorem CellKey.references_canon (key : CellKey ι) : key.canon.references = key.references := by
  have handle (h : Handle ι) : handleCells h.canon = handleCells h := by
    cases h <;> rfl
  cases key with
  | model | vacant | slot source key => rfl
  | node id env =>
    simp only [canon, references, CellEnv.canon, List.flatMap_map]
    congr 1
    funext e
    obtain ⟨l, val, key, ctx⟩ := e
    cases ctx <;> simp [CellBinding.canon, handle]

end

/-- A cell that is known to be current. -/
def Graph.Current (g : Graph) (id : CellId) : Prop :=
  (g.cell id).value.isSome ∧ (g.cell id).verifiedAt = g.revision

/-- A cell keeps its value and when it changed, or has the new value and changes now. -/
theorem Cell.renew_cases (c : Cell) (v : Value) (r : Revision) :
    (∃ old, c.value = some old ∧ (old == v) = true ∧ c.renew v r = c) ∨
      c.renew v r = { c with value := some v, access := v.accessor, changedAt := r } := by
  unfold Cell.renew
  cases hh : c.holds v with
  | false => exact .inr rfl
  | true =>
    cases hv : c.value with
    | none => simp [Cell.holds, hv] at hh
    | some old =>
      simp only [Cell.holds, hv] at hh
      exact .inl ⟨old, rfl, hh, rfl⟩

theorem Cell.key_renew (c : Cell) (v : Value) (r : Revision) : (c.renew v r).key = c.key := by
  rcases c.renew_cases v r with ⟨_, _, _, he⟩ | he <;> rw [he]

theorem Graph.current_store {g : Graph} {id : CellId} (h : id < g.cells.size) (v : Value)
    (deps : List CellId) : (g.store id v deps).Current id := by
  unfold Current store
  rw [cell_setCell h, if_pos rfl]
  refine ⟨?_, rfl⟩
  rcases (g.cell id).renew_cases v g.revision with ⟨old, hold, -, he⟩ | he
  · simp [he, hold]
  · simp [he]

theorem Graph.cell_empty (id : CellId) :
    Graph.empty.cell id = if id = modelCell then { key := .model } else default := by
  cases id <;> simp [cell, empty, modelCell]

theorem Graph.live_empty {id : CellId} : Graph.empty.Live id ↔ id = modelCell := by
  rw [Live, cell_empty]
  split
  · rename_i h
    simp [CellKey.isVacant, h]
  · rename_i h
    simp [CellKey.isVacant, default, h]

/-- A graph with the origins of its cells. -/
structure World where
  graph : Graph
  origin : CellId → Origin

namespace World
variable {w w' : World} {id : CellId} {key : CellKey CellId}

/-- The origin of a key, the same one for equal keys. -/
def originOf (w : World) (key : CellKey CellId) : Origin := .of (key.canon.map w.origin)

theorem weight_originOf_le {n : Nat} (h : ∀ d ∈ key.references, (w.origin d).weight ≤ n) :
    (w.originOf key).weight ≤ n + Origin.height (key.canon.map w.origin) := by
  refine Origin.weight_le.mpr fun o ho => ?_
  rw [CellKey.references_map, CellKey.references_canon] at ho
  obtain ⟨d, hd, rfl⟩ := List.mem_map.mp ho
  exact h d hd

theorem weight_model (w : World) : (w.originOf .model).weight ≤ 0 :=
  weight_originOf_le (n := 0) (by simp [CellKey.references])

private theorem mem_references_originOf {d : CellId} (hd : d ∈ key.references) :
    w.origin d ∈ (key.canon.map w.origin).references := by
  rw [CellKey.references_map, CellKey.references_canon]
  exact List.mem_map_of_mem hd

theorem weight_of_reference {d : CellId} (hd : d ∈ key.references) :
    (w.origin d).weight + Origin.height (key.canon.map w.origin) ≤ (w.originOf key).weight :=
  Origin.weight_of_reference _ (mem_references_originOf hd)

theorem originOf_congr (h : ∀ d ∈ key.references, w'.origin d = w.origin d) :
    w'.originOf key = w.originOf key := by
  refine congrArg Origin.of (CellKey.map_congr (CellKey.within_references ?_))
  rw [CellKey.references_canon]
  exact h

/-- A cell has the origin of its key, the cells that it needs are in use, and it has changed and was
verified in this order. -/
structure Based (w : World) (id : CellId) : Prop where
  origin_eq : w.origin id = w.originOf (w.graph.cell id).key
  references : ∀ d ∈ (w.graph.cell id).key.references, w.graph.Live d
  read : ∀ d ∈ (w.graph.cell id).deps, w.graph.Live d
  changed_le : (w.graph.cell id).changedAt ≤ (w.graph.cell id).verifiedAt
  verified_le : (w.graph.cell id).verifiedAt ≤ w.graph.revision

/-- The index finds the cells in use, and each of them is based on cells in use. -/
structure Grounded (w : World) : Prop where
  indexed : w.graph.Indexed
  based : ∀ id, w.graph.Live id → w.Based id

/-- Everything that a cell in use needs is in use. -/
theorem Based.live_successors (h : w.Based id) : ∀ d ∈ w.graph.successors id, w.graph.Live d := by
  intro d hd
  rcases List.mem_append.mp hd with hd | hd
  · exact h.read d hd
  · exact h.references d hd

/-- The cells that a key names are lighter than the cell of the key. -/
theorem Based.lighter (h : w.Based id) {d : CellId} (hd : d ∈ (w.graph.cell id).key.references) :
    (w.origin d).weight < (w.origin id).weight := by
  rw [h.origin_eq]
  exact Origin.weight_lt_of_reference (mem_references_originOf hd)

theorem Grounded.origin_model (h : w.Grounded) : w.origin Graph.modelCell = .of .model := by
  rw [(h.based _ h.indexed.live_model).origin_eq, h.indexed.model]
  rfl

/-- The cell that is found for a key has the origin of the key. -/
theorem Grounded.found (h : w.Grounded) (hf : w.graph.find? key = some id) :
    w.graph.Live id ∧ w.origin id = w.originOf key := by
  obtain ⟨hl, hb⟩ := h.indexed.found key id hf
  refine ⟨hl, ?_⟩
  rw [(h.based id hl).origin_eq, originOf, originOf, CellKey.beq_iff.mp hb]

/-- Different cells have different origins. -/
theorem Grounded.origin_injective (h : w.Grounded) {i j : CellId} (hi : w.graph.Live i)
    (hj : w.graph.Live j) (he : w.origin i = w.origin j) : i = j := by
  -- Keys of one origin name cells of lighter origins, so they are equal keys.
  induction hn : (w.origin i).weight using Nat.strongRecOn generalizing i j with
  | ind n ih =>
    have light {c : CellId} (hc : w.graph.Live c) (hw : (w.origin c).weight = n) :
        (w.graph.cell c).key.canon.Within
          (fun d => w.graph.Live d ∧ (w.origin d).weight < n) fun _ => True := by
      apply CellKey.within_references
      rw [CellKey.references_canon]
      intro d hd
      have based := h.based c hc
      exact ⟨based.references d hd, hw ▸ based.lighter hd⟩
    have same : (w.graph.cell i).key.canon = (w.graph.cell j).key.canon := by
      refine CellKey.map_injective (fun c d hc hd hcd => ih _ hc.2 hc.1 hd.1 hcd rfl)
        (light hi hn) (light hj (he ▸ hn)) ?_
      have := ((h.based i hi).origin_eq.symm.trans he).trans (h.based j hj).origin_eq
      simpa [originOf] using this
    have found := h.indexed.find_eq hi (CellKey.beq_iff.mpr same)
    rw [h.indexed.find j hj] at found
    exact (Option.some.inj found).symm

/-- A cell that stays as it is stays based, if the cells that it needs stay in use. -/
private theorem Based.transfer (h : w.Based id) (cell : w'.graph.cell id = w.graph.cell id)
    (revision : w'.graph.revision = w.graph.revision) (self : w'.origin id = w.origin id)
    (live : ∀ d ∈ w.graph.successors id, w'.graph.Live d)
    (origin : ∀ d ∈ w.graph.successors id, w'.origin d = w.origin d) : w'.Based id := by
  refine ⟨?_, ?_, ?_, ?_, ?_⟩ <;> rw [cell]
  · rw [self, h.origin_eq]
    exact (originOf_congr fun d hd => origin d (List.mem_append_right _ hd)).symm
  · exact fun d hd => live d (List.mem_append_right _ hd)
  · exact fun d hd => live d (List.mem_append_left _ hd)
  · exact h.changed_le
  · rw [revision]
    exact h.verified_le

/-! ### New contents -/

/-- A new content for a cell, current and taken from current cells. -/
structure Renews (w : World) (id : CellId) (c : Cell) : Prop where
  key : c.key = (w.graph.cell id).key
  isSome : c.value.isSome
  verified : c.verifiedAt = w.graph.revision
  changed_le : c.changedAt ≤ w.graph.revision
  live : ∀ d ∈ c.deps, w.graph.Live d
  current : ∀ d ∈ c.deps, w.graph.Current d

/-- The world after a cell gets a new content. -/
def setCell (w : World) (id : CellId) (c : Cell) : World :=
  { w with graph := w.graph.setCell id c }

theorem setCell_self (hl : w.graph.Live id) (c : Cell) : (w.setCell id c).graph.cell id = c :=
  (Graph.cell_setCell hl.lt c id).trans (if_pos rfl)

theorem setCell_of_ne (hl : w.graph.Live id) (c : Cell) {j : CellId} (hj : j ≠ id) :
    (w.setCell id c).graph.cell j = w.graph.cell j :=
  (Graph.cell_setCell hl.lt c j).trans (if_neg hj)

section
variable {c : Cell} (hl : w.graph.Live id) (u : w.Renews id c)
include hl u

theorem Renews.live_iff (j : CellId) : (w.setCell id c).graph.Live j ↔ w.graph.Live j :=
  Graph.live_setCell hl.lt u.key j

theorem Renews.current_setCell {j : CellId} (hj : w.graph.Current j) :
    (w.setCell id c).graph.Current j := by
  by_cases he : j = id
  · subst he
    rw [Graph.Current, setCell_self hl]
    exact ⟨u.isSome, u.verified⟩
  · rw [Graph.Current, setCell_of_ne hl c he]
    exact hj

theorem Grounded.setCell (h : w.Grounded) : (w.setCell id c).Grounded := by
  refine ⟨h.indexed.setCell hl.lt u.key, fun j hj => ?_⟩
  have based := h.based j ((u.live_iff hl j).mp hj)
  by_cases he : j = id
  · subst he
    refine ⟨?_, ?_, ?_, ?_, ?_⟩ <;> rw [setCell_self hl]
    · rw [u.key]
      exact based.origin_eq
    · rw [u.key]
      exact fun d hd => (u.live_iff hl d).mpr (based.references d hd)
    · exact fun d hd => (u.live_iff hl d).mpr (u.live d hd)
    · rw [u.verified]
      exact u.changed_le
    · exact Nat.le_of_eq u.verified
  · exact based.transfer (setCell_of_ne hl c he) rfl rfl
      (fun d hd => (u.live_iff hl d).mpr (based.live_successors d hd)) fun _ _ => rfl

end

/-- A cell with a value is confirmed when all that it has read is current. -/
theorem Based.renews_confirm (h : w.Based id) (hv : (w.graph.cell id).value.isSome)
    (hc : ∀ d ∈ (w.graph.cell id).deps, w.graph.Current d) :
    w.Renews id { w.graph.cell id with verifiedAt := w.graph.revision } :=
  ⟨rfl, hv, rfl, Nat.le_trans h.changed_le h.verified_le, h.read, hc⟩

/-- A cell gets a value computed from current cells. -/
theorem Based.renews_store (h : w.Based id) (v : Value) {deps : List CellId}
    (hd : ∀ d ∈ deps, w.graph.Live d ∧ w.graph.Current d) :
    w.Renews id { (w.graph.cell id).renew v w.graph.revision with
      verifiedAt := w.graph.revision, deps } := by
  have live := fun d h => (hd d h).1
  have current := fun d h => (hd d h).2
  rcases (w.graph.cell id).renew_cases v w.graph.revision with ⟨old, hold, -, he⟩ | he
  · rw [he]
    exact ⟨rfl, by simp [hold], rfl, Nat.le_trans h.changed_le h.verified_le, live, current⟩
  · rw [he]
    exact ⟨rfl, rfl, rfl, Nat.le_refl _, live, current⟩

/-! ### New recalculations -/

theorem grounded_empty : World.Grounded ⟨.empty, fun _ => .of .model⟩ := by
  refine ⟨Graph.indexed_empty, fun id hl => ?_⟩
  obtain rfl := Graph.live_empty.mp hl
  refine ⟨rfl, ?_, ?_, ?_, ?_⟩ <;> simp [Graph.cell_empty, CellKey.references]

theorem Grounded.advance (h : w.Grounded) :
    World.Grounded { w with graph := w.graph.advance } := by
  refine ⟨⟨h.indexed.model, h.indexed.find, h.indexed.found, h.indexed.free_lt, h.indexed.not_live,
    h.indexed.nodup⟩, fun id hl => ?_⟩
  have based := h.based id hl
  exact ⟨based.origin_eq, based.references, based.read, based.changed_le,
    Nat.le_succ_of_le based.verified_le⟩

/-- No cell is current right after the revision has gone up. -/
theorem Based.not_current_advance (h : w.Based id) : ¬ w.graph.advance.Current id := by
  intro hc
  have le : (w.graph.cell id).verifiedAt ≤ w.graph.revision := h.verified_le
  have eq : (w.graph.cell id).verifiedAt = w.graph.revision + 1 := hc.2
  rw [eq] at le
  exact absurd le (Nat.not_succ_le_self _)

/-! ### New cells -/

/-- The world after a key gets a cell, which has the origin of the key. -/
def grow (w : World) (key : CellKey CellId) (id : CellId) (g : Graph) : World :=
  ⟨g, fun j => if j = id then w.originOf key else w.origin j⟩

section
variable {g : Graph} (ha : w.graph.Allocates key id g)
include ha

theorem grow_self : (w.grow key id g).graph.cell id = { key } :=
  (ha.cell_eq id).trans (if_pos rfl)

theorem origin_grow {j : CellId} (hj : w.graph.Live j) :
    (w.grow key id g).origin j = w.origin j := by
  have hne : j ≠ id := fun he => ha.unused (he ▸ hj)
  exact if_neg hne

theorem live_grow (hv : key.isVacant = false) (j : CellId) :
    g.Live j ↔ j = id ∨ w.graph.Live j := by
  unfold Graph.Live
  rw [ha.cell_eq]
  split <;> simp [*]

theorem Grounded.grow (h : w.Grounded) (hv : key.isVacant = false)
    (hr : ∀ d ∈ key.references, w.graph.Live d) : (w.grow key id g).Grounded := by
  refine ⟨ha.indexed h.indexed hv, fun j hj => ?_⟩
  rcases (live_grow ha hv j).mp hj with rfl | hl
  · have self := grow_self ha
    refine ⟨?_, ?_, ?_, self ▸ Nat.le_refl 0, self ▸ Nat.zero_le _⟩ <;> rw [self]
    · exact (if_pos rfl).trans (originOf_congr fun d hd => origin_grow ha (hr d hd)).symm
    · exact fun d hd => (live_grow ha hv d).mpr (.inr (hr d hd))
    · simp
  · have based := h.based j hl
    have live := based.live_successors
    exact based.transfer (ha.cell_of_live hl) ha.revision (origin_grow ha hl)
      (fun d hd => (live_grow ha hv d).mpr (.inr (live d hd))) fun d hd =>
        origin_grow ha (live d hd)

end

/-! ### Sweeping -/

theorem Grounded.sweep (h : w.Grounded) (roots : List CellId) :
    World.Grounded { w with graph := w.graph.sweep roots } := by
  have released := h.indexed.released roots
  refine ⟨released.indexed, fun j hj => ?_⟩
  obtain ⟨hl, hr⟩ := (Graph.live_sweep h.indexed).mp hj
  have based := h.based j hl
  refine based.transfer (Graph.cell_sweep fun _ => hr) released.revision rfl (fun d hd => ?_)
    fun _ _ => rfl
  exact (Graph.live_sweep h.indexed).mpr ⟨based.live_successors d hd, hr.successor hd⟩

end World

end Recalc
