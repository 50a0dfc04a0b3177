import Recalc.Proofs.Graph.Invariant

/-! How a graph grows within one recalculation: cells in use stay what they are, and current cells
keep their contents, as do cells of large enough weight. -/
namespace Recalc

/-! ### Steps of reading -/

namespace Graph
variable {verify : CellId → CellM Unit} {id : CellId} {s t : State} {e : EvalError}

theorem pull_run_error (h : (verify id).run s = (.error e, t)) :
    (pull verify id).run s = (.error e, t) := run_bind_error h

theorem pull_run_ok (h : (verify id).run s = (.ok (), t)) :
    (pull verify id).run s = (.ok (t.graph.value id), { t with reads := id :: t.reads }) :=
  run_bind_ok h

theorem anyChanged_run_error (since : Revision) (rest : List CellId)
    (h : (verify id).run s = (.error e, t)) :
    (anyChanged verify since (id :: rest)).run s = (.error e, t) := run_bind_error h

theorem anyChanged_run_ok (since : Revision) (rest : List CellId)
    (h : (verify id).run s = (.ok (), t)) :
    (anyChanged verify since (id :: rest)).run s =
      (if since < (t.graph.cell id).changedAt then pure true
      else anyChanged verify since rest : CellM Bool).run t := run_bind_ok h

variable {compute : CellKey CellId → CellM Value}

theorem recompute_run_error
    (h : (compute (s.graph.cell id).key).run { s with reads := [] } = (.error e, t)) :
    (recompute compute id).run s = (.error e, { t with reads := s.reads }) := by
  unfold recompute
  simp only [ExceptT.run_mk, h]

theorem recompute_run_ok {v : Value}
    (h : (compute (s.graph.cell id).key).run { s with reads := [] } = (.ok v, t)) :
    (recompute compute id).run s = (.ok (), { t with
      graph := t.graph.store id v t.reads.reverse
      reads := s.reads
      computed := id :: t.computed }) := by
  unfold recompute
  simp only [ExceptT.run_mk, h]

end Graph

/-! ### Growing -/

namespace World

/-- A later state of a recalculation, in which no cell from some weight on has changed. -/
structure Later (b : Nat) (w w' : World) : Prop where
  revision : w'.graph.revision = w.graph.revision
  live : ∀ id, w.graph.Live id → w'.graph.Live id
  key : ∀ id, w.graph.Live id → (w'.graph.cell id).key = (w.graph.cell id).key
  origin : ∀ id, w.graph.Live id → w'.origin id = w.origin id
  kept : ∀ id, w.graph.Live id → w.graph.Current id ∨ b ≤ (w.origin id).weight →
    w'.graph.cell id = w.graph.cell id

variable {H : History} {b c : Nat} {w w' w'' : World}

theorem Later.refl (b : Nat) (w : World) : Later b w w :=
  ⟨rfl, fun _ h => h, fun _ _ => rfl, fun _ _ => rfl, fun _ _ _ => rfl⟩

theorem Later.current (h : Later b w w') {id : CellId} (hl : w.graph.Live id)
    (hc : w.graph.Current id) : w'.graph.Current id := by
  unfold Graph.Current
  rw [h.kept id hl (.inl hc), h.revision]
  exact hc

/-- A cell from the bound on is current only if it was. -/
theorem Later.not_current (h : Later b w w') {id : CellId} (hl : w.graph.Live id)
    (hb : b ≤ (w.origin id).weight) (hc : ¬ w.graph.Current id) : ¬ w'.graph.Current id := by
  unfold Graph.Current
  rw [h.kept id hl (.inr hb), h.revision]
  exact hc

theorem Later.trans (h : Later b w w') (k : Later b w' w'') : Later b w w'' where
  revision := k.revision.trans h.revision
  live id hl := k.live id (h.live id hl)
  key id hl := (k.key id (h.live id hl)).trans (h.key id hl)
  origin id hl := (k.origin id (h.live id hl)).trans (h.origin id hl)
  kept id hl hc := by
    refine (k.kept id (h.live id hl) ?_).trans (h.kept id hl hc)
    rcases hc with hc | hb
    · exact .inl (h.current hl hc)
    · exact .inr ((h.origin id hl).symm ▸ hb)

theorem Later.mono (h : Later b w w') (hb : b ≤ c) : Later c w w' :=
  { h with kept := fun id hl hc => h.kept id hl (hc.imp_right (Nat.le_trans hb)) }

/-- Cells in use stay in use, and what holds of their origins goes on to hold. -/
theorem Later.forall_live (h : Later b w w') {P : Origin → Prop} {ids : List CellId}
    (hp : ∀ id ∈ ids, w.graph.Live id ∧ P (w.origin id)) :
    ∀ id ∈ ids, w'.graph.Live id ∧ P (w'.origin id) := by
  intro id hid
  obtain ⟨live, holds⟩ := hp id hid
  refine ⟨h.live id live, ?_⟩
  rw [h.origin id live]
  exact holds

/-- A cell that is not current may change, if it is light enough. -/
theorem later_setCell {id : CellId} (hl : w.graph.Live id) {cell : Cell}
    (hk : cell.key = (w.graph.cell id).key) (hc : ¬ w.graph.Current id)
    (hb : (w.origin id).weight < b) : Later b w (w.setCell id cell) := by
  have cell_eq (j : CellId) : (w.setCell id cell).graph.cell j =
      if j = id then cell else w.graph.cell j := Graph.cell_setCell hl.lt cell j
  refine ⟨rfl, fun j hj => (Graph.live_setCell hl.lt hk j).mpr hj, fun j _ => ?_, fun _ _ => rfl,
    fun j _ hj => ?_⟩
  · rw [cell_eq]
    split
    · subst j
      exact hk
    · rfl
  · rw [cell_eq, if_neg]
    rintro rfl
    rcases hj with hj | hj
    · exact hc hj
    · exact absurd hj (Nat.not_le.mpr hb)

/-- A new cell changes no cell in use. -/
theorem later_grow {key : CellKey CellId} {id : CellId} {g : Graph} (b : Nat)
    (ha : w.graph.Allocates key id g) : Later b w (w.grow key id g) := by
  refine ⟨ha.revision, fun j hj => ?_, fun j hj => ?_, fun j hj => origin_grow ha hj,
    fun j hj _ => ha.cell_of_live hj⟩
  · rw [Graph.Live, show (w.grow key id g).graph.cell j = _ from ha.cell_of_live hj]
    exact hj
  · exact congrArg Cell.key (ha.cell_of_live hj)

private theorem Valid.grow (h : w.Valid H) {key : CellKey CellId} {id : CellId} {g : Graph}
    (ha : w.graph.Allocates key id g) (hv : key.isVacant = false)
    (hw : key.Within w.graph.Live H.domain) : (w.grow key id g).Valid H := by
  obtain ⟨references, constants⟩ := CellKey.within_iff.mp hw
  have grounded := h.grounded.grow ha hv references
  refine ⟨grounded.indexed, fun j hj => ?_⟩
  have based := grounded.based j hj
  rcases (live_grow ha hv j).mp hj with rfl | hl
  · have self := grow_self ha
    refine ⟨based, ?_, ?_, ?_, ?_⟩
    · rw [self]
      exact constants
    · rw [show (w.grow key j g).origin j = w.originOf key from if_pos rfl, originOf_eq hw]
      exact Origin.in_of.mpr
        (CellKey.within_map.mpr (hw.mono (fun i hi => (h.fits i hi).origin_in) fun _ h => h))
    · rw [self]
      exact fun _ => rfl
    · rw [self]
      intro h
      cases h
  · have hf := h.fits j hl
    exact hf.transfer based (ha.cell_of_live hl) (origin_grow ha hl)
      (fun d hd => origin_grow ha (hf.read d hd)) fun d hd r hs =>
        hs.transfer (ha.cell_of_live (hf.read d hd)) (origin_grow ha (hf.read d hd))

/-- Every key over cells in use has a cell, with the origin that the key describes. -/
theorem Valid.intern (h : w.Valid H) {key : CellKey CellId} (hv : key.isVacant = false)
    (hw : key.Within w.graph.Live H.domain) (b : Nat) :
    ∃ origin, (World.mk (w.graph.intern key).2 origin).Valid H ∧
      Later b w ⟨(w.graph.intern key).2, origin⟩ ∧
      (w.graph.intern key).2.Live (w.graph.intern key).1 ∧
      origin (w.graph.intern key).1 = .of (key.map w.origin) := by
  rw [← originOf_eq hw]
  rcases Graph.intern_cases h.indexed key with ⟨id, hf, he⟩ | ⟨id, g, he, ha⟩
  · rw [he]
    exact ⟨w.origin, h, Later.refl b w, h.grounded.found hf⟩
  · rw [he]
    exact ⟨_, h.grow ha hv hw, later_grow b ha, (live_grow ha hv id).mpr (.inl rfl), if_pos rfl⟩

end World

end Recalc
