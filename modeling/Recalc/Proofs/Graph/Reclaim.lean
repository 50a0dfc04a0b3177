import Mathlib.Logic.Relation
import Recalc.Proofs.Graph.Sweep

/-! Sweeping frees exactly the cells that cannot be reached from the roots or the document, and
leaves all others as they are. What it frees goes on the free list. -/
namespace Recalc.Graph

/-- A cell that can be reached from the roots or the document, through the cells that cells have read
and those that their keys name. -/
def Reaches (g : Graph) (roots : List CellId) (id : CellId) : Prop :=
  ∃ root ∈ modelCell :: roots, Relation.ReflTransGen (fun a b => b ∈ g.successors a) root id

variable {g : Graph} {roots : List CellId} {id : CellId}

theorem reaches_model (g : Graph) (roots : List CellId) : g.Reaches roots modelCell :=
  ⟨modelCell, List.mem_cons_self, .refl⟩

theorem reaches_root (h : id ∈ roots) : g.Reaches roots id :=
  ⟨id, List.mem_cons_of_mem _ h, .refl⟩

theorem Reaches.successor (h : g.Reaches roots id) {d : CellId} (hd : d ∈ g.successors id) :
    g.Reaches roots d := by
  obtain ⟨root, hr, path⟩ := h
  exact ⟨root, hr, path.tail hd⟩

/-! ### Marking -/

/-- Only reachable cells get marked. -/
theorem reaches_of_marked {marked : Array Bool} {stack : List CellId}
    (hm : ∀ j, Marked marked j → g.Reaches roots j) (hs : ∀ j ∈ stack, g.Reaches roots j)
    (h : Marked (g.mark marked stack) id) : g.Reaches roots id := by
  fun_induction mark g marked stack with
  | case1 marked => exact hm id h
  | case2 marked top stack htop _ ih =>
    have first : g.Reaches roots top := hs top List.mem_cons_self
    refine ih (fun j hj => ?_) (fun j hj => ?_) h
    · rcases (marked_set htop j).mp hj with rfl | hj
      · exact first
      · exact hm j hj
    · rcases List.mem_append.mp hj with hj | hj
      · exact first.successor hj
      · exact hs j (List.mem_cons_of_mem _ hj)
  | case3 marked top stack _ _ ih => exact ih hm (fun j hj => hs j (List.mem_cons_of_mem _ hj)) h
  | case4 marked top stack _ ih => exact ih hm (fun j hj => hs j (List.mem_cons_of_mem _ hj)) h

private theorem successors_of_size_le (h : g.cells.size ≤ id) : g.successors id = [] := by
  have cell : g.cell id = default := by
    rw [Graph.cell, Array.getD_eq_getD_getElem?, Array.getElem?_eq_none h]
    rfl
  rw [successors, cell]
  rfl

/-- The marks of a sweep. -/
def marks (g : Graph) (roots : List CellId) : Array Bool :=
  g.mark (Array.replicate g.cells.size false) (modelCell :: roots)

/-- A sweep marks exactly the cells that can be reached. -/
theorem marked_iff_reaches (h : id < g.cells.size) :
    Marked (g.marks roots) id ↔ g.Reaches roots id := by
  have unmarked (j : CellId) : ¬ Marked (Array.replicate g.cells.size false) j := by
    intro hj
    rw [Marked, Array.getD_eq_getD_getElem?, Array.getElem?_replicate] at hj
    split at hj <;> cases hj
  obtain ⟨hsize, hclosed, hroots⟩ := mark_spec g _ (modelCell :: roots)
    fun j hj => absurd hj (unmarked j)
  constructor
  · refine reaches_of_marked (fun j hj => absurd hj (unmarked j)) fun j hj => ?_
    exact ⟨j, hj, .refl⟩
  · rintro ⟨root, hr, path⟩
    induction path with
    | refl => exact hroots root (.inr ⟨hr, by simpa using h⟩)
    | @tail a b _ hb ih =>
      -- A cell that has successors exists, so it is marked, and its successors with it.
      have ha : a < g.cells.size := by
        by_contra hn
        rw [successors_of_size_le (Nat.le_of_not_lt hn)] at hb
        cases hb
      exact (hclosed a (ih ha) b hb (by rw [hsize]; simpa using h)).resolve_right (by simp)

/-! ### Releasing -/

/-- A cell stays as it is, unless it was in use and is not marked. -/
theorem cell_foldl_release (marked : Array Bool) (ids : List CellId) (g : Graph) (j : CellId) :
    (ids.foldl (release marked) g).cell j = g.cell j ∨
      (ids.foldl (release marked) g).cell j = default ∧ g.Live j ∧ ¬ Marked marked j := by
  induction ids generalizing g with
  | nil => exact .inl rfl
  | cons id rest ih =>
    have first : (release marked g id).cell j = g.cell j ∨
        (release marked g id).cell j = default ∧ g.Live j ∧ ¬ Marked marked j := by
      unfold release
      split
      · exact .inl rfl
      · rename_i hid
        simp only [Bool.or_eq_true, not_or, Bool.not_eq_true] at hid
        have hl : g.Live id := hid.2
        rw [show (g.drop id).cell j = if j = id then default else g.cell j from
          cell_setCell hl.lt default j]
        by_cases hj : j = id
        · subst hj
          exact .inr ⟨if_pos rfl, hl, by simp [Marked, hid.1]⟩
        · exact .inl (if_neg hj)
    rw [List.foldl_cons]
    rcases ih (release marked g id) with same | ⟨gone, hl, hm⟩
    · rw [same]
      exact first
    · rcases first with same | ⟨empty, -, -⟩
      · refine .inr ⟨gone, ?_, hm⟩
        rw [Live, ← same]
        exact hl
      · rw [Live, empty] at hl
        cases hl

/-- Every cell that is not in use can be used again. -/
def Reusable (g : Graph) : Prop := ∀ id < g.cells.size, ¬ g.Live id → id ∈ g.free

private theorem Reusable.foldl_release {marked : Array Bool} (ids : List CellId) {g : Graph}
    (h : g.Reusable) : (ids.foldl (release marked) g).Reusable := by
  induction ids generalizing g with
  | nil => exact h
  | cons id rest ih =>
    apply ih
    unfold release
    split
    · exact h
    · rename_i hid
      simp only [Bool.or_eq_true, not_or, Bool.not_eq_true] at hid
      have hl : g.Live id := hid.2
      intro j hj hn
      change j ∈ id :: g.free
      by_cases he : j = id
      · exact he ▸ List.mem_cons_self
      · refine List.mem_cons_of_mem _ (h j (by simpa [drop, putCell] using hj) fun hlj => hn ?_)
        rw [Live, show (g.drop id).cell j = if j = id then default else g.cell j from
          cell_setCell hl.lt default j, if_neg he]
        exact hlj

/-! ### Sweeping -/

theorem Indexed.released (h : g.Indexed) (roots : List CellId) :
    Released (g.marks roots) (List.range g.cells.size) g (g.sweep roots) := by
  have marked := (marked_iff_reaches h.live_model.lt).mpr (reaches_model g roots)
  obtain ⟨indexed, revision, cell_eq, live, gone⟩ :=
    foldl_released marked (List.range g.cells.size) h
  exact ⟨⟨indexed.model, indexed.find, indexed.found, indexed.free_lt, indexed.not_live,
    indexed.nodup⟩, revision, cell_eq, live, gone⟩

/-- A cell that is reachable or was free before stays as it is. -/
theorem cell_sweep (h : g.Live id → g.Reaches roots id) : (g.sweep roots).cell id = g.cell id := by
  rcases cell_foldl_release (g.marks roots) (List.range g.cells.size) g id with
    same | ⟨-, hl, hm⟩
  · exact same
  · exact absurd ((marked_iff_reaches hl.lt).mpr (h hl)) hm

/-- The cells in use after a sweep are those that can be reached. -/
theorem live_sweep (h : g.Indexed) : (g.sweep roots).Live id ↔ g.Live id ∧ g.Reaches roots id := by
  have released := h.released roots
  constructor
  · intro hs
    have hid := released.live id hs
    refine ⟨hid, (marked_iff_reaches hid.lt).mp ?_⟩
    by_contra hn
    exact released.gone id (List.mem_range.mpr hid.lt) hn hs
  · rintro ⟨hid, hr⟩
    rw [Live, cell_sweep fun _ => hr]
    exact hid

/-- A cell that a sweep frees is empty. -/
theorem cell_sweep_of_freed (h : g.Indexed) (hl : g.Live id) (hr : ¬ g.Reaches roots id) :
    (g.sweep roots).cell id = default := by
  rcases cell_foldl_release (g.marks roots) (List.range g.cells.size) g id with
    same | ⟨gone, -, -⟩
  · have hs : (g.sweep roots).Live id := by
      rw [Live, show (g.sweep roots).cell id = g.cell id from same]
      exact hl
    exact absurd ((live_sweep h).mp hs).2 hr
  · exact gone

theorem Reusable.sweep (h : g.Reusable) (roots : List CellId) : (g.sweep roots).Reusable :=
  Reusable.foldl_release (List.range g.cells.size) h

end Recalc.Graph
