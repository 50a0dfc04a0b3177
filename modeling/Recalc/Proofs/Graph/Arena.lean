import Recalc.Proofs.Graph.Renewal

/-! How cells are kept, in every state that recalculations lead to. The index finds exactly the cells
in use by their keys, the free list has exactly the others, cells in use name only cells in use, and
sweeping frees exactly what cannot be reached. -/
namespace Recalc.Graph

/-- The cells of a graph are kept as they should be. -/
structure Sound (g : Graph) : Prop where
  model : (g.cell modelCell).key = .model
  find_iff : ∀ key id, g.find? key = some id ↔ g.Live id ∧ ((g.cell id).key == key) = true
  mem_free : ∀ id, id ∈ g.free ↔ id < g.cells.size ∧ ¬ g.Live id
  nodup : g.free.Nodup
  deps : ∀ id, g.Live id → ∀ d ∈ (g.cell id).deps, g.Live d
  references : ∀ id, g.Live id → ∀ d ∈ (g.cell id).key.references, g.Live d
  changed_le : ∀ id, (g.cell id).changedAt ≤ (g.cell id).verifiedAt
  verified_le : ∀ id, (g.cell id).verifiedAt ≤ g.revision

/-- Sweeping from some roots frees exactly the cells in use that cannot be reached, and leaves every
other cell as it is. -/
structure Sweeps (g : Graph) (roots : List CellId) : Prop where
  freed : ∀ id, g.Live id ∧ ¬ (g.sweep roots).Live id ↔ g.Live id ∧ ¬ g.Reaches roots id
  kept : ∀ id, ¬ (g.Live id ∧ ¬ g.Reaches roots id) → (g.sweep roots).cell id = g.cell id

private theorem sound_of_layout {p : Program} {w : World} (h : w.Layout p) : w.graph.Sound where
  model := h.indexed.model
  find_iff key id := by
    constructor
    · exact h.indexed.found key id
    · rintro ⟨live, same⟩
      exact h.indexed.find_eq live same
  mem_free id := by
    constructor
    · exact fun hm => ⟨h.indexed.free_lt id hm, h.indexed.not_live id hm⟩
    · exact fun hn => h.reusable id hn.1 hn.2
  nodup := h.indexed.nodup
  deps id live d hd := ((h.placed id live).deps d hd).1
  references id live := (h.placed id live).references
  changed_le id := by
    by_cases live : w.graph.Live id
    · exact (h.placed id live).changed_le
    · rw [h.vacant id live]
      exact Nat.le_refl _
  verified_le id := by
    by_cases live : w.graph.Live id
    · exact (h.placed id live).verified_le
    · rw [h.vacant id live]
      exact Nat.zero_le _

private theorem sweeps_of_indexed {g : Graph} (h : g.Indexed) (roots : List CellId) :
    g.Sweeps roots where
  freed id := by
    refine and_congr_right fun live => not_congr ?_
    rw [live_sweep h]
    exact and_iff_right live
  kept id hid := by
    apply cell_sweep
    intro live
    by_contra hn
    exact hid ⟨live, hn⟩

/-- The graphs that recalculations lead to: those after some recalculations, successful or not, and
those that the next one ends with before it sweeps. -/
inductive Arises (p : Program) (lib : Library) : Graph → Prop
  | after (documents : List Value) : Arises p lib (after p lib documents)
  | next (documents : List Value) (model : Value) :
    Arises p lib (readOutputs p lib model (after p lib documents)).2.graph

theorem layout_of_arises {L : Linkage} {g : Graph} (h : Arises L.program L.library g) :
    ∃ origin, World.Layout L.program ⟨g, origin⟩ := by
  cases h with
  | after documents => exact L.layout_after documents
  | next documents model =>
    obtain ⟨origin, layout⟩ := L.layout_after documents
    obtain ⟨origin', layout', -, -⟩ := Linkage.readOutputs_keeps layout model
    exact ⟨origin', layout'⟩

variable {m : Model} {backend : Backend} {p : Program} {lib : Library} {g : Graph}

/-- In every state that recalculations lead to, cells are kept as they should be, and sweeping from
any roots frees exactly the cells that cannot be reached, leaves all others as they are, and leads to
such a state again. -/
theorem arises_sound (hc : Program.compile m backend = .ok p) (hg : Arises p lib g) :
    g.Sound ∧ ∀ roots, g.Sweeps roots ∧ (g.sweep roots).Sound := by
  let L := Linkage.any (Program.linked_of_compile hc) lib
  obtain ⟨origin, layout⟩ := layout_of_arises (L := L) hg
  refine ⟨sound_of_layout layout, fun roots => ⟨sweeps_of_indexed layout.indexed roots, ?_⟩⟩
  exact sound_of_layout (layout.sweep roots)

/-- After a recalculation that succeeds and one that fails. -/
theorem arises_sound_marking :
    (after markingProgram markLibrary markedDocuments).Sound ∧
      ∀ roots, (after markingProgram markLibrary markedDocuments).Sweeps roots ∧
        ((after markingProgram markLibrary markedDocuments).sweep roots).Sound :=
  arises_sound compile_marking (.after markedDocuments)

end Recalc.Graph
