import Recalc.Proofs.Graph.Index
import Recalc.Graph.Sweep

/-! Marking and releasing. What is marked is closed under all that cells need, and only cells that
are not marked are released. -/
namespace Recalc

namespace Graph

/-- A cell that is marked. -/
def Marked (marked : Array Bool) (id : CellId) : Prop := marked.getD id false = true

theorem marked_set {marked : Array Bool} {id : CellId} (h : id < marked.size) (j : CellId) :
    Marked (marked.set id true h) j ↔ j = id ∨ Marked marked j := by
  unfold Marked
  rw [Array.getD_eq_getD_getElem?, Array.getD_eq_getD_getElem?, Array.getElem?_set]
  by_cases hj : id = j
  · simp [hj]
  · simp [hj, Ne.symm hj]

/-- Everything that a marked cell needs is marked, or is still on a stack. -/
def Closed (g : Graph) (marked : Array Bool) (stack : List CellId) : Prop :=
  ∀ id, Marked marked id → ∀ d ∈ g.successors id, d < marked.size → Marked marked d ∨ d ∈ stack

/-- A cell that is marked or does not exist need not be on the stack. -/
private theorem Closed.skip {g : Graph} {marked : Array Bool} {stack : List CellId} {id : CellId}
    (h : g.Closed marked (id :: stack)) (hid : id < marked.size → Marked marked id) :
    g.Closed marked stack := by
  intro j hj d hd hlt
  rcases h j hj d hd hlt with hd | hd
  · exact .inl hd
  · rcases List.mem_cons.mp hd with rfl | hd
    · exact .inl (hid hlt)
    · exact .inr hd

theorem mark_spec (g : Graph) (marked : Array Bool) (stack : List CellId)
    (h : g.Closed marked stack) :
    (g.mark marked stack).size = marked.size ∧ g.Closed (g.mark marked stack) [] ∧
      ∀ id, Marked marked id ∨ id ∈ stack ∧ id < marked.size → Marked (g.mark marked stack) id := by
  have skip {marked : Array Bool} {stack : List CellId} {id j : CellId}
      (hid : id < marked.size → Marked marked id)
      (hj : Marked marked j ∨ j ∈ id :: stack ∧ j < marked.size) :
      Marked marked j ∨ j ∈ stack ∧ j < marked.size := by
    rcases hj with hj | ⟨hj, hlt⟩
    · exact .inl hj
    · rcases List.mem_cons.mp hj with rfl | hj
      · exact .inl (hid hlt)
      · exact .inr ⟨hj, hlt⟩
  fun_induction mark g marked stack with
  | case1 marked => exact ⟨rfl, h, by simp⟩
  | case2 marked id stack hid hm ih =>
    have closed : g.Closed (marked.set id true hid) (g.successors id ++ stack) := by
      intro j hj d hd hlt
      rw [marked_set]
      rcases (marked_set hid j).mp hj with rfl | hj
      · exact .inr (List.mem_append_left _ hd)
      · rcases h j hj d hd (by simpa using hlt) with hd | hd
        · exact .inl (.inr hd)
        · rcases List.mem_cons.mp hd with rfl | hd
          · exact .inl (.inl rfl)
          · exact .inr (List.mem_append_right _ hd)
    obtain ⟨hsize, hclosed, hmarks⟩ := ih closed
    refine ⟨by simpa using hsize, hclosed, fun j hj => hmarks j ?_⟩
    rw [marked_set]
    rcases hj with hj | ⟨hj, hlt⟩
    · exact .inl (.inr hj)
    · rcases List.mem_cons.mp hj with rfl | hj
      · exact .inl (.inl rfl)
      · exact .inr ⟨List.mem_append_right _ hj, by simpa using hlt⟩
  | case3 marked id stack hid hm ih =>
    have hmarked : Marked marked id := by
      simpa [Marked, Array.getD_eq_getD_getElem?, hid] using hm
    obtain ⟨hsize, hclosed, hmarks⟩ := ih (h.skip fun _ => hmarked)
    exact ⟨hsize, hclosed, fun j hj => hmarks j (skip (fun _ => hmarked) hj)⟩
  | case4 marked id stack hid ih =>
    obtain ⟨hsize, hclosed, hmarks⟩ := ih (h.skip fun hlt => absurd hlt hid)
    exact ⟨hsize, hclosed, fun j hj => hmarks j (skip (fun hlt => absurd hlt hid) hj)⟩

/-! ### Releasing cells -/

/-- What releasing some unmarked cells changes. -/
structure Released (marked : Array Bool) (ids : List CellId) (g g' : Graph) : Prop where
  indexed : g'.Indexed
  revision : g'.revision = g.revision
  cell_eq : ∀ j, Marked marked j → g'.cell j = g.cell j
  live : ∀ j, g'.Live j → g.Live j
  gone : ∀ j ∈ ids, ¬ Marked marked j → ¬ g'.Live j

private theorem drop_released {marked : Array Bool} {g : Graph} (h : g.Indexed)
    (hm : Marked marked modelCell) {id : CellId} (hl : g.Live id) (hid : ¬ Marked marked id) :
    Released marked [id] g (g.drop id) := by
  have cell_eq (j : CellId) : (g.drop id).cell j = if j = id then default else g.cell j :=
    cell_setCell hl.lt default j
  have live_iff (j : CellId) : (g.drop id).Live j ↔ j ≠ id ∧ g.Live j := by
    unfold Live
    rw [cell_eq]
    by_cases hj : j = id
    · simp [hj, CellKey.isVacant, default]
    · simp [hj]
  have find_eq (key : CellKey CellId) :
      (g.drop id).find? key = if (g.cell id).key == key then none else g.find? key :=
    Table.find?_erase g.index (g.cell id).key key
  have other {j : CellId} (hj : j ≠ id) : (g.drop id).cell j = g.cell j := by
    rw [cell_eq, if_neg hj]
  have unmarked {j : CellId} (hj : Marked marked j) : j ≠ id := fun he => hid (he ▸ hj)
  refine ⟨⟨?_, fun j hj => ?_, fun key j hj => ?_, ?_, ?_, ?_⟩, rfl,
    fun j hj => other (unmarked hj), fun j hj => ((live_iff j).mp hj).2, ?_⟩
  · rw [other (unmarked hm)]
    exact h.model
  · obtain ⟨hne, hlj⟩ := (live_iff j).mp hj
    rw [other hne, find_eq, if_neg, h.find j hlj]
    intro hk
    exact hne (Option.some.inj ((h.find j hlj).symm.trans (h.find_eq hl hk)))
  · rw [find_eq] at hj
    split at hj
    · cases hj
    · rename_i hk
      obtain ⟨hlj, hkey⟩ := h.found key j hj
      have hne : j ≠ id := by
        rintro rfl
        exact hk hkey
      exact ⟨(live_iff j).mpr ⟨hne, hlj⟩, by rw [other hne]; exact hkey⟩
  · have hsize : (g.drop id).cells.size = g.cells.size := by simp [drop, putCell]
    rw [hsize]
    exact List.forall_mem_cons.mpr ⟨hl.lt, h.free_lt⟩
  · intro j hj hlj
    obtain ⟨hne, hlj⟩ := (live_iff j).mp hlj
    rcases List.mem_cons.mp hj with rfl | hj
    · exact hne rfl
    · exact h.not_live j hj hlj
  · exact List.nodup_cons.mpr ⟨fun hmem => h.not_live id hmem hl, h.nodup⟩
  · intro j hj _ hlj
    exact ((live_iff j).mp hlj).1 (List.mem_singleton.mp hj)

private theorem release_released {marked : Array Bool} {g : Graph} (h : g.Indexed)
    (hm : Marked marked modelCell) (id : CellId) :
    Released marked [id] g (release marked g id) := by
  unfold release
  split
  · rename_i hid
    refine ⟨h, rfl, fun _ _ => rfl, fun _ hj => hj, fun j hj hn hl => ?_⟩
    rw [← List.mem_singleton.mp hj] at hid
    rcases Bool.or_eq_true_iff.mp hid with hid | hid
    · exact hn hid
    · rw [Live, hid] at hl
      cases hl
  · rename_i hid
    simp only [Bool.or_eq_true, not_or, Bool.not_eq_true] at hid
    exact drop_released h hm hid.2 (by simp [Marked, hid.1])

theorem foldl_released {marked : Array Bool} (hm : Marked marked modelCell)
    (ids : List CellId) {g : Graph} (h : g.Indexed) :
    Released marked ids g (ids.foldl (release marked) g) := by
  induction ids generalizing g with
  | nil => exact ⟨h, rfl, fun _ _ => rfl, fun _ hj => hj, by simp⟩
  | cons id rest ih =>
    have first := release_released h hm id
    have others := ih first.indexed
    refine ⟨others.indexed, others.revision.trans first.revision,
      fun j hj => (others.cell_eq j hj).trans (first.cell_eq j hj),
      fun j hj => first.live j (others.live j hj), fun j hj hn hl => ?_⟩
    rcases List.mem_cons.mp hj with rfl | hj
    · exact first.gone j List.mem_cons_self hn (others.live j hl)
    · exact others.gone j hj hn hl

end Graph

end Recalc
