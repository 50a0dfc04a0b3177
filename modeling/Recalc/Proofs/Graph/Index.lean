import Recalc.Proofs.Origin.Basic
import Recalc.Proofs.Program.Domain

/-! The index of a graph. Equality of keys is equality of canonical forms, so a table over keys
finds exactly what was added and not removed, and every cell in use is the one found by its key. -/
namespace Recalc

/-! ### Tables -/

theorem Table.find?_congr {κ α : Type} [BEq κ] [Coded κ] [EquivBEq κ] (t : Table κ α)
    {key other : κ} (h : (key == other) = true) : t.find? key = t.find? other := by
  unfold find? bucket
  rw [Coded.code_eq key other h]
  simp only [BEq.congr_right h]

/-- Removal takes away all that is found by equal keys, and nothing else. -/
theorem Table.find?_erase {κ α : Type} [BEq κ] [Coded κ] [EquivBEq κ] (t : Table κ α)
    (key other : κ) :
    (t.erase key).find? other = if key == other then none else t.find? other := by
  have bucket_erase : (t.erase key).bucket other =
      if Coded.code key = Coded.code other then (t.bucket key).filter fun e => !(e.1 == key)
      else t.bucket other := by
    simp [bucket, erase, Std.TreeMap.getD_insert]
  unfold find?
  rw [bucket_erase]
  by_cases h : (key == other) = true
  · rw [if_pos (Coded.code_eq key other h), if_pos h, Option.map_eq_none_iff,
      List.find?_eq_none]
    intro e he
    have hk := (List.mem_filter.mp he).2
    simp only [Bool.not_eq_true', Bool.not_eq_true] at hk ⊢
    rw [← hk, BEq.congr_right h]
  · rw [if_neg h]
    split
    · rename_i hc
      have same : t.bucket key = t.bucket other := by unfold bucket; rw [hc]
      rw [same, List.find?_filter]
      congr 2
      funext e
      by_cases he : (e.1 == other) = true
      · have : (e.1 == key) = false := by
          rw [← Bool.not_eq_true]
          exact fun hk => h (BEq.trans (BEq.symm hk) he)
        simp [he, this]
      · simp [he]
    · rfl

/-! ### Equality of keys -/

section
variable {ι : Type}

def Handle.canon : Handle ι → Handle ι
  | cell id => cell id
  | const v => const v.canon

def CellBinding.canon (b : CellBinding ι) : CellBinding ι :=
  ⟨b.val.canon, b.key.canon, b.context.map Handle.canon⟩

def CellEnv.canon (env : CellEnv ι) : CellEnv ι := List.map (fun e => (e.1, e.2.canon)) env

/-- The key with the canonical forms of its constants. -/
def CellKey.canon : CellKey ι → CellKey ι
  | model => model
  | node id env => node id (CellEnv.canon env)
  | slot source key => slot source key.canon
  | vacant => vacant

variable [BEq ι] [LawfulBEq ι]

private theorem Handle.beq_iff {a b : Handle ι} : (a == b) = true ↔ a.canon = b.canon := by
  cases a with
  | cell i =>
    cases b with
    | cell j =>
      change (i == j) = true ↔ _
      simp [canon]
    | const w => simp [canon, BEq.beq, instBEqHandle.beq]
  | const v =>
    cases b with
    | cell j => simp [canon, BEq.beq, instBEqHandle.beq]
    | const w =>
      change (v == w) = true ↔ _
      simp [canon, Value.beq_iff]

private theorem option_beq_iff {a b : Option (Handle ι)} :
    (a == b) = true ↔ a.map Handle.canon = b.map Handle.canon := by
  cases a <;> cases b <;> simp [Handle.beq_iff]

private theorem CellBinding.beq_iff {a b : CellBinding ι} :
    (a == b) = true ↔ a.canon = b.canon := by
  obtain ⟨v, k, c⟩ := a
  obtain ⟨w, l, d⟩ := b
  change (v == w && (k == l && c == d)) = true ↔ _
  simp only [Bool.and_eq_true, Handle.beq_iff, Value.beq_iff, option_beq_iff, canon, mk.injEq]

theorem CellEnv.beq_iff {a b : CellEnv ι} : (a == b) = true ↔ a.canon = b.canon := by
  induction a generalizing b with
  | nil => cases b <;> simp [canon]
  | cons e rest ih =>
    cases b with
    | nil => simp [canon]
    | cons f others =>
      change ((e.1 == f.1 && e.2 == f.2) && rest == others) = true ↔ _
      simp only [Bool.and_eq_true, CellBinding.beq_iff, ih]
      simp [canon]

/-- Keys are equal when their canonical forms are. -/
theorem CellKey.beq_iff {a b : CellKey ι} : (a == b) = true ↔ a.canon = b.canon := by
  cases a with
  | model => cases b <;> simp [canon, BEq.beq, instBEqCellKey.beq]
  | vacant => cases b <;> simp [canon, BEq.beq, instBEqCellKey.beq]
  | node i env =>
    cases b with
    | node j env' =>
      change (i == j && env == env') = true ↔ _
      rw [Bool.and_eq_true, CellEnv.beq_iff]
      simp [canon]
    | _ => simp [canon, BEq.beq, instBEqCellKey.beq]
  | slot s k =>
    cases b with
    | slot t l =>
      change (s == t && k == l) = true ↔ _
      simp [canon, Value.beq_iff]
    | _ => simp [canon, BEq.beq, instBEqCellKey.beq]

instance : EquivBEq (CellKey ι) where
  rfl := CellKey.beq_iff.mpr rfl
  symm h := CellKey.beq_iff.mpr (CellKey.beq_iff.mp h).symm
  trans h k := CellKey.beq_iff.mpr ((CellKey.beq_iff.mp h).trans (CellKey.beq_iff.mp k))

end

section
variable {ι : Type} {P : ι → Prop} {D : Value → Prop} (hc : ∀ v, D v → v.canon = v)
include hc

private theorem Handle.canon_of_within {h : Handle ι} (hw : h.Within P D) : h.canon = h := by
  cases h with
  | cell id => rfl
  | const v => exact congrArg Handle.const (hc v hw)

private theorem CellEnv.canon_of_within {env : CellEnv ι} (hw : env.Within P D) :
    env.canon = env := by
  refine (List.map_congr_left fun e he => ?_).trans (List.map_id env)
  obtain ⟨l, val, key, ctx⟩ := e
  have hb := hw _ he
  have context : ctx.map Handle.canon = ctx := by
    cases ctx with
    | none => rfl
    | some h => exact congrArg some (Handle.canon_of_within hc (hb.context h rfl))
  simp only [CellBinding.canon, id, context, hc key hb.key, Handle.canon_of_within hc hb.val]

theorem CellKey.canon_of_within {key : CellKey ι} (hw : key.Within P D) : key.canon = key := by
  cases key with
  | model => rfl
  | vacant => rfl
  | node id env => exact congrArg (CellKey.node id) (CellEnv.canon_of_within hc hw)
  | slot source key => exact congrArg (CellKey.slot source) (hc key hw.2)

end

/-! ### Cells in use -/

namespace Graph

/-- A cell in use. -/
def Live (g : Graph) (id : CellId) : Prop := (g.cell id).key.isVacant = false

theorem Live.lt {g : Graph} {id : CellId} (h : g.Live id) : id < g.cells.size := by
  by_contra hn
  have hd : g.cell id = default := by
    rw [cell, Array.getD_eq_getD_getElem?, Array.getElem?_eq_none (Nat.le_of_not_lt hn)]
    rfl
  rw [Live, hd] at h
  cases h

theorem cell_setCell {g : Graph} {id : CellId} (h : id < g.cells.size) (c : Cell) (j : CellId) :
    (g.setCell id c).cell j = if j = id then c else g.cell j := by
  simp only [cell, setCell, putCell, Array.getD_eq_getD_getElem?, Array.getElem?_setIfInBounds, h]
  by_cases hj : j = id
  · simp [hj]
  · simp [hj, Ne.symm hj]

/-- Cells in use are found by their keys and no other cells are found, and the free cells are not in
use. -/
structure Indexed (g : Graph) : Prop where
  model : (g.cell modelCell).key = .model
  find : ∀ id, g.Live id → g.find? (g.cell id).key = some id
  found : ∀ key id, g.find? key = some id → g.Live id ∧ ((g.cell id).key == key) = true
  free_lt : ∀ id ∈ g.free, id < g.cells.size
  not_live : ∀ id ∈ g.free, ¬ g.Live id
  nodup : g.free.Nodup

theorem Indexed.live_model {g : Graph} (h : g.Indexed) : g.Live modelCell := by
  rw [Live, h.model]
  rfl

theorem Indexed.find_eq {g : Graph} (h : g.Indexed) {id : CellId} (hl : g.Live id)
    {key : CellKey CellId} (hk : ((g.cell id).key == key) = true) : g.find? key = some id := by
  rw [← h.find id hl]
  exact (Table.find?_congr _ hk).symm

/-- Only the cell of the document has its key. -/
theorem Indexed.eq_modelCell {g : Graph} (h : g.Indexed) {id : CellId} (hl : g.Live id)
    (hm : (g.cell id).key.isModel = true) : id = modelCell := by
  have hk : (g.cell id).key = .model := by
    cases hk : (g.cell id).key <;> simp [hk, CellKey.isModel] at hm ⊢
  have found := h.find id hl
  rw [hk, ← h.model, h.find _ h.live_model] at found
  exact (Option.some.inj found).symm

theorem indexed_empty : empty.Indexed := by
  have cell_empty (id : CellId) : (empty.cell id).key = if id = 0 then .model else .vacant := by
    cases id <;> simp [cell, empty, default]
  have find_empty (key : CellKey CellId) :
      empty.find? key = if CellKey.model == key then some modelCell else none := by
    rw [find?, empty, Table.find?_insert, Table.find?_empty]
  refine ⟨cell_empty 0, fun id h => ?_, fun key id h => ?_, by simp [empty], by simp [empty],
    by simp [empty]⟩
  · rw [Live, cell_empty] at h
    split at h
    · subst id
      rw [cell_empty, if_pos rfl, find_empty]
      rfl
    · cases h
  · rw [find_empty] at h
    split at h
    · cases h
      rw [Live, modelCell, cell_empty]
      exact ⟨rfl, ‹_›⟩
    · cases h

theorem live_setCell {g : Graph} {id : CellId} (h : id < g.cells.size) {c : Cell}
    (hk : c.key = (g.cell id).key) (j : CellId) : (g.setCell id c).Live j ↔ g.Live j := by
  unfold Live
  rw [cell_setCell h]
  split
  · subst j
    rw [hk]
  · rfl

/-- A cell can be replaced by one with its key. -/
theorem Indexed.setCell {g : Graph} (hg : g.Indexed) {id : CellId} (h : id < g.cells.size)
    {c : Cell} (hk : c.key = (g.cell id).key) : (g.setCell id c).Indexed := by
  have key_eq (j : CellId) : ((g.setCell id c).cell j).key = (g.cell j).key := by
    rw [cell_setCell h]
    split
    · subst j
      exact hk
    · rfl
  refine ⟨(key_eq _).trans hg.model, fun j hj => ?_, fun key j hj => ?_, fun j hj => ?_,
    fun j hj hl => ?_, hg.nodup⟩
  · rw [key_eq]
    exact hg.find j ((live_setCell h hk j).mp hj)
  · rw [live_setCell h hk, key_eq]
    exact hg.found key j hj
  · simpa [Graph.setCell, putCell] using hg.free_lt j hj
  · exact hg.not_live j hj ((live_setCell h hk j).mp hl)

/-- What a new cell changes. -/
structure Allocates (g : Graph) (key : CellKey CellId) (id : CellId) (g' : Graph) : Prop where
  absent : g.find? key = none
  unused : ¬ g.Live id
  cell_eq : ∀ j, g'.cell j = if j = id then { key } else g.cell j
  find_eq : ∀ other, g'.find? other = if key == other then some id else g.find? other
  revision : g'.revision = g.revision
  free_eq : ∀ j ∈ g'.free, j ∈ g.free ∧ j ≠ id
  nodup : g'.free.Nodup
  size_le : g.cells.size ≤ g'.cells.size

/-- A key has its cell already, or gets a new one. -/
theorem intern_cases {g : Graph} (h : g.Indexed) (key : CellKey CellId) :
    (∃ id, g.find? key = some id ∧ g.intern key = (id, g)) ∨
      ∃ id g', g.intern key = (id, g') ∧ Allocates g key id g' := by
  unfold intern
  cases hf : g.find? key with
  | some id => exact .inl ⟨id, rfl, rfl⟩
  | none =>
    right
    cases hfree : g.free with
    | nil =>
      refine ⟨_, _, rfl, ⟨hf, fun hl => absurd hl.lt (Nat.lt_irrefl _), fun j => ?_,
        fun other => ?_, rfl, ?_, ?_, by simp⟩⟩
      · simp only [cell, Array.getD_eq_getD_getElem?, Array.getElem?_push]
        split <;> rfl
      · exact Table.find?_insert _ _ _ _
      · simp [hfree]
      · simp
    | cons id rest =>
      have hnd : id ∉ rest ∧ rest.Nodup := List.nodup_cons.mp (hfree ▸ h.nodup)
      refine ⟨_, _, rfl, ⟨hf, h.not_live id (by simp [hfree]), fun j => ?_, fun other => ?_,
        rfl, fun j hj => ?_, hnd.2, by simp [putCell]⟩⟩
      · exact cell_setCell (h.free_lt id (by simp [hfree])) { key } j
      · exact Table.find?_insert _ _ _ _
      · exact ⟨hfree ▸ List.mem_cons_of_mem _ hj, fun he => hnd.1 (he ▸ hj)⟩

theorem Allocates.cell_of_live {g g' : Graph} {key : CellKey CellId} {id j : CellId}
    (ha : Allocates g key id g') (hj : g.Live j) : g'.cell j = g.cell j := by
  rw [ha.cell_eq, if_neg]
  rintro rfl
  exact ha.unused hj

theorem Allocates.indexed {g g' : Graph} {key : CellKey CellId} {id : CellId}
    (ha : Allocates g key id g') (h : g.Indexed) (hv : key.isVacant = false) : g'.Indexed := by
  have live_iff (j : CellId) : g'.Live j ↔ j = id ∨ g.Live j := by
    unfold Live
    rw [ha.cell_eq]
    split <;> simp [*]
  refine ⟨?_, fun j hj => ?_, fun other j hj => ?_, fun j hj => ?_, fun j hj hl => ?_, ha.nodup⟩
  · rw [ha.cell_of_live (show g.Live modelCell by rw [Live, h.model]; rfl)]
    exact h.model
  · rcases (live_iff j).mp hj with rfl | hj
    · rw [ha.cell_eq, if_pos rfl, ha.find_eq, if_pos (BEq.rfl)]
    · rw [ha.cell_of_live hj, ha.find_eq, if_neg, h.find j hj]
      intro hk
      have := (Table.find?_congr g.index hk).symm.trans ha.absent
      exact absurd (h.find j hj) (by rw [find?, this]; simp)
  · rw [ha.find_eq] at hj
    split at hj
    · cases hj
      exact ⟨(live_iff id).mpr (.inl rfl), by rw [ha.cell_eq, if_pos rfl]; assumption⟩
    · obtain ⟨hl, hk⟩ := h.found other j hj
      exact ⟨(live_iff j).mpr (.inr hl), by rw [ha.cell_of_live hl]; exact hk⟩
  · exact Nat.lt_of_lt_of_le (h.free_lt j (ha.free_eq j hj).1) ha.size_le
  · rcases (live_iff j).mp hl with rfl | hl
    · exact (ha.free_eq j hj).2 rfl
    · exact h.not_live j (ha.free_eq j hj).1 hl

end Graph

end Recalc
