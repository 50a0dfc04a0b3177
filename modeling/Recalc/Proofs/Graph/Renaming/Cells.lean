import Recalc.Proofs.Graph.Layout
import Recalc.Proofs.Graph.Reclaim
import Recalc.Proofs.Program.Renaming

/-! Graphs of a program with its functions renumbered. Both recalculations use the same cells in the
same places. Their keys differ in the numbers of functions and in the order of bindings, and keys
are equal in both graphs or in none. -/
namespace Recalc
variable {N : Renaming}

/-! ### Bindings -/

/-- Bindings that have all that a node reads, and the same with their functions renumbered. -/
structure CellEnv.Renames (N : Renaming) (id : NodeId) (env env' : CellEnv CellId) : Prop where
  serves : env.Serves N.before id
  sorted : env'.Sorted
  mem : ∀ l b, (l, b) ∈ env' ↔ ∃ k, (k, b) ∈ env ∧ N.map k = l

namespace CellEnv

theorem renames_nil {id : NodeId} (h : N.before.Covers id (Binds (ι := CellId) [])) :
    Renames N id [] [] where
  serves := ⟨List.Pairwise.nil, h⟩
  sorted := List.Pairwise.nil
  mem l b := by simp

namespace Renames
variable {id c : NodeId} {env env' : CellEnv CellId} (h : Renames N id env env')
include h

private theorem mem_iff (l : LambdaId) (b : CellBinding CellId) :
    (N.map l, b) ∈ env' ↔ (l, b) ∈ env := by
  rw [h.mem]
  constructor
  · rintro ⟨k, hk, same⟩
    rwa [← N.injective same]
  · intro hl
    exact ⟨l, hl, rfl⟩

theorem lookup {l : LambdaId} {b : CellBinding CellId} (hb : CellEnv.lookup env l = .ok b) :
    CellEnv.lookup env' (N.map l) = .ok b := by
  rw [lookup_eq_ok h.sorted, h.mem_iff]
  exact (lookup_eq_ok h.serves.sorted).mp hb

theorem part (hi : (N.before.node id).isIterate = false) (hc : c ∈ (N.before.node id).children) :
    Renames N c env env' :=
  ⟨h.serves.part N.linked hi hc, h.sorted, h.mem⟩

theorem restrict : Renames N id (CellEnv.restrict N.before id env)
    (CellEnv.restrict N.after id env') where
  serves := h.serves.exact_restrict.toServes
  sorted := sorted_restrict h.sorted N.after id
  mem l b := by
    simp only [CellEnv.restrict, List.mem_filter, h.mem, List.contains_iff_mem]
    constructor
    · rintro ⟨⟨k, hk, rfl⟩, hl⟩
      exact ⟨k, ⟨hk, (N.mem_free id k).mp hl⟩, rfl⟩
    · rintro ⟨k, ⟨hk, hl⟩, rfl⟩
      exact ⟨⟨k, hk, rfl⟩, (N.mem_free id k).mpr hl⟩

variable {verb : CollectionVerb} {source body : NodeId} {lambda : LambdaId} {ctx : Option NodeId}
  (hn : N.before.node id = .iterate verb source lambda body ctx)
include hn

theorem outer (hc : c ∈ source :: ctx.toList) : Renames N c env env' :=
  ⟨h.serves.outer N.linked hn hc, h.sorted, h.mem⟩

/-- The bindings in the body of an iteration. -/
theorem inner {b : CellBinding CellId} (hb : b.context.isSome = ctx.isSome) :
    Renames N body (CellEnv.bind env lambda b) (CellEnv.bind env' (N.map lambda) b) where
  serves := h.serves.inner N.linked hn hb
  sorted := sorted_bind h.sorted
  mem l b' := by
    simp only [mem_bind, Prod.mk.injEq, h.mem]
    constructor
    · rintro (⟨rfl, rfl⟩ | ⟨⟨k, hk, rfl⟩, hne⟩)
      · exact ⟨lambda, .inl ⟨rfl, rfl⟩, rfl⟩
      · exact ⟨k, .inr ⟨hk, fun same => hne (congrArg N.map same)⟩, rfl⟩
    · rintro ⟨k, ⟨rfl, rfl⟩ | ⟨hk, hne⟩, rfl⟩
      · exact .inl ⟨rfl, rfl⟩
      · exact .inr ⟨⟨k, hk, rfl⟩, fun same => hne (N.injective same)⟩

end Renames

private theorem mem_canon {env : CellEnv CellId} {l : LambdaId} {b : CellBinding CellId} :
    (l, b) ∈ env.canon ↔ ∃ c, (l, c) ∈ env ∧ c.canon = b := by
  simp [canon]

private theorem sorted_canon {env : CellEnv CellId} (h : env.Sorted) : env.canon.Sorted :=
  List.pairwise_map.mpr h

/-- Bindings for one node are equal in both programs or in none. -/
theorem Renames.beq {id : NodeId} {a a' b b' : CellEnv CellId} (ha : Renames N id a a')
    (hb : Renames N id b b') : (a' == b') = true ↔ (a == b) = true := by
  rw [CellEnv.beq_iff, CellEnv.beq_iff]
  have mem {env env' : CellEnv CellId} (h : Renames N id env env') (l : LambdaId)
      (b : CellBinding CellId) : (N.map l, b) ∈ env'.canon ↔ (l, b) ∈ env.canon := by
    simp only [mem_canon, h.mem_iff]
  constructor
  · intro same
    refine ext_mem (sorted_canon ha.serves.sorted) (sorted_canon hb.serves.sorted) ?_
    rintro ⟨l, c⟩
    rw [← mem ha, same, mem hb]
  · intro same
    have image {env env' : CellEnv CellId} (h : Renames N id env env') {l : LambdaId}
        {c : CellBinding CellId} (hl : (l, c) ∈ env'.canon) : ∃ k, N.map k = l := by
      obtain ⟨d, hd, -⟩ := mem_canon.mp hl
      obtain ⟨k, -, hk⟩ := (h.mem l d).mp hd
      exact ⟨k, hk⟩
    refine ext_mem (sorted_canon ha.sorted) (sorted_canon hb.sorted) ?_
    rintro ⟨l, c⟩
    constructor
    · intro hl
      obtain ⟨k, rfl⟩ := image ha hl
      rwa [mem hb, ← same, ← mem ha]
    · intro hl
      obtain ⟨k, rfl⟩ := image hb hl
      rwa [mem ha, same, ← mem hb]

end CellEnv

/-! ### Keys and cells -/

/-- A key with its functions renumbered. -/
inductive CellKey.Renames (N : Renaming) : CellKey CellId → CellKey CellId → Prop
  | model : Renames N .model .model
  | vacant : Renames N .vacant .vacant
  | slot (source : CellId) (key : Value) : Renames N (.slot source key) (.slot source key)
  | node {id : NodeId} {env env' : CellEnv CellId} (h : env.Renames N id env') :
    Renames N (.node id env) (.node id env')

namespace CellKey.Renames
variable {a a' b b' : CellKey CellId}

private theorem beq (ha : a.Renames N a') (hb : b.Renames N b') : (a' == b') = (a == b) := by
  rw [Bool.eq_iff_iff]
  cases ha with
  | model | vacant | slot =>
    cases hb with
    | node h => simp [CellKey.beq_iff, canon]
    | _ => rfl
  | @node id env env' ha =>
    cases hb with
    | @node id' envb envb' hb =>
      change (id == id' && env' == envb') = true ↔ (id == id' && env == envb) = true
      simp only [Bool.and_eq_true, beq_iff_eq]
      refine and_congr_right fun same => ?_
      subst same
      exact ha.beq hb
    | _ => simp [CellKey.beq_iff, canon]

theorem isModel (h : a.Renames N a') : a'.isModel = a.isModel := by cases h <;> rfl

private theorem isVacant (h : a.Renames N a') : a'.isVacant = a.isVacant := by cases h <;> rfl

private theorem mem_references (h : a.Renames N a') (d : CellId) :
    d ∈ a'.references ↔ d ∈ a.references := by
  cases h with
  | node h =>
    simp only [references, List.mem_flatMap, Prod.exists, h.mem]
    constructor
    · rintro ⟨_, b, ⟨k, hk, rfl⟩, hd⟩
      exact ⟨k, b, hk, hd⟩
    · rintro ⟨k, b, hk, hd⟩
      exact ⟨N.map k, b, ⟨k, hk, rfl⟩, hd⟩
  | _ => exact Iff.rfl

end CellKey.Renames

/-- A cell with the functions of its key renumbered. -/
structure Cell.Renames (N : Renaming) (c c' : Cell) : Prop where
  key : c.key.Renames N c'.key
  value : c'.value = c.value
  changedAt : c'.changedAt = c.changedAt
  verifiedAt : c'.verifiedAt = c.verifiedAt
  deps : c'.deps = c.deps

namespace Cell.Renames
variable {c c' : Cell}

private theorem fresh {key key' : CellKey CellId} (h : key.Renames N key') :
    Cell.Renames N { key } { key := key' } := ⟨h, rfl, rfl, rfl, rfl⟩

theorem access (h : c.Renames N c') : c'.access.val = c.access.val := by
  rw [c'.access.property, c.access.property, h.value]

private theorem renew (h : c.Renames N c') (v : Value) (r : Revision) :
    (c.renew v r).Renames N (c'.renew v r) := by
  have holds : c'.holds v = c.holds v := by rw [Cell.holds, Cell.holds, h.value]
  unfold Cell.renew
  rw [holds]
  split
  · exact h
  · exact ⟨h.key, rfl, rfl, h.verifiedAt, h.deps⟩

end Cell.Renames

/-! ### Graphs -/

namespace Graph

/-- A graph with the functions of all keys renumbered. -/
structure Renames (N : Renaming) (g g' : Graph) : Prop where
  size : g'.cells.size = g.cells.size
  cell : ∀ id, (g.cell id).Renames N (g'.cell id)
  find : ∀ key key', key.Renames N key' → g'.find? key' = g.find? key
  free : g'.free = g.free
  revision : g'.revision = g.revision
  live : g'.live = g.live

namespace Renames

theorem empty : Renames N .empty .empty where
  size := rfl
  cell id := by
    match id with
    | 0 => exact ⟨.model, rfl, rfl, rfl, rfl⟩
    | _ + 1 => exact ⟨.vacant, rfl, rfl, rfl, rfl⟩
  find key key' h := by
    unfold find? Graph.empty
    rw [Table.find?_insert, Table.find?_insert, CellKey.Renames.beq .model h, Table.find?_empty,
      Table.find?_empty]
  free := rfl
  revision := rfl
  live := rfl

variable {g g' : Graph} (h : g.Renames N g')
include h

omit h in
private theorem cell_putCell (cells : Array Cell) (id j : CellId) (c : Cell) :
    (putCell cells id c).getD j default =
      if id = j ∧ id < cells.size then c else cells.getD j default := by
  rw [putCell, Array.getD_eq_getD_getElem?, Array.getElem?_setIfInBounds,
    Array.getD_eq_getD_getElem?]
  by_cases hj : id = j
  · subst hj
    by_cases hs : id < cells.size
    · simp [hs]
    · simp [hs]
  · simp [hj]

private theorem put (id j : CellId) {c c' : Cell} (hc : c.Renames N c') :
    ((putCell g.cells id c).getD j default).Renames N
      ((putCell g'.cells id c').getD j default) := by
  rw [cell_putCell, cell_putCell, h.size]
  split
  · exact hc
  · exact h.cell j

private theorem setCell (id : CellId) {c c' : Cell} (hc : c.Renames N c') :
    (g.setCell id c).Renames N (g'.setCell id c') where
  size := by simp [Graph.setCell, putCell, h.size]
  cell j := h.put id j hc
  find := h.find
  free := h.free
  revision := h.revision
  live := h.live

/-- Both graphs have the same number of cells in use. -/
theorem count : g'.size = g.size := by rw [Graph.size, Graph.size, h.size, h.free]

theorem value (id : CellId) : g'.value id = g.value id := by
  rw [Graph.value, Graph.value, (h.cell id).value]

theorem advance : g.advance.Renames N g'.advance :=
  ⟨h.size, h.cell, h.find, h.free, congrArg (· + 1) h.revision, h.live⟩

theorem confirm (id : CellId) : (g.confirm id).Renames N (g'.confirm id) :=
  have cell := h.cell id
  h.setCell id ⟨cell.key, cell.value, cell.changedAt, h.revision, cell.deps⟩

theorem store (id : CellId) (v : Value) (deps : List CellId) :
    (g.store id v deps).Renames N (g'.store id v deps) := by
  have cell := (h.cell id).renew v g.revision
  unfold Graph.store
  rw [h.revision]
  exact h.setCell id ⟨cell.key, cell.value, cell.changedAt, rfl, rfl⟩

theorem setModel (model : Value) : (g.setModel model).Renames N (g'.setModel model) := by
  unfold Graph.setModel
  rw [(h.cell modelCell).deps]
  exact h.store modelCell model _

private theorem find_insert {key key' other other' : CellKey CellId} (hk : key.Renames N key')
    (ho : other.Renames N other') (id : CellId) :
    (g'.index.insert key' id).find? other' = (g.index.insert key id).find? other := by
  rw [Table.find?_insert, Table.find?_insert, hk.beq ho]
  congr 1
  exact h.find other other' ho

/-- A key gets the same cell in both graphs. -/
theorem intern {key key' : CellKey CellId} (hk : key.Renames N key') :
    (g'.intern key').1 = (g.intern key).1 ∧ (g.intern key).2.Renames N (g'.intern key').2 := by
  unfold Graph.intern
  rw [h.find key key' hk, h.free]
  cases g.find? key with
  | some id => exact ⟨rfl, h⟩
  | none =>
    cases g.free with
    | cons id free =>
      refine ⟨rfl, ⟨?_, fun j => h.put id j (.fresh hk), ?_, rfl, h.revision, h.live⟩⟩
      · simp [putCell, h.size]
      · exact fun other other' ho => h.find_insert hk ho id
    | nil =>
      refine ⟨h.size, ⟨?_, fun j => ?_, ?_, rfl, h.revision, h.live⟩⟩
      · simp [h.size]
      · have cell := h.cell j
        unfold Graph.cell at cell ⊢
        simp only [Array.getD_eq_getD_getElem?, Array.getElem?_push, h.size] at cell ⊢
        split
        · exact .fresh hk
        · exact cell
      · intro other other' ho
        rw [h.size]
        exact h.find_insert hk ho _

/-! ### Sweeps -/

private theorem reaches_iff (roots : List CellId) (id : CellId) :
    g'.Reaches roots id ↔ g.Reaches roots id := by
  have successors : (fun a b => b ∈ g'.successors a) = fun a b => b ∈ g.successors a := by
    funext a b
    rw [Graph.successors, Graph.successors, List.mem_append, List.mem_append, (h.cell a).deps,
      (h.cell a).key.mem_references]
  unfold Reaches
  rw [successors]

private theorem drop (id : CellId) : (g.drop id).Renames N (g'.drop id) where
  size := by simp [Graph.drop, putCell, h.size]
  cell j := h.put id j ⟨.vacant, rfl, rfl, rfl, rfl⟩
  find other other' ho := by
    change (g'.index.erase (g'.cell id).key).find? other' =
      (g.index.erase (g.cell id).key).find? other
    rw [Table.find?_erase, Table.find?_erase, (h.cell id).key.beq ho]
    congr 1
    exact h.find other other' ho
  free := congrArg (id :: ·) h.free
  revision := h.revision
  live := h.live

omit h in
private theorem foldl_release {marked marked' : Array Bool} (ids : List CellId)
    (hm : ∀ id ∈ ids, marked'.getD id false = marked.getD id false) (h : g.Renames N g') :
    (ids.foldl (release marked) g).Renames N (ids.foldl (release marked') g') := by
  induction ids generalizing g g' with
  | nil => exact h
  | cons id rest ih =>
    refine ih (fun j hj => hm j (List.mem_cons_of_mem _ hj)) ?_
    unfold release
    rw [hm id List.mem_cons_self, (h.cell id).key.isVacant]
    split
    · exact h
    · exact h.drop id

/-- Sweeps free the same cells. -/
theorem sweep (roots : List CellId) : (g.sweep roots).Renames N (g'.sweep roots) := by
  have marked (id : CellId) (hid : id ∈ List.range g.cells.size) :
      (g'.marks roots).getD id false = (g.marks roots).getD id false := by
    have hlt := List.mem_range.mp hid
    rw [Bool.eq_iff_iff]
    exact (marked_iff_reaches (h.size ▸ hlt)).trans
      ((h.reaches_iff roots id).trans (marked_iff_reaches hlt).symm)
  have released : ((List.range g.cells.size).foldl (release (g.marks roots)) g).Renames N
      ((List.range g'.cells.size).foldl (release (g'.marks roots)) g') := by
    rw [h.size]
    exact foldl_release _ marked h
  exact ⟨released.size, released.cell, released.find, released.free, released.revision,
    released.count⟩

end Renames

end Graph

end Recalc
