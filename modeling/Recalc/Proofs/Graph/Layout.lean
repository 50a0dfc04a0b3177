import Recalc.Proofs.Graph.Later
import Recalc.Proofs.Program.Links

/-! How the cells of a graph are laid out, whatever values they have. Cells that a cell has read or
that its key names are in use and lighter than it, the key of a node has exactly the bindings that
the node reads, and a cell that is current has read only current cells. -/
namespace Recalc

/-- A function is bound, with or without a context. -/
def CellEnv.Binds {ι : Type} (env : CellEnv ι) (l : LambdaId) (c : Bool) : Prop :=
  ∃ b, CellEnv.lookup env l = .ok b ∧ b.context.isSome = c

/-- Bindings in order that have all that a node reads. -/
structure CellEnv.Serves {ι : Type} (p : Program) (id : NodeId) (env : CellEnv ι) : Prop where
  sorted : env.Sorted
  covers : p.Covers id env.Binds

/-- Bindings in order of exactly the functions that a node reads. -/
structure CellEnv.Exact {ι : Type} (p : Program) (id : NodeId) (env : CellEnv ι) : Prop
    extends CellEnv.Serves p id env where
  only : ∀ e ∈ env, e.1 ∈ p.free id

theorem CellEnv.Serves.exact_restrict {ι : Type} {p : Program} {id : NodeId} {env : CellEnv ι}
    (h : env.Serves p id) : (CellEnv.restrict p id env).Exact p id where
  sorted := CellEnv.sorted_restrict h.sorted p id
  covers l hl := by
    obtain ⟨c, ⟨b, hb, hc⟩, hk⟩ := h.covers l hl
    exact ⟨c, ⟨b, (CellEnv.lookup_restrict hl).trans hb, hc⟩, hk⟩
  only e he := by simpa using (List.mem_filter.mp he).2

section
variable {ι : Type} {p : Program} (hp : p.Linked) {id c : NodeId} {env : CellEnv ι}
include hp

theorem CellEnv.Serves.part (h : env.Serves p id) (hi : (p.node id).isIterate = false)
    (hc : c ∈ (p.node id).children) : env.Serves p c :=
  ⟨h.sorted, hp.covers_part h.covers hi hc⟩

variable {verb : CollectionVerb} {source body : NodeId} {lambda : LambdaId} {ctx : Option NodeId}
  (hn : p.node id = .iterate verb source lambda body ctx)
include hn

theorem CellEnv.Serves.outer (h : env.Serves p id) (hc : c ∈ source :: ctx.toList) :
    env.Serves p c :=
  ⟨h.sorted, hp.covers_source hn h.covers hc⟩

/-- The body of an iteration is served once its function is bound. -/
theorem CellEnv.Serves.inner (h : env.Serves p id) {b : CellBinding ι}
    (hs : b.context.isSome = ctx.isSome) : (CellEnv.bind env lambda b).Serves p body := by
  refine ⟨CellEnv.sorted_bind h.sorted, hp.covers_body hn h.covers ?_ ?_⟩
  · rintro l k hne ⟨b', hb', hk⟩
    refine ⟨b', (CellEnv.lookup_bind h.sorted).mpr ?_, hk⟩
    rw [if_neg hne]
    exact hb'
  · exact ⟨b, (CellEnv.lookup_bind h.sorted).mpr (by rw [if_pos rfl]), hs⟩

end

/-- The functions bound by exact bindings are those that the node reads. -/
theorem CellEnv.Exact.mem_free {ι : Type} {p : Program} {id : NodeId} {env : CellEnv ι}
    (h : env.Exact p id) (l : LambdaId) : l ∈ List.map Prod.fst env ↔ l ∈ p.free id := by
  constructor
  · intro hl
    obtain ⟨e, he, rfl⟩ := List.mem_map.mp hl
    exact h.only e he
  · intro hl
    obtain ⟨c, ⟨b, hb, -⟩, -⟩ := h.covers l hl
    exact List.mem_map.mpr ⟨(l, b), CellEnv.mem_of_lookup hb, rfl⟩

namespace World
variable {p : Program} {w w' : World} {id : CellId} {key : CellKey CellId}

/-- A cell in use is where it should be: it is based on cells in use, the bindings of its key are
those that its node reads, and what it has read is lighter. -/
structure Placed (p : Program) (w : World) (id : CellId) : Prop extends World.Based w id where
  exact : ∀ n env, (w.graph.cell id).key = .node n env → CellEnv.Exact p n env
  light : ∀ d ∈ (w.graph.cell id).deps, (w.origin d).weight < (w.origin id).weight
  slot : ∀ source k, (w.graph.cell id).key = .slot source k →
    (w.graph.cell id).value.isSome → (w.graph.cell id).deps = [source]
  current : w.graph.Current id → ∀ d ∈ (w.graph.cell id).deps, w.graph.Current d

/-- The layout of a graph: the index and the free list are right, vacant cells are empty, and cells
in use are where they should be. -/
structure Layout (p : Program) (w : World) : Prop where
  indexed : w.graph.Indexed
  reusable : w.graph.Reusable
  vacant : ∀ id, ¬ w.graph.Live id → w.graph.cell id = default
  placed : ∀ id, w.graph.Live id → w.Placed p id

theorem Layout.grounded (h : w.Layout p) : w.Grounded :=
  ⟨h.indexed, fun id hl => (h.placed id hl).toBased⟩

theorem Placed.deps (h : w.Placed p id) : ∀ d ∈ (w.graph.cell id).deps,
    w.graph.Live d ∧ (w.origin d).weight < (w.origin id).weight :=
  fun d hd => ⟨h.read d hd, h.light d hd⟩

/-- The document is the lightest cell, so it reads none. -/
theorem Layout.deps_model (h : w.Layout p) : (w.graph.cell Graph.modelCell).deps = [] := by
  have placed := h.placed _ h.indexed.live_model
  have light : (w.origin Graph.modelCell).weight ≤ 0 := by
    rw [placed.origin_eq, h.indexed.model]
    exact w.weight_model
  rw [List.eq_nil_iff_forall_not_mem]
  intro d hd
  have := placed.light d hd
  omega

/-- A cell that stays as it is stays where it is, if what it has read does. -/
theorem Placed.transfer (h : w.Placed p id) (based : w'.Based id)
    (cell : w'.graph.cell id = w.graph.cell id)
    (revision : w'.graph.revision = w.graph.revision) (self : w'.origin id = w.origin id)
    (origin : ∀ d ∈ (w.graph.cell id).deps, w'.origin d = w.origin d)
    (current : ∀ d ∈ (w.graph.cell id).deps, w.graph.Current d → w'.graph.Current d) :
    w'.Placed p id := by
  refine ⟨based, cell ▸ h.exact, ?_, cell ▸ h.slot, fun hc => ?_⟩
  · rw [cell, self]
    intro d hd
    rw [origin d hd]
    exact h.light d hd
  · rw [Graph.Current, cell, revision] at hc
    rw [cell]
    exact fun d hd => current d hd (h.current hc d hd)

/-! ### New contents -/

/-- A new content for a cell, current and taken from current cells that are lighter. -/
structure Refills (w : World) (id : CellId) (c : Cell) : Prop extends World.Renews w id c where
  light : ∀ d ∈ c.deps, (w.origin d).weight < (w.origin id).weight
  slot : ∀ source k, c.key = .slot source k → c.deps = [source]

theorem Layout.setCell (h : w.Layout p) (hl : w.graph.Live id) {c : Cell} (u : w.Refills id c) :
    (w.setCell id c).Layout p := by
  have grounded := h.grounded.setCell hl u.toRenews
  have live_iff := u.live_iff hl
  refine ⟨grounded.indexed, fun j hj hn => ?_, fun j hn => ?_, fun j hj => ?_⟩
  · refine h.reusable j ?_ fun hlj => hn ((live_iff j).mpr hlj)
    simpa [World.setCell, Graph.setCell, Graph.putCell] using hj
  · rw [live_iff] at hn
    have hne : j ≠ id := fun he => hn (he ▸ hl)
    rw [setCell_of_ne hl c hne]
    exact h.vacant j hn
  · have based := grounded.based j hj
    have placed := h.placed j ((live_iff j).mp hj)
    by_cases hid : j = id
    · subst hid
      refine ⟨based, ?_, ?_, ?_, fun _ => ?_⟩ <;> rw [setCell_self hl]
      · rw [u.key]
        exact placed.exact
      · exact u.light
      · exact fun source k hk _ => u.slot source k hk
      · exact fun d hd => u.current_setCell hl (u.current d hd)
    · exact placed.transfer based (setCell_of_ne hl c hid) rfl rfl (fun _ _ => rfl)
        fun d _ => u.current_setCell hl

/-- A cell with a value is confirmed when all that it has read is current. -/
theorem Layout.confirm (h : w.Layout p) (hl : w.graph.Live id)
    (hv : (w.graph.cell id).value.isSome)
    (hc : ∀ d ∈ (w.graph.cell id).deps, w.graph.Current d) :
    World.Layout p { w with graph := w.graph.confirm id } :=
  have placed := h.placed id hl
  h.setCell hl ⟨placed.renews_confirm hv hc, placed.light,
    fun source k hk => placed.slot source k hk hv⟩

/-- A cell gets a value computed from current cells that are lighter. -/
theorem Layout.store (h : w.Layout p) (hl : w.graph.Live id) {v : Value} {deps : List CellId}
    (hd : ∀ d ∈ deps, w.graph.Live d ∧ (w.origin d).weight < (w.origin id).weight)
    (hc : ∀ d ∈ deps, w.graph.Current d)
    (hs : ∀ source k, (w.graph.cell id).key = .slot source k → deps = [source]) :
    World.Layout p { w with graph := w.graph.store id v deps } := by
  have renews := (h.placed id hl).renews_store v fun d h => ⟨(hd d h).1, hc d h⟩
  refine h.setCell hl ⟨renews, fun d h => (hd d h).2, fun source k hk => ?_⟩
  rw [renews.key] at hk
  exact hs source k hk

/-! ### New recalculations -/

theorem layout_empty (p : Program) : World.Layout p ⟨.empty, fun _ => .of .model⟩ := by
  refine ⟨Graph.indexed_empty, fun id hlt hn => ?_, fun id hn => ?_, fun id hl => ?_⟩
  · have : id = Graph.modelCell := by
      simp only [Graph.empty, List.size_toArray, List.length_singleton] at hlt
      exact Nat.lt_one_iff.mp hlt
    exact absurd (Graph.live_empty.mpr this) hn
  · rw [Graph.live_empty] at hn
    exact (Graph.cell_empty id).trans (if_neg hn)
  · have based := grounded_empty.based id hl
    obtain rfl := Graph.live_empty.mp hl
    refine ⟨based, ?_, ?_, ?_, ?_⟩ <;> simp [Graph.cell_empty]

theorem Layout.advance (h : w.Layout p) :
    World.Layout p { w with graph := w.graph.advance } := by
  have grounded := h.grounded.advance
  refine ⟨grounded.indexed, h.reusable, h.vacant, fun id hl => ?_⟩
  have placed := h.placed id hl
  exact ⟨grounded.based id hl, placed.exact, placed.light, placed.slot,
    fun hc => absurd hc placed.not_current_advance⟩

/-- A recalculation starts with the new document in its cell. -/
theorem Layout.start (h : w.Layout p) (model : Value) :
    World.Layout p { w with graph := w.graph.advance.setModel model } ∧
      (w.graph.advance.setModel model).Current Graph.modelCell := by
  have ha := h.advance
  have hd : (w.graph.advance.cell Graph.modelCell).deps = [] := h.deps_model
  refine ⟨?_, Graph.current_store ha.indexed.live_model.lt model _⟩
  refine ha.store ha.indexed.live_model ?_ ?_ ?_
  · simp [hd]
  · simp [hd]
  · intro source k hk
    rw [ha.indexed.model] at hk
    cases hk

/-! ### New cells -/

private theorem mem_free_intern {g : Graph} (key : CellKey CellId) {j : CellId}
    (hlt : j < (g.intern key).2.cells.size) : j = (g.intern key).1 ∨
      j < g.cells.size ∧ (j ∈ g.free → j ∈ (g.intern key).2.free) := by
  unfold Graph.intern at hlt ⊢
  cases hf : g.find? key with
  | some id =>
    simp only [hf] at hlt
    exact .inr ⟨hlt, fun h => h⟩
  | none =>
    cases hfree : g.free with
    | nil =>
      simp only [hf, hfree, Array.size_push] at hlt
      rcases Nat.lt_succ_iff_lt_or_eq.mp hlt with hlt | he
      · exact .inr ⟨hlt, by simp⟩
      · exact .inl he
    | cons id rest =>
      simp only [hf, hfree, Graph.putCell, Array.size_setIfInBounds] at hlt
      by_cases he : j = id
      · exact .inl he
      · exact .inr ⟨hlt, fun h => (List.mem_cons.mp h).resolve_left he⟩

/-- A key that can get a cell: it is over cells in use, and a node has exactly the bindings that it
reads. -/
structure Admits (p : Program) (w : World) (key : CellKey CellId) : Prop where
  used : key.isVacant = false
  references : ∀ d ∈ key.references, w.graph.Live d
  exact : ∀ n env, key = .node n env → CellEnv.Exact p n env

private theorem Layout.grow (h : w.Layout p) (hk : w.Admits p key) {g : Graph}
    (hi : w.graph.intern key = (id, g)) (ha : w.graph.Allocates key id g) :
    (w.grow key id g).Layout p := by
  have grounded := h.grounded.grow ha hk.used hk.references
  have live_iff (j : CellId) : (w.grow key id g).graph.Live j ↔ j = id ∨ w.graph.Live j :=
    live_grow ha hk.used j
  refine ⟨grounded.indexed, fun j hj hn => ?_, fun j hn => ?_, fun j hj => ?_⟩
  · rw [live_iff, not_or] at hn
    rcases mem_free_intern key (g := w.graph) (j := j) (by rw [hi]; exact hj) with he | ⟨hlt, keep⟩
    · exact absurd (by rw [he, hi]) hn.1
    · rw [hi] at keep
      exact keep (h.reusable j hlt hn.2)
  · rw [live_iff, not_or] at hn
    exact ((ha.cell_eq j).trans (if_neg hn.1)).trans (h.vacant j hn.2)
  · have based := grounded.based j hj
    rcases (live_iff j).mp hj with rfl | hl
    · refine ⟨based, ?_, ?_, ?_, ?_⟩ <;> rw [grow_self ha]
      · exact hk.exact
      · simp
      · simp
      · simp
    · have placed := h.placed j hl
      refine placed.transfer based (ha.cell_of_live hl) ha.revision (origin_grow ha hl)
        (fun d hd => origin_grow ha (placed.read d hd)) fun d hd => ?_
      exact (later_grow 0 ha).current (placed.read d hd)

/-- Every key that can get a cell has one, with the origin of the key. -/
theorem Layout.intern (h : w.Layout p) (hk : w.Admits p key) (b : Nat) :
    ∃ origin, World.Layout p ⟨(w.graph.intern key).2, origin⟩ ∧
      Later b w ⟨(w.graph.intern key).2, origin⟩ ∧
      (w.graph.intern key).2.Live (w.graph.intern key).1 ∧
      origin (w.graph.intern key).1 = w.originOf key := by
  rcases Graph.intern_cases h.indexed key with ⟨id, hf, he⟩ | ⟨id, g, he, ha⟩
  · rw [he]
    exact ⟨w.origin, h, Later.refl b w, h.grounded.found hf⟩
  · have layout := h.grow hk he ha
    rw [he]
    exact ⟨_, layout, later_grow b ha, (live_grow ha hk.used id).mpr (.inl rfl), if_pos rfl⟩

/-! ### Sweeping -/

theorem Layout.sweep (h : w.Layout p) (roots : List CellId) :
    World.Layout p { w with graph := w.graph.sweep roots } := by
  have grounded := h.grounded.sweep roots
  have live_iff (j : CellId) : (w.graph.sweep roots).Live j ↔
      w.graph.Live j ∧ w.graph.Reaches roots j := Graph.live_sweep h.indexed
  have revision := (h.indexed.released roots).revision
  refine ⟨grounded.indexed, h.reusable.sweep roots, fun j hn => ?_, fun j hj => ?_⟩
  · by_cases hl : w.graph.Live j
    · exact Graph.cell_sweep_of_freed h.indexed hl fun hr => hn ((live_iff j).mpr ⟨hl, hr⟩)
    · exact (Graph.cell_sweep fun hl' => absurd hl' hl).trans (h.vacant j hl)
  · obtain ⟨hl, hr⟩ := (live_iff j).mp hj
    have kept {d : CellId} (hd : w.graph.Reaches roots d) :
        (w.graph.sweep roots).cell d = w.graph.cell d := Graph.cell_sweep fun _ => hd
    refine (h.placed j hl).transfer (grounded.based j hj) (kept hr) revision rfl (fun _ _ => rfl)
      fun d hd hc => ?_
    rw [Graph.Current, kept (hr.successor (List.mem_append_left _ hd)), revision]
    exact hc

end World

end Recalc
