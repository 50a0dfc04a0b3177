import Recalc.Proofs.Graph.Layout

/-! What cells stem from, as a matter of the graph alone. A layout gives every cell in use the
origin that it stems from, and no two cells in use stem from one origin. -/
namespace Recalc

namespace Graph

/-- A cell in use stems from the origin of its key, which is the same for equal keys. -/
inductive Stems (g : Graph) : CellId → Origin → Prop
  | of {id : CellId} (origin : CellId → Origin) : g.Live id →
      (∀ d ∈ (g.cell id).key.references, Stems g d (origin d)) →
      Stems g id (.of ((g.cell id).key.canon.map origin))

/-- Cells in use stay in use with their keys. -/
structure Embeds (g g' : Graph) : Prop where
  live : ∀ id, g.Live id → g'.Live id
  key : ∀ id, g.Live id → (g'.cell id).key = (g.cell id).key

/-- One graph comes from another within a recalculation: cells that are current stay as they are. -/
structure Sustains (g g' : Graph) : Prop extends Embeds g g' where
  revision : g'.revision = g.revision
  kept : ∀ id, g.Live id → g.Current id → g'.cell id = g.cell id

variable {g g' g'' : Graph} {id : CellId} {o : Origin}

theorem Embeds.trans (h : g.Embeds g') (k : g'.Embeds g'') : g.Embeds g'' where
  live id hl := k.live id (h.live id hl)
  key id hl := (k.key id (h.live id hl)).trans (h.key id hl)

theorem Sustains.refl (g : Graph) : g.Sustains g :=
  ⟨⟨fun _ h => h, fun _ _ => rfl⟩, rfl, fun _ _ _ => rfl⟩

private theorem Sustains.current (h : g.Sustains g') (hl : g.Live id) (hc : g.Current id) :
    g'.Current id := by
  unfold Graph.Current
  rw [h.kept id hl hc, h.revision]
  exact hc

theorem Sustains.trans (h : g.Sustains g') (k : g'.Sustains g'') : g.Sustains g'' where
  toEmbeds := h.toEmbeds.trans k.toEmbeds
  revision := k.revision.trans h.revision
  kept id hl hc := (k.kept id (h.live id hl) (h.current hl hc)).trans (h.kept id hl hc)

end Graph

theorem World.Later.sustains {b : Nat} {w w' : World} (h : World.Later b w w') :
    w.graph.Sustains w'.graph :=
  ⟨⟨h.live, h.key⟩, h.revision, fun id hl hc => h.kept id hl (.inl hc)⟩

namespace Graph
variable {g g' : Graph} {id : CellId} {o : Origin}

theorem Stems.live (h : g.Stems id o) : g.Live id := by
  cases h with
  | of _ hl _ => exact hl

theorem Stems.embedded (h : g.Stems id o) (hg : g.Embeds g') : g'.Stems id o := by
  induction h with
  | @of id origin hl _ ih =>
    have key := hg.key id hl
    rw [← key] at ih ⊢
    exact .of origin (hg.live id hl) ih

theorem Indexed.sustains_intern (h : g.Indexed) (key : CellKey CellId) :
    g.Sustains (g.intern key).2 := by
  rcases Graph.intern_cases h key with ⟨id, -, he⟩ | ⟨id, g', he, ha⟩
  · rw [he]
    exact .refl g
  · rw [he]
    exact (World.later_grow (w := ⟨g, fun _ => .of .model⟩) 0 ha).sustains

private theorem embeds_setCell (hl : g.Live id) {c : Cell} (hk : c.key = (g.cell id).key) :
    g.Embeds (g.setCell id c) := by
  refine ⟨fun j hj => (live_setCell hl.lt hk j).mpr hj, fun j _ => ?_⟩
  rw [cell_setCell hl.lt]
  split
  · rename_i he
    rw [he, hk]
  · rfl

theorem sustains_setCell (hl : g.Live id) (hc : ¬ g.Current id) {c : Cell}
    (hk : c.key = (g.cell id).key) : g.Sustains (g.setCell id c) := by
  refine ⟨embeds_setCell hl hk, rfl, fun j _ hj => ?_⟩
  rw [cell_setCell hl.lt, if_neg]
  rintro rfl
  exact hc hj

theorem embeds_store (hl : g.Live id) (v : Value) (deps : List CellId) :
    g.Embeds (g.store id v deps) := embeds_setCell hl (Cell.key_renew _ _ _)

theorem sustains_store (hl : g.Live id) (hc : ¬ g.Current id) (v : Value) (deps : List CellId) :
    g.Sustains (g.store id v deps) := sustains_setCell hl hc (Cell.key_renew _ _ _)

theorem sustains_confirm (hl : g.Live id) (hc : ¬ g.Current id) : g.Sustains (g.confirm id) :=
  sustains_setCell hl hc rfl

theorem Indexed.stems_model (h : g.Indexed) : g.Stems modelCell (.of .model) := by
  have stems := Stems.of (fun _ => .of .model) h.live_model (by simp [h.model, CellKey.references])
  rw [h.model] at stems
  exact stems

end Graph

namespace World
variable {p : Program} {w w' : World} {b : Nat} {id : CellId} {o : Origin}

theorem Layout.stems (h : w.Layout p) (hl : w.graph.Live id) :
    w.graph.Stems id (w.origin id) := by
  induction hn : (w.origin id).weight using Nat.strongRecOn generalizing id with
  | ind n ih =>
    have placed := h.placed id hl
    have stems := Graph.Stems.of w.origin hl fun d hd =>
      ih _ (hn ▸ placed.lighter hd) (placed.references d hd) rfl
    rw [placed.origin_eq]
    exact stems

/-- A cell stems from one origin only. -/
theorem Layout.origin_eq (h : w.Layout p) (hs : w.graph.Stems id o) : w.origin id = o := by
  induction hs with
  | @of id origin hl _ ih =>
    rw [(h.placed id hl).origin_eq]
    exact originOf_congr (w := ⟨w.graph, origin⟩) ih

/-- A layout of a graph that another comes from has the same origins for its cells. -/
theorem Layout.origin_embedded (h : w.Layout p) (h' : w'.Layout p)
    (hg : w.graph.Embeds w'.graph) (hl : w.graph.Live id) : w'.origin id = w.origin id :=
  h'.origin_eq ((h.stems hl).embedded hg)

/-- No two cells stem from one origin. -/
theorem Layout.eq_of_stems (h : w.Layout p) {i j : CellId} (hi : w.graph.Stems i o)
    (hj : w.graph.Stems j o) : i = j :=
  h.grounded.origin_injective hi.live hj.live ((h.origin_eq hi).trans (h.origin_eq hj).symm)

end World

end Recalc
