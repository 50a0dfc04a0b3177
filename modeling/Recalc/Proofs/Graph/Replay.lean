import Recalc.Proofs.Graph.Regimen

/-! What a cell has read is what the course of its key reads when the origins have the values that
were read. As far as these cells have not changed since the cell was last verified, those are the
values that they still have. This holds of all cells after any recalculations. -/
namespace Recalc

theorem Reading.meets_any {α : Type} (x : Reading α) :
    x.Meets (fun _ => True) (fun _ => True) fun _ => True := by
  induction x with
  | done r => exact fun _ _ => trivial
  | read o next ih => exact ⟨trivial, fun v _ => ih v⟩

namespace Graph

open Classical in
/-- The values of cells, by their origins. -/
noncomputable def view (g : Graph) (o : Origin) : Except EvalError Value :=
  if h : ∃ id, g.Stems id o then .ok (g.value h.choose) else .error .tooDeep

end Graph

namespace World
open Recalc.Graph
variable {p : Program} {lib : Library} {w w' : World} {id : CellId} {o : Origin}

theorem Layout.view_eq (h : w.Layout p) (hs : w.graph.Stems id o) :
    w.graph.view o = .ok (w.graph.value id) := by
  have found : ∃ id, w.graph.Stems id o := ⟨id, hs⟩
  rw [view, dif_pos found, h.eq_of_stems found.choose_spec hs]

/-- A cell has read what the course of its key reads for some values of origins, and has its result.
Where a cell that it has read has not changed since, this value is that of the cell. -/
structure ReplaysBy (p : Program) (lib : Library) (w : World) (id : CellId)
    (q : Origin → Except EvalError Value) : Prop where
  reads : (Origin.course p lib ((w.graph.cell id).key.map w.origin)).reads q =
    (w.graph.cell id).deps.map w.origin
  values : ∀ d ∈ (w.graph.cell id).deps,
    (w.graph.cell d).changedAt ≤ (w.graph.cell id).verifiedAt →
    q (w.origin d) = .ok (w.graph.value d)
  result : (w.graph.cell id).key.isModel = false →
    ∃ v, (Origin.course p lib ((w.graph.cell id).key.map w.origin)).run q = .ok v ∧
      (w.graph.value id == v) = true

def Replays (p : Program) (lib : Library) (w : World) (id : CellId) : Prop :=
  ∃ q, w.ReplaysBy p lib id q

/-- What a cell replays it still does when it has at most been verified, as long as cells that it
has read change only with their mark. -/
theorem Replays.transfer (h : w.Replays p lib id)
    (same : ∃ r, w'.graph.cell id = { w.graph.cell id with verifiedAt := r })
    (origin : ∀ d ∈ w.graph.successors id, w'.origin d = w.origin d)
    (kept : ∀ d ∈ (w.graph.cell id).deps,
      (w'.graph.cell d).changedAt ≤ (w'.graph.cell id).verifiedAt →
      (w.graph.cell d).changedAt ≤ (w.graph.cell id).verifiedAt ∧
        w'.graph.value d = w.graph.value d) : w'.Replays p lib id := by
  obtain ⟨q, reads, values, result⟩ := h
  obtain ⟨r, same⟩ := same
  have deps : (w'.graph.cell id).deps = (w.graph.cell id).deps := by rw [same]
  have value : w'.graph.value id = w.graph.value id := by rw [Graph.value, same, Graph.value]
  have key : (w'.graph.cell id).key = (w.graph.cell id).key := by rw [same]
  have course : (w'.graph.cell id).key.map w'.origin = (w.graph.cell id).key.map w.origin := by
    rw [key]
    exact CellKey.map_congr (CellKey.within_references fun d hd =>
      origin d (List.mem_append_right _ hd))
  have dep (d : CellId) (hd : d ∈ (w.graph.cell id).deps) : w'.origin d = w.origin d :=
    origin d (List.mem_append_left _ hd)
  refine ⟨q, ⟨?_, fun d hd hc => ?_, fun hm => ?_⟩⟩
  · rw [course, deps, reads]
    exact (List.map_congr_left dep).symm
  · rw [deps] at hd
    obtain ⟨unchanged, value⟩ := kept d hd hc
    rw [dep d hd, value]
    exact values d hd unchanged
  · rw [course, value]
    exact result (key ▸ hm)

end World

namespace Graph
variable {p : Program} {lib : Library} {g g' : Graph} {origin : CellId → Origin}

/-- All cells with values have read what the courses of their keys read. -/
def Faithful (p : Program) (lib : Library) (g : Graph) : Prop :=
  ∀ origin, World.Layout p ⟨g, origin⟩ → ∀ id, g.Live id → (g.cell id).value.isSome →
    World.Replays p lib ⟨g, origin⟩ id

/-- A cell that stays as it is stays faithful, as long as cells that it has read change only with
their mark. -/
theorem Faithful.kept (h : g.Faithful p lib) (layout : World.Layout p ⟨g, origin⟩)
    {origin' : CellId → Origin} (layout' : World.Layout p ⟨g', origin'⟩) (hg : g.Embeds g')
    {id : CellId} (hl : g.Live id) (hs : (g.cell id).value.isSome)
    (same : ∃ r, g'.cell id = { g.cell id with verifiedAt := r })
    (kept : ∀ d ∈ (g.cell id).deps, (g'.cell d).changedAt ≤ (g'.cell id).verifiedAt →
      (g.cell d).changedAt ≤ (g.cell id).verifiedAt ∧ g'.value d = g.value d) :
    World.Replays p lib ⟨g', origin'⟩ id :=
  (h origin layout id hl hs).transfer same (fun d hd => layout.origin_embedded layout' hg
    ((layout.placed id hl).live_successors d hd)) kept

/-- A new cell has no value yet. -/
theorem Faithful.intern (h : g.Faithful p lib) (layout : World.Layout p ⟨g, origin⟩)
    (key : CellKey CellId) : (g.intern key).2.Faithful p lib := by
  rcases Graph.intern_cases layout.indexed key with ⟨id, -, he⟩ | ⟨id, g', he, ha⟩
  · rw [he]
    exact h
  · have sustains := layout.indexed.sustains_intern key
    rw [he] at sustains ⊢
    intro origin' layout' j hj hs
    have hne : j ≠ id := by
      rintro rfl
      rw [ha.cell_eq, if_pos rfl] at hs
      cases hs
    have cell : g'.cell j = g.cell j := (ha.cell_eq j).trans (if_neg hne)
    have hl : g.Live j := by
      rw [Live, ← cell]
      exact hj
    have placed := layout.placed j hl
    refine h.kept layout layout' sustains.toEmbeds hl (cell ▸ hs) ⟨_, cell⟩
      fun d hd hc => ?_
    have same : g'.cell d = g.cell d := ha.cell_of_live (placed.deps d hd).1
    rw [same, cell] at hc
    exact ⟨hc, by rw [Graph.value, Graph.value, same]⟩

/-- A cell that is not current may get a new content, if a new value comes with its mark. No cell
that has read it is current, so none takes the old value for the new one. -/
theorem Faithful.setCell (h : g.Faithful p lib) (layout : World.Layout p ⟨g, origin⟩) {id : CellId}
    (hl : g.Live id) (stale : ¬ g.Current id) {c : Cell} (key : c.key = (g.cell id).key)
    (changed : c.changedAt = (g.cell id).changedAt ∧ c.value = (g.cell id).value ∨
      c.changedAt = g.revision)
    (self : ∀ origin', World.Layout p ⟨g.setCell id c, origin'⟩ →
      World.Replays p lib ⟨g.setCell id c, origin'⟩ id) :
    (g.setCell id c).Faithful p lib := by
  have cell_eq (j : CellId) := cell_setCell hl.lt c j
  intro origin' layout' j hj hs
  by_cases hid : j = id
  · subst hid
    exact self origin' layout'
  · have hj : g.Live j := (live_setCell hl.lt key j).mp hj
    have cell : (g.setCell id c).cell j = g.cell j := (cell_eq j).trans (if_neg hid)
    have placed := layout.placed j hj
    rw [cell] at hs
    refine h.kept layout layout' (sustains_setCell hl stale key).toEmbeds hj hs
      ⟨_, cell⟩ fun d hd verified => ?_
    rw [cell] at verified
    by_cases he : d = id
    · subst he
      have self : (g.setCell d c).cell d = c := (cell_eq d).trans (if_pos rfl)
      rw [self] at verified
      rcases changed with ⟨same, value⟩ | changed
      · rw [same] at verified
        exact ⟨verified, by rw [Graph.value, Graph.value, self, value]⟩
      · rw [changed] at verified
        have current : g.Current j := ⟨hs, Nat.le_antisymm placed.verified_le verified⟩
        exact absurd (placed.current current d hd) stale
    · have other : (g.setCell id c).cell d = g.cell d := (cell_eq d).trans (if_neg he)
      rw [other] at verified
      exact ⟨verified, by rw [Graph.value, Graph.value, other]⟩

/-- A cell that is confirmed has read nothing that has changed. -/
theorem Faithful.confirm {L : Linkage} {s : State} {id : CellId}
    (h : s.graph.Faithful L.program L.library) (hc : L.Confirms s id origin) :
    (s.graph.confirm id).Faithful L.program L.library := by
  refine h.setCell hc.layout hc.live hc.stale rfl (.inl ⟨rfl, rfl⟩) fun origin' layout' => ?_
  have self := (cell_setCell hc.live.lt { s.graph.cell id with
    verifiedAt := s.graph.revision } id).trans (if_pos rfl)
  refine h.kept hc.layout layout' (sustains_confirm hc.live hc.stale).toEmbeds hc.live hc.isSome
    ⟨_, self⟩ fun d hd _ => ⟨hc.unchanged d hd, ?_⟩
  rw [Graph.value, Graph.value, cell_setCell hc.live.lt]
  split
  · rename_i he
    rw [he]
  · rfl

end Graph

/-- A stored value is kept, or an equal one was there. -/
theorem Graph.value_store {g : Graph} {id : CellId} (h : id < g.cells.size) {v : Value}
    {deps : List CellId} : ((g.store id v deps).value id == v) = true := by
  rw [Graph.value, cell_store h]
  rcases (g.cell id).renew_cases v g.revision with ⟨old, hold, equal, he⟩ | he
  · rw [he, hold]
    exact equal
  · rw [he]
    exact BEq.rfl

namespace Linkage
open Recalc.Graph
variable {L : Linkage} {α β : Type} {b : Nat} {verify : CellId → CellM Unit} {loud : Prop}
  {w : World} {R : World → α → β → Prop} {s t : State} {a : α} {origin : CellId → Origin}

/-- A computation that has succeeded has read what the reading that it played reads with the values
of the cells at the end, and has its result: once read, cells do not change any more. -/
theorem Plays.replay {y : Reading β} (hv : L.Verifies b verify)
    (layout : World.Layout L.program ⟨t.graph, origin⟩)
    (h : L.Plays b verify loud w R y s (.ok a, t)) :
    ∃ (ids : List CellId) (c : β) (w' : World), t.reads = ids.reverse ++ s.reads ∧
      y.reads t.graph.view = ids.map origin ∧ y.run t.graph.view = .ok c ∧ R w' a c := by
  generalize hout : (Except.ok a, t) = out at h
  induction h with
  | done _ _ related =>
    cases hout
    exact ⟨[], _, _, rfl, rfl, rfl, related⟩
  | fail => cases hout
  | stop _ _ => cases hout
  | intern _ _ _ ih => exact ih hout
  | call _ _ _ ih => exact ih hout
  | @read o next s t' id out visits run rest ih =>
    obtain ⟨origin', running⟩ := visits.running
    have same : origin' id = o := running.layout.origin_eq visits.stems
    obtain ⟨_, brought, -, reads, ends⟩ := hv b s origin' id running visits.stems.live
      (same ▸ visits.light)
    obtain ⟨ids, c, w', reads', rest', result, related⟩ := ih hout
    have sustains : t'.graph.Sustains out.2.graph := (rest.sustains hv).1
    rw [run] at brought reads ends
    rw [← hout] at sustains
    have live : t'.graph.Live id := brought.live id visits.stems.live
    have value : t.graph.value id = t'.graph.value id := by
      rw [Graph.value, Graph.value, sustains.kept id live ends]
    have whole := brought.sustains.trans sustains
    have stems := visits.stems.embedded whole.toEmbeds
    have origin_eq : origin id = o := layout.origin_eq stems
    refine ⟨id :: ids, c, w', ?_, ?_, ?_, related⟩
    · rw [reads', reads, List.reverse_cons, List.append_assoc]
      rfl
    · rw [Reading.reads, layout.view_eq stems, List.map_cons, origin_eq]
      simp only [value]
      rw [rest']
    · rw [Reading.run, layout.view_eq stems, value]
      exact result

/-- A cell that is computed anew has read what it has just read, and has the result. -/
theorem Recomputes.replays {fuel : Nat} {id : CellId} {v : Value} {origin origin' : CellId → Origin}
    (hr : L.Recomputes fuel s id v t origin origin') {origin'' : CellId → Origin}
    (layout : World.Layout L.program ⟨t.graph.store id v t.reads.reverse, origin''⟩) :
    World.Replays L.program L.library ⟨t.graph.store id v t.reads.reverse, origin''⟩ id := by
  have layout' := hr.running.layout
  have live : t.graph.Live id := hr.later.live id hr.live
  have stale : ¬ t.graph.Current id := hr.later.not_current hr.live (Nat.le_refl _) hr.stale
  have embeds := (sustains_store live stale v t.reads.reverse).toEmbeds
  have origin_eq {j : CellId} (hj : t.graph.Live j) : origin'' j = origin' j :=
    layout'.origin_embedded layout embeds hj
  obtain ⟨ids, c, _, reads, same, result, rfl, -⟩ :=
    hr.plays.replay ((L.verifies fuel).mono hr.light) layout'
  have reads : t.reads.reverse = ids := by
    rw [reads, List.append_nil, List.reverse_reverse]
  have key : ((t.graph.store id v t.reads.reverse).cell id).key.map origin'' =
      (s.graph.cell id).key.map origin := by
    rw [embeds.key id live, hr.later.key id hr.live]
    refine CellKey.map_congr (CellKey.within_references fun d hd => ?_)
    have used := (hr.layout.placed id hr.live).references d hd
    exact (origin_eq (hr.later.live d used)).trans (hr.later.origin d used)
  have deps : ((t.graph.store id v t.reads.reverse).cell id).deps = t.reads.reverse := by
    rw [cell_store live.lt]
  refine ⟨t.graph.view, ⟨?_, fun d hd _ => ?_, fun _ => ⟨v, ?_, value_store live.lt⟩⟩⟩
  · rw [key, same, deps, reads]
    refine List.map_congr_left fun d hd => (origin_eq ?_).symm
    exact (hr.running.reads d (List.mem_reverse.mp (reads ▸ hd))).1
  · rw [deps] at hd
    obtain ⟨used, current, -⟩ := hr.running.reads d (List.mem_reverse.mp hd)
    have hne : d ≠ id := fun he => stale (he ▸ current)
    change t.graph.view (origin'' d) = _
    rw [origin_eq used, layout'.view_eq (layout'.stems used), Graph.value, Graph.value,
      Graph.store, cell_setCell live.lt, if_neg hne]
  · rw [key]
    exact result

end Linkage

namespace Graph

theorem Faithful.store {L : Linkage} {fuel : Nat} {s t : State} {id : CellId} {v : Value}
    {origin origin' : CellId → Origin} (h : t.graph.Faithful L.program L.library)
    (hr : L.Recomputes fuel s id v t origin origin') :
    (t.graph.store id v t.reads.reverse).Faithful L.program L.library := by
  have live : t.graph.Live id := hr.later.live id hr.live
  have stale : ¬ t.graph.Current id := hr.later.not_current hr.live (Nat.le_refl _) hr.stale
  refine h.setCell hr.running.layout live stale (Cell.key_renew _ _ _) ?_
    fun origin'' layout => hr.replays layout
  rcases (t.graph.cell id).renew_cases v t.graph.revision with ⟨old, hold, -, he⟩ | he
  · rw [he]
    exact .inl ⟨rfl, rfl⟩
  · rw [he]
    exact .inr rfl

end Graph

/-! ### Recalculations -/

namespace Graph
variable {p : Program} {lib : Library} {g : Graph} {origin : CellId → Origin}

private theorem faithful_empty (p : Program) (lib : Library) : Graph.empty.Faithful p lib := by
  intro _ _ id _ hs
  cases id with
  | zero => cases hs
  | succ id => cases hs

/-- A new document comes with its mark. -/
theorem Faithful.start (h : g.Faithful p lib) (layout : World.Layout p ⟨g, origin⟩)
    (model : Value) : (g.advance.setModel model).Faithful p lib := by
  have layout' := layout.advance
  have advanced : g.advance.Faithful p lib := by
    intro origin' layout'' id hl hs
    exact h.kept layout layout'' ⟨fun _ h => h, fun _ _ => rfl⟩ hl hs ⟨_, rfl⟩
      fun d _ hc => ⟨hc, rfl⟩
  have live := layout.indexed.live_model
  have deps : (g.cell modelCell).deps = [] := layout.deps_model
  have stale : ¬ g.advance.Current modelCell := by
    intro hc
    have le : (g.cell modelCell).verifiedAt ≤ g.revision := (layout.placed _ live).verified_le
    have eq : (g.cell modelCell).verifiedAt = g.revision + 1 := hc.2
    rw [eq] at le
    exact Nat.not_succ_le_self _ le
  refine advanced.setCell layout' live stale (Cell.key_renew _ _ _) ?_ fun origin' layout'' => ?_
  · rcases (g.advance.cell modelCell).renew_cases model g.advance.revision
      with ⟨old, hold, -, he⟩ | he
    · rw [he]
      exact .inl ⟨rfl, rfl⟩
    · rw [he]
      exact .inr rfl
  · have self : ((g.advance.setModel model).cell modelCell).deps = [] :=
      (congrArg Cell.deps (cell_store (g := g.advance) live.lt model _)).trans deps
    have key := layout''.indexed.model
    refine ⟨fun _ => .ok .null, ⟨?_, fun d hd => ?_, fun hm => ?_⟩⟩
    · change (Origin.course p lib (((g.advance.setModel model).cell modelCell).key.map _)).reads _ =
        ((g.advance.setModel model).cell modelCell).deps.map _
      rw [self, show ((g.advance.setModel model).cell modelCell).key = .model from key]
      rfl
    · have hd : d ∈ ((g.advance.setModel model).cell modelCell).deps := hd
      rw [self] at hd
      cases hd
    · have hm : ((g.advance.setModel model).cell modelCell).key.isModel = false := hm
      rw [show ((g.advance.setModel model).cell modelCell).key = .model from key] at hm
      cases hm

private theorem Faithful.sweep (h : g.Faithful p lib) (layout : World.Layout p ⟨g, origin⟩)
    (roots : List CellId) : (g.sweep roots).Faithful p lib := by
  have swept := layout.sweep roots
  have live_iff (j : CellId) : (g.sweep roots).Live j ↔ g.Live j ∧ g.Reaches roots j :=
    Graph.live_sweep layout.indexed
  have kept (d : CellId) (hd : g.Reaches roots d) : (g.sweep roots).cell d = g.cell d :=
    Graph.cell_sweep fun _ => hd
  intro origin' layout' id hl hs
  obtain ⟨live, reaches⟩ := (live_iff id).mp hl
  have cell := kept id reaches
  have placed := layout.placed id live
  rw [cell] at hs
  refine (h origin layout id live hs).transfer ⟨_, cell⟩ (fun d hd => ?_)
    fun d hd hc => ?_
  · have used : (g.sweep roots).Live d :=
      (live_iff d).mpr ⟨placed.live_successors d hd, reaches.successor hd⟩
    exact layout'.origin_eq (swept.stems used)
  · have same := kept d (reaches.successor (List.mem_append_left _ hd))
    have hc : ((g.sweep roots).cell d).changedAt ≤ ((g.sweep roots).cell id).verifiedAt := hc
    rw [same, cell] at hc
    exact ⟨hc, by simp only [Graph.value, same]⟩

end Graph

namespace Linkage
open Recalc.Graph

/-- A recalculation keeps all cells faithful. -/
theorem faithful_regimen (L : Linkage) :
    L.Regimen (fun _ => True) fun s => s.graph.Faithful L.program L.library where
  course _ _ := Reading.meets_any _
  deps _ _ _ _ _ _ _ _ _ _ := trivial
  reads _ _ h := h
  call _ _ h := h
  intern _ _ key layout h := h.intern layout key
  store _ _ _ _ _ _ _ hr _ _ h := h.store hr
  confirm _ _ _ hc h := h.confirm hc

variable {L : Linkage} {w : World}

theorem refresh_faithful (layout : w.Layout L.program)
    (h : w.graph.Faithful L.program L.library) (model : Value) :
    (w.graph.refresh L.program L.library model).2.1.Faithful L.program L.library := by
  have read := L.faithful_regimen.upholds_readOutputs layout model (fun _ _ => trivial)
    (h.start layout model)
  obtain ⟨origin, layout', -, -⟩ := readOutputs_keeps layout model
  unfold Graph.refresh
  rcases hread : readOutputs L.program L.library model w.graph with ⟨e | cells, s⟩
  · rw [hread] at read
    exact read
  · rw [hread] at read layout'
    simp only
    split
    · exact read.sweep layout' _
    · exact read

/-- All cells are faithful after any recalculations. -/
theorem faithful_after (L : Linkage) (documents : List Value) :
    (after L.program L.library documents).Faithful L.program L.library := by
  have steps (g : Graph) (origin : CellId → Origin) (layout : World.Layout L.program ⟨g, origin⟩)
      (faithful : g.Faithful L.program L.library) :
      (documents.foldl (fun g v => (g.refresh L.program L.library v).2.1) g).Faithful L.program
        L.library := by
    induction documents generalizing g origin with
    | nil => exact faithful
    | cons v rest ih =>
      obtain ⟨origin', layout', -, -⟩ := refresh_keeps layout v
      exact ih _ origin' layout' (refresh_faithful layout faithful v)
  exact steps .empty _ (World.layout_empty L.program) (faithful_empty _ _)

end Linkage

end Recalc
