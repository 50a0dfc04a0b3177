import Recalc.Proofs.Graph.Trace

/-! Conditions on states that a recalculation keeps. It is enough that each of its steps does:
interning a cell, making a call, keeping a computed value, and confirming a cell none of whose reads
has changed. -/
namespace Recalc

namespace Linkage
open Recalc.Graph
open Round (Same)
variable (L : Linkage)

theorem Verifies.mono {L : Linkage} {b c : Nat} {verify : CellId → CellM Unit}
    (h : L.Verifies c verify) (hb : b ≤ c) : L.Verifies b verify :=
  fun k s origin id running live light =>
    h k s origin id running live (Nat.lt_of_lt_of_le light hb)

/-- A cell that is not current gets a new value: it had none, or a cell that it has read has changed
since it was last verified. The value comes from the course of its key. -/
structure Recomputes (fuel : Nat) (s : State) (id : CellId) (v : Value) (t : State)
    (origin origin' : CellId → Origin) : Prop where
  layout : World.Layout L.program ⟨s.graph, origin⟩
  live : s.graph.Live id
  light : (origin id).weight ≤ fuel
  isModel : (s.graph.cell id).key.isModel = false
  stale : ¬ s.graph.Current id
  reason : (s.graph.cell id).value = none ∨
    ∃ d ∈ (s.graph.cell id).deps, (s.graph.cell id).verifiedAt < (s.graph.cell d).changedAt
  run : (compute L.program L.library (Graph.verify L.program L.library fuel)
    (s.graph.cell id).key).run { s with reads := [] } = (.ok v, t)
  plays : L.Plays (origin id).weight (Graph.verify L.program L.library fuel) True
    ⟨s.graph, origin⟩ (Same fun _ => True)
    (Origin.course L.program L.library ((s.graph.cell id).key.map origin)) { s with reads := [] }
    (.ok v, t)
  later : World.Later (origin id).weight ⟨s.graph, origin⟩ ⟨t.graph, origin'⟩
  running : L.Running (origin id).weight t origin'

/-- A cell that is not current is confirmed: all cells that it has read are current, and none has
changed since it was last verified. -/
structure Confirms (s : State) (id : CellId) (origin : CellId → Origin) : Prop where
  layout : World.Layout L.program ⟨s.graph, origin⟩
  live : s.graph.Live id
  stale : ¬ s.graph.Current id
  isSome : (s.graph.cell id).value.isSome
  current : ∀ d ∈ (s.graph.cell id).deps, s.graph.Current d
  unchanged : ∀ d ∈ (s.graph.cell id).deps,
    (s.graph.cell d).changedAt ≤ (s.graph.cell id).verifiedAt

/-- A condition on states that is kept while cells of some class are brought up to date. All cells
that are read on the way are of the class. -/
structure Regimen (A : Origin → Prop) (I : State → Prop) : Prop where
  course : ∀ key, A (Origin.ofKey key) →
    (Origin.course L.program L.library key).Meets (fun _ => True) A fun _ => True
  deps : ∀ s origin id, World.Layout L.program ⟨s.graph, origin⟩ → I s → s.graph.Live id →
    (s.graph.cell id).value.isSome → A (origin id) → ∀ d ∈ (s.graph.cell id).deps, A (origin d)
  reads : ∀ s reads, I s → I { s with reads }
  call : ∀ s c, I s → I { s with calls := s.calls.push c }
  intern : ∀ s origin key, World.Layout L.program ⟨s.graph, origin⟩ → I s →
    I { s with graph := (s.graph.intern key).2 }
  store : ∀ fuel s id v t origin origin', L.Recomputes fuel s id v t origin origin' →
    A (origin id) → I s → I t → I { t with
      graph := t.graph.store id v t.reads.reverse
      computed := id :: t.computed }
  confirm : ∀ s id origin, L.Confirms s id origin → I s →
    I { s with graph := s.graph.confirm id }

variable {L} {A : Origin → Prop} {I : State → Prop} {α β : Type} {b : Nat} {s : State}
  {origin : CellId → Origin} {id : CellId} {verify : CellId → CellM Unit} {loud : Prop} {w : World}
  {R : World → α → β → Prop}

/-- A condition is kept along the steps of a computation. -/
theorem Plays.upholds {y : Reading β} {out : Except EvalError α × State} (H : L.Regimen A I)
    (hv : ∀ s id o, L.Visits b s id o → A o → I s → I ((verify id).run s).2)
    (h : L.Plays b verify loud w R y s out) (hm : y.Meets (fun _ => True) A fun _ => True)
    (hi : I s) : I out.2 := by
  induction h with
  | done | fail => exact hi
  | intern key running _ ih =>
    obtain ⟨origin, running⟩ := running
    exact ih hm (H.intern _ origin key running.layout hi)
  | call c _ _ ih => exact ih hm (H.call _ c hi)
  | stop visits run =>
    have after := hv _ _ _ visits hm.1 hi
    rw [run] at after
    exact after
  | read visits run _ ih =>
    have after := hv _ _ _ visits hm.1 hi
    rw [run] at after
    exact ih (hm.2 _ trivial) (H.reads _ _ after)

/-- What bringing cells up to date keeps, bringing a cell that is visited up to date keeps. -/
theorem Visits.upholds {c : Nat} {o : Origin} (visits : L.Visits b s id o) (hb : b ≤ c)
    (hi : ∀ b s origin id, L.Running b s origin → s.graph.Live id → A (origin id) →
      (origin id).weight < c → I s → I ((verify id).run s).2)
    (ho : A o) (hs : I s) : I ((verify id).run s).2 := by
  obtain ⟨origin, running⟩ := visits.running
  have same : origin id = o := running.layout.origin_eq visits.stems
  subst same
  exact hi _ s origin id running visits.stems.live ho (Nat.lt_of_lt_of_le visits.light hb) hs

/-! ### Bringing cells up to date -/

/-- What checking cells in order finds: one of them has changed, or all are current and none has. -/
theorem anyChanged_finds {c : Nat} (hv : L.Verifies c verify) (running : L.Running b s origin)
    (since : Revision) {ids : List CellId}
    (hd : ∀ d ∈ ids, s.graph.Live d ∧ (origin d).weight < c) {changed : Bool} {t : State}
    (h : (anyChanged verify since ids).run s = (.ok changed, t)) :
    if changed then ∃ d ∈ ids, since < (t.graph.cell d).changedAt
    else ∀ d ∈ ids, t.graph.Current d ∧ (t.graph.cell d).changedAt ≤ since := by
  induction ids generalizing s origin with
  | nil =>
    cases h
    simp
  | cons d rest ih =>
    obtain ⟨live, light⟩ := hd d List.mem_cons_self
    obtain ⟨origin', brought, running', -, ends⟩ := hv b s origin d running live light
    have later := brought.mono (Nat.succ_le_of_lt light)
    rcases hrun : (verify d).run s with ⟨r | u, t'⟩
    · rw [anyChanged_run_error since rest hrun] at h
      cases h
    · rw [hrun] at later running' ends
      rw [anyChanged_run_ok since rest hrun] at h
      by_cases found : since < (t'.graph.cell d).changedAt
      · rw [if_pos found] at h
        cases h
        exact ⟨d, List.mem_cons_self, found⟩
      · rw [if_neg found] at h
        have others : ∀ d ∈ rest, t'.graph.Live d ∧ (origin' d).weight < c :=
          later.forall_live (P := (·.weight < c)) fun d hmem => hd d (List.mem_cons_of_mem _ hmem)
        have finds := ih running' others h
        cases changed with
        | true =>
          obtain ⟨d', hd', hc⟩ := finds
          exact ⟨d', List.mem_cons_of_mem _ hd', hc⟩
        | false =>
          obtain ⟨_, later', -, -, -⟩ := anyChanged_checks (hv.after _) running' since others
          rw [h] at later'
          have live' := later.live d live
          have kept : t.graph.cell d = t'.graph.cell d := later'.kept d live' (.inl ends)
          refine List.forall_mem_cons.mpr ⟨⟨later'.current live' ends, ?_⟩, finds⟩
          rw [kept]
          exact Nat.le_of_not_lt found

/-- What verifying cells of the class keeps, checking them in order keeps. -/
theorem anyChanged_upholds {c : Nat} (hv : L.Verifies c verify)
    (hi : ∀ b s origin id, L.Running b s origin → s.graph.Live id → A (origin id) →
      (origin id).weight < c → I s → I ((verify id).run s).2)
    (running : L.Running b s origin) (since : Revision) {ids : List CellId}
    (hd : ∀ d ∈ ids, s.graph.Live d ∧ (origin d).weight < c ∧ A (origin d)) (hs : I s) :
    I ((anyChanged verify since ids).run s).2 := by
  induction ids generalizing s origin with
  | nil => exact hs
  | cons d rest ih =>
    obtain ⟨live, light, mem⟩ := hd d List.mem_cons_self
    obtain ⟨origin', brought, running', -, -⟩ := hv b s origin d running live light
    have later := brought.mono (Nat.succ_le_of_lt light)
    have after := hi b s origin d running live mem light hs
    rcases hrun : (verify d).run s with ⟨r | u, t⟩
    · rw [anyChanged_run_error since rest hrun]
      rw [hrun] at after
      exact after
    · rw [hrun] at later running' after
      rw [anyChanged_run_ok since rest hrun]
      split
      · exact after
      · exact ih running' (later.forall_live (P := fun o => o.weight < c ∧ A o)
          fun d hmem => hd d (List.mem_cons_of_mem _ hmem)) after

namespace Regimen
variable (H : L.Regimen A I)
include H

/-- What verifying lighter cells keeps, computing a cell keeps. -/
theorem upholds_recompute {fuel : Nat}
    (hi : ∀ b s origin id, L.Running b s origin → s.graph.Live id → A (origin id) →
      (origin id).weight < fuel → I s →
      I ((Graph.verify L.program L.library fuel id).run s).2)
    (running : L.Running b s origin) (hl : s.graph.Live id) (mem : A (origin id))
    (hw : (origin id).weight ≤ fuel) (hm : (s.graph.cell id).key.isModel = false)
    (hc : ¬ s.graph.Current id)
    (reason : (s.graph.cell id).value = none ∨
      ∃ d ∈ (s.graph.cell id).deps, (s.graph.cell id).verifiedAt < (s.graph.cell d).changedAt)
    (hs : I s) : I ((recompute (compute L.program L.library
      (Graph.verify L.program L.library fuel)) id).run s).2 := by
  have verifies := (L.verifies fuel).mono hw
  have start : L.Running (origin id).weight { s with reads := [] } origin :=
    ⟨running.layout, running.model, by simp⟩
  have stems : origin id = Origin.ofKey ((s.graph.cell id).key.map origin) :=
    (running.layout.placed id hl).origin_ofKey
  have plays := Enacts.compute (w := ⟨s.graph, origin⟩) verifies trivial running.layout hl hm
    { s with reads := [] } origin (.refl _ _) start
    (stems ▸ Origin.course_light L.linked.lawful _)
  have after := plays.upholds H (fun _ _ _ visits => visits.upholds hw hi)
    (H.course _ (stems ▸ mem)) (H.reads _ _ hs)
  obtain ⟨origin', later, running', -⟩ := keeps_compute (w := ⟨s.graph, origin⟩)
    (verifies.after _) running.layout hl hm { s with reads := [] } origin (.refl _ _) start
  rcases hrun : (compute L.program L.library (Graph.verify L.program L.library fuel)
    (s.graph.cell id).key).run { s with reads := [] } with ⟨r | v, t⟩
  · rw [recompute_run_error hrun]
    rw [hrun] at after
    exact H.reads _ _ after
  · rw [hrun] at after plays later running'
    have recomputes : L.Recomputes fuel s id v t origin origin' :=
      ⟨running.layout, hl, hw, hm, hc, reason, hrun, plays, later, running'⟩
    rw [recompute_run_ok hrun]
    exact H.reads _ s.reads (H.store fuel s id v t origin origin' recomputes mem hs after)

/-- Checking what a cell has read, and then computing or confirming it, keeps the condition. -/
theorem upholds_check {fuel : Nat}
    (hi : ∀ b s origin id, L.Running b s origin → s.graph.Live id → A (origin id) →
      (origin id).weight < fuel → I s →
      I ((Graph.verify L.program L.library fuel id).run s).2)
    (running : L.Running b s origin) (hl : s.graph.Live id) (mem : A (origin id))
    (hw : (origin id).weight ≤ fuel) (hm : (s.graph.cell id).key.isModel = false)
    (hc : ¬ s.graph.Current id) (hsome : (s.graph.cell id).value.isSome) (hs : I s) :
    I ((do
      if ← anyChanged (Graph.verify L.program L.library fuel) (s.graph.cell id).verifiedAt
          (s.graph.cell id).deps then
        recompute (compute L.program L.library (Graph.verify L.program L.library fuel)) id
      else modify fun s => { s with graph := s.graph.confirm id } : CellM Unit).run s).2 := by
  have placed := running.layout.placed id hl
  have verifies := L.verifies fuel
  have light : ∀ d ∈ (s.graph.cell id).deps, s.graph.Live d ∧ (origin d).weight < fuel :=
    fun d hd => ⟨(placed.deps d hd).1, Nat.lt_of_lt_of_le (placed.deps d hd).2 hw⟩
  have lighter := verifies.after ⟨s.graph, origin⟩ |>.mono hw
  obtain ⟨origin', later, running', -, -⟩ := anyChanged_checks lighter running
    (s.graph.cell id).verifiedAt placed.deps
  have after := anyChanged_upholds verifies hi running (s.graph.cell id).verifiedAt
    (fun d hd => ⟨(light d hd).1, (light d hd).2,
      H.deps s origin id running.layout hs hl hsome mem d hd⟩) hs
  rcases hany : (anyChanged (Graph.verify L.program L.library fuel) (s.graph.cell id).verifiedAt
    (s.graph.cell id).deps).run s with ⟨e | changed, t⟩
  · rw [run_bind_error hany]
    rw [hany] at after
    exact after
  · have finds := anyChanged_finds verifies running _ light hany
    rw [hany] at later running' after
    have later : World.Later (origin id).weight ⟨s.graph, origin⟩ ⟨t.graph, origin'⟩ := later
    have same : origin' id = origin id := later.origin id hl
    have hl' : t.graph.Live id := later.live id hl
    have hcell : t.graph.cell id = s.graph.cell id := later.kept id hl (.inr (Nat.le_refl _))
    have hc' : ¬ t.graph.Current id := later.not_current hl (Nat.le_refl _) hc
    rw [← hcell] at finds hm hsome
    rw [run_bind_ok hany]
    cases changed with
    | true =>
      exact H.upholds_recompute hi running' hl' (same ▸ mem) (same ▸ hw) hm hc' (.inr finds) after
    | false =>
      exact H.confirm t id origin' ⟨running'.layout, hl', hc', hsome, fun d hd => (finds d hd).1,
        fun d hd => (finds d hd).2⟩ after

/-- Bringing a cell of the class up to date keeps the condition. -/
theorem upholds_verify (fuel : Nat) : ∀ b s origin id, L.Running b s origin → s.graph.Live id →
    A (origin id) → (origin id).weight < fuel → I s →
    I ((Graph.verify L.program L.library fuel id).run s).2 := by
  induction fuel with
  | zero => exact fun b s origin id _ _ _ hw => absurd hw (Nat.not_lt_zero _)
  | succ fuel ih =>
    intro b s origin id running hl mem hw hs
    have hw := Nat.le_of_lt_succ hw
    rw [verify_succ]
    rcases bring_cases L.program L.library (Graph.verify L.program L.library fuel)
      running.layout.indexed hl with ⟨-, hrun⟩ | ⟨hm, hc, ⟨none, hrun⟩ | ⟨hsome, hrun⟩⟩
    · rw [hrun]
      exact hs
    · rw [hrun]
      exact H.upholds_recompute ih running hl mem hw hm hc (.inl none) hs
    · rw [hrun]
      exact H.upholds_check ih running hl mem hw hm hc hsome hs

/-- Playing a reading of origins of the class keeps the condition. -/
theorem upholds_plays {fuel : Nat} {y : Reading β} {out : Except EvalError α × State}
    (h : L.Plays b (Graph.verify L.program L.library fuel) loud w R y s out) (hb : b ≤ fuel)
    (hm : y.Meets (fun _ => True) A fun _ => True) (hs : I s) : I out.2 :=
  h.upholds H (fun _ _ _ visits => visits.upholds (A := A) (I := I) hb (H.upholds_verify fuel)) hm hs

/-! ### Outputs -/

private theorem upholds_readOutput {s : State} {o : String × NodeId}
    (running : L.Running (depthBound L.program) s origin) (ho : o ∈ L.program.outputs)
    (mem : A (Origin.ofKey (.node o.2 []))) (hs : I s) :
    I ((readOutput L.program L.library o.2).run s).2 := by
  have admits : World.Admits L.program ⟨s.graph, origin⟩ (.node o.2 []) := by
    refine ⟨rfl, by simp [CellKey.references], ?_⟩
    rintro m env ⟨⟩
    exact ⟨⟨.nil, L.linked.covers_output ho _⟩, by simp⟩
  have light : (Origin.ofKey (.node o.2 [])).weight < depthBound L.program := by
    refine Nat.lt_of_le_of_lt (Origin.weight_ofKey_le (n := 0) (by simp [CellKey.references])) ?_
    rw [Nat.zero_add]
    exact Nat.pow_lt_pow_right (by decide) (Nat.lt_succ_of_lt (L.linked.lawful.output_lt o ho))
  have interned := H.intern s origin (.node o.2 []) running.layout hs
  obtain ⟨origin', layout, later, live, same⟩ :=
    running.layout.intern admits (depthBound L.program)
  rcases hi : s.graph.intern (.node o.2 []) with ⟨id, g⟩
  simp only [hi] at interned layout later live same
  have same : origin' id = Origin.ofKey (.node o.2 []) := same
  have running' : L.Running (depthBound L.program) { s with graph := g } origin' :=
    running.later later layout rfl
  have start : (internCell (.node o.2 [])).run s = (.ok id, { s with graph := g }) := by
    have run : (internCell (.node o.2 [])).run s = (.ok (s.graph.intern (.node o.2 [])).1,
        { s with graph := (s.graph.intern (.node o.2 [])).2 }) := rfl
    rw [run, hi]
  have after := H.upholds_verify (depthBound L.program) _ _ origin' id running' live (same ▸ mem)
    (same ▸ light) interned
  rcases hrun : (Graph.verify L.program L.library (depthBound L.program) id).run
    { s with graph := g } with ⟨r | u, t⟩
  · have run : (readOutput L.program L.library o.2).run s = (.error r, t) :=
      (run_bind_ok start).trans (run_bind_error (run_bind_error hrun))
    rw [run]
    rw [hrun] at after
    exact after
  · have pulled : (pull (Graph.verify L.program L.library (depthBound L.program)) id).run
          { s with graph := g } = (.ok (t.graph.value id), { t with reads := id :: t.reads }) :=
      run_bind_ok hrun
    have run : (readOutput L.program L.library o.2).run s =
        (.ok (id, t.graph.value id), { t with reads := id :: t.reads }) :=
      (run_bind_ok start).trans (run_bind_ok pulled)
    rw [run]
    rw [hrun] at after
    exact H.reads _ _ after

/-- Reading the outputs keeps the condition. -/
theorem upholds_readOutputs {w : World} (layout : w.Layout L.program) (model : Value)
    (mem : ∀ o ∈ L.program.outputs, A (Origin.ofKey (.node o.2 [])))
    (hs : I { graph := w.graph.advance.setModel model }) :
    I (readOutputs L.program L.library model w.graph).2 := by
  have outputs (os : List (String × NodeId)) (hos : ∀ o ∈ os, o ∈ L.program.outputs) (s : State)
      (origin : CellId → Origin) (running : L.Running (depthBound L.program) s origin) (hs : I s) :
      I ((os.mapM fun o => readOutput L.program L.library o.2).run s).2 := by
    induction os generalizing s origin with
    | nil => exact hs
    | cons o rest ih =>
      have ho := hos o List.mem_cons_self
      have after := H.upholds_readOutput running ho (mem o ho) hs
      obtain ⟨origin', -, running', -⟩ := keeps_readOutput (w := ⟨s.graph, origin⟩)
        ((L.verifies _).after _) ho s origin (.refl _ _) running
      have running' : L.Running _ ((readOutput L.program L.library o.2).run s).2 origin' := running'
      rw [List.mapM_cons]
      rcases hrun : (readOutput L.program L.library o.2).run s with ⟨e | x, t⟩
      · rw [run_bind_error hrun]
        rw [hrun] at after
        exact after
      · rw [hrun] at after running'
        have others := ih (fun o hm => hos o (List.mem_cons_of_mem _ hm)) t origin' running' after
        rw [run_bind_ok hrun]
        rcases hrest : (rest.mapM fun o => readOutput L.program L.library o.2).run t
          with ⟨e | xs, u⟩
        · rw [run_bind_error hrest]
          rw [hrest] at others
          exact others
        · rw [run_bind_ok hrest]
          rw [hrest] at others
          exact others
  obtain ⟨start, current⟩ := layout.start model
  exact outputs _ (fun _ ho => ho) _ w.origin ⟨start, current, by simp⟩ hs

end Regimen

end Linkage

end Recalc
