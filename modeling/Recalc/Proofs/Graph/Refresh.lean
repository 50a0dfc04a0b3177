import Recalc.Proofs.Graph.Verify

/-! Whole recalculations. The outputs that a graph gives are the meanings of their origins over the
document, whatever the recalculations before it were, and the graph keeps its invariant, whether the
recalculation succeeds or fails. -/
namespace Recalc

private theorem Origin.mem_reads_outputs {p : Program} {q : Origin → Except EvalError Value}
    {d : Origin}
    (h : d ∈ (outputs p).reads q) : ∃ o ∈ p.outputs, d = .of (.node o.2 []) := by
  let P (d : Origin) : Prop := ∃ o ∈ p.outputs, d = .of (.node o.2 [])
  have related : (Reading.meets (fun _ => True) P).rel (fun vs => ∀ v ∈ vs, True) (outputs p)
      (p.outputs.mapM fun _ => .ok Value.null) :=
    (Reading.meets (fun _ => True) P).mapM fun o ho =>
      ⟨⟨o, ho, rfl⟩, fun v _ => Reading.Meets.pure trivial⟩
  have meets : (outputs p).Meets (fun _ => True) P (fun vs => ∀ v ∈ vs, True) := related
  exact (meets.run fun _ _ _ _ => trivial).1 d h

/-- All outputs are light enough for the fuel that they are read with. -/
theorem Origin.weight_lt_depthBound {p : Program} (hl : p.Lawful) {o : String × NodeId}
    (ho : o ∈ p.outputs) : (Origin.of (.node o.2 [])).weight < Graph.depthBound p := by
  have light : (Origin.of (.node o.2 [])).Light (fun _ => True) (0 + Nat.pow 4 o.2) :=
    light_node (by simp [CellEnv.Within]) o.2
  have hlt : Nat.pow 4 o.2 < Graph.depthBound p :=
    Nat.pow_lt_pow_right (by decide) (Nat.lt_succ_of_lt (hl.output_lt o ho))
  have hle := light.2
  omega

namespace Round
open Recalc.Graph
variable {K : Round} {b : Nat} {w : World}

theorem Sim.mapM {α β γ : Type} {f : α → CellM β} {g : α → Reading γ} {proj : β → γ} {as : List α}
    (h : ∀ a ∈ as, K.Sim b 0 w (fun _ x y => proj x = y) (f a) (g a)) :
    K.Sim b 0 w (fun _ xs ys => xs.map proj = ys) (as.mapM f) (as.mapM g) := by
  have loop (acc : List β) (acc' : List γ) (ha : acc.map proj = acc') :
      K.Sim b 0 w (fun _ xs ys => xs.map proj = ys) (List.mapM.loop f as acc)
        (List.mapM.loop g as acc') := by
    induction as generalizing w acc acc' with
    | nil => exact Sim.pure fun _ _ _ => by simp [← ha]
    | cons a rest ih =>
      refine Sim.bind (h a List.mem_cons_self) fun w' x y hl _ hxy => ?_
      refine ih (fun a ha => (h a (List.mem_cons_of_mem _ ha)).later hl) (x :: acc) (y :: acc') ?_
      rw [List.map_cons, hxy, ha]
  exact loop [] [] rfl

private theorem Sim.readOutput (hb : b ≤ depthBound K.program) (node : NodeId) :
    K.Sim b 0 w (fun _ x y => x.2 = y) (readOutput K.program K.library node)
      (Origin.access.pull (.of (.node node []))) := by
  have follows : K.Sim b 0 w (fun _ x y => x.2 = y) (Graph.readOutput K.program K.library node) (do
      let o ← Origin.access.intern (.node node [])
      let v ← Origin.access.pull o
      return v) := by
    refine Sim.bind (Sim.intern (.node node []) rfl (by simp [CellKey.Within, CellEnv.Within]))
      fun w₁ id o _ _ ho => ?_
    refine Sim.bind (Sim.pull ((verifies K _).mono hb) ho) fun w₂ v v' _ _ hv => ?_
    exact Sim.pure fun _ _ _ => hv.1.1
  exact follows

end Round

namespace World
open Recalc.Graph
variable {H : History} {w : World} {model : Value}

/-- The recalculation over a new document. -/
def round (H : History) (w : World) (model : Value) (hm : H.domain model) (needed : Origin → Prop)
    (hn : ∀ o d, needed o → d ∈ (Origin.plan H.program H.library o).reads
      (Origin.meaning H.program H.library model) → needed d) : Round where
  history := H.record (w.graph.revision + 1) model hm
  revision := w.graph.revision + 1
  needed := needed
  needed_reads o d ho hd := by
    rw [History.meaning_record_self] at hd
    exact hn o d ho hd

/-- Reading the outputs over a new document gives their meanings, or the first error. -/
theorem Valid.readOutputs_run (h : w.Valid H) (hm : H.domain model) (needed : Origin → Prop)
    (hn : ∀ o d, needed o → d ∈ (Origin.plan H.program H.library o).reads
      (Origin.meaning H.program H.library model) → needed d)
    (ho : ∀ d ∈ (Origin.outputs H.program).reads (Origin.meaning H.program H.library model),
      needed d) :
    ∃ origin, (round H w model hm needed hn).Running 0
        (readOutputs H.program H.library model w.graph).2 origin ∧
      (readOutputs H.program H.library model w.graph).1.map (List.map Prod.snd) =
        (Origin.outputs H.program).run (Origin.meaning H.program H.library model) := by
  let K := round H w model hm needed hn
  have hnow : K.now = Origin.meaning H.program H.library model := H.meaning_record_self hm
  obtain ⟨hvalid, hcurrent⟩ := h.start hm
  have hstart : K.Running 0 { graph := w.graph.advance.setModel model } w.origin :=
    ⟨hvalid, rfl, hcurrent, by simp, by simp, by simp, by simp, by simp⟩
  have hsim : K.Sim (depthBound K.program) 0 ⟨w.graph.advance.setModel model, w.origin⟩
      (fun _ xs ys => xs.map Prod.snd = ys)
      (H.program.outputs.mapM fun o => readOutput H.program H.library o.2)
      (Origin.outputs H.program) :=
    Round.Sim.mapM fun o _ => Round.Sim.readOutput (Nat.le_refl _) o.2
  have hfollows : K.Follows (depthBound K.program) 0 (fun _ xs ys => xs.map Prod.snd = ys)
      (Origin.outputs H.program) { graph := w.graph.advance.setModel model } w.origin
      (Graph.readOutputs H.program H.library model w.graph) := by
    refine hsim _ w.origin (.refl _ _) hstart fun d hd => ⟨ho d (hnow ▸ hd), ?_⟩
    obtain ⟨o, hmem, rfl⟩ := Origin.mem_reads_outputs hd
    exact Origin.weight_lt_depthBound H.lawful hmem
  rcases hrun : Graph.readOutputs H.program H.library model w.graph with ⟨r, s⟩
  rw [hrun] at hfollows
  rw [← hnow]
  cases r with
  | error e =>
    obtain ⟨origin, -, hr, he⟩ := hfollows
    exact ⟨origin, hr, he.symm⟩
  | ok cells =>
    obtain ⟨origin, -, hr, -, values, hv, rfl⟩ := hfollows
    exact ⟨origin, hr, hv.symm⟩

/-- A recalculation gives the meanings of the outputs, or the first error, and keeps the
invariant. -/
theorem Valid.refresh (h : w.Valid H) (hm : H.domain model) :
    (w.graph.refresh H.program H.library model).1 =
        (Origin.outputs H.program).run (Origin.meaning H.program H.library model) ∧
      ∃ origin, World.Valid (H.record (w.graph.revision + 1) model hm)
        ⟨(w.graph.refresh H.program H.library model).2.1, origin⟩ := by
  obtain ⟨origin, hr, hresult⟩ := h.readOutputs_run hm (fun _ => True)
    (fun _ _ _ _ => trivial) fun _ _ => trivial
  have hvalid := hr.valid
  unfold Graph.refresh
  rcases hread : Graph.readOutputs H.program H.library model w.graph with ⟨r, s⟩
  rw [hread] at hvalid hresult
  rw [← hresult]
  cases r with
  | error e => exact ⟨rfl, origin, hvalid⟩
  | ok cells =>
    refine ⟨rfl, origin, ?_⟩
    simp only
    split
    · exact hvalid.sweep _
    · exact hvalid

end World

end Recalc
