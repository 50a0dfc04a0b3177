import Recalc.Instance.Basic
import Recalc.Proofs.Graph.Arena
import Recalc.Proofs.Pass.Safety

/-! Nothing is missing while a compiled model is evaluated: with a library that has its functions,
every binding, context and function that evaluation looks for is there, with either backend and after
any recalculations. -/
namespace Recalc

/-- What a backend keeps after recalculations over documents, one after the other. -/
def Engine.after (p : Program) (lib : Library) (documents : List Value) : Engine :=
  documents.foldl (fun e v => (e.refresh p lib v).2.1) (.start p.backend)

variable {p : Program} {lib : Library}

private theorem Engine.after_simple (hb : p.backend = .simple) (documents : List Value) :
    Engine.after p lib documents = .simple := by
  have steps : documents.foldl (fun e v => (e.refresh p lib v).2.1) Engine.simple = .simple := by
    induction documents with
    | nil => rfl
    | cons v rest ih => exact ih
  rw [Engine.after, hb]
  exact steps

private theorem Engine.after_optimizing (hb : p.backend = .optimizing) (documents : List Value) :
    Engine.after p lib documents = .optimizing (Graph.after p lib documents) := by
  have steps (g : Graph) : documents.foldl (fun e v => (e.refresh p lib v).2.1) (.optimizing g) =
      Engine.optimizing (documents.foldl (fun g v => (g.refresh p lib v).2.1) g) := by
    induction documents generalizing g with
    | nil => rfl
    | cons v rest ih => exact ih (g.refresh p lib v).2.1
  rw [Engine.after, hb]
  exact steps .empty

/-- Every failure of a recalculation is for a reason of the linkage. -/
theorem Linkage.refresh_fails (L : Linkage) (documents : List Value) {model : Value} {e : EvalError}
    (h : ((Engine.after L.program L.library documents).refresh L.program L.library model).1 =
      .error e) : L.fails e := by
  cases hb : L.program.backend with
  | simple =>
    rw [Engine.after_simple hb] at h
    exact Pass.run_fails h
  | optimizing =>
    rw [Engine.after_optimizing hb] at h
    obtain ⟨origin, layout⟩ := L.layout_after documents
    obtain ⟨-, -, -, ends⟩ := L.refresh_keeps layout model
    rw [show ((Graph.after L.program L.library documents).refresh L.program L.library model).1 =
      .error e from h] at ends
    exact ends

variable {m : Model} {backend : Backend}

/-- Every cell of a node binds exactly the functions that the node reads, in increasing order of
their numbers. -/
def Graph.BindsFree (p : Program) (g : Graph) : Prop :=
  ∀ id n env, (g.cell id).key = .node n env →
    env.Pairwise (fun a b => a.1 < b.1) ∧ ∀ l, l ∈ env.map Prod.fst ↔ l ∈ p.free n

private theorem Graph.bindsFree_of_layout {w : World} (h : w.Layout p) : w.graph.BindsFree p := by
  intro id n env hk
  have live : w.graph.Live id := by
    rw [Graph.Live, hk]
    rfl
  have exact := (h.placed id live).exact n env hk
  exact ⟨exact.sorted, exact.mem_free⟩

/-- With a library that has the functions of a compiled model, a recalculation by either backend,
after any others, fails only for the values that it meets: never for a function that is not bound, a
context that is not there, or a function that the library does not have. A pass that fails wherever a
function that a node reads is not bound gives the same. Every cell of a node, in the graphs before
and after sweeps, binds exactly what the node reads. -/
theorem refresh_finds_all (hc : Program.compile m backend = .ok p)
    (hl : ∀ f ∈ p.functions, lib.contains f = true) (documents : List Value) (model : Value) :
    AboutValues ((Engine.after p lib documents).refresh p lib model).1 ∧
      Pass.runChecked p lib model = Pass.run p lib model ∧
      ∀ g, Graph.Arises p lib g → g.BindsFree p := by
  have linked := Program.linked_of_compile hc
  refine ⟨?_, Pass.runChecked_eq linked, ?_⟩
  · intro e h
    exact (Linkage.complete linked hl).refresh_fails documents h
  · intro g hg
    obtain ⟨origin, layout⟩ := Graph.layout_of_arises (L := .any linked lib) hg
    exact Graph.bindsFree_of_layout layout

theorem refresh_marking_finds_all :
    (∀ f ∈ Graph.markingProgram.functions, Graph.markLibrary.contains f = true) ∧
      AboutValues ((Engine.after Graph.markingProgram Graph.markLibrary
        Graph.markedDocuments).refresh Graph.markingProgram Graph.markLibrary (.str "")).1 ∧
      Pass.runChecked Graph.markingProgram Graph.markLibrary (.str "") =
        Pass.run Graph.markingProgram Graph.markLibrary (.str "") ∧
      ∀ g, Graph.Arises Graph.markingProgram Graph.markLibrary g →
        g.BindsFree Graph.markingProgram := by
  have complete : ∀ f ∈ Graph.markingProgram.functions, Graph.markLibrary.contains f = true := by
    decide
  exact ⟨complete, refresh_finds_all Graph.compile_marking complete Graph.markedDocuments (.str "")⟩

end Recalc
