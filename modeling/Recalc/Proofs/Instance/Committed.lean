import Recalc.Proofs.Instance.Steps
import Recalc.Proofs.Program.Table

/-! The simple backend at work. In every state that an instance can reach, its outputs belong to the
committed document, and a step that fails leaves no trace but that it ends a batch. -/
namespace Recalc.Instance

/-- The document that the outputs belong to: the one from before the batch in progress, if any. -/
def committed (i : Instance) : Value := i.snapshot.getD i.model

/-- The states that an instance of a program over a document can reach. -/
def Reachable (p : Program) (lib : Library) (v : Value) (j : Instance) : Prop :=
  ∃ i actions, create p v lib = .ok i ∧ i.perform actions = j

variable {m : Model} {p : Program} {lib : Library} {v : Value} {j : Instance}

private theorem perform_simple (hf : j.Follows p lib (· = .simple) j.view)
    (hc : j.view.Committed p lib) (actions : List Action) :
    (j.perform actions).Follows p lib (· = .simple) (j.view.perform p lib actions) :=
  (hf.perform (faithful_simple p lib fun _ => True) hc ⟨trivial, trivial⟩ actions
    fun _ _ _ _ _ _ _ _ => trivial).1

/-- Outputs are committed in every state that an instance can reach. -/
theorem Reachable.follows (hc : Program.compile m .simple = .ok p) (hj : Reachable p lib v j) :
    j.Follows p lib (· = .simple) j.view ∧ j.view.Committed p lib := by
  obtain ⟨i, actions, hi, rfl⟩ := hj
  have hg : Engine.start p.backend = .simple := by rw [Program.backend_of_compile hc]; rfl
  obtain ⟨hf, hpass⟩ := follows_create (faithful_simple p lib fun _ => True) hg trivial hi
  have committed : i.view.Committed p lib := by rw [hf.view]; exact hpass
  rw [← hf.view] at hf
  have hf' := perform_simple hf committed actions
  refine ⟨⟨hf'.program, hf'.library, hf'.engine, rfl⟩, ?_⟩
  rw [hf'.view]
  exact committed.perform actions

private theorem run_refused {s : View} {a : Action} {e : RuntimeError}
    (hf : j.Follows p lib (· = .simple) s) (hc : s.Committed p lib)
    (h : (a.run.run j).1 = .error e) :
    (s.step p lib a).1 = false ∧ (a.run.run j).2.view = (s.step p lib a).2 := by
  have hstep := hf.step (faithful_simple p lib fun _ => True) hc ⟨trivial, trivial⟩
    (a := a) fun _ _ _ _ => trivial
  rw [h] at hstep
  exact ⟨hstep.1.symm, hstep.2.view⟩

/-- Copies a list, and has a setter for it. -/
def listing : Model :=
  ⟨[("items", .output (.iterate .map (.get .root (.literal (.str "xs"))) 0 (.val 0) none)),
    ("setItems", .setter [.field "xs"])], by decide⟩

def listingProgram : Program where
  backend := .simple
  entries := #[⟨.root, [], []⟩, ⟨.literal (.str "xs"), [], []⟩, ⟨.get 0 1, [], []⟩,
    ⟨.val 0, [0], []⟩, ⟨.iterate .map 2 0 3 none, [], []⟩]
  outputs := [("items", 4)]
  mutators := [("setItems", ⟨.set, [.field "xs"]⟩)]
  functions := []

def listingInstance : Instance where
  program := listingProgram
  library := .empty
  engine := .simple
  model := .obj [("xs", .arr [.int 1])]
  outputs := [.arr [.int 1]]
  snapshot := none
  work := ⟨5, #[]⟩
  journal := #[]

theorem compile_listing : Program.compile listing .simple = .ok listingProgram := by
  with_unfolding_all rfl

private theorem reachable_listing :
    Reachable listingProgram .empty (.obj [("xs", .arr [.int 1])]) listingInstance :=
  ⟨listingInstance, [], rfl, rfl⟩

/-- The outputs of a reachable instance belong to its committed document. What fails changes nothing
that is shown, except that the end of a batch goes back to where the batch started; and going back
never fails. -/
theorem reachable_committed (hc : Program.compile m .simple = .ok p) (hj : Reachable p lib v j) :
    (Pass.run p lib j.committed).1 = .ok j.outputs ∧
    (∀ (a : Action) e, (a.run.run j).1 = .error e → ¬ (a = .endBatch ∧ j.isBatching) →
      (a.run.run j).2.view = j.view) ∧
    (∀ during e, j.isBatching = false → (∀ a ∈ during, a ≠ Action.endBatch) →
      (Action.endBatch.run.run (j.perform (.startBatch :: during))).1 = .error e →
      (Action.endBatch.run.run (j.perform (.startBatch :: during))).2.view =
        ⟨j.model, j.outputs, none⟩) ∧
    ∀ next snapshot, (recalculate { (recalculate { j with model := next, snapshot }).2 with
      model := j.committed }).1 = .ok j.outputs := by
  obtain ⟨hf, hcommitted⟩ := hj.follows hc
  refine ⟨hcommitted, fun a e he ha => ?_, fun during e idle hd he => ?_, fun next snapshot => ?_⟩
  · obtain ⟨refused, hview⟩ := run_refused hf hcommitted he
    rw [hview]
    refine View.step_refused refused fun hend => ?_
    cases hs : j.snapshot with
    | none => exact hs
    | some before => exact absurd ⟨hend, by simp [isBatching, hs]⟩ ha
  · obtain ⟨refused, hview⟩ := run_refused (perform_simple hf hcommitted (.startBatch :: during))
      (hcommitted.perform _) he
    rw [hview]
    exact View.step_endBatch (by simpa [isBatching, view] using idle) hd refused
  · have hk := (hf.withModel next).withSnapshot snapshot
    have simple := faithful_simple p lib fun _ => True
    have hk' := (hk.recalculate simple trivial).1.withModel j.committed
    exact ((hk'.recalculate simple trivial).2 j.outputs).mpr hcommitted

theorem endBatch_listing : Program.compile listing .simple = .ok listingProgram ∧
    Reachable listingProgram .empty (.obj [("xs", .arr [.int 1])]) listingInstance ∧
    (Action.endBatch.run.run
      (listingInstance.perform [.startBatch, .mutate (.set "setItems" [.null])])).2.view =
        ⟨.obj [("xs", .arr [.int 1])], [.arr [.int 1]], none⟩ := by
  have fails : (Action.endBatch.run.run
      (listingInstance.perform [.startBatch, .mutate (.set "setItems" [.null])])).1 =
        .error (.eval (.type (.operand .map .array .null))) := rfl
  obtain ⟨-, -, undone, -⟩ := reachable_committed compile_listing reachable_listing
  exact ⟨compile_listing, reachable_listing,
    undone [.mutate (.set "setItems" [.null])] _ rfl (by simp) fails⟩

end Recalc.Instance
