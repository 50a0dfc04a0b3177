import Mathlib.Logic.Equiv.Basic
import Recalc.Proofs.Graph.Renaming.Run
import Recalc.Proofs.Instance.Tasks
import Recalc.Proofs.Model.Renaming
import Recalc.Proofs.Pass.Renaming

/-! Instances of a program with its functions renumbered. Whatever clients do, they are shown the
same, and the recalculations do the same work. -/
namespace Recalc
variable {N : Renaming}

/-! ### Engines -/

/-- Engines of the two programs that keep the same, up to the numbers of functions. -/
inductive Engine.Renames (N : Renaming) : Engine → Engine → Prop
  | simple : Renames N .simple .simple
  | optimizing {g g' : Graph} (h : g.Renames N g') : Renames N (.optimizing g) (.optimizing g')

private theorem Engine.renames_start (b : Backend) : Engine.Renames N (.start b) (.start b) := by
  cases b with
  | simple => exact .simple
  | optimizing => exact .optimizing .empty

private theorem Engine.Renames.refresh {e e' : Engine} (h : e.Renames N e') (lib : Library)
    (model : Value) :
    (e'.refresh N.after lib model).1 = (e.refresh N.before lib model).1 ∧
      (e.refresh N.before lib model).2.1.Renames N (e'.refresh N.after lib model).2.1 ∧
      (e'.refresh N.after lib model).2.2 = (e.refresh N.before lib model).2.2 := by
  cases h with
  | simple =>
    simp only [Engine.refresh, Pass.run_rename N lib model]
    exact ⟨trivial, .simple, trivial⟩
  | optimizing h =>
    obtain ⟨result, graph, work⟩ := Graph.refresh_rename h lib model
    exact ⟨result, .optimizing graph, work⟩

/-! ### Steps -/

namespace Instance

/-- Instances of the two programs that show the same. -/
structure Renames (N : Renaming) (i j : Instance) : Prop where
  before : i.program = N.before
  after : j.program = N.after
  library : j.library = i.library
  engine : i.engine.Renames N j.engine
  model : j.model = i.model
  outputs : j.outputs = i.outputs
  snapshot : j.snapshot = i.snapshot
  work : j.work = i.work
  journal : j.journal = i.journal

/-- Steps of the two instances that go in step. -/
abbrev Twins (N : Renaming) {α : Type} (x y : Step α) : Prop := Lockstep (Renames N) x y

variable {i j : Instance}

private theorem Renames.recalculate (h : i.Renames N j) :
    (recalculate j).1 = (recalculate i).1 ∧ (recalculate i).2.Renames N (recalculate j).2 := by
  obtain ⟨_, _, engine, _, _, _, _, _⟩ := i
  obtain ⟨_, lib, engine', model, outputs, snapshot, work, calls⟩ := j
  obtain ⟨rfl, rfl, rfl, engines, rfl, rfl, rfl, rfl, rfl⟩ := h
  obtain ⟨result, engines, done⟩ := engines.refresh lib model
  refine ⟨result, rfl, rfl, rfl, engines, rfl, rfl, rfl, done, ?_⟩
  exact congrArg (fun w : Work => calls ++ w.calls) done

private theorem Renames.withModel (h : i.Renames N j) (model : Value) :
    Renames N { i with model } { j with model } :=
  { h with model := rfl }

private theorem Renames.withOutputs (h : i.Renames N j) (outputs : List Value) :
    Renames N { i with outputs } { j with outputs } :=
  { h with outputs := rfl }

private theorem Renames.withSnapshot (h : i.Renames N j) (snapshot : Option Value) :
    Renames N { i with snapshot } { j with snapshot } :=
  { h with snapshot := rfl }

private theorem Renames.restore (h : i.Renames N j) (v : Value) :
    (restore v i).2.Renames N (restore v j).2 := by
  obtain ⟨result, later⟩ := (h.withModel v).recalculate
  cases hr : (Instance.recalculate { i with model := v }).1 with
  | ok outputs =>
    rw [restore_run hr, restore_run (result.trans hr)]
    exact later.withOutputs outputs
  | error e =>
    rw [restore_run_error hr, restore_run_error (result.trans hr)]
    exact later

private theorem twins_commit (rollback : Value) : Twins N (commit rollback) (commit rollback) := by
  intro i j h
  obtain ⟨result, later⟩ := h.recalculate
  cases hr : (recalculate i).1 with
  | ok outputs =>
    rw [commit_run_ok hr, commit_run_ok (result.trans hr)]
    exact ⟨rfl, later.withOutputs outputs⟩
  | error e =>
    rw [commit_run_error hr, commit_run_error (result.trans hr)]
    exact ⟨rfl, later.restore rollback⟩

private theorem twins_apply (next : Value) : Twins N (apply next) (apply next) := by
  refine Lockstep.get fun i j h => ?_
  have batching : j.isBatching = i.isBatching := by rw [isBatching, isBatching, h.snapshot]
  rw [batching, h.model]
  cases i.isBatching with
  | true => exact ⟨rfl, h.withModel next⟩
  | false => exact twins_commit i.model _ _ (h.withModel next)

/-- Mutators are those of the model, so mutations lead to the same documents. -/
theorem document_rename (m : Mutation) (model : Value) :
    m.document N.after model = m.document N.before model := by
  have mutators : N.after.mutator? = N.before.mutator? := by
    funext name
    rw [Program.mutator?, Program.mutator?, N.renames.mutators]
  cases m <;> simp only [Mutation.document, Mutation.afterInvoke, afterSet, afterSplice, mutator,
    mutators]

private theorem twins_act (a : Action) : Twins N a.run a.run := by
  intro i j h
  cases a with
  | mutate m =>
    simp only [Action.run, Mutation.run_eq, h.before, h.after, h.model, document_rename]
    cases m.document N.before i.model with
    | error e => exact ⟨rfl, h⟩
    | ok next => exact twins_apply next i j h
  | startBatch =>
    refine Lockstep.get (fun i j h => ?_) i j h
    have batching : j.isBatching = i.isBatching := by rw [isBatching, isBatching, h.snapshot]
    rw [batching]
    cases i.isBatching with
    | true => exact ⟨rfl, h⟩
    | false => exact ⟨rfl, { h with snapshot := congrArg some h.model }⟩
  | endBatch =>
    refine Lockstep.get (fun i j h => ?_) i j h
    rw [h.snapshot]
    cases i.snapshot with
    | none => exact ⟨rfl, h⟩
    | some before => exact twins_commit before _ _ (h.withSnapshot none)

private theorem Renames.abandon (h : i.Renames N j) : i.abandon.Renames N j.abandon := by
  unfold Instance.abandon
  rw [h.snapshot]
  cases i.snapshot with
  | none => exact h
  | some before => exact (h.withModel before).withSnapshot none

/-- Tasks go in step if each of them does. -/
theorem twins_runAll {tasks : List Task} (h : ∀ t ∈ tasks, Twins N t.run t.run) :
    Twins N (Task.runAll tasks) (Task.runAll tasks) := by
  induction tasks with
  | nil => exact fun i j hi => ⟨rfl, hi⟩
  | cons t rest ih =>
    rw [Task.runAll]
    refine (h t List.mem_cons_self).bind fun _ _ _ _ => ?_
    exact ih fun t ht => h t (List.mem_cons_of_mem _ ht)

private theorem twins_finish {steps : Step Unit} (h : Twins N steps steps) :
    Twins N (finish steps) (finish steps) := by
  intro i j hi
  obtain ⟨r, i', j', hrun, hrun', hi'⟩ := h.run hi
  rw [finish_run, finish_run, hrun, hrun']
  cases r with
  | error e => exact ⟨rfl, hi'.abandon⟩
  | ok _ => exact twins_act .endBatch i' j' hi'

/-- Whatever a client does, both instances do in step. -/
theorem twins_task (t : Task) : Twins N t.run t.run := by
  induction t using Task.induct with
  | act a => exact twins_act a
  | attempt t ih =>
    intro i j h
    rw [Task.attempt_run, Task.attempt_run]
    exact ⟨rfl, (ih i j h).2⟩
  | fail e => exact fun i j h => ⟨rfl, h⟩
  | batch tasks ih =>
    rw [Task.run, batch_eq]
    refine Lockstep.bind (twins_act .startBatch) fun _ _ _ _ => ?_
    exact twins_finish (twins_runAll ih)

/-! ### Reports -/

/-- What a client sees after a task: how it ended, what the instance shows, the work of the last
recalculation, and the library calls of all of them. -/
structure Report where
  result : Except RuntimeError Unit
  view : View
  work : Work
  journal : Array Call

def report (result : Except RuntimeError Unit) (i : Instance) : Report :=
  ⟨result, i.view, i.work, i.journal⟩

/-- The reports on tasks, one after the other. A task that fails does not stop the next. -/
def reports (i : Instance) : List Task → List Report
  | [] => []
  | t :: rest => report (t.run.run i).1 (t.run.run i).2 :: reports (t.run.run i).2 rest

private theorem Renames.report (h : i.Renames N j) (result : Except RuntimeError Unit) :
    j.report result = i.report result := by
  unfold Instance.report Instance.view
  rw [h.model, h.outputs, h.snapshot, h.work, h.journal]

private theorem Renames.reports (h : i.Renames N j) (tasks : List Task) :
    j.reports tasks = i.reports tasks := by
  induction tasks generalizing i j with
  | nil => rfl
  | cons t rest ih =>
    obtain ⟨result, later⟩ := twins_task t i j h
    rw [Instance.reports, Instance.reports, result, later.report, ih later]

/-- The reports on a new instance and on tasks for it, or why there is no instance. -/
def session (p : Program) (lib : Library) (model : Value) (tasks : List Task) :
    Except RuntimeError (List Report) :=
  (create p model lib).map fun i => i.report (.ok ()) :: i.reports tasks

private theorem session_rename (N : Renaming) (lib : Library) (model : Value) (tasks : List Task) :
    session N.after lib model tasks = session N.before lib model tasks := by
  unfold session create
  rw [N.renames.functions, N.renames.backend]
  cases N.before.functions.find? fun f => !lib.contains f with
  | some missing => rfl
  | none =>
    obtain ⟨result, engines, work⟩ :=
      (Engine.renames_start (N := N) N.before.backend).refresh lib model
    generalize (Engine.start N.before.backend).refresh N.before lib model = r,
      (Engine.start N.before.backend).refresh N.after lib model = r' at result engines work
    obtain ⟨r, engine, done⟩ := r
    obtain ⟨r', engine', done'⟩ := r'
    cases result
    cases work
    cases r with
    | error e => rfl
    | ok outputs =>
      have instances : Renames N
          ⟨N.before, lib, engine, model, outputs, none, done, done.calls⟩
          ⟨N.after, lib, engine', model, outputs, none, done, done.calls⟩ :=
        ⟨rfl, rfl, rfl, engines, rfl, rfl, rfl, rfl, rfl⟩
      change Except.ok (_ :: _) = Except.ok (_ :: _)
      rw [instances.report, instances.reports]

/-! ### Models -/

/-- Numbers of functions are only names. Renumbering the functions of a model, with different numbers
for different functions, gives the same error, or a program with the same nodes up to the numbers;
and sessions with the two programs are the same. Reading a document with functions numbered from
another number on is such a renumbering. -/
theorem numbers_are_names {f : LambdaId → LambdaId} (hf : Function.Injective f) (m : Model)
    (b : Backend) :
    ((∃ e, Program.compile m b = .error e ∧ Program.compile (m.rename f) b = .error e) ∨
      ∃ p q, Program.compile m b = .ok p ∧ Program.compile (m.rename f) b = .ok q ∧
        p.Renames f q ∧ ∀ lib model tasks, session q lib model tasks = session p lib model tasks) ∧
    ∀ document n, Model.ofJson document = .ok m →
      Model.ofJsonFrom n document = .ok (m.rename (· + n)) := by
  refine ⟨?_, fun document n h => Model.ofJsonFrom_eq h n⟩
  rcases Program.compile_rename hf m b with failed | ⟨p, q, hp, hq, renames⟩
  · exact .inl failed
  · refine .inr ⟨p, q, hp, hq, renames, fun lib model tasks => ?_⟩
    exact session_rename ⟨p, q, f, hf, Program.linked_of_compile hp, renames⟩ lib model tasks

/-- The pairs of the elements of arrays with the arrays. Arrays can be put at a position and cut
out. -/
def pairing : Model :=
  ⟨[("cut", .splice []), ("out", .output (.iterate .map .root 0
    (.iterate .map (.val 0) 1 (.array [.val 1, .val 0]) none) none)), ("put", .setter [.arg 0])],
    by decide⟩

def pairingProgram (b : Backend) : Program where
  backend := b
  entries := #[⟨.root, [], []⟩, ⟨.val 0, [0], []⟩, ⟨.val 1, [1], []⟩, ⟨.array [2, 1], [0, 1], []⟩,
    ⟨.iterate .map 1 1 3 none, [0], []⟩, ⟨.iterate .map 0 0 4 none, [], []⟩]
  outputs := [("out", 5)]
  mutators := [("cut", ⟨.splice, []⟩), ("put", ⟨.set, [.arg 0]⟩)]
  functions := []

private theorem compile_pairing (b : Backend) :
    Program.compile pairing b = .ok (pairingProgram b) := by with_unfolding_all rfl

/-- Puts an array, then cuts it out and puts another in its place in one batch. -/
def editing : List Task :=
  [.call (.set "put" [.int 0, .arr [.int 4, .int 5]]),
    .batch [.call (.splice "cut" [] 0 1 [.arr []]), .call (.invoke "put" [.int 0, .arr [.int 6]])]]

theorem numbers_are_names_pairing :
    ∃ q, Program.compile (pairing.rename (Equiv.swap 0 1)) .optimizing = .ok q ∧
      (pairingProgram .optimizing).Renames (Equiv.swap 0 1) q ∧
      session q .empty (.arr [.arr [.int 3]]) editing =
        session (pairingProgram .optimizing) .empty (.arr [.arr [.int 3]]) editing ∧
      ((session q .empty (.arr [.arr [.int 3]]) editing).toOption.any fun reports =>
        reports.map (fun r => r.view.outputs) == [
          [.arr [.arr [.arr [.int 3, .arr [.int 3]]]]],
          [.arr [.arr [.arr [.int 4, .arr [.int 4, .int 5]], .arr [.int 5, .arr [.int 4, .int 5]]]]],
          [.arr [.arr [.arr [.int 6, .arr [.int 6]]]]]]) = true := by
  obtain ⟨⟨e, failed, -⟩ | ⟨p, q, hp, hq, renames, same⟩, -⟩ :=
    numbers_are_names (Equiv.swap 0 1).injective pairing .optimizing
  · rw [compile_pairing] at failed
    cases failed
  · rw [compile_pairing] at hp
    cases hp
    refine ⟨q, hq, renames, same _ _ _, ?_⟩
    rw [same]
    decide +kernel

end Instance

end Recalc
