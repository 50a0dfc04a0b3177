import Recalc.Proofs.Instance.Committed
import Recalc.Proofs.Instance.Backends

/-! What clients do with an instance, batches with steps of their own included. A batch is one more
step of the machine that an instance follows, so whatever holds of every step holds of clients. -/
namespace Recalc

/-- What a client can do. The tasks of a batch are done in order, and the first that fails fails the
batch. A client may go on after a failure, and may fail for a reason of its own. -/
inductive Task where
  | act (a : Action)
  | attempt (t : Task)
  | fail (e : RuntimeError)
  | batch (tasks : List Task)

namespace Task

/-- A mutation as a task. -/
def call (m : Mutation) : Task := act (.mutate m)

mutual

def run : Task → Step Unit
  | act a => a.run
  | attempt t => ExceptT.mk (t.run.run >>= fun _ => pure (.ok ()))
  | fail e => throw e
  | batch tasks => Instance.batch (runAll tasks)

/-- Does tasks in order, up to the first that fails. -/
def runAll : List Task → Step Unit
  | [] => pure ()
  | t :: rest => do
    run t
    runAll rest

end

mutual

/-- The mutations of a task, those in batches included. -/
def mutations : Task → List Mutation
  | act (.mutate m) => [m]
  | act _ => []
  | attempt t => t.mutations
  | fail _ => []
  | batch tasks => allMutations tasks

def allMutations : List Task → List Mutation
  | [] => []
  | t :: rest => t.mutations ++ allMutations rest

end

theorem attempt_run (t : Task) (i : Instance) :
    (attempt t).run.run i = (.ok (), (t.run.run i).2) := rfl

/-- Induction over a task from the tasks in it. -/
theorem induct {motive : Task → Prop} (act : ∀ a, motive (act a))
    (attempt : ∀ t, motive t → motive (attempt t)) (fail : ∀ e, motive (fail e))
    (batch : ∀ tasks, (∀ t ∈ tasks, motive t) → motive (batch tasks)) (t : Task) : motive t :=
  @Task.rec motive (fun tasks => ∀ t ∈ tasks, motive t) act attempt fail batch (by simp)
    (fun _ _ h hs => List.forall_mem_cons.mpr ⟨h, hs⟩) t

private theorem allMutations_eq (tasks : List Task) :
    allMutations tasks = tasks.flatMap mutations := by
  induction tasks with
  | nil => rfl
  | cons t rest ih => rw [allMutations, ih, List.flatMap_cons]

private theorem mem_mutations_batch {tasks : List Task} {t : Task} (ht : t ∈ tasks) {m : Mutation}
    (hm : m ∈ t.mutations) : m ∈ (batch tasks).mutations := by
  rw [mutations, allMutations_eq]
  exact List.mem_flatMap.mpr ⟨t, ht, hm⟩

/-- The values that a task brings in. -/
def values (t : Task) : List Value := t.mutations.flatMap Mutation.values

/-- The mutations of a task do not lead out of a class of documents. -/
def Keeps (p : Program) (D : Value → Prop) (t : Task) : Prop :=
  ∀ m ∈ t.mutations, ∀ model next, D model → m.document p model = .ok next → D next

theorem keeps_startBatch (p : Program) (D : Value → Prop) : (act .startBatch).Keeps p D := by
  intro m hm
  cases hm

theorem keeps_endBatch (p : Program) (D : Value → Prop) : (act .endBatch).Keeps p D := by
  intro m hm
  cases hm

theorem keeps_true (p : Program) (t : Task) : t.Keeps p fun _ => True :=
  fun _ _ _ _ _ _ => trivial

theorem keeps_of_floatFree {p : Program} {t : Task} (h : ∀ v ∈ t.values, v.FloatFree) :
    t.Keeps p Value.FloatFree := by
  intro m hm model next hmodel hd
  refine Mutation.floatFree_document hmodel (fun v hv => h v ?_) hd
  exact List.mem_flatMap.mpr ⟨m, hm, hv⟩

end Task

/-! ### Tasks of the machine -/

namespace View
variable (p : Program) (lib : Library)

/-- Drops the mutations of a batch in progress. -/
def abandon (s : View) : View :=
  match s.snapshot with
  | some before => { s with model := before, snapshot := none }
  | none => s

/-- Goes on with what is shown if it was accepted. -/
def andThen (outcome : Bool × View) (next : View → Bool × View) : Bool × View :=
  if outcome.1 then next outcome.2 else outcome

/-- Ends a batch if its steps were accepted, and drops their mutations if not. -/
def finish (outcome : Bool × View) : Bool × View :=
  if outcome.1 then outcome.2.step p lib .endBatch else (false, outcome.2.abandon)

mutual

/-- Whether a task is accepted, and what is shown then. -/
def task (s : View) : Task → Bool × View
  | .act a => s.step p lib a
  | .attempt t => (true, (task s t).2)
  | .fail _ => (false, s)
  | .batch tasks => andThen (s.step p lib .startBatch) fun s => finish p lib (allTasks s tasks)

def allTasks (s : View) : List Task → Bool × View
  | [] => (true, s)
  | t :: rest => andThen (task s t) fun s => allTasks s rest

end

end View

/-! ### Instances at tasks -/

namespace Instance

/-- What a batch does once it has started. -/
def finish (steps : Step Unit) : Step Unit := ExceptT.mk fun i =>
  match steps.run i with
  | (.error e, j) => (.error e, j.abandon)
  | (.ok _, j) => endBatch.run j

theorem finish_run (steps : Step Unit) (i : Instance) : (finish steps).run i =
    match steps.run i with
    | (.error e, j) => (.error e, j.abandon)
    | (.ok _, j) => endBatch.run j := rfl

theorem batch_eq (steps : Step Unit) : batch steps = (startBatch >>= fun _ => finish steps) := by
  funext i
  rcases hs : startBatch i with ⟨_ | _, j⟩
  · refine Eq.trans ?_ (run_bind_error hs).symm
    simp only [batch, hs]
    rfl
  · refine Eq.trans ?_ ((run_bind_ok hs).trans (finish_run steps j)).symm
    simp only [batch, hs]
    rcases hr : steps j with ⟨_ | _, k⟩
    · rw [show steps.run j = _ from hr]
      rfl
    · rw [show steps.run j = _ from hr]
      change (match endBatch k with
        | (.error e, i) => (.error e, i)
        | (.ok _, i) => (.ok _, i) : Except RuntimeError Unit × Instance) = endBatch k
      rcases endBatch k with ⟨_ | _, l⟩ <;> rfl

end Instance

/-- An instance at work for a machine, with committed outputs and with documents of a class. -/
structure Serves (p : Program) (lib : Library) (D : Value → Prop) (good : Engine → Prop)
    (i : Instance) (s : View) : Prop where
  follows : i.Follows p lib good s
  committed : s.Committed p lib
  within : s.Within D

/-- A step of an instance ended like a step of its machine. -/
structure Tracks (p : Program) (lib : Library) (D : Value → Prop) (good : Engine → Prop)
    (ended : Except RuntimeError Unit × Instance) (outcome : Bool × View) : Prop where
  isOk : ended.1.isOk = outcome.1
  serves : Serves p lib D good ended.2 outcome.2

section
variable {p : Program} {lib : Library} {D : Value → Prop} {good : Engine → Prop}
  {i : Instance} {s : View}

private theorem Serves.abandon (h : Serves p lib D good i s) :
    Serves p lib D good i.abandon s.abandon := by
  obtain ⟨program, library, engine, model, outputs, snapshot, work, journal⟩ := i
  obtain ⟨⟨rfl, rfl, hg, rfl⟩, hc, hw⟩ := h
  cases snapshot with
  | none => exact ⟨⟨rfl, rfl, hg, rfl⟩, hc, hw⟩
  | some before => exact ⟨⟨rfl, rfl, hg, rfl⟩, hc, ⟨hw.committed, hw.committed⟩⟩

/-- Going on after a step that was accepted, and stopping after one that was not. -/
theorem Tracks.andThen {x y : Step Unit} {outcome : Bool × View} {next : View → Bool × View}
    (hx : Tracks p lib D good (x.run i) outcome)
    (hy : ∀ j u, Serves p lib D good j u → Tracks p lib D good (y.run j) (next u)) :
    Tracks p lib D good ((x >>= fun _ => y).run i) (View.andThen outcome next) := by
  rcases hrun : x.run i with ⟨r, j⟩
  obtain ⟨accepted, u⟩ := outcome
  rw [hrun] at hx
  cases r with
  | error e =>
    cases hx.isOk
    rw [run_bind_error hrun]
    exact ⟨rfl, hx.serves⟩
  | ok a =>
    cases hx.isOk
    rw [run_bind_ok hrun]
    exact hy j u hx.serves

/-- Doing tasks in order, by what each of them does. -/
theorem Serves.runAll {tasks : List Task} (h : Serves p lib D good i s)
    (each : ∀ t ∈ tasks, ∀ i s, Serves p lib D good i s →
      Tracks p lib D good (t.run.run i) (s.task p lib t)) :
    Tracks p lib D good ((Task.runAll tasks).run i) (s.allTasks p lib tasks) := by
  induction tasks generalizing i s with
  | nil => exact ⟨rfl, h⟩
  | cons t rest ih =>
    rw [Task.runAll, View.allTasks]
    refine Tracks.andThen (each t List.mem_cons_self i s h) fun j u hj => ?_
    exact ih hj fun t ht => each t (List.mem_cons_of_mem _ ht)

variable (hf : Faithful p lib D good)
include hf

private theorem Serves.act (h : Serves p lib D good i s) {a : Action}
    (ha : (Task.act a).Keeps p D) :
    Tracks p lib D good (a.run.run i) (s.step p lib a) := by
  have keeps (m : Mutation) (next : Value) (hm : a = .mutate m)
      (hd : m.document p s.model = .ok next) : D next := by
    subst hm
    exact ha m List.mem_cons_self s.model next h.within.model hd
  obtain ⟨hok, follows⟩ := h.follows.step hf h.committed h.within keeps
  exact ⟨hok, follows, h.committed.step a, h.within.step keeps⟩

private theorem Tracks.finish {steps : Step Unit} {outcome : Bool × View}
    (h : Tracks p lib D good (steps.run i) outcome) :
    Tracks p lib D good ((Instance.finish steps).run i) (View.finish p lib outcome) := by
  rcases hrun : steps.run i with ⟨r, j⟩
  obtain ⟨accepted, u⟩ := outcome
  rw [hrun] at h
  rw [Instance.finish_run, hrun]
  cases r with
  | error e =>
    cases h.isOk
    exact ⟨rfl, h.serves.abandon⟩
  | ok a =>
    cases h.isOk
    exact h.serves.act hf (Task.keeps_endBatch p D)

/-- A task of an instance is a task of its machine. -/
theorem Serves.task (h : Serves p lib D good i s) {t : Task} (ht : t.Keeps p D) :
    Tracks p lib D good (t.run.run i) (s.task p lib t) := by
  induction t using Task.induct generalizing i s with
  | act a => exact h.act hf ht
  | attempt t ih =>
    rw [Task.attempt_run]
    exact ⟨rfl, (ih h ht).serves⟩
  | fail e => exact ⟨rfl, h⟩
  | batch tasks ih =>
    rw [Task.run, Instance.batch_eq, View.task]
    have start := h.act hf (Task.keeps_startBatch p D)
    refine Tracks.andThen start fun j u hj => Tracks.finish hf (hj.runAll fun t hm i s hi => ?_)
    exact ih t hm hi fun m hmut => ht m (Task.mem_mutations_batch hm hmut)

/-- Tasks of an instance are tasks of its machine. -/
theorem Serves.tasks (h : Serves p lib D good i s) {tasks : List Task}
    (ht : ∀ t ∈ tasks, t.Keeps p D) :
    Tracks p lib D good ((Task.runAll tasks).run i) (s.allTasks p lib tasks) :=
  h.runAll fun t hm _ _ hi => hi.task hf (ht t hm)

end

/-! ### Instances that clients have -/

namespace Instance

/-- The instances that a client can have, by tasks of a class, whether they fail or not. -/
inductive Reached (p : Program) (lib : Library) (v : Value) (allowed : Task → Prop) :
    Instance → Prop
  | create {i : Instance} (h : create p v lib = .ok i) : Reached p lib v allowed i
  | task {i : Instance} (h : Reached p lib v allowed i) {t : Task} (ht : allowed t) :
    Reached p lib v allowed (t.run.run i).2

variable {p : Program} {lib : Library} {D : Value → Prop} {good : Engine → Prop} {v : Value}
  {allowed : Task → Prop} {j : Instance}

theorem Reached.serves (hf : Faithful p lib D good) (hg : good (Engine.start p.backend))
    (hv : D v) (keeps : ∀ t, allowed t → t.Keeps p D) (hj : Reached p lib v allowed j) :
    Serves p lib D good j j.view := by
  induction hj with
  | create h =>
    obtain ⟨follows, pass⟩ := follows_create hf hg hv h
    rw [follows.view]
    exact ⟨follows, pass, hv, hv⟩
  | task _ ht ih =>
    have serves := (ih.task hf (keeps _ ht)).serves
    rw [serves.follows.view]
    exact serves

end Instance

end Recalc
