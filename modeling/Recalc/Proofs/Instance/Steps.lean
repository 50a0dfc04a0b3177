import Recalc.Instance.Basic
import Recalc.Proofs.Program.Combine

/-! Instances as machines: what a step does to the document, the outputs and the batch of an
instance follows from passes from scratch alone, for any engine that gives their outputs. -/
namespace Recalc

/-- A change of the document that an instance is asked for. -/
inductive Mutation where
  | set (name : String) (args : List Value)
  | splice (name : String) (args : List Value) (start : Int) (deleted : Nat) (inserted : List Value)
  | invoke (name : String) (args : List Value)

/-- What an instance can be asked for. -/
inductive Action where
  | mutate (m : Mutation)
  | startBatch
  | endBatch

namespace Mutation

def run : Mutation → Step Unit
  | set name args => Instance.set name args
  | splice name args start deleted inserted => Instance.splice name args start deleted inserted
  | invoke name args => Instance.invoke name args

/-- The document after a call with flat arguments. -/
def afterInvoke (p : Program) (model : Value) (name : String) (args : List Value) :
    Except RuntimeError Value :=
  match p.mutator? name with
  | none => .error (.unknownMutator name)
  | some m => match m.kind with
    | .set => Instance.afterSet p model name args
    | .splice =>
      if args.length ≤ m.arity then
        .error (.argumentCount name (.atLeast (m.arity + 1)) args.length)
      else do
        let (start, deleted, items) ← Instance.spliceParts name (args.drop m.arity)
        Instance.afterSplice p model name (args.take m.arity) start deleted items

/-- The document after a mutation. -/
def document (p : Program) (model : Value) : Mutation → Except RuntimeError Value
  | set name args => Instance.afterSet p model name args
  | splice name args start deleted inserted =>
    Instance.afterSplice p model name args start deleted inserted
  | invoke name args => afterInvoke p model name args

private theorem set_run (name : String) (args : List Value) (i : Instance) :
    (Instance.set name args).run i = match Instance.afterSet i.program i.model name args with
      | .error e => (.error e, i)
      | .ok next => (Instance.apply next).run i := by
  change (MonadExcept.ofExcept (Instance.afterSet i.program i.model name args) >>=
    Instance.apply : Step Unit).run i = _
  cases Instance.afterSet i.program i.model name args <;> rfl

private theorem splice_run (name : String) (args : List Value) (start : Int) (deleted : Nat)
    (inserted : List Value) (i : Instance) :
    (Instance.splice name args start deleted inserted).run i =
      match Instance.afterSplice i.program i.model name args start deleted inserted with
      | .error e => (.error e, i)
      | .ok next => (Instance.apply next).run i := by
  change (MonadExcept.ofExcept (Instance.afterSplice i.program i.model name args start deleted
    inserted) >>= Instance.apply : Step Unit).run i = _
  cases Instance.afterSplice i.program i.model name args start deleted inserted <;> rfl

private theorem invoke_run (name : String) (args : List Value) (i : Instance) :
    (Instance.invoke name args).run i = match afterInvoke i.program i.model name args with
      | .error e => (.error e, i)
      | .ok next => (Instance.apply next).run i := by
  unfold Instance.invoke afterInvoke
  change ExceptT.run (match i.program.mutator? name with
    | none => throw (.unknownMutator name)
    | some m => _ : Step Unit) i = _
  cases i.program.mutator? name with
  | none => rfl
  | some m =>
    cases hk : m.kind with
    | set =>
      simp only [hk]
      exact set_run name args i
    | splice =>
      simp only [hk]
      split
      · rfl
      · cases hs : Instance.spliceParts name (args.drop m.arity) with
        | error e => rfl
        | ok parts =>
          obtain ⟨start, deleted, items⟩ := parts
          exact splice_run name (args.take m.arity) start deleted items i

/-- A mutation is a change of the document, which is then taken. -/
theorem run_eq (m : Mutation) (i : Instance) : m.run.run i =
    match m.document i.program i.model with
    | .error e => (.error e, i)
    | .ok next => (Instance.apply next).run i := by
  cases m with
  | set name args => exact set_run name args i
  | splice name args start deleted inserted => exact splice_run name args start deleted inserted i
  | invoke name args => exact invoke_run name args i

end Mutation

def Action.run : Action → Step Unit
  | mutate m => m.run
  | startBatch => Instance.startBatch
  | endBatch => Instance.endBatch

/-- What an instance shows: its document, its outputs, and the document from before its batch. -/
structure View where
  model : Value
  outputs : List Value
  snapshot : Option Value

namespace View
variable (p : Program) (lib : Library)

/-- The document that the outputs belong to. -/
def committed (s : View) : Value := s.snapshot.getD s.model

/-- The outputs are those of a pass from scratch over the committed document. -/
def Committed (s : View) : Prop := (Pass.run p lib s.committed).1 = .ok s.outputs

/-- Takes the outputs of a pass, or goes back to a document and tells that it did. -/
def commit (s : View) (rollback : Value) : Bool × View :=
  match (Pass.run p lib s.model).1 with
  | .ok outputs => (true, { s with outputs })
  | .error _ => (false, { s with model := rollback })

/-- Whether an action is accepted, and what is shown then. -/
def step (s : View) : Action → Bool × View
  | .mutate m => match m.document p s.model with
    | .error _ => (false, s)
    | .ok next => match s.snapshot with
      | some _ => (true, { s with model := next })
      | none => commit p lib { s with model := next } s.model
  | .startBatch => match s.snapshot with
    | some _ => (false, s)
    | none => (true, { s with snapshot := some s.model })
  | .endBatch => match s.snapshot with
    | some before => commit p lib { s with snapshot := none } before
    | none => (false, s)

/-- What an action can lead to. -/
inductive Outcome (s : View) : Action → Bool × View → Prop
  | refused {a : Action} (idle : a = .endBatch → s.snapshot = none) : Outcome s a (false, s)
  | postponed {m : Mutation} {next before : Value} (document : m.document p s.model = .ok next)
    (batching : s.snapshot = some before) :
    Outcome s (.mutate m) (true, ⟨next, s.outputs, some before⟩)
  | taken {m : Mutation} {next : Value} {outputs : List Value}
    (document : m.document p s.model = .ok next) (idle : s.snapshot = none)
    (pass : (Pass.run p lib next).1 = .ok outputs) :
    Outcome s (.mutate m) (true, ⟨next, outputs, none⟩)
  | started (idle : s.snapshot = none) :
    Outcome s .startBatch (true, ⟨s.model, s.outputs, some s.model⟩)
  | ended {before : Value} {outputs : List Value} (batching : s.snapshot = some before)
    (pass : (Pass.run p lib s.model).1 = .ok outputs) :
    Outcome s .endBatch (true, ⟨s.model, outputs, none⟩)
  | undone {before : Value} (batching : s.snapshot = some before) :
    Outcome s .endBatch (false, ⟨before, s.outputs, none⟩)

theorem step_outcome (s : View) (a : Action) : Outcome p lib s a (s.step p lib a) := by
  obtain ⟨model, outputs, snapshot⟩ := s
  cases a with
  | mutate m =>
    simp only [step]
    cases hd : m.document p model with
    | error e => exact .refused (by simp)
    | ok next =>
      cases snapshot with
      | some before => exact .postponed hd rfl
      | none =>
        simp only [commit]
        cases hr : (Pass.run p lib next).1 with
        | ok outputs => exact .taken hd rfl hr
        | error e => exact .refused (by simp)
  | startBatch =>
    cases snapshot with
    | some before => exact .refused (by simp)
    | none => exact .started rfl
  | endBatch =>
    cases snapshot with
    | none => exact .refused fun _ => rfl
    | some before =>
      simp only [step, commit]
      cases hr : (Pass.run p lib model).1 with
      | ok outputs => exact .ended rfl hr
      | error e => exact .undone rfl

variable {p lib} {s : View}

/-- Every action leaves committed outputs. -/
theorem Committed.step (h : s.Committed p lib) (a : Action) :
    (s.step p lib a).2.Committed p lib := by
  have outcome := step_outcome p lib s a
  generalize s.step p lib a = t at outcome ⊢
  cases outcome with
  | refused _ => exact h
  | postponed _ hs => simpa [Committed, committed, hs] using h
  | taken _ _ hp => exact hp
  | started hs => simpa [Committed, committed, hs] using h
  | ended _ hp => exact hp
  | undone hs => simpa [Committed, committed, hs] using h

/-- What is refused changes nothing, unless it ends a batch. -/
theorem step_refused {a : Action} (h : (s.step p lib a).1 = false)
    (ha : a = .endBatch → s.snapshot = none) : (s.step p lib a).2 = s := by
  have outcome := step_outcome p lib s a
  generalize s.step p lib a = t at outcome h ⊢
  cases outcome with
  | refused _ => rfl
  | undone hs => simp [ha rfl] at hs
  | _ => cases h

/-- A batch that cannot be ended leaves what was committed before it. -/
theorem step_undone {before : Value} (hs : s.snapshot = some before)
    (h : (s.step p lib .endBatch).1 = false) :
    (s.step p lib .endBatch).2 = ⟨before, s.outputs, none⟩ := by
  have outcome := step_outcome p lib s .endBatch
  generalize s.step p lib .endBatch = t at outcome h ⊢
  cases outcome with
  | refused idle => simp [idle rfl] at hs
  | undone hs' =>
    rw [hs'] at hs
    cases hs
    rfl
  | ended => cases h

/-- Until a batch ends, what was committed before it stays. -/
theorem step_batching {a : Action} {before : Value} (hs : s.snapshot = some before)
    (ha : a ≠ .endBatch) : (s.step p lib a).2.snapshot = some before ∧
      (s.step p lib a).2.outputs = s.outputs := by
  have outcome := step_outcome p lib s a
  generalize s.step p lib a = t at outcome ⊢
  cases outcome with
  | refused _ => exact ⟨hs, rfl⟩
  | postponed _ hs' => exact ⟨hs' ▸ hs, rfl⟩
  | taken _ idle => simp [idle] at hs
  | started idle => simp [idle] at hs
  | ended => exact absurd rfl ha
  | undone => exact absurd rfl ha

/-- The document and the committed one are of a class. -/
structure Within (D : Value → Prop) (s : View) : Prop where
  model : D s.model
  committed : D s.committed

/-- Actions that do not lead out of a class of documents lead to what is shown within it. -/
theorem Within.step {D : Value → Prop} (h : s.Within D) {a : Action}
    (ha : ∀ m next, a = .mutate m → m.document p s.model = .ok next → D next) :
    (s.step p lib a).2.Within D := by
  have outcome := step_outcome p lib s a
  generalize s.step p lib a = t at outcome ⊢
  cases outcome with
  | refused _ => exact h
  | postponed hd hs => exact ⟨ha _ _ rfl hd, by simpa [View.committed, hs] using h.committed⟩
  | taken hd _ _ => exact ⟨ha _ _ rfl hd, ha _ _ rfl hd⟩
  | started _ => exact ⟨h.model, h.model⟩
  | ended _ _ => exact ⟨h.model, h.model⟩
  | undone hs =>
    have before := h.committed
    rw [View.committed, hs] at before
    exact ⟨before, before⟩

/-- What is shown after actions, one after the other. -/
def perform (p : Program) (lib : Library) (s : View) (actions : List Action) : View :=
  actions.foldl (fun s a => (s.step p lib a).2) s

theorem Committed.perform (h : s.Committed p lib) (actions : List Action) :
    (s.perform p lib actions).Committed p lib := by
  induction actions generalizing s with
  | nil => exact h
  | cons a rest ih => exact ih (h.step a)

variable (p lib) in
private theorem perform_batching {before : Value} (hs : s.snapshot = some before)
    {actions : List Action}
    (ha : ∀ a ∈ actions, a ≠ .endBatch) : (s.perform p lib actions).snapshot = some before ∧
      (s.perform p lib actions).outputs = s.outputs := by
  induction actions generalizing s with
  | nil => exact ⟨hs, rfl⟩
  | cons a rest ih =>
    obtain ⟨first, others⟩ := List.forall_mem_cons.mp ha
    obtain ⟨hsnapshot, houtputs⟩ := step_batching hs first
    obtain ⟨hs', ho'⟩ := ih hsnapshot others
    exact ⟨hs', ho'.trans houtputs⟩

/-- A batch that cannot be ended leads back to where it started. -/
theorem step_endBatch {during : List Action} (idle : s.snapshot = none)
    (hd : ∀ a ∈ during, a ≠ .endBatch)
    (h : ((s.perform p lib (.startBatch :: during)).step p lib .endBatch).1 = false) :
    ((s.perform p lib (.startBatch :: during)).step p lib .endBatch).2 =
      ⟨s.model, s.outputs, none⟩ := by
  have started : (s.step p lib .startBatch).2 = ⟨s.model, s.outputs, some s.model⟩ := by
    simp [step, idle]
  have next : s.perform p lib (.startBatch :: during) =
      perform p lib ⟨s.model, s.outputs, some s.model⟩ during := by
    rw [← started]
    rfl
  rw [next] at h ⊢
  obtain ⟨hsnapshot, houtputs⟩ :=
    perform_batching p lib (s := ⟨s.model, s.outputs, some s.model⟩) rfl hd
  rw [step_undone hsnapshot h, houtputs]

end View

namespace Instance

/-- What an instance shows. -/
def view (i : Instance) : View := ⟨i.model, i.outputs, i.snapshot⟩

/-- The instance after actions, one after the other. -/
def perform (i : Instance) (actions : List Action) : Instance :=
  actions.foldl (fun i a => (a.run.run i).2) i

end Instance

/-- Engines that give the outputs of passes from scratch over documents of a class, now and after
any recalculation. -/
structure Faithful (p : Program) (lib : Library) (D : Value → Prop) (good : Engine → Prop) :
    Prop where
  refresh : ∀ e v, good e → D v → good (e.refresh p lib v).2.1
  outputs : ∀ e v outputs, good e → D v →
    ((e.refresh p lib v).1 = .ok outputs ↔ (Pass.run p lib v).1 = .ok outputs)

theorem faithful_simple (p : Program) (lib : Library) (D : Value → Prop) :
    Faithful p lib D (· = .simple) where
  refresh e v he _ := by
    subst he
    rfl
  outputs e v outputs he _ := by
    subst he
    rfl

/-- An instance at work for a machine. -/
structure Instance.Follows (p : Program) (lib : Library) (good : Engine → Prop) (i : Instance)
    (s : View) : Prop where
  program : i.program = p
  library : i.library = lib
  engine : good i.engine
  view : i.view = s

namespace Instance
variable {p : Program} {lib : Library} {D : Value → Prop} {good : Engine → Prop}
  {i : Instance} {s : View}

private theorem recalculate_run (i : Instance) :
    (liftM recalculate : Step (Except EvalError (List Value))).run i =
      (.ok (recalculate i).1, (recalculate i).2) := rfl

theorem commit_run_ok {rollback : Value} {outputs : List Value}
    (h : (recalculate i).1 = .ok outputs) :
    (commit rollback).run i = (.ok (), { (recalculate i).2 with outputs }) := by
  have first := recalculate_run i
  rw [h] at first
  exact run_bind_ok first

private theorem restore_eq (rollback : Value) (i : Instance) : (restore rollback i).2 =
    (StateT.run (match (recalculate { i with model := rollback }).1 with
      | .ok outputs => modify fun i => { i with outputs }
      | .error _ => pure () : StateM Instance Unit)
        (recalculate { i with model := rollback }).2).2 := rfl

theorem restore_run {rollback : Value} {outputs : List Value}
    (h : (recalculate { i with model := rollback }).1 = .ok outputs) :
    (restore rollback i).2 = { (recalculate { i with model := rollback }).2 with outputs } := by
  rw [restore_eq, h]
  rfl

theorem restore_run_error {rollback : Value} {e : EvalError}
    (h : (recalculate { i with model := rollback }).1 = .error e) :
    (restore rollback i).2 = (recalculate { i with model := rollback }).2 := by
  rw [restore_eq, h]
  rfl

theorem commit_run_error {rollback : Value} {e : EvalError}
    (h : (recalculate i).1 = .error e) : (commit rollback).run i =
      (.error (.eval e), (restore rollback (recalculate i).2).2) := by
  have first := recalculate_run i
  rw [h] at first
  exact run_bind_ok first

theorem Follows.withModel (hi : i.Follows p lib good s) (model : Value) :
    Follows p lib good { i with model } { s with model } := by
  obtain ⟨rfl, rfl, hg, rfl⟩ := hi
  exact ⟨rfl, rfl, hg, rfl⟩

private theorem Follows.withOutputs (hi : i.Follows p lib good s) (outputs : List Value) :
    Follows p lib good { i with outputs } { s with outputs } := by
  obtain ⟨rfl, rfl, hg, rfl⟩ := hi
  exact ⟨rfl, rfl, hg, rfl⟩

theorem Follows.withSnapshot (hi : i.Follows p lib good s) (snapshot : Option Value) :
    Follows p lib good { i with snapshot } { s with snapshot } := by
  obtain ⟨rfl, rfl, hg, rfl⟩ := hi
  exact ⟨rfl, rfl, hg, rfl⟩

variable (hf : Faithful p lib D good)
include hf

theorem Follows.recalculate (hi : i.Follows p lib good s) (hm : D s.model) :
    (recalculate i).2.Follows p lib good s ∧
      ∀ outputs, (recalculate i).1 = .ok outputs ↔ (Pass.run p lib s.model).1 = .ok outputs := by
  obtain ⟨rfl, rfl, hg, rfl⟩ := hi
  exact ⟨⟨rfl, rfl, hf.refresh i.engine i.model hg hm, rfl⟩,
    fun outputs => hf.outputs i.engine i.model outputs hg hm⟩

/-- Committing an instance commits its machine, if the outputs of the machine belong to the document
to go back to. -/
theorem Follows.commit (hi : i.Follows p lib good s) {rollback : Value} (hm : D s.model)
    (hr : D rollback) (hc : (Pass.run p lib rollback).1 = .ok s.outputs) :
    ((commit rollback).run i).1.isOk = (s.commit p lib rollback).1 ∧
      ((commit rollback).run i).2.Follows p lib good (s.commit p lib rollback).2 := by
  obtain ⟨hi', houtputs⟩ := hi.recalculate hf hm
  cases hrec : (Instance.recalculate i).1 with
  | ok outputs =>
    have pass := (houtputs outputs).mp hrec
    rw [commit_run_ok hrec, View.commit, pass]
    exact ⟨rfl, hi'.withOutputs outputs⟩
  | error e =>
    obtain ⟨hj, houtputs'⟩ := (hi'.withModel rollback).recalculate hf hr
    have undone : s.commit p lib rollback = (false, { s with model := rollback }) := by
      unfold View.commit
      cases hp : (Pass.run p lib s.model).1 with
      | error _ => rfl
      | ok outputs => simp [(houtputs outputs).mpr hp] at hrec
    rw [commit_run_error hrec, restore_run ((houtputs' s.outputs).mpr hc), undone]
    exact ⟨rfl, hj.withOutputs s.outputs⟩

/-- A step of an instance is a step of its machine. -/
theorem Follows.step (hi : i.Follows p lib good s) (hc : s.Committed p lib) (hw : s.Within D)
    {a : Action}
    (ha : ∀ m next, a = .mutate m → m.document p s.model = .ok next → D next) :
    (a.run.run i).1.isOk = (s.step p lib a).1 ∧
      (a.run.run i).2.Follows p lib good (s.step p lib a).2 := by
  obtain ⟨program, library, engine, model, outputs, snapshot, work, journal⟩ := i
  obtain ⟨rfl, rfl, hg, rfl⟩ := hi
  have hi : Follows program library good
    ⟨program, library, engine, model, outputs, snapshot, work, journal⟩ _ := ⟨rfl, rfl, hg, rfl⟩
  cases a with
  | mutate m =>
    simp only [Action.run, Mutation.run_eq, View.step, Instance.view]
    cases hd : m.document program model with
    | error e => exact ⟨rfl, hi⟩
    | ok next =>
      cases snapshot with
      | some before => exact ⟨rfl, hi.withModel next⟩
      | none => exact (hi.withModel next).commit hf (ha m next rfl hd) hw.model hc
  | startBatch =>
    cases snapshot with
    | some before => exact ⟨rfl, hi⟩
    | none => exact ⟨rfl, hi.withSnapshot (some model)⟩
  | endBatch =>
    cases snapshot with
    | none => exact ⟨rfl, hi⟩
    | some before => exact (hi.withSnapshot none).commit hf hw.model hw.committed hc

/-- Actions of an instance are actions of its machine. -/
theorem Follows.perform (hi : i.Follows p lib good s) (hc : s.Committed p lib) (hw : s.Within D)
    (actions : List Action) (ha : ∀ a ∈ actions, ∀ m model next, a = .mutate m → D model →
      m.document p model = .ok next → D next) :
    (i.perform actions).Follows p lib good (s.perform p lib actions) ∧
      (s.perform p lib actions).Within D := by
  induction actions generalizing i s with
  | nil => exact ⟨hi, hw⟩
  | cons a rest ih =>
    obtain ⟨first, others⟩ := List.forall_mem_cons.mp ha
    have keeps (m : Mutation) (next : Value) (hm : a = .mutate m)
        (hd : m.document p s.model = .ok next) : D next := first m s.model next hm hw.model hd
    exact ih (hi.step hf hc hw keeps).2 (hc.step a) (hw.step keeps) others

/-- A new instance shows the outputs of a pass over its document. -/
theorem follows_create (hg : good (Engine.start p.backend)) {v : Value} (hv : D v)
    (h : create p v lib = .ok i) :
    i.Follows p lib good ⟨v, i.outputs, none⟩ ∧ (Pass.run p lib v).1 = .ok i.outputs := by
  unfold create at h
  split at h
  · cases h
  · simp only at h
    split at h
    · cases h
    · rename_i outputs hr
      cases h
      exact ⟨⟨rfl, rfl, hf.refresh _ v hg hv, rfl⟩, (hf.outputs _ v outputs hg hv).mp hr⟩

/-- An instance is created exactly if its functions are there and a pass over its document
succeeds. -/
theorem create_ok_iff (hg : good (Engine.start p.backend)) {v : Value} (hv : D v) :
    (∃ i, create p v lib = .ok i) ↔
      (∀ f ∈ p.functions, lib.contains f) ∧ ∃ outputs, (Pass.run p lib v).1 = .ok outputs := by
  have outputs := fun o => hf.outputs (Engine.start p.backend) v o hg hv
  unfold create
  cases hm : p.functions.find? fun f => !lib.contains f with
  | some f =>
    have missing := List.find?_some hm
    simp only [Bool.not_eq_true'] at missing
    simp only [reduceCtorEq, exists_false, false_iff, not_and]
    intro all
    simp [all f (List.mem_of_find?_eq_some hm)] at missing
  | none =>
    have all : ∀ f ∈ p.functions, lib.contains f := by simpa using List.find?_eq_none.mp hm
    cases hr : ((Engine.start p.backend).refresh p lib v).1 with
    | error e =>
      rw [hr] at outputs
      simp [hr, ← outputs]
    | ok o => simpa [hr, ← outputs] using all

end Instance

end Recalc
