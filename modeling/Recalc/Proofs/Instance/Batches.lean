import Recalc.Proofs.Instance.Tasks

/-! Batches as a whole. A batch of mutations shows in the end what the mutations show one by one,
and until then what was committed before it. A batch that fails leaves what was committed last,
which is what was there before it unless its own steps have ended it. -/
namespace Recalc

/-- Whether a task can end the batch that it is part of. Batches inside of a batch do not start. -/
def Task.endsBatch : Task → Bool
  | act .endBatch => true
  | attempt t => t.endsBatch
  | _ => false

/-- A task for a backend. The optimizing backend is for values without doubles. -/
def Task.Suits (b : Backend) (t : Task) : Prop :=
  b = .optimizing → ∀ u ∈ t.values, u.FloatFree

namespace View
variable {p : Program} {lib : Library} {s : View}

private theorem step_startBatch (idle : s.snapshot = none) :
    s.step p lib .startBatch = (true, ⟨s.model, s.outputs, some s.model⟩) := by
  simp [step, idle]

private theorem allTasks_start (idle : s.snapshot = none) (tasks : List Task) :
    s.allTasks p lib (.act .startBatch :: tasks) =
      allTasks p lib ⟨s.model, s.outputs, some s.model⟩ tasks := by
  rw [allTasks, task, step_startBatch idle]
  rfl

private theorem allTasks_append (s : View) (first rest : List Task) :
    s.allTasks p lib (first ++ rest) =
      andThen (s.allTasks p lib first) fun s => s.allTasks p lib rest := by
  induction first generalizing s with
  | nil => rfl
  | cons t others ih =>
    rw [List.cons_append, allTasks, allTasks]
    unfold andThen
    split
    · exact ih _
    · rfl

/-- What starts with accepted tasks has accepted their beginning. -/
theorem allTasks_prefix {first tasks : List Task} (h : first <+: tasks)
    (accepted : (s.allTasks p lib tasks).1 = true) : (s.allTasks p lib first).1 = true := by
  obtain ⟨rest, rfl⟩ := h
  by_contra refused
  rw [allTasks_append, andThen, if_neg refused] at accepted
  exact refused accepted

/-! ### Mutations one by one -/

/-- The document after mutations in order. -/
def documents (p : Program) (model : Value) (calls : List Mutation) : Except RuntimeError Value :=
  calls.foldlM (fun model m => m.document p model) model

/-- Mutations that are all accepted outside of batches lead to a document that can be committed. -/
theorem allTasks_idle (idle : s.snapshot = none) (hc : s.Committed p lib) {calls : List Mutation}
    (h : (s.allTasks p lib (calls.map .call)).1 = true) :
    documents p s.model calls = .ok (s.allTasks p lib (calls.map .call)).2.model ∧
      (s.allTasks p lib (calls.map .call)).2.snapshot = none ∧
      (s.allTasks p lib (calls.map .call)).2.Committed p lib := by
  induction calls generalizing s with
  | nil => exact ⟨rfl, idle, hc⟩
  | cons m rest ih =>
    rw [List.map_cons, allTasks, Task.call, task] at h ⊢
    have outcome := step_outcome p lib s (.mutate m)
    have later := hc.step (.mutate m)
    generalize s.step p lib (.mutate m) = t at h outcome later ⊢
    cases outcome with
    | refused _ => cases h
    | postponed _ batching => simp [idle] at batching
    | taken document _ pass =>
      rw [documents, List.foldlM_cons, document]
      exact ih rfl later h

/-- Inside of a batch the same mutations are accepted, and nothing else changes. -/
theorem allTasks_batching {model next before : Value} {outputs : List Value}
    {calls : List Mutation} (h : documents p model calls = .ok next) :
    allTasks p lib ⟨model, outputs, some before⟩ (calls.map .call) =
      (true, ⟨next, outputs, some before⟩) := by
  induction calls generalizing model with
  | nil =>
    cases h
    rfl
  | cons m rest ih =>
    rw [documents, List.foldlM_cons] at h
    obtain ⟨middle, document, h⟩ := except_bind_eq_ok.mp h
    have postponed : step p lib ⟨model, outputs, some before⟩ (.mutate m) =
        (true, ⟨middle, outputs, some before⟩) := by
      simp [step, document]
    rw [List.map_cons, allTasks, Task.call, task, postponed]
    exact ih h

/-- Mutations that are accepted one by one are accepted in a batch, which keeps what was committed
until it ends. -/
theorem allTasks_startBatch (idle : s.snapshot = none) (hc : s.Committed p lib)
    {calls : List Mutation} (h : (s.allTasks p lib (calls.map .call)).1 = true) :
    s.allTasks p lib (.act .startBatch :: calls.map .call) =
      (true, ⟨(s.allTasks p lib (calls.map .call)).2.model, s.outputs, some s.model⟩) := by
  rw [allTasks_start idle]
  exact allTasks_batching (allTasks_idle idle hc h).1

/-- A batch of mutations that are accepted one by one ends with what they show one by one. -/
theorem allTasks_endBatch (idle : s.snapshot = none) (hc : s.Committed p lib)
    {calls : List Mutation} (h : (s.allTasks p lib (calls.map .call)).1 = true) :
    s.allTasks p lib (.act .startBatch :: calls.map .call ++ [.act .endBatch]) =
      s.allTasks p lib (calls.map .call) := by
  obtain ⟨-, closed, pass⟩ := allTasks_idle idle hc h
  rw [allTasks_append, allTasks_startBatch idle hc h]
  generalize s.allTasks p lib (calls.map .call) = t at h closed pass ⊢
  obtain ⟨accepted, model, outputs, snapshot⟩ := t
  cases h
  cases closed
  have ended : (Pass.run p lib model).1 = .ok outputs := pass
  simp [andThen, allTasks, task, step, commit, ended]

/-! ### Batches that fail -/

variable (p lib) in
/-- While a batch is in progress, what was committed before it stays. -/
theorem task_batching {before : Value} (hs : s.snapshot = some before) {t : Task}
    (ht : t.endsBatch = false) : (s.task p lib t).2.snapshot = some before ∧
      (s.task p lib t).2.outputs = s.outputs := by
  induction t using Task.induct with
  | act a =>
    refine step_batching hs ?_
    rintro rfl
    cases ht
  | attempt t ih => exact ih ht
  | fail e => exact ⟨hs, rfl⟩
  | batch tasks =>
    have refused : s.step p lib .startBatch = (false, s) := by simp [step, hs]
    rw [task, refused]
    exact ⟨hs, rfl⟩

private theorem abandon_batching {before : Value} (hs : s.snapshot = some before) :
    s.abandon = ⟨before, s.outputs, none⟩ := by
  simp [abandon, hs]

/-- A task that fails in a batch leaves what was committed before the batch. -/
theorem abandon_task {before : Value} (hs : s.snapshot = some before) {t : Task}
    (h : (s.task p lib t).1 = false) :
    (s.task p lib t).2.abandon = ⟨before, s.outputs, none⟩ := by
  cases ht : t.endsBatch with
  | false =>
    obtain ⟨snapshot, outputs⟩ := task_batching p lib hs ht
    rw [abandon_batching snapshot, outputs]
  | true =>
    cases t with
    | act a =>
      cases a with
      | endBatch =>
        rw [task] at h ⊢
        rw [step_undone hs h]
        rfl
      | _ => cases ht
    | attempt t => cases h
    | _ => cases ht

/-- Tasks of a batch that they do not end leave what was committed before it: in the snapshot if
they are accepted, and after the batch is dropped if they are not. -/
theorem allTasks_open {before : Value} (hs : s.snapshot = some before) {tasks : List Task}
    (own : ∀ done, done <+: tasks → (s.allTasks p lib done).1 = true →
      ∀ t ∈ done, t.endsBatch = false) :
    if (s.allTasks p lib tasks).1 then (s.allTasks p lib tasks).2.snapshot = some before ∧
        (s.allTasks p lib tasks).2.outputs = s.outputs
    else (s.allTasks p lib tasks).2.abandon = ⟨before, s.outputs, none⟩ := by
  induction tasks generalizing s with
  | nil => exact ⟨hs, rfl⟩
  | cons t rest ih =>
    cases h : (s.task p lib t).1 with
    | false =>
      have stops : s.allTasks p lib (t :: rest) = s.task p lib t := by simp [allTasks, andThen, h]
      rw [stops, if_neg (by simp [h])]
      exact abandon_task hs h
    | true =>
      have goes (others : List Task) :
          s.allTasks p lib (t :: others) = (s.task p lib t).2.allTasks p lib others := by
        simp [allTasks, andThen, h]
      have here : t.endsBatch = false :=
        own [t] ⟨rest, rfl⟩ (by rw [goes]; rfl) t List.mem_cons_self
      obtain ⟨snapshot, outputs⟩ := task_batching p lib hs here
      rw [goes, ← outputs]
      refine ih snapshot fun done hd accepted d hm => ?_
      exact own (t :: done) (List.cons_prefix_cons.mpr ⟨rfl, hd⟩) (by rw [goes]; exact accepted) d
        (List.mem_cons_of_mem _ hm)

private theorem snapshot_finish (outcome : Bool × View) :
    (finish p lib outcome).2.snapshot = none := by
  rw [finish]
  split
  · have outcome' := step_outcome p lib outcome.2 .endBatch
    generalize outcome.2.step p lib .endBatch = t at outcome' ⊢
    cases outcome' with
    | refused idle => exact idle rfl
    | ended => rfl
    | undone => rfl
  · cases hs : outcome.2.snapshot with
    | none => simp [abandon, hs]
    | some before => rw [abandon_batching hs]

/-- Outside of batches a batch starts, does its tasks and finishes. -/
theorem task_batch (idle : s.snapshot = none) (tasks : List Task) : s.task p lib (.batch tasks) =
    finish p lib (s.allTasks p lib (.act .startBatch :: tasks)) := by
  rw [task, step_startBatch idle, allTasks_start idle]
  rfl

/-- A batch that fails and that its tasks did not end changes nothing. -/
theorem task_batch_refused (idle : s.snapshot = none) {tasks : List Task}
    (own : ∀ done, done <+: tasks → (s.allTasks p lib (.act .startBatch :: done)).1 = true →
      ∀ t ∈ done, t.endsBatch = false)
    (h : (s.task p lib (.batch tasks)).1 = false) : (s.task p lib (.batch tasks)).2 = s := by
  have same : (⟨s.model, s.outputs, none⟩ : View) = s := by rw [← idle]
  simp only [allTasks_start idle] at own
  have left := allTasks_open (s := ⟨s.model, s.outputs, some s.model⟩) rfl own
  rw [task_batch idle, allTasks_start idle, finish] at h ⊢
  by_cases accepted : (allTasks p lib ⟨s.model, s.outputs, some s.model⟩ tasks).1 = true
  · rw [if_pos accepted] at h left ⊢
    rw [step_undone left.1 h, left.2]
    exact same
  · rw [if_neg accepted] at left ⊢
    exact left.trans same

end View

/-! ### Batches of instances -/

namespace Instance
variable {m : Model} {b : Backend} {p : Program} {lib : Library} {v : Value} {j : Instance}

/-- Instances of either backend follow their machine, those of the optimizing backend as long as
nothing has doubles. -/
theorem exists_serves (hc : Program.compile m b = .ok p) (hj : Reached p lib v (Task.Suits b) j)
    (free : b = .optimizing → p.FloatFree ∧ lib.FloatFree ∧ v.FloatFree) :
    ∃ D good, Faithful p lib D good ∧ Serves p lib D good j j.view ∧
      ∀ t, Task.Suits b t → t.Keeps p D := by
  have hb := Program.backend_of_compile hc
  cases b with
  | simple =>
    have simple := faithful_simple p lib fun _ => True
    have keeps (t : Task) : t.Keeps p fun _ => True := t.keeps_true p
    refine ⟨_, _, simple, hj.serves simple ?_ trivial fun t _ => keeps t, fun t _ => keeps t⟩
    rw [hb]
    rfl
  | optimizing =>
    obtain ⟨hp, hlib, hv⟩ := free rfl
    have optimizing := faithful_optimizing (Program.lawful_of_compile hc)
      (domain_of_floatFree hp hlib)
    have keeps (t : Task) (ht : t.Suits .optimizing) : t.Keeps p Value.FloatFree :=
      Task.keeps_of_floatFree (ht rfl)
    refine ⟨_, _, optimizing, hj.serves optimizing ?_ hv keeps, keeps⟩
    rw [hb]
    exact ⟨[], rfl, by simp⟩

/-- How tasks end, and the instance after them. -/
def does (j : Instance) (tasks : List Task) : Except RuntimeError Unit × Instance :=
  (Task.runAll tasks).run j

private theorem eq_ok_iff {x : Except RuntimeError Unit} : x = .ok () ↔ x.isOk = true := by
  cases x with
  | error e => simp [Except.isOk, Except.toBool]
  | ok a => simp [Except.isOk, Except.toBool]

/-- Mutations that an instance accepts one by one it accepts in a batch, with the same documents
and, when the batch has ended, the same outputs. Until then the outputs are those from before. -/
theorem batch_eq_calls {calls : List Mutation} (hc : Program.compile m b = .ok p)
    (hj : Reached p lib v (Task.Suits b) j)
    (free : b = .optimizing → p.FloatFree ∧ lib.FloatFree ∧ v.FloatFree)
    (suits : ∀ c ∈ calls, Task.Suits b (.call c)) (idle : j.isBatching = false)
    (accepted : (j.does (calls.map .call)).1 = .ok ()) :
    (j.does (.act .startBatch :: calls.map .call ++ [.act .endBatch])).1 = .ok () ∧
    (j.does (.act .startBatch :: calls.map .call ++ [.act .endBatch])).2.view =
      (j.does (calls.map .call)).2.view ∧
    ∀ done, done <+: calls →
      (j.does (.act .startBatch :: done.map .call)).1 = .ok () ∧
      (j.does (.act .startBatch :: done.map .call)).2.view =
        ⟨(j.does (done.map .call)).2.model, j.outputs, some j.model⟩ := by
  obtain ⟨D, good, hf, serves, keeps⟩ := exists_serves hc hj free
  have idle' : j.view.snapshot = none := by simpa [isBatching, view] using idle
  have tracks (tasks : List Task) (ht : ∀ t ∈ tasks, t.Keeps p D) :
      (j.does tasks).1.isOk = (j.view.allTasks p lib tasks).1 ∧
        (j.does tasks).2.view = (j.view.allTasks p lib tasks).2 :=
    ⟨(serves.tasks hf ht).isOk, (serves.tasks hf ht).serves.follows.view⟩
  have unbatched (done : List Mutation) (hd : done <+: calls) :
      ∀ t ∈ done.map Task.call, t.Keeps p D := by
    intro t ht
    obtain ⟨c, hm, rfl⟩ := List.mem_map.mp ht
    exact keeps _ (suits c (hd.subset hm))
  have batched (done : List Mutation) (hd : done <+: calls) :
      ∀ t ∈ Task.act .startBatch :: done.map .call, t.Keeps p D :=
    List.forall_mem_cons.mpr ⟨Task.keeps_startBatch p D, unbatched done hd⟩
  have whole : ∀ t ∈ Task.act .startBatch :: calls.map .call ++ [.act .endBatch], t.Keeps p D :=
    List.forall_mem_append.mpr ⟨batched calls (List.prefix_refl calls),
      List.forall_mem_singleton.mpr (Task.keeps_endBatch p D)⟩
  obtain ⟨onebyone, final⟩ := tracks _ (unbatched calls (List.prefix_refl calls))
  rw [eq_ok_iff, onebyone] at accepted
  have ended := View.allTasks_endBatch idle' serves.committed accepted
  refine ⟨?_, ?_, fun done hd => ?_⟩
  · rw [eq_ok_iff, (tracks _ whole).1, ended]
    exact accepted
  · rw [(tracks _ whole).2, ended, final]
  · have first := View.allTasks_prefix (List.IsPrefix.map Task.call hd) accepted
    have model : (j.does (done.map .call)).2.model =
        (j.view.allTasks p lib (done.map .call)).2.model :=
      congrArg View.model (tracks _ (unbatched done hd)).2
    rw [eq_ok_iff, (tracks _ (batched done hd)).1, (tracks _ (batched done hd)).2,
      View.allTasks_startBatch idle' serves.committed first, model]
    exact ⟨rfl, rfl⟩

theorem batch_eq_calls_comparing :
    ∃ i, create (comparingProgram .optimizing) (.obj [("x", .int 1)]) .empty = .ok i ∧
      i.isBatching = false ∧
      (i.does [.call (.set "setX" [.int 5]), .call (.invoke "setX" [.int 7])]).1 = .ok () ∧
      (i.does [.act .startBatch, .call (.set "setX" [.int 5]), .call (.invoke "setX" [.int 7]),
        .act .endBatch]).2.view =
        (i.does [.call (.set "setX" [.int 5]), .call (.invoke "setX" [.int 7])]).2.view := by
  obtain ⟨i, hi, facts⟩ := exists_of_toOption_any
    (x := create (comparingProgram .optimizing) (.obj [("x", .int 1)]) .empty)
    (f := fun i => !i.isBatching &&
      (i.does [.call (.set "setX" [.int 5]), .call (.invoke "setX" [.int 7])]).1.isOk)
    (by decide +kernel)
  simp only [Bool.and_eq_true, Bool.not_eq_true', ← eq_ok_iff] at facts
  have hlib : Library.empty.FloatFree := Library.floatFree_of_mem (by simp [Library.empty])
  have hv : (Value.obj [("x", .int 1)]).FloatFree := by simp [Value.FloatFree, Fields.Sorted]
  have suits : ∀ c ∈ [Mutation.set "setX" [.int 5], .invoke "setX" [.int 7]],
      Task.Suits .optimizing (.call c) := by
    simp [Task.Suits, Task.values, Task.call, Task.mutations, Mutation.values, Value.FloatFree]
  refine ⟨i, hi, facts.1, facts.2, ?_⟩
  exact (batch_eq_calls (compile_comparing .optimizing) (.create hi)
    (fun _ => ⟨floatFree_comparing .optimizing, hlib, hv⟩) suits facts.1 facts.2).2.1

/-! ### Batches that fail -/

/-- A batch that fails leaves no batch in progress, and outputs that belong to the document. It
leaves all as it was before, unless a task of its own that had succeeded could end it. -/
theorem batch_error {tasks : List Task} {e : RuntimeError}
    (hc : Program.compile m .simple = .ok p) (hj : Reached p lib v (fun _ => True) j)
    (idle : j.isBatching = false) (fails : ((batch (Task.runAll tasks)).run j).1 = .error e) :
    ((batch (Task.runAll tasks)).run j).2.isBatching = false ∧
    (Pass.run p lib ((batch (Task.runAll tasks)).run j).2.model).1 =
      .ok ((batch (Task.runAll tasks)).run j).2.outputs ∧
    ((∀ done, done <+: tasks → (j.does (.act .startBatch :: done)).1 = .ok () →
      ∀ t ∈ done, t.endsBatch = false) →
      ((batch (Task.runAll tasks)).run j).2.view = j.view) := by
  have simple := faithful_simple p lib fun _ => True
  have hg : Engine.start p.backend = .simple := by rw [Program.backend_of_compile hc]; rfl
  have serves := hj.serves simple hg trivial fun t _ => t.keeps_true p
  have idle' : j.view.snapshot = none := by simpa [isBatching, view] using idle
  obtain ⟨refused, after⟩ := serves.task simple (Task.keeps_true p (.batch tasks))
  rw [Task.run] at refused after
  rw [fails] at refused
  have hview := after.follows.view
  have closed : (j.view.task p lib (.batch tasks)).2.snapshot = none := by
    rw [View.task_batch idle']
    exact View.snapshot_finish _
  refine ⟨?_, ?_, fun own => ?_⟩
  · rw [← hview] at closed
    simpa [isBatching, view] using closed
  · have committed := after.committed
    rw [View.Committed, View.committed, closed, ← hview] at committed
    exact committed
  · rw [hview]
    refine View.task_batch_refused idle' (fun done hd accepted => own done hd ?_) refused.symm
    have keeps : ∀ t ∈ Task.act .startBatch :: done, t.Keeps p fun _ => True :=
      fun t _ => t.keeps_true p
    exact eq_ok_iff.mpr ((serves.tasks simple keeps).isOk.trans accepted)

theorem batch_error_listing : listingInstance.isBatching = false ∧
    ((batch (Task.runAll [.call (.set "setItems" [.arr []]), .act .startBatch, .act .endBatch])).run
      listingInstance).1 = .error .batchInProgress ∧
    ((batch (Task.runAll [.call (.set "setItems" [.arr []]), .act .startBatch, .act .endBatch])).run
      listingInstance).2.view = listingInstance.view := by
  have reached : Reached listingProgram .empty (.obj [("xs", .arr [.int 1])]) (fun _ => True)
      listingInstance := .create rfl
  refine ⟨rfl, rfl, (batch_error compile_listing reached rfl rfl).2.2 fun done hd ok => ?_⟩
  -- The second task fails, so the third, which would end the batch, is not done.
  rcases done with _ | ⟨first, _ | ⟨second, rest⟩⟩
  · simp
  · obtain ⟨rfl, -⟩ := List.cons_prefix_cons.mp hd
    simp [Task.call, Task.endsBatch]
  · obtain ⟨rfl, later⟩ := List.cons_prefix_cons.mp hd
    obtain ⟨rfl, -⟩ := List.cons_prefix_cons.mp later
    cases (show Except.error RuntimeError.batchInProgress = .ok () from ok)

/-- Steps that end the batch that they are in keep what they have done when a later one fails. -/
theorem batch_keeps_mutations : ¬ ∀ m p lib v j tasks e, Program.compile m .simple = .ok p →
    Reached p lib v (fun _ => True) j → j.isBatching = false →
    ((batch (Task.runAll tasks)).run j).1 = .error e →
    ((batch (Task.runAll tasks)).run j).2.view = j.view := by
  intro h
  have same := h listing listingProgram .empty (.obj [("xs", .arr [.int 1])]) listingInstance
    [.call (.set "setItems" [.arr []]), .act .endBatch, .call (.set "missing" [])] _
    compile_listing (.create rfl) rfl rfl
  cases congrArg View.model same

end Instance

end Recalc
