import Recalc.Proofs.Graph.Opening.Run
import Recalc.Proofs.Instance.Backends

/-! Failures of the two backends side by side. Both fail on the same documents, and for the same
reason unless an access has an object and a key that fail for different ones: the simple backend
evaluates the object first, the optimizing backend the key. -/
namespace Recalc.Instance
variable {m : Model} {p q : Program} {lib : Library} {v : Value}

/-- With all functions there, an instance cannot be created if and only if its outputs fail. -/
private theorem create_error_iff (hf : (p.functions.find? fun f => !lib.contains f) = none)
    (e : RuntimeError) : create p v lib = .error e ↔
      ∃ e', ((Engine.start p.backend).refresh p lib v).1 = .error e' ∧ e = .eval e' := by
  unfold create
  rw [hf]
  rcases (Engine.start p.backend).refresh p lib v with ⟨r, engine, work⟩
  cases r with
  | ok outputs => exact ⟨(by rintro ⟨⟩), (by rintro ⟨_, ⟨⟩, -⟩)⟩
  | error e' =>
    constructor
    · rintro ⟨⟩
      exact ⟨e', rfl, rfl⟩
    · rintro ⟨_, ⟨⟩, rfl⟩
      rfl

private theorem create_missing {f : String}
    (hf : (p.functions.find? fun f => !lib.contains f) = some f) :
    create p v lib = .error (.unknownFunction f) := by
  unfold create
  rw [hf]

/-- A function is reported as unknown exactly if it is the first that the library lacks. -/
private theorem create_unknown_iff {f : String} : create p v lib = .error (.unknownFunction f) ↔
    (p.functions.find? fun f => !lib.contains f) = some f := by
  refine ⟨fun reported => ?_, create_missing⟩
  cases hf : p.functions.find? fun f => !lib.contains f with
  | some g =>
    rw [create_missing hf] at reported
    cases reported
    rfl
  | none =>
    obtain ⟨e, -, other⟩ := (create_error_iff hf _).mp reported
    cases other

/-- Both backends report a missing function alike. Over programs that tell apart the constants which
can turn up as an element or a context of one of their functions, both create the same instances. If
moreover no access has an object and a key that fail for different reasons, both fail for the same
reason. -/
theorem create_errors_agree {m : OrderedModel} {lib : OrderedLibrary} {v : OrderedValue}
    (hs : Program.compile m .simple = .ok p) (ho : Program.compile m .optimizing = .ok q) :
    (∀ f, (create p v lib = .error (.unknownFunction f) ↔
        (p.functions.find? fun f => !lib.val.contains f) = some f) ∧
      (create p v lib = .error (.unknownFunction f) ↔
        create q v lib = .error (.unknownFunction f))) ∧
    (q.Discerns → ((∃ e, create p v lib = .error e) ↔ ∃ e, create q v lib = .error e) ∧
      (Pass.Fair q lib v → ∀ e, create p v lib = .error e ↔ create q v lib = .error e)) := by
  have same : { p with backend := .optimizing } = q :=
    Except.ok.inj ((Program.compile_backend hs .optimizing).symm.trans ho)
  have functions : q.functions = p.functions := by rw [← same]
  obtain ⟨⟨m, hm⟩, ⟨lib, hl⟩, ⟨v, hv⟩⟩ := m, lib, v
  refine ⟨fun f => ⟨create_unknown_iff, ?_⟩, fun hq => ?_⟩
  · rw [create_unknown_iff, create_unknown_iff, functions]
  cases hf : p.functions.find? fun f => !lib.contains f with
  | some f =>
    rw [create_missing hf, create_missing (functions ▸ hf)]
    exact ⟨Iff.rfl, fun _ _ => Iff.rfl⟩
  | none =>
    have linked := Program.linked_of_compile ho
    let O : Opening := ⟨q, lib, v, linked, closedClass_ordered ho hm hl, hq, hv⟩
    have judged : (Pass.run p lib v).1 = (Pass.judgedOutputs q lib v).result := by
      rw [Pass.result_judgedOutputs, ← run_backend p .optimizing lib v, same]
      exact Pass.Scene.run_eq_plain (.ofCompiled ho hm hl hv)
    have simple : ((Engine.start p.backend).refresh p lib v).1 =
        (Pass.judgedOutputs q lib v).result := by
      rw [← judged, Program.backend_of_compile hs]
      rfl
    have optimizing : ((Engine.start q.backend).refresh q lib v).1 =
        (Graph.empty.refresh q lib v).1 := by
      rw [Program.backend_of_compile ho]
      rfl
    have shallow := Graph.refresh_ne_tooDeep linked lib (World.layout_empty q) v
    obtain ⟨ok, error⟩ := O.refresh_empty
    have error (e : EvalError) (he : (Graph.empty.refresh q lib v).1 = .error e) :
        ∃ e', (Pass.judgedOutputs q lib v).result = .error e' ∧ (Pass.Fair q lib v → e = e') := by
      rcases error e he with rfl | found
      · exact absurd he shallow
      · exact found
    have fails (e : EvalError) (he : (Pass.judgedOutputs q lib v).result = .error e) :
        ∃ e', (Graph.empty.refresh q lib v).1 = .error e' := by
      cases hr : (Graph.empty.refresh q lib v).1 with
      | error e' => exact ⟨e', rfl⟩
      | ok outputs =>
        rw [ok outputs hr] at he
        cases he
    simp only [create_error_iff hf, create_error_iff (functions ▸ hf), simple, optimizing]
    refine ⟨⟨?_, ?_⟩, fun fair e => ⟨?_, ?_⟩⟩
    · rintro ⟨_, e, he, -⟩
      obtain ⟨e', he'⟩ := fails e he
      exact ⟨_, e', he', rfl⟩
    · rintro ⟨_, e, he, -⟩
      obtain ⟨e', he', -⟩ := error e he
      exact ⟨_, e', he', rfl⟩
    · rintro ⟨e, he, rfl⟩
      obtain ⟨e', he'⟩ := fails e he
      obtain ⟨e'', he'', one⟩ := error e' he'
      rw [he] at he''
      cases he''
      exact ⟨e', he', by rw [one fair]⟩
    · rintro ⟨e, he, rfl⟩
      obtain ⟨e', he', one⟩ := error e he
      exact ⟨e', he', by rw [one fair]⟩

/-- Goes through constants, and accesses an array that cannot be built with a key that fails for the
same reason. -/
def probing : OrderedModel :=
  let rest : Expr := .binary .mod (.literal (.int 1)) (.val 0)
  ⟨⟨[("out", .output (.iterate .map (.literal (.arr [.int 1, .int 0])) 0
    (.get (.array [rest]) rest) none))], by decide⟩, by decide⟩

def probingProgram (b : Backend) : Program where
  backend := b
  entries := #[⟨.literal (.arr [.int 1, .int 0]), [], []⟩, ⟨.literal (.int 1), [], []⟩,
    ⟨.val 0, [0], []⟩, ⟨.binary .mod 1 2, [0], []⟩, ⟨.array [3], [0], []⟩, ⟨.get 4 3, [0], []⟩,
    ⟨.iterate .map 0 0 5 none, [], []⟩]
  outputs := [("out", 6)]
  mutators := []
  functions := []

private theorem compile_probing (b : Backend) :
    Program.compile probing b = .ok (probingProgram b) := by with_unfolding_all rfl

/-- A document that the probe does not read. -/
def unread : OrderedValue := ⟨.null, by decide⟩

theorem create_errors_agree_probing :
    create (probingProgram .simple) unread OrderedLibrary.empty = .error (.eval .divisionByZero) ∧
      create (probingProgram .optimizing) unread OrderedLibrary.empty =
        .error (.eval .divisionByZero) := by
  have discerns : (probingProgram .optimizing).Discerns := by
    refine Program.discerns_of_tame (fun _ h => False.elim h) fun id v hn => ?_
    change v.FloatFree
    match id with
    | 0 | 1 =>
      cases hn
      simp [Value.FloatFree, Value.tame_arr]
    | 2 | 3 | 4 | 5 | 6 => cases hn
    | _ + 7 => cases hn
  have simple : create (probingProgram .simple) unread OrderedLibrary.empty =
      .error (.eval .divisionByZero) := rfl
  refine ⟨simple, (((create_errors_agree (compile_probing .simple)
    (compile_probing .optimizing)).2 discerns).2 (by rfl) _).mp simple⟩

/-- An access whose object and key fail for different reasons. -/
def clashing : Model :=
  ⟨[("out", .output (.get (.binary .mod (.literal (.int 1)) (.literal (.int 0)))
    (.unary .size (.literal (.int 1)))))], by decide⟩

def clashingProgram (b : Backend) : Program where
  backend := b
  entries := #[⟨.literal (.int 1), [], []⟩, ⟨.literal (.int 0), [], []⟩, ⟨.binary .mod 0 1, [], []⟩,
    ⟨.unary .size 0, [], []⟩, ⟨.get 2 3, [], []⟩]
  outputs := [("out", 4)]
  mutators := []
  functions := []

private theorem compile_clashing (b : Backend) :
    Program.compile clashing b = .ok (clashingProgram b) := by with_unfolding_all rfl

/-- Goes through the elements of two constants that are equal and not identical. -/
def blurring : Model :=
  ⟨[("out", .output (.iterate .map
    (.literal (.arr [.arr [.float (.ofNat 0)], .arr [.int 0]])) 0
    (.iterate .map (.val 0) 1 (.binary .mod (.literal (.int 1)) (.val 1)) none) none))], by decide⟩

def blurringProgram (b : Backend) : Program where
  backend := b
  entries := #[⟨.literal (.arr [.arr [.float (.ofNat 0)], .arr [.int 0]]), [], []⟩,
    ⟨.val 0, [0], []⟩, ⟨.literal (.int 1), [], []⟩, ⟨.val 1, [1], []⟩, ⟨.binary .mod 2 3, [1], []⟩,
    ⟨.iterate .map 1 1 4 none, [0], []⟩, ⟨.iterate .map 0 0 5 none, [], []⟩]
  outputs := [("out", 6)]
  mutators := []
  functions := []

private theorem compile_blurring (b : Backend) :
    Program.compile blurring b = .ok (blurringProgram b) := by with_unfolding_all rfl

/-- The backends can fail for different reasons, and one of them can fail alone. -/
theorem create_errors_differ :
    (∃ m p q v e e', Program.compile m .simple = .ok p ∧ Program.compile m .optimizing = .ok q ∧
      create p v .empty = .error (.eval e) ∧ create q v .empty = .error (.eval e') ∧ e ≠ e') ∧
    ∃ m p q v e i, Program.compile m .simple = .ok p ∧ Program.compile m .optimizing = .ok q ∧
      create p v .empty = .error (.eval e) ∧ create q v .empty = .ok i := by
  constructor
  · refine ⟨clashing, _, _, .obj [], .divisionByZero,
      .type (.operand .size .collection .integer), compile_clashing .simple,
      compile_clashing .optimizing, rfl, rfl, by decide⟩
  · obtain ⟨i, hi, -⟩ := exists_of_toOption_any (f := fun _ => true)
      (x := create (blurringProgram .optimizing) (.obj []) .empty) (by decide +kernel)
    exact ⟨blurring, _, _, .obj [], .divisionByZero, i, compile_blurring .simple,
      compile_blurring .optimizing, rfl, hi⟩

end Recalc.Instance
