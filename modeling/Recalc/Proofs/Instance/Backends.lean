import Recalc.Proofs.Graph.FromScratch
import Recalc.Proofs.Instance.Steps
import Recalc.Proofs.Path

/-! The two backends side by side. Without doubles they accept the same steps and show the same.
With doubles they do not: the optimizing backend takes an integer and the double equal to it for one
value, and comparisons tell them apart. -/
namespace Recalc

/-! ### Documents without doubles -/

/-- The values that a mutation brings in. -/
def Mutation.values : Mutation → List Value
  | set _ args => args
  | splice _ args _ _ inserted => args ++ inserted
  | invoke _ args => args

def Action.values : Action → List Value
  | mutate m => m.values
  | startBatch => []
  | endBatch => []

namespace Instance
variable {p : Program} {model next : Value} {name : String} {args : List Value}

private theorem floatFree_afterSet (hm : model.FloatFree) (ha : ∀ v ∈ args, v.FloatFree)
    (h : afterSet p model name args = .ok next) : next.FloatFree := by
  obtain ⟨m, -, h⟩ := except_bind_eq_ok.mp h
  split at h
  · cases h
  · obtain ⟨keys, -, h⟩ := except_bind_eq_ok.mp h
    refine Path.tame_set hm ?_ (except_mapError_eq_ok.mp h)
    cases hl : args.getLast? with
    | none => simp [List.getLastD_eq_getLast?, hl]
    | some v =>
      rw [List.getLastD_eq_getLast?, hl]
      exact ha v (List.mem_of_getLast? hl)

private theorem floatFree_afterSplice {start : Int} {deleted : Nat} {inserted : List Value}
    (hm : model.FloatFree) (hi : ∀ v ∈ inserted, v.FloatFree)
    (h : afterSplice p model name args start deleted inserted = .ok next) : next.FloatFree := by
  obtain ⟨m, -, h⟩ := except_bind_eq_ok.mp h
  split at h
  · cases h
  · obtain ⟨keys, -, h⟩ := except_bind_eq_ok.mp h
    exact Path.tame_splice hm hi (except_mapError_eq_ok.mp h)

private theorem mem_of_spliceParts {parts : Int × Nat × List Value}
    (h : spliceParts name args = .ok parts) : ∀ v ∈ parts.2.2, v ∈ args := by
  cases args with
  | nil => cases h
  | cons first rest =>
    simp only [spliceParts] at h
    split at h
    · cases rest with
      | nil =>
        cases h
        simp
      | cons count items =>
        cases hn : count.toInt? with
        | none => simp [hn, bind, Except.bind, pure, Except.pure] at h
        | some n =>
          simp only [hn] at h
          cases h
          exact fun v hv => List.mem_cons_of_mem _ (List.mem_cons_of_mem _ hv)
    · cases h

end Instance

/-- Mutations by values without doubles keep a document without doubles. -/
theorem Mutation.floatFree_document {p : Program} {m : Mutation} {model next : Value}
    (hm : model.FloatFree) (ha : ∀ v ∈ m.values, v.FloatFree)
    (h : m.document p model = .ok next) : next.FloatFree := by
  cases m with
  | set name args => exact Instance.floatFree_afterSet hm ha h
  | splice name args start deleted inserted =>
    exact Instance.floatFree_afterSplice hm (fun v hv => ha v (List.mem_append_right _ hv)) h
  | invoke name args =>
    simp only [document, afterInvoke] at h
    split at h
    · cases h
    · split at h
      · exact Instance.floatFree_afterSet hm ha h
      · split at h
        · cases h
        · obtain ⟨parts, hp, h⟩ := except_bind_eq_ok.mp h
          refine Instance.floatFree_afterSplice hm (fun v hv => ha v ?_) h
          exact List.mem_of_mem_drop (Instance.mem_of_spliceParts hp v hv)

/-! ### One machine for both backends -/

section
variable (p : Program) (b : Backend) (lib : Library)

private theorem eval_backend (model : Value) (fuel : Nat) (id : NodeId) (env : Pass.Env) :
    Pass.eval { p with backend := b } lib model fuel id env =
      Pass.eval p lib model fuel id env := by
  induction fuel generalizing id env with
  | zero => rfl
  | succ fuel ih =>
    have same : Pass.eval { p with backend := b } lib model fuel = Pass.eval p lib model fuel :=
      funext fun id => funext fun env => ih id env
    rw [Pass.eval, Pass.eval, same]
    rfl

/-- A pass does not depend on the backend. -/
theorem run_backend (model : Value) :
    Pass.run { p with backend := b } lib model = Pass.run p lib model := by
  unfold Pass.run
  simp only [eval_backend]

private theorem View.step_backend (s : View) (a : Action) :
    s.step { p with backend := b } lib a = s.step p lib a := by
  unfold View.step View.commit
  simp only [run_backend]
  rfl

private theorem View.perform_backend (s : View) (actions : List Action) :
    s.perform { p with backend := b } lib actions = s.perform p lib actions := by
  unfold View.perform
  simp only [View.step_backend]

end

theorem Program.compile_backend {m : Model} {b : Backend} {p : Program}
    (h : compile m b = .ok p) (b' : Backend) : compile m b' = .ok { p with backend := b' } := by
  obtain ⟨r, hr, h⟩ := except_bind_eq_ok.mp h
  cases h
  unfold compile
  rw [hr]
  rfl

/-- An engine with a graph that has seen documents of a class. -/
def Engine.HasSeen (p : Program) (lib : Library) (D : Value → Prop) (e : Engine) : Prop :=
  ∃ documents, e = .optimizing (Graph.after p lib documents) ∧ ∀ v ∈ documents, D v

/-- A graph that has seen documents of a class gives the outputs of passes from scratch. -/
theorem faithful_optimizing {p : Program} {lib : Library} {D : Value → Prop} (hl : p.Lawful)
    (hd : Domain p lib D) : Faithful p lib D (Engine.HasSeen p lib D) where
  refresh e v he hv := by
    obtain ⟨documents, rfl, hdoc⟩ := he
    refine ⟨documents ++ [v], ?_, fun u hu => ?_⟩
    · simp only [Engine.refresh, Graph.after, List.foldl_append, List.foldl_cons, List.foldl_nil]
    · rcases List.mem_append.mp hu with hu | hu
      · exact hdoc u hu
      · exact List.mem_singleton.mp hu ▸ hv
  outputs e v outputs he hv := by
    obtain ⟨documents, rfl, hdoc⟩ := he
    exact Graph.refresh_ok_iff hl hd hdoc hv outputs

namespace Instance
variable {m : Model} {p q : Program} {lib : Library} {v : Value}

variable {good : Engine → Prop} {i : Instance} {outputs : List Value} {actions : List Action}

/-- An instance of either backend shows what the one machine shows. -/
private theorem perform_follows (hf : Faithful p lib Value.FloatFree good)
    (hg : good (Engine.start p.backend)) (hv : v.FloatFree) (hi : create p v lib = .ok i)
    (ha : ∀ a ∈ actions, ∀ u ∈ a.values, u.FloatFree) (hr : (Pass.run p lib v).1 = .ok outputs) :
    (i.perform actions).Follows p lib good (View.perform p lib ⟨v, outputs, none⟩ actions) ∧
      (View.perform p lib ⟨v, outputs, none⟩ actions).Within Value.FloatFree := by
  obtain ⟨hfollows, hpass⟩ := follows_create hf hg hv hi
  obtain rfl : i.outputs = outputs := by
    rw [hpass] at hr
    exact Except.ok.inj hr
  refine hfollows.perform hf hpass ⟨hv, hv⟩ actions fun a hmem m model next hm hmodel hd => ?_
  subst hm
  exact Mutation.floatFree_document hmodel (ha _ hmem) hd

/-- An instance of either backend accepts what the one machine accepts. -/
private theorem isOk_run (hf : Faithful p lib Value.FloatFree good)
    (hg : good (Engine.start p.backend)) (hv : v.FloatFree) (hi : create p v lib = .ok i)
    (ha : ∀ a ∈ actions, ∀ u ∈ a.values, u.FloatFree) (hr : (Pass.run p lib v).1 = .ok outputs)
    (a : Action) (ha' : ∀ u ∈ a.values, u.FloatFree) :
    (a.run.run (i.perform actions)).1.isOk =
      ((View.perform p lib ⟨v, outputs, none⟩ actions).step p lib a).1 := by
  obtain ⟨hfollows, hw⟩ := perform_follows hf hg hv hi ha hr
  have hc : View.Committed p lib ⟨v, outputs, none⟩ := hr
  refine (hfollows.step hf (hc.perform actions) hw fun m next hm hd => ?_).1
  subst hm
  exact Mutation.floatFree_document hw.model ha' hd

/-! ### A comparison -/

/-- Compares a number with the least positive integer that is not a double. -/
def comparing : Model :=
  ⟨[("less", .output (.binary .lt (.get .root (.literal (.str "x")))
      (.literal (.int 9007199254740993)))),
    ("setX", .setter [.field "x"])], by decide⟩

def comparingProgram (b : Backend) : Program where
  backend := b
  entries := #[⟨.root, [], []⟩, ⟨.literal (.str "x"), [], []⟩, ⟨.get 0 1, [], []⟩,
    ⟨.literal (.int 9007199254740993), [], []⟩, ⟨.binary .lt 2 3, [], []⟩]
  outputs := [("less", 4)]
  mutators := [("setX", ⟨.set, [.field "x"]⟩)]
  functions := []

theorem compile_comparing (b : Backend) :
    Program.compile comparing b = .ok (comparingProgram b) := by with_unfolding_all rfl

theorem floatFree_comparing (b : Backend) : (comparingProgram b).FloatFree := by
  intro id
  match id with
  | 0 | 1 | 2 | 3 => trivial
  | 4 => exact (by decide : BinaryVerb.lt ∉ [.plus, .minus, .mult, .div])
  | _ + 5 => trivial

/-! ### Both backends -/

/-- Over values without doubles both backends create the same instances, accept the same steps, and
show the same after any steps. -/
theorem backends_agree (hs : Program.compile m .simple = .ok p)
    (ho : Program.compile m .optimizing = .ok q) (hp : p.FloatFree) (hlib : lib.FloatFree)
    (hv : v.FloatFree) :
    ((∃ i, create p v lib = .ok i) ↔ ∃ j, create q v lib = .ok j) ∧
    ∀ i j actions, create p v lib = .ok i → create q v lib = .ok j →
      (∀ a ∈ actions, ∀ u ∈ a.values, u.FloatFree) →
      (i.perform actions).view = (j.perform actions).view ∧
      (i.perform actions).values = (j.perform actions).values ∧
      ∀ a : Action, (∀ u ∈ a.values, u.FloatFree) →
        (a.run.run (i.perform actions)).1.isOk = (a.run.run (j.perform actions)).1.isOk := by
  -- The programs differ in the backend only, which neither a pass nor the machine looks at.
  have same : { p with backend := .optimizing } = q :=
    Except.ok.inj ((Program.compile_backend hs .optimizing).symm.trans ho)
  have hpass : Pass.run q lib v = Pass.run p lib v := by rw [← same, run_backend]
  have simple := faithful_simple p lib Value.FloatFree
  have optimizing : Faithful q lib Value.FloatFree (Engine.HasSeen q lib Value.FloatFree) := by
    subst same
    exact faithful_optimizing (Program.lawful_of_compile ho) (domain_of_floatFree hp hlib)
  have hg : Engine.start p.backend = .simple := by rw [Program.backend_of_compile hs]; rfl
  have hg' : Engine.HasSeen q lib Value.FloatFree (Engine.start q.backend) := by
    rw [Program.backend_of_compile ho]
    exact ⟨[], rfl, by simp⟩
  refine ⟨?_, fun i j actions hi hj ha => ?_⟩
  · rw [create_ok_iff simple hg hv, create_ok_iff optimizing hg' hv, hpass, ← same]
  · have hr := (follows_create simple hg hv hi).2
    have hr' : (Pass.run q lib v).1 = .ok i.outputs := by rw [hpass, hr]
    have machine : View.perform q lib ⟨v, i.outputs, none⟩ actions =
        View.perform p lib ⟨v, i.outputs, none⟩ actions := by
      rw [← same, View.perform_backend]
    obtain ⟨hfi, -⟩ := perform_follows simple hg hv hi ha hr
    obtain ⟨hfj, -⟩ := perform_follows optimizing hg' hv hj ha hr'
    have hview : (i.perform actions).view = (j.perform actions).view := by
      rw [hfi.view, hfj.view, machine]
    refine ⟨hview, ?_, fun a ha' => ?_⟩
    · have houtputs : (i.perform actions).outputs = (j.perform actions).outputs :=
        congrArg View.outputs hview
      simp only [values, hfi.program, hfj.program, houtputs, ← same]
    · rw [isOk_run simple hg hv hi ha hr a ha', isOk_run optimizing hg' hv hj ha hr' a ha',
        machine, ← same, View.step_backend p .optimizing]

theorem backends_agree_comparing :
    ∃ i j, create (comparingProgram .simple) (.obj [("x", .int 1)]) .empty = .ok i ∧
      create (comparingProgram .optimizing) (.obj [("x", .int 1)]) .empty = .ok j ∧
      (i.perform [.mutate (.set "setX" [.int 9007199254740993])]).values =
        (j.perform [.mutate (.set "setX" [.int 9007199254740993])]).values := by
  have hlib : Library.empty.FloatFree := Library.floatFree_of_mem (by simp [Library.empty])
  have hv : (Value.obj [("x", .int 1)]).FloatFree := by simp [Value.FloatFree, Fields.Sorted]
  obtain ⟨created, agree⟩ := backends_agree (compile_comparing .simple)
    (compile_comparing .optimizing) (floatFree_comparing .simple) hlib hv
  obtain ⟨i, hi, -⟩ := exists_of_toOption_any (f := fun _ => true)
    (x := create (comparingProgram .simple) (.obj [("x", .int 1)]) .empty) rfl
  obtain ⟨j, hj⟩ := created.mp ⟨i, hi⟩
  refine ⟨i, j, hi, hj, (agree i j _ hi hj ?_).2.1⟩
  simp [Action.values, Mutation.values, Value.FloatFree]

/-- With doubles the backends can differ: after an integer is replaced with the double equal to it,
the optimizing backend keeps the result of a comparison that comes out otherwise for the double. -/
theorem backends_differ : ¬ ∀ m p q v i j actions, Program.compile m .simple = .ok p →
    Program.compile m .optimizing = .ok q → create p v .empty = .ok i →
    create q v .empty = .ok j →
    ((i.perform actions).values == (j.perform actions).values) = true := by
  intro agree
  obtain ⟨i, hi, simple⟩ := exists_of_toOption_any
    (x := create (comparingProgram .simple) (.obj [("x", .int 9007199254740992)]) .empty)
    (f := fun i => (i.perform [.mutate (.set "setX" [.float (.ofNat 9007199254740992)])]).values ==
      .obj [("less", .bool false)]) (by decide +kernel)
  obtain ⟨j, hj, optimizing⟩ := exists_of_toOption_any
    (x := create (comparingProgram .optimizing) (.obj [("x", .int 9007199254740992)]) .empty)
    (f := fun i => (i.perform [.mutate (.set "setX" [.float (.ofNat 9007199254740992)])]).values ==
      .obj [("less", .bool true)]) (by decide +kernel)
  have same := agree _ _ _ _ i j [.mutate (.set "setX" [.float (.ofNat 9007199254740992)])]
    (compile_comparing .simple) (compile_comparing .optimizing) hi hj
  rw [Value.beq_iff] at simple optimizing same
  have impossible : (Value.obj [("less", .bool false)]).canon =
      (Value.obj [("less", .bool true)]).canon := simple.symm.trans (same.trans optimizing)
  simp [Value.canon, Value.canonFields] at impossible

end Instance

end Recalc
