import Recalc.Proofs.Program.Lowering

/-! Compiling accepts exactly the models whose outputs are well scoped. The nodes of the outputs then
represent their expressions; otherwise the error is about the first output that is not well
scoped. -/
namespace Recalc

def Definition.output? : Definition → Option Expr
  | .output e => some e
  | _ => none

/-- The outputs among some definitions, in their order. -/
def Definition.outputs (definitions : List (String × Definition)) : List (String × Expr) :=
  definitions.filterMap fun (name, d) => d.output?.map (name, ·)

theorem Definition.mem_outputs {definitions : List (String × Definition)} {name : String}
    {e : Expr} : (name, e) ∈ outputs definitions ↔ (name, .output e) ∈ definitions := by
  simp only [outputs, List.mem_filterMap, Option.map_eq_some_iff, Prod.mk.injEq]
  constructor
  · rintro ⟨⟨other, d⟩, hm, e', hd, rfl, rfl⟩
    cases d with
    | output e => cases hd; exact hm
    | _ => cases hd
  · intro h
    exact ⟨_, h, e, rfl, rfl, rfl⟩

/-- The outputs of a model, in the order of its definitions. -/
def Model.outputs (m : Model) : List (String × Expr) := Definition.outputs m.definitions

theorem Model.mem_outputs {m : Model} {name : String} {e : Expr} :
    (name, e) ∈ m.outputs ↔ (name, .output e) ∈ m.definitions := Definition.mem_outputs

theorem Model.sorted_outputs (m : Model) : Fields.Sorted m.outputs := by
  refine List.Pairwise.filterMap _ (fun a b hab c hc d hd => ?_) m.sorted
  obtain ⟨_, -, rfl⟩ := Option.map_eq_some_iff.mp hc
  obtain ⟨_, -, rfl⟩ := Option.map_eq_some_iff.mp hd
  exact hab

/-- The error about an output that is not well scoped. -/
def ScopeError.about (output : String) (e : Expr) : ScopeError :=
  if e.LacksContext then .missingContext output else .unboundVariable output

namespace Program
open Lowering

variable {D : Value → Prop} {t u : NodeTable} {name : String} {e : Expr}
  {os : List (String × Expr)}

/-- What lowering one output gives. -/
def OutputOutcome (D : Value → Prop) (t : NodeTable) (name : String) (e : Expr) :
    Except ScopeError (NodeId × NodeTable) → Prop
  | .ok (id, u) => Lowered D t u [id] [e] ∧ e.WellScoped
  | .error err => ¬ e.WellScoped ∧ err = .about name e

theorem OutputOutcome.lowered {x : Except ScopeError (NodeId × NodeTable)} {id : NodeId}
    (h : OutputOutcome D t name e x) (run : x = .ok (id, u)) : Lowered D t u [id] [e] := by
  rw [run] at h
  exact h.1

theorem lowerOutput_outcome (hD : Expr.ConstantClass D) (he : ∀ w ∈ e.literals, D w)
    (ht : t.Sound D) : OutputOutcome D t name e (lowerOutput name e t) := by
  have lowered : Outcome D name t ([·]) [e] (expr name e t) := expr_outcome hD he ht
  refine bind_elim (fun err hx => ?_) (fun id u hx => ?_)
  · rw [hx] at lowered
    obtain ⟨rfl, lacks⟩ := lowered
    have lacks : e.LacksContext := by simpa using lacks
    exact ⟨fun h => h.2 lacks, (if_pos lacks).symm⟩
  · rw [hx] at lowered
    obtain ⟨lu, context⟩ := lowered
    have context : ¬ e.LacksContext := by simpa using context
    have free (l : LambdaId) : l ∈ (u.entry id).free ↔ e.Free (fun _ => True) l :=
      lu.sound.mem_free (List.forall₂_cons.mp lu.represents).1
    rw [get_bind]
    split
    · rename_i unbound
      obtain ⟨l, hl⟩ := List.exists_mem_of_ne_nil _ unbound
      refine ⟨fun h => ?_, (if_neg context).symm⟩
      exact (Expr.wellScoped_iff.mp h).1 l ((free l).mp hl)
    · rename_i bound
      refine ⟨lu, Expr.wellScoped_iff.mpr ⟨fun l hl => ?_, context⟩⟩
      rw [← free, not_not.mp bound] at hl
      cases hl

/-- What lowering outputs gives: the nodes of all, or an error about the first that is not well
scoped. -/
def OutputsOutcome (D : Value → Prop) (t : NodeTable) (os : List (String × Expr)) :
    Except ScopeError (List (String × NodeId) × NodeTable) → Prop
  | .ok (outputs, u) => Lowered D t u (outputs.map Prod.snd) (os.map Prod.snd) ∧
    outputs.map Prod.fst = os.map Prod.fst ∧ ∀ o ∈ os, o.2.WellScoped
  | .error err => ∃ before name e after, os = before ++ (name, e) :: after ∧
    (∀ o ∈ before, o.2.WellScoped) ∧ ¬ e.WellScoped ∧ err = .about name e

theorem OutputsOutcome.lowered {x : Except ScopeError (List (String × NodeId) × NodeTable)}
    {outputs : List (String × NodeId)} (h : OutputsOutcome D t os x) (run : x = .ok (outputs, u)) :
    Lowered D t u (outputs.map Prod.snd) (os.map Prod.snd) := by
  rw [run] at h
  exact h.1

theorem lowerOutputs_outcome (hD : Expr.ConstantClass D)
    (definitions : List (String × Definition)) (ht : t.Sound D)
    (he : ∀ o ∈ Definition.outputs definitions, ∀ w ∈ o.2.literals, D w) :
    OutputsOutcome D t (Definition.outputs definitions) (lowerOutputs definitions t) := by
  induction definitions generalizing t with
  | nil => exact ⟨lowered_nil ht, rfl, by simp [Definition.outputs]⟩
  | cons first rest ih =>
    obtain ⟨name, d⟩ := first
    cases d with
    | output e =>
      have first : OutputOutcome D t name e (lowerOutput name e t) :=
        lowerOutput_outcome hD (he (name, e) List.mem_cons_self) ht
      change OutputsOutcome D t ((name, e) :: Definition.outputs rest) _
      refine bind_elim (fun err hx => ?_) (fun id u hx => ?_)
      · rw [hx] at first
        exact ⟨[], name, e, _, rfl, by simp, first⟩
      · rw [hx] at first
        have later := ih first.1.sound fun o ho => he o (List.mem_cons_of_mem _ ho)
        refine bind_elim (fun err hy => ?_) (fun outputs v hy => ?_)
        · rw [hy] at later
          obtain ⟨before, other, d, after, split, good, bad⟩ := later
          refine ⟨(name, e) :: before, other, d, after, by rw [split]; rfl, ?_, bad⟩
          exact List.forall_mem_cons.mpr ⟨first.2, good⟩
        · rw [hy] at later
          obtain ⟨lowered, names, good⟩ := later
          refine ⟨first.1.append lowered, ?_, List.forall_mem_cons.mpr ⟨first.2, good⟩⟩
          exact congrArg (name :: ·) names
    | setter path => exact ih ht he
    | splice path => exact ih ht he

/-- The nodes of a program, and those of its outputs, are the ones of a sound table whose nodes
represent the outputs of a model. -/
structure Holds (D : Value → Prop) (p : Program) (m : Model) : Prop where
  literal : ∀ id v, p.node id = .literal v → D v
  outputs : List.Forall₂ (fun o d => o.1 = d.1 ∧
    Represents p.node (fun v w => (v == w) = true) o.2 d.2) p.outputs m.outputs

variable {m : Model} {b : Backend} {p : Program}

private theorem compile_outcome (hD : Expr.ConstantClass D)
    (he : ∀ o ∈ m.outputs, ∀ w ∈ o.2.literals, D w) :
    (∀ p, compile m b = .ok p → p.Holds D m ∧ ∀ o ∈ m.outputs, o.2.WellScoped) ∧
    ∀ err, compile m b = .error err → ∃ before name e after,
      m.outputs = before ++ (name, e) :: after ∧ (∀ o ∈ before, o.2.WellScoped) ∧
        ¬ e.WellScoped ∧ err = .about name e := by
  have outcome := lowerOutputs_outcome hD m.definitions NodeTable.sound_empty he
  unfold compile
  simp only [bind, Except.bind, StateT.run]
  cases hr : lowerOutputs m.definitions NodeTable.empty with
  | error err =>
    rw [hr] at outcome
    refine ⟨by simp, ?_⟩
    rintro _ ⟨⟩
    exact outcome
  | ok r =>
    rw [hr] at outcome
    obtain ⟨lowered, names, good⟩ := outcome
    refine ⟨?_, by simp [pure, Except.pure]⟩
    rintro _ ⟨⟩
    refine ⟨⟨lowered.sound.literal, ?_⟩, good⟩
    have same := lowered.represents
    rw [List.forall₂_map_left_iff, List.forall₂_map_right_iff] at same
    rw [← List.forall₂_eq_eq_eq, List.forall₂_map_left_iff, List.forall₂_map_right_iff] at names
    exact forall₂_and names same

theorem holds_of_compile (hD : Expr.ConstantClass D)
    (he : ∀ o ∈ m.outputs, ∀ w ∈ o.2.literals, D w) (h : compile m b = .ok p) : p.Holds D m :=
  ((compile_outcome hD he).1 p h).1

theorem wellScoped_of_compile (h : compile m b = .ok p) : ∀ o ∈ m.outputs, o.2.WellScoped :=
  ((compile_outcome Expr.constantClass_true (by simp)).1 p h).2

/-- The output that an error is about is the first that is not well scoped. -/
theorem error_of_compile {err : ScopeError} (h : compile m b = .error err) :
    ∃ before name e after, m.outputs = before ++ (name, e) :: after ∧
      (∀ o ∈ before, o.2.WellScoped) ∧ ¬ e.WellScoped ∧ err = .about name e :=
  (compile_outcome Expr.constantClass_true (by simp)).2 err h

theorem compile_of_wellScoped (h : ∀ o ∈ m.outputs, o.2.WellScoped) : ∃ p, compile m b = .ok p := by
  cases hc : compile m b with
  | ok p => exact ⟨p, rfl⟩
  | error err =>
    obtain ⟨before, name, e, after, split, -, bad, -⟩ := error_of_compile hc
    exact absurd (h (name, e) (by simp [split])) bad

private theorem mem_before {before after : List (String × Expr)}
    (split : m.outputs = before ++ (name, e) :: after)
    {o : String × Expr} (ho : o ∈ m.outputs) (hlt : o.1 < name) : o ∈ before := by
  have sorted := m.sorted_outputs
  rw [split] at sorted ho
  rcases List.mem_append.mp ho with ho | ho
  · exact ho
  · rcases List.mem_cons.mp ho with rfl | ho
    · exact absurd hlt (String.lt_irrefl _)
    · have later := (List.pairwise_cons.mp (List.pairwise_append.mp sorted).2.1).1 o ho
      exact absurd (String.lt_trans hlt later) (String.lt_irrefl _)

/-- Compiling accepts exactly the models whose outputs are well scoped. Otherwise the error is about
the first such output by name: a missing context if one of its references lacks a context, and an
unbound variable if none does. -/
theorem compile_accepts (m : Model) (b : Backend) :
    ((∃ p, compile m b = .ok p) ↔
      ∀ name e, (name, .output e) ∈ m.definitions → e.WellScoped) ∧
    ∀ err, compile m b = .error err → ∃ name e, (name, .output e) ∈ m.definitions ∧
      ¬ e.WellScoped ∧
      (∀ other d, (other, .output d) ∈ m.definitions → other < name → d.WellScoped) ∧
      err = if e.LacksContext then .missingContext name else .unboundVariable name := by
  simp only [← Model.mem_outputs]
  refine ⟨⟨?_, fun h => compile_of_wellScoped fun o ho => h o.1 o.2 ho⟩, ?_⟩
  · rintro ⟨p, hp⟩ name e he
    exact wellScoped_of_compile hp (name, e) he
  · intro err h
    obtain ⟨before, name, e, after, split, good, bad, about⟩ := error_of_compile h
    refine ⟨name, e, by simp [split], bad, fun other d hd hlt => ?_, about⟩
    exact good (other, d) (mem_before split hd hlt)

/-- Nested iterations with one function. The inner source reads the outer element, and the inner body
a context. -/
def nested (inner : Option Expr) : Model :=
  ⟨[("nested", .output (.iterate .map .root 1
    (.iterate .filter (.val 1) 1 (.context 1) inner) (some .root))), ("set", .setter [])],
    List.pairwise_pair.mpr (by decide : "nested" < "set")⟩

theorem compile_nested : (∃ p, compile (nested (some (.key 1))) .simple = .ok p) ∧
    compile (nested none) .simple = .error (.missingContext "nested") := by
  refine ⟨(compile_accepts _ .simple).1.mpr fun name e he => ?_, ?_⟩
  · obtain ⟨rfl, rfl⟩ := by simpa [nested] using he
    decide
  · cases hc : compile (nested none) .simple with
    | ok p =>
      have good := (compile_accepts _ .simple).1.mp ⟨p, hc⟩ _ _ List.mem_cons_self
      exact absurd good (by decide)
    | error err =>
      obtain ⟨name, e, he, -, -, rfl⟩ := (compile_accepts _ .simple).2 err hc
      obtain ⟨rfl, rfl⟩ := by simpa [nested] using he
      rw [if_pos (by decide)]

end Program

end Recalc
