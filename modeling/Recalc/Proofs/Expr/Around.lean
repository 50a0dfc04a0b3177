import Recalc.Proofs.Expr.Assembly
import Recalc.Proofs.Expr.Scope

/-! Expressions with iterations around them. The references of an expression are looked at together
with the iterations that it stands in, so a body is looked at like any other part. Assembling an
expression from a flat form adds no references and drops none. -/
namespace Recalc

/-- The occurrence with more iterations around it, the innermost first. -/
def Occurrence.within (o : Occurrence) (around : List Enclosure) : Occurrence :=
  { o with inside := o.inside ++ around }

private theorem Occurrence.within_under (o : Occurrence) (f : Enclosure) (around : List Enclosure) :
    (o.under f).within around = o.within (f :: around) := by
  simp [within, under]

namespace Expr
variable {P : Occurrence → Prop} {around : List Enclosure} {e : Expr}

/-- Some reference has a property in view of the iterations around the expression. -/
def SomeWithin (P : Occurrence → Prop) (around : List Enclosure) (e : Expr) : Prop :=
  ∃ o ∈ e.occurrences, P (o.within around)

theorem someWithin_nil : e.SomeWithin P [] ↔ ∃ o ∈ e.occurrences, P o := by
  simp [SomeWithin, Occurrence.within]

theorem someWithin_reference {kind : ReferenceKind} {l : LambdaId}
    (h : e.reference? = some (kind, l)) : e.SomeWithin P around ↔ P ⟨kind, l, around⟩ := by
  have occurrences : e.occurrences = [⟨kind, l, []⟩] := by
    cases e with
    | val | key | context =>
      cases h
      rfl
    | _ => cases h
  simp [SomeWithin, occurrences, Occurrence.within]

/-- The body of an iteration has one more iteration around it. -/
theorem someWithin_iterate {verb : CollectionVerb} {source body : Expr} {lambda : LambdaId}
    {ctx : Option Expr} : (iterate verb source lambda body ctx).SomeWithin P around ↔
      (∃ c ∈ source :: ctx.toList, c.SomeWithin P around) ∨
        body.SomeWithin P (⟨lambda, ctx.isSome⟩ :: around) := by
  simp only [SomeWithin, mem_occurrences_iterate]
  constructor
  · rintro ⟨o, ⟨c, hc, ho⟩ | ⟨d, hd, rfl⟩, hp⟩
    · exact .inl ⟨c, hc, o, ho, hp⟩
    · rw [Occurrence.within_under] at hp
      exact .inr ⟨d, hd, hp⟩
  · rintro (⟨c, hc, o, ho, hp⟩ | ⟨d, hd, hp⟩)
    · exact ⟨o, .inl ⟨c, hc, ho⟩, hp⟩
    · rw [← Occurrence.within_under] at hp
      exact ⟨_, .inr ⟨d, hd, rfl⟩, hp⟩

/-! ### Assembled expressions -/

theorem occurrences_literal (v : Value) : (literal v).occurrences = [] :=
  occurrences_of_constant (w := v) rfl

private theorem NamesFunction.occurrences {e : Expr} (h : e.NamesFunction) :
    e.occurrences = [] := by
  obtain ⟨name, h⟩ := h
  fun_induction functionName Token.call e with
  | case1 name => exact occurrences_literal (.str name)
  | case2 label e ih => exact ih h
  | case3 e => cases h

/-- The references of an expression are those of some others. -/
def Joins (e : Expr) (ds : List Expr) : Prop :=
  ∀ o, o ∈ e.occurrences ↔ ∃ d ∈ ds, o ∈ d.occurrences

theorem joins_parts (hi : e.isIterate = false) (hr : e.reference? = none) : e.Joins e.parts := by
  intro o
  simp [mem_occurrences hi, hr]

/-- Parts without references do not count. -/
theorem Joins.congr {ds ds' : List Expr} (h : e.Joins ds)
    (hd : ∀ o, (∃ d ∈ ds, o ∈ d.occurrences) ↔ ∃ d ∈ ds', o ∈ d.occurrences) : e.Joins ds' :=
  fun o => (h o).trans (hd o)

theorem Joins.someWithin {ds : List Expr} (h : e.Joins ds) :
    e.SomeWithin P around ↔ ∃ d ∈ ds, d.SomeWithin P around := by
  simp only [SomeWithin, h _]
  constructor
  · rintro ⟨o, ⟨d, hd, ho⟩, hp⟩
    exact ⟨d, hd, o, ho, hp⟩
  · rintro ⟨d, hd, o, ho, hp⟩
    exact ⟨o, ⟨d, hd, ho⟩, hp⟩

variable {token : Token} {os : List Operand}

/-- A collection verb with operands is an iteration with its function. -/
theorem iterate_of_assemble {verb : CollectionVerb} (hv : CollectionVerb.ofToken? token = some verb)
    (h : assemble token os = .ok e) : ∃ lambda source ctx,
      os = .func lambda :: (source :: ctx.toList).map .expr ∧
        (lambda.context = none → e = iterate verb source lambda.id lambda.body ctx) := by
  cases assemble_eq_ok.mp h with
  | iterate verb' lambda source =>
    rw [CollectionVerb.ofToken?_eq_some.mpr rfl] at hv
    cases hv
    exact ⟨lambda, source, none, rfl, fun none => by rw [none]⟩
  | iterateWith verb' lambda source ctx =>
    rw [CollectionVerb.ofToken?_eq_some.mpr rfl] at hv
    cases hv
    exact ⟨lambda, source, some ctx, rfl, fun _ => rfl⟩
  | unary verb' operand => cases verb' <;> cases hv
  | binary verb' left right => cases verb' <;> cases hv
  | _ => cases hv

/-- Other verbs have exactly the references of their operands. -/
theorem joins_of_assemble (hc : CollectionVerb.ofToken? token = none)
    (h : assemble token os = .ok e) : ∃ ds : List Expr, os = ds.map .expr ∧ e.Joins ds := by
  cases assemble_eq_ok.mp h with
  | iterate verb lambda source => cases verb <;> cases hc
  | iterateWith verb lambda source ctx => cases verb <;> cases hc
  | root => exact ⟨[], rfl, joins_parts rfl rfl⟩
  | get o k =>
    refine ⟨[k, o], rfl, (joins_parts rfl rfl).congr fun o => ?_⟩
    simp [parts, or_comm]
  | unary verb operand => exact ⟨[operand], rfl, joins_parts rfl rfl⟩
  | rangeTo stop =>
    refine ⟨[stop], rfl, (joins_parts rfl rfl).congr fun o => ?_⟩
    simp [parts, occurrences_literal]
  | rangeFrom stop start =>
    refine ⟨[stop, start], rfl, (joins_parts rfl rfl).congr fun o => ?_⟩
    simp [parts, occurrences_literal]
  | rangeBy stop start step => exact ⟨[stop, start, step], rfl, joins_parts rfl rfl⟩
  | ternary a b c => exact ⟨[a, b, c], rfl, joins_parts rfl rfl⟩
  | and _ | or _ => exact ⟨_, rfl, joins_parts rfl rfl⟩
  | binary verb left right => exact ⟨[left, right], rfl, joins_parts rfl rfl⟩
  | @call name function receiver args named =>
    refine ⟨name :: receiver :: args, rfl, (joins_parts rfl rfl).congr fun o => ?_⟩
    simp [parts, NamesFunction.occurrences ⟨function, named⟩]

end Expr

end Recalc
