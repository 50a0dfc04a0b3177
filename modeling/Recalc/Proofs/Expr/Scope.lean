import Recalc.Proofs.Expr.Parts

/-! Where references stand. An expression is well scoped if each of its references is inside the body
of an iteration with its function, and the innermost such iteration of a context reference has a
context. -/
namespace Recalc

inductive ReferenceKind where
  | val
  | key
  | context
  deriving DecidableEq

/-- An iteration seen from inside its body. -/
structure Enclosure where
  lambda : LambdaId
  hasContext : Bool

/-- A reference of an expression, with the iterations whose bodies it is inside, the innermost
first. -/
structure Occurrence where
  kind : ReferenceKind
  lambda : LambdaId
  inside : List Enclosure

namespace Occurrence

/-- The occurrence within the body of one more iteration. -/
def under (o : Occurrence) (f : Enclosure) : Occurrence := { o with inside := o.inside ++ [f] }

/-- The iteration that a reference stands for: the innermost with its function. -/
def binder? (o : Occurrence) : Option Enclosure := o.inside.find? fun f => f.lambda = o.lambda

/-- A context reference that stands for an iteration without a context. -/
def LacksContext (o : Occurrence) : Prop :=
  o.kind = .context ∧ o.binder?.map Enclosure.hasContext = some false

instance (o : Occurrence) : Decidable o.LacksContext :=
  inferInstanceAs (Decidable (_ ∧ _))

@[simp]
theorem kind_under (o : Occurrence) (f : Enclosure) : (o.under f).kind = o.kind := rfl

@[simp]
theorem lambda_under (o : Occurrence) (f : Enclosure) : (o.under f).lambda = o.lambda := rfl

private theorem binder?_under (o : Occurrence) (f : Enclosure) : (o.under f).binder? =
    o.binder?.or (if f.lambda = o.lambda then some f else none) := by
  rw [binder?, under, List.find?_append]
  by_cases h : f.lambda = o.lambda <;> simp [h, binder?]

/-- One more iteration around it binds a reference that was not bound, if it has the function. -/
theorem binder?_under_eq_none {o : Occurrence} {f : Enclosure} :
    (o.under f).binder? = none ↔ o.binder? = none ∧ o.lambda ≠ f.lambda := by
  rw [binder?_under, Option.or_eq_none_iff]
  simp [eq_comm]

private theorem lacksContext_under {o : Occurrence} {f : Enclosure} : (o.under f).LacksContext ↔
    o.LacksContext ∨
      o.kind = .context ∧ o.binder? = none ∧ o.lambda = f.lambda ∧ f.hasContext = false := by
  rw [LacksContext, LacksContext, kind_under, binder?_under, ← and_or_left]
  refine and_congr_right fun _ => ?_
  cases o.binder? with
  | some g => simp
  | none =>
    by_cases h : f.lambda = o.lambda
    · simp [h]
    · simp [h, Ne.symm h]

end Occurrence

namespace Expr

/-- What a reference refers to. -/
def reference? : Expr → Option (ReferenceKind × LambdaId)
  | val l => some (.val, l)
  | key l => some (.key, l)
  | context l => some (.context, l)
  | _ => none

/-- The references of an expression and of all its parts. -/
def occurrences (e : Expr) : List Occurrence :=
  collect (fun d => d.reference?.toList.map fun (kind, l) => ⟨kind, l, []⟩)
    (fun lambda hasContext os => os.map (·.under ⟨lambda, hasContext⟩)) e

/-- Some context reference stands for an iteration without a context. -/
def LacksContext (e : Expr) : Prop := ∃ o ∈ e.occurrences, o.LacksContext

/-- Every reference is inside the body of an iteration with its function, and where it is a context
reference, the innermost such iteration has a context. -/
def WellScoped (e : Expr) : Prop :=
  (∀ o ∈ e.occurrences, ∃ f ∈ o.inside, f.lambda = o.lambda) ∧ ¬ e.LacksContext

instance (e : Expr) : Decidable e.LacksContext :=
  inferInstanceAs (Decidable (∃ o ∈ e.occurrences, o.LacksContext))

instance (e : Expr) : Decidable e.WellScoped := inferInstanceAs (Decidable (_ ∧ _))

/-- Whether an expression has a reference of some kind to a function that it leaves unbound. -/
def Free (kind : ReferenceKind → Prop) (e : Expr) (l : LambdaId) : Prop :=
  ∃ o ∈ e.occurrences, kind o.kind ∧ o.lambda = l ∧ o.binder? = none

variable {e : Expr} {kind : ReferenceKind → Prop} {l : LambdaId}

theorem wellScoped_iff :
    e.WellScoped ↔ (∀ l, ¬ e.Free (fun _ => True) l) ∧ ¬ e.LacksContext := by
  refine and_congr_left fun _ => ⟨fun h l hl => ?_, fun h o ho => ?_⟩
  · obtain ⟨o, ho, -, -, hb⟩ := hl
    obtain ⟨f, hf, hfl⟩ := h o ho
    exact List.find?_eq_none.mp hb f hf (by simpa using hfl)
  · by_contra hno
    refine h o.lambda ⟨o, ho, trivial, rfl, List.find?_eq_none.mpr fun f hf hfl => ?_⟩
    exact hno ⟨f, hf, by simpa using hfl⟩

/-! ### References of parts -/

theorem mem_occurrences (hi : e.isIterate = false) {o : Occurrence} :
    o ∈ e.occurrences ↔ (e.reference? = some (o.kind, o.lambda) ∧ o.inside = []) ∨
      ∃ c ∈ e.parts, o ∈ c.occurrences := by
  rw [occurrences, collect_eq hi, List.mem_append, List.mem_flatMap]
  refine or_congr_left ?_
  obtain ⟨kind, l, inside⟩ := o
  cases e.reference? with
  | none => simp
  | some r =>
    obtain ⟨kind', l'⟩ := r
    simp only [Option.toList_some, List.map_cons, List.map_nil, List.mem_singleton,
      Occurrence.mk.injEq, Option.some.injEq, Prod.mk.injEq]
    constructor
    · rintro ⟨rfl, rfl, rfl⟩
      exact ⟨⟨rfl, rfl⟩, rfl⟩
    · rintro ⟨⟨rfl, rfl⟩, rfl⟩
      exact ⟨rfl, rfl, rfl⟩

theorem mem_occurrences_iterate {verb : CollectionVerb} {source body : Expr} {ctx : Option Expr}
    {o : Occurrence} : o ∈ (iterate verb source l body ctx).occurrences ↔
      (∃ c ∈ source :: ctx.toList, o ∈ c.occurrences) ∨
        ∃ d ∈ body.occurrences, d.under ⟨l, ctx.isSome⟩ = o := by
  rw [occurrences, collect_iterate, List.mem_append, List.mem_append, List.mem_flatMap,
    List.mem_map]
  simp [reference?, occurrences]

theorem free_iff (hi : e.isIterate = false) : e.Free kind l ↔
    (∃ k, e.reference? = some (k, l) ∧ kind k) ∨ ∃ c ∈ e.parts, c.Free kind l := by
  simp only [Free, mem_occurrences hi]
  constructor
  · rintro ⟨o, ⟨hr, -⟩ | ⟨c, hc, ho⟩, hk, rfl, hb⟩
    · exact .inl ⟨o.kind, hr, hk⟩
    · exact .inr ⟨c, hc, o, ho, hk, rfl, hb⟩
  · rintro (⟨k, hr, hk⟩ | ⟨c, hc, o, ho, hrest⟩)
    · exact ⟨⟨k, l, []⟩, .inl ⟨hr, rfl⟩, hk, rfl, rfl⟩
    · exact ⟨o, .inr ⟨c, hc, ho⟩, hrest⟩

/-- An iteration binds its function in its body alone. -/
theorem free_iterate {verb : CollectionVerb} {source body : Expr} {lambda : LambdaId}
    {ctx : Option Expr} : (iterate verb source lambda body ctx).Free kind l ↔
      (∃ c ∈ source :: ctx.toList, c.Free kind l) ∨ body.Free kind l ∧ l ≠ lambda := by
  simp only [Free, mem_occurrences_iterate]
  constructor
  · rintro ⟨o, ⟨c, hc, ho⟩ | ⟨d, hd, rfl⟩, hk, rfl, hb⟩
    · exact .inl ⟨c, hc, o, ho, hk, rfl, hb⟩
    · obtain ⟨hb, hne⟩ := Occurrence.binder?_under_eq_none.mp hb
      exact .inr ⟨⟨d, hd, hk, rfl, hb⟩, hne⟩
  · rintro (⟨c, hc, o, ho, hrest⟩ | ⟨⟨d, hd, hk, rfl, hb⟩, hne⟩)
    · exact ⟨o, .inl ⟨c, hc, ho⟩, hrest⟩
    · exact ⟨_, .inr ⟨d, hd, rfl⟩, hk, rfl, Occurrence.binder?_under_eq_none.mpr ⟨hb, hne⟩⟩

theorem lacksContext_iff (hi : e.isIterate = false) :
    e.LacksContext ↔ ∃ c ∈ e.parts, c.LacksContext := by
  simp only [LacksContext, mem_occurrences hi]
  constructor
  · rintro ⟨o, ⟨-, hin⟩ | ⟨c, hc, ho⟩, hl⟩
    · simp [Occurrence.LacksContext, Occurrence.binder?, hin] at hl
    · exact ⟨c, hc, o, ho, hl⟩
  · rintro ⟨c, hc, o, ho, hl⟩
    exact ⟨o, .inr ⟨c, hc, ho⟩, hl⟩

/-- An iteration without a context lacks it if its body leaves a reference to it unbound. -/
theorem lacksContext_iterate {verb : CollectionVerb} {source body : Expr} {lambda : LambdaId}
    {ctx : Option Expr} : (iterate verb source lambda body ctx).LacksContext ↔
      (∃ c ∈ (iterate verb source lambda body ctx).parts, c.LacksContext) ∨
        ctx = none ∧ body.Free (· = .context) lambda := by
  simp only [LacksContext, mem_occurrences_iterate, parts, List.mem_append, List.mem_singleton]
  constructor
  · rintro ⟨o, ⟨c, hc, ho⟩ | ⟨d, hd, rfl⟩, hl⟩
    · exact .inl ⟨c, .inl hc, o, ho, hl⟩
    · rcases Occurrence.lacksContext_under.mp hl with hl | ⟨hk, hb, hm, hn⟩
      · exact .inl ⟨body, .inr rfl, d, hd, hl⟩
      · exact .inr ⟨by simpa using hn, d, hd, hk, hm, hb⟩
  · rintro (⟨c, hc | rfl, o, ho, hl⟩ | ⟨rfl, d, hd, hk, hm, hb⟩)
    · exact ⟨o, .inl ⟨c, hc, ho⟩, hl⟩
    · exact ⟨_, .inr ⟨o, ho, rfl⟩, Occurrence.lacksContext_under.mpr (.inl hl)⟩
    · exact ⟨_, .inr ⟨d, hd, rfl⟩, Occurrence.lacksContext_under.mpr (.inr ⟨hk, hb, hm, rfl⟩)⟩

theorem lacksContext_of_part {c : Expr} (hc : c ∈ e.parts) (h : c.LacksContext) :
    e.LacksContext := by
  cases hi : e.isIterate with
  | false => exact (lacksContext_iff hi).mpr ⟨c, hc, h⟩
  | true =>
    cases e with
    | iterate => exact lacksContext_iterate.mpr (.inl ⟨c, hc, h⟩)
    | _ => cases hi

/-- Constants have no references. -/
theorem occurrences_of_constant {w : Value} (h : e.constant? = some w) : e.occurrences = [] := by
  have none {es : List Expr} {vs : List Value}
      (hf : List.Forall₂ (fun c _ => occurrences c = []) es vs) : es.flatMap occurrences = [] := by
    induction hf with
    | nil => rfl
    | cons first _ ih => rw [List.flatMap_cons, first, ih, List.append_nil]
  refine constant_induction h ?literal ?array ?object ?shared
  case literal =>
    intro v
    rfl
  case array =>
    intro items vs ih
    exact (collect_eq rfl).trans (none ih)
  case object =>
    intro fields vs ih
    exact (collect_eq rfl).trans (none ih)
  case shared =>
    intro label e w ih
    exact ih

end Expr

end Recalc
