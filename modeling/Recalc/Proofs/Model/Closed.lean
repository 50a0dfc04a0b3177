import Recalc.Proofs.Expr.Around
import Recalc.Proofs.Model.Contexts
import Recalc.Proofs.Program.Acceptance

/-! Models that are read from documents are closed. The reader gives each function a number of its
own and leaves it after its body, so every reference is bound where it is read, and compiling can
only fail where a document refers to the context of a function that is given none. -/
namespace Recalc

/-! ### Scopes while reading -/

/-- The functions around have numbers of their own, all of which were given before. -/
structure Scope.Fresh (s : Scope) : Prop where
  nodup : s.enclosing.Nodup
  below : ∀ l ∈ s.enclosing, l < s.next

/-- A later scope at the same place. -/
structure Scope.Later (s t : Scope) : Prop where
  enclosing : t.enclosing = s.enclosing
  next : s.next ≤ t.next

namespace Scope
variable {s t u : Scope}

theorem Later.refl (s : Scope) : s.Later s := ⟨rfl, Nat.le_refl _⟩

theorem Later.trans (h : s.Later t) (h' : t.Later u) : s.Later u :=
  ⟨h'.enclosing.trans h.enclosing, Nat.le_trans h.next h'.next⟩

theorem Fresh.later (h : s.Fresh) (hl : s.Later t) : t.Fresh := by
  refine ⟨hl.enclosing ▸ h.nodup, fun l hm => ?_⟩
  rw [hl.enclosing] at hm
  exact Nat.lt_of_lt_of_le (h.below l hm) hl.next

/-- The scope of a function's body. -/
theorem Fresh.inside (h : s.Fresh) : Fresh ⟨s.next + 1, s.next :: s.enclosing⟩ := by
  refine ⟨List.nodup_cons.mpr ⟨fun hm => ?_, h.nodup⟩, ?_⟩
  · exact Nat.lt_irrefl _ (h.below _ hm)
  · refine List.forall_mem_cons.mpr ⟨Nat.lt_succ_self _, fun l hl => ?_⟩
    exact Nat.lt_succ_of_lt (h.below l hl)

end Scope

namespace Reader
variable {α β : Type} {s : Scope} {x : ReadM α} {R : α → Prop} {S : β → Prop}

/-- What is read from a scope has a property, and the scope is a later one at the same place
afterwards. -/
def Yields (x : ReadM α) (s : Scope) (R : α → Prop) : Prop :=
  ∀ a t, x.run s = (.ok a, t) → R a ∧ s.Later t

theorem Yields.pure {a : α} (h : R a) : Yields (Pure.pure a) s R := by
  intro b t run
  cases run
  exact ⟨h, .refl s⟩

theorem Yields.throw (e : DefinitionError) : Yields (MonadExcept.throw e : ReadM α) s R := by
  intro a t run
  cases run

theorem Yields.ofExcept {r : Except DefinitionError α} (h : ∀ a, r = .ok a → R a) :
    Yields (MonadExcept.ofExcept r) s R := by
  cases r with
  | error e => exact Yields.throw e
  | ok a => exact Yields.pure (h a rfl)

theorem Yields.get {f : Scope → ReadM β} (h : Yields (f s) s S) : Yields (get >>= f) s S := h

theorem Yields.bind {f : α → ReadM β} (hx : Yields x s R)
    (hf : ∀ a t, R a → s.Later t → Yields (f a) t S) : Yields (x >>= f) s S := by
  intro b u run
  rcases hrun : x.run s with ⟨r, t⟩
  cases r with
  | error e =>
    rw [run_bind_error hrun] at run
    cases run
  | ok a =>
    rw [run_bind_ok hrun] at run
    obtain ⟨ha, later⟩ := hx a t hrun
    obtain ⟨hb, later'⟩ := hf a t ha later b u run
    exact ⟨hb, later.trans later'⟩

theorem Yields.map {f : α → β} (hx : Yields x s R) (hf : ∀ a, R a → S (f a)) :
    Yields (x >>= fun a => Pure.pure (f a)) s S :=
  hx.bind fun a _ ha _ => Yields.pure (hf a ha)

theorem Yields.mapM {f : α → ReadM β} {R : α → β → Prop} {as : List α}
    (h : ∀ a ∈ as, ∀ t, s.Later t → Yields (f a) t (R a)) :
    Yields (as.mapM f) s (List.Forall₂ R as) := by
  induction as generalizing s with
  | nil => exact Yields.pure .nil
  | cons a rest ih =>
    rw [List.mapM_cons]
    refine (h a List.mem_cons_self s (.refl s)).bind fun b t hb later => ?_
    have others := ih (s := t) fun a' ha u hu => h a' (List.mem_cons_of_mem _ ha) u (later.trans hu)
    exact others.map fun bs hbs => .cons hb hbs

/-- A function has the next number, and is left after its body. -/
theorem Yields.function {body : ReadM Expr} {R : Expr → Prop}
    (h : Yields body ⟨s.next + 1, s.next :: s.enclosing⟩ R) :
    Yields (Reader.function body) s fun lambda =>
      lambda.id = s.next ∧ lambda.context = none ∧ R lambda.body := by
  intro lambda t run
  rcases hrun : body.run ⟨s.next + 1, s.next :: s.enclosing⟩ with ⟨r, u⟩
  rw [function_run, hrun] at run
  cases r with
  | error e => cases run
  | ok e =>
    cases run
    obtain ⟨he, later⟩ := h e u hrun
    refine ⟨⟨rfl, rfl, he⟩, congrArg List.tail later.enclosing, ?_⟩
    exact Nat.le_of_succ_le later.next

/-! ### References -/

/-- The expression that a document is read as, inside of functions with given numbers: all its
references are bound, and one lacks its context exactly if the document does. -/
def Renders (ids : List LambdaId) (j : Json) (e : Expr) : Prop :=
  ∀ around : List Enclosure, around.map Enclosure.lambda = ids →
    ¬ e.SomeWithin (fun o => o.binder? = none) around ∧
    (e.SomeWithin Occurrence.LacksContext around ↔
      j.LacksContext (around.map Enclosure.hasContext))

private theorem referent_eq_ok {token : Token} {enclosing : List LambdaId} {d : Nat} {id : LambdaId}
    (h : referent token enclosing d = .ok id) : enclosing[d]? = some id := by
  unfold referent at h
  split at h
  · cases h
  · split at h
    · rename_i found
      cases h
      exact found
    · cases h

/-- The function that a reference is read for is the one that binds it. -/
theorem binder?_of_referent {around : List Enclosure} {d : Nat} {id : LambdaId}
    (nodup : (around.map Enclosure.lambda).Nodup)
    (found : (around.map Enclosure.lambda)[d]? = some id) (kind : ReferenceKind) :
    ∃ f, around[d]? = some f ∧ (Occurrence.mk kind id around).binder? = some f := by
  rw [List.getElem?_map, Option.map_eq_some_iff] at found
  obtain ⟨f, hf, rfl⟩ := found
  refine ⟨f, hf, ?_⟩
  obtain ⟨hd, rfl⟩ := List.getElem?_eq_some_iff.mp hf
  -- No function further in has the same number, so the search does not stop before `d`.
  refine List.find?_eq_some_iff_getElem.mpr ⟨by simp, d, hd, rfl, fun i hi => ?_⟩
  have apart := List.pairwise_iff_getElem.mp nodup i d (by simp; omega) (by simpa using hd) hi
  simpa using apart

private theorem renders_reference {token : Token} (ht : token ∈ [.val, .key, .context])
    {operands : List Json} {d : Nat} (hd : depth token operands = .ok d) {ids : List LambdaId}
    (nodup : ids.Nodup) {id : LambdaId} (found : ids[d]? = some id) {e : Expr}
    {kind : ReferenceKind} (he : e.reference? = some (kind, id))
    (hk : kind = .context ↔ token = .context) :
    Renders ids (.arr (.str token.name :: operands)) e := by
  rintro around rfl
  obtain ⟨f, hf, binder⟩ := binder?_of_referent nodup found kind
  rw [Expr.someWithin_reference he, Expr.someWithin_reference he,
    Json.lacksContext_reference ht hd, Occurrence.LacksContext, binder, List.getElem?_map, hf, hk]
  simp

private theorem yields_reference {token : Token} (ht : token ∈ [.val, .key, .context])
    (operands : List Json) {s : Scope} (hs : s.Fresh) : Yields (reference token operands) s
      (Renders s.enclosing (.arr (.str token.name :: operands))) := by
  have depthRead : Yields (MonadExcept.ofExcept (depth token operands)) s fun d =>
      depth token operands = .ok d := Yields.ofExcept fun _ h => h
  refine depthRead.bind fun d t hd later => Yields.get ?_
  have idRead : Yields (MonadExcept.ofExcept (referent token t.enclosing d)) t fun id =>
      s.enclosing[d]? = some id := by
    refine Yields.ofExcept fun id hid => ?_
    rw [← later.enclosing]
    exact referent_eq_ok hid
  refine idRead.map fun id found => ?_
  simp only [List.mem_cons, List.not_mem_nil, or_false] at ht
  rcases ht with rfl | rfl | rfl <;>
    exact renders_reference (by simp) hd hs.nodup found rfl (by decide)

/-! ### Expressions -/

variable {ids : List LambdaId} {j : Json} {e : Expr}

/-- Of several documents one lacks a context exactly if the expressions do, and the expressions are
bound. -/
theorem renders_parts {js : List Json} {ds : List Expr} (h : List.Forall₂ (Renders ids) js ds)
    {around : List Enclosure} (hr : around.map Enclosure.lambda = ids) :
    ¬ (∃ d ∈ ds, d.SomeWithin (fun o => o.binder? = none) around) ∧
    ((∃ d ∈ ds, d.SomeWithin Occurrence.LacksContext around) ↔
      ∃ c ∈ js, c.LacksContext (around.map Enclosure.hasContext)) := by
  induction h with
  | nil => simp
  | cons first _ ih =>
    obtain ⟨bound, lacks⟩ := first around hr
    simp only [List.exists_mem_cons_iff, not_or]
    exact ⟨⟨bound, ih.1⟩, or_congr lacks ih.2⟩

/-- An expression with the references of others that documents are read as. -/
theorem renders_of_joins {js : List Json} {ds : List Expr} (h : List.Forall₂ (Renders ids) js ds)
    (joins : e.Joins ds)
    (lacks : ∀ around, j.LacksContext around ↔ ∃ c ∈ js, c.LacksContext around) :
    Renders ids j e := by
  intro around hr
  rw [joins.someWithin, joins.someWithin, lacks]
  exact renders_parts h hr

/-- The operand that a document is read as. -/
def RendersOperand (ids : List LambdaId) (j : Json) : Operand → Prop
  | .expr e => Renders ids j e
  | .func lambda => ∃ inner, j = .arr [.str "func", inner] ∧ lambda.context = none ∧
    Renders (lambda.id :: ids) inner lambda.body

private theorem renders_literal (v : Value) (h : ∀ around, ¬ j.LacksContext around) :
    Renders ids j (.literal v) := by
  refine renders_of_joins .nil (fun o => ?_) (fun around => ?_)
  · simp [Expr.occurrences_literal]
  · simp [h around]

private theorem renders_verb {token : Token} {operands : List Json} {os : List Operand}
    (hc : CollectionVerb.ofToken? token = none) (hr : token ≠ .context) (hf : token ≠ .func)
    (h : List.Forall₂ (RendersOperand ids) operands os) (he : Expr.assemble token os = .ok e) :
    Renders ids (.arr (.str token.name :: operands)) e := by
  obtain ⟨ds, rfl, joins⟩ := Expr.joins_of_assemble hc he
  rw [List.forall₂_map_right_iff] at h
  exact renders_of_joins h joins fun around => Json.lacksContext_verb hc hr hf

private theorem renders_iteration {token : Token} {verb : CollectionVerb} {operands : List Json}
    {os : List Operand} (hv : CollectionVerb.ofToken? token = some verb)
    (h : List.Forall₂ (RendersOperand ids) operands os) (he : Expr.assemble token os = .ok e) :
    Renders ids (.arr (.str token.name :: operands)) e := by
  obtain ⟨lambda, source, ctx, rfl, iterates⟩ := Expr.iterate_of_assemble hv he
  obtain ⟨_, rest, ⟨inner, rfl, noContext, body⟩, exprs, rfl⟩ := List.forall₂_cons_right_iff.mp h
  rw [List.forall₂_map_right_iff] at exprs
  obtain ⟨outer, later, first, others, rfl⟩ := List.forall₂_cons_right_iff.mp exprs
  -- The document gives a context exactly if the expression has one.
  obtain ⟨given, rfl, same⟩ : ∃ given : Option Json, later = given.toList ∧
      given.isSome = ctx.isSome := by
    cases ctx with
    | none =>
      cases others
      exact ⟨.none, rfl, rfl⟩
    | some c =>
      obtain ⟨g, _, -, none, rfl⟩ := List.forall₂_cons_right_iff.mp others
      cases none
      exact ⟨some g, rfl, rfl⟩
  rw [iterates noContext]
  intro around hr
  obtain ⟨bound, lacks⟩ := renders_parts exprs hr
  obtain ⟨boundInside, lacksInside⟩ := body (⟨lambda.id, ctx.isSome⟩ :: around) (by simp [hr])
  rw [Expr.someWithin_iterate, Expr.someWithin_iterate,
    Json.lacksContext_iteration (by simp [hv]), lacks, lacksInside, same, not_or]
  exact ⟨⟨bound, boundInside⟩, Iff.rfl⟩

/-- What the reader makes of a document at a place stands for it there. -/
def Closes (j : Json) : Prop :=
  ∀ s : Scope, s.Fresh → Yields (expr j) s (Renders s.enclosing j)

private theorem yields_operand (hj : Closes j)
    (hb : ∀ body, j = .arr [.str "func", body] → Closes body) {s : Scope} (hs : s.Fresh) :
    Yields (operand j) s (RendersOperand s.enclosing j) := by
  unfold operand
  split
  · rename_i parts
    rcases parts with _ | ⟨body, _ | ⟨other, more⟩⟩
    case cons.nil =>
      refine (hb body rfl _ hs.inside).function.map fun lambda h => ?_
      obtain ⟨id, context, inside⟩ := h
      exact ⟨body, rfl, context, id ▸ inside⟩
    all_goals
      exact (Yields.throw (R := fun _ => False) _).map fun _ h => h.elim
  · exact (hj s hs).map fun _ he => he

private theorem closes_array {items : List Json} (head : ∀ name rest, items ≠ .str name :: rest)
    (h : ∀ j ∈ items, Closes j) : Closes (.arr items) := by
  intro s hs
  have each : Yields (items.mapM expr) s (List.Forall₂ (Renders s.enclosing) items) := by
    refine Yields.mapM fun j hj t later => ?_
    rw [← later.enclosing]
    exact h j hj t (hs.later later)
  rw [expr_array head]
  refine each.map fun es hes => renders_of_joins hes (Expr.joins_parts rfl rfl) fun around => ?_
  exact Json.lacksContext_array head

private theorem closes_object {fields : List (String × Json)} (h : ∀ f ∈ fields, Closes f.2) :
    Closes (.obj fields) := by
  intro s hs
  have each : Yields (fields.mapM (named expr)) s
      (List.Forall₂ (fun f g => Renders s.enclosing f.2 g.2) fields) := by
    refine Yields.mapM fun f hf t later => ?_
    rw [← later.enclosing]
    exact (h f hf t (hs.later later)).map fun _ he => he
  rw [expr, fieldList_eq]
  refine each.map fun es hes => ?_
  have values : List.Forall₂ (Renders s.enclosing) (fields.map Prod.snd) (es.map Prod.snd) := by
    rwa [List.forall₂_map_left_iff, List.forall₂_map_right_iff]
  exact renders_of_joins values (Expr.joins_parts rfl rfl) fun around => Json.lacksContext_object

private theorem closes_token (token : Token) {operands : List Json}
    (h : ∀ j ∈ operands, ∀ s : Scope, s.Fresh →
      Yields (operand j) s (RendersOperand s.enclosing j)) :
    Closes (.arr (.str token.name :: operands)) := by
  intro s hs
  rw [expr_token, verb]
  split
  · rename_i ht
    exact yields_reference ht operands hs
  split
  · exact Yields.throw _
  · rename_i hr hf
    have each : Yields (operandList operands) s
        (List.Forall₂ (RendersOperand s.enclosing) operands) := by
      rw [operandList_eq]
      refine Yields.mapM fun j hj t later => ?_
      rw [← later.enclosing]
      exact h j hj t (hs.later later)
    refine each.bind fun os t hos _ => Yields.ofExcept fun e he => ?_
    cases hc : CollectionVerb.ofToken? token with
    | some verb => exact renders_iteration hc hos he
    | none =>
      have ht : token ≠ .context := by
        rintro rfl
        exact hr (by simp)
      exact renders_verb hc ht hf hos he

private theorem closes (j : Json) : Closes j := by
  induction j using Json.inductWords with
  | scalar j h =>
    intro s _
    rw [expr_scalar h]
    exact Yields.pure (renders_literal _ fun _ => Json.not_lacksContext_scalar h)
  | array items head ih => exact closes_array head ih
  | object fields ih => exact closes_object ih
  | quote operands =>
    intro s _
    by_cases h : ∃ j, operands = [j]
    · obtain ⟨j, rfl⟩ := h
      rw [expr_quote]
      exact Yields.pure (renders_literal _ fun _ => Json.not_lacksContext_unknown rfl)
    · rw [expr_quote_refused fun j hj => h ⟨j, hj⟩]
      exact Yields.throw _
  | unknown head operands hq unknown =>
    intro s _
    rw [expr_unknown hq unknown]
    exact Yields.throw _
  | token token operands ih =>
    exact closes_token token fun j hj s hs => yields_operand (ih j hj).1 (ih j hj).2 hs

/-! ### Models -/

/-- The definition that a document is read as. -/
def RendersDefinition (j : Json) : Definition → Prop
  | .output e => Renders [] j e
  | _ => ¬ j.LacksContext []

private theorem yields_definition (j : Json) {s : Scope} (hs : s.enclosing = []) :
    Yields (definition j) s (RendersDefinition j) := by
  have fresh : s.Fresh := ⟨by simp [hs], by simp [hs]⟩
  unfold definition
  split
  · exact (Yields.ofExcept (R := fun _ => True) fun _ _ => trivial).map fun _ _ =>
      Json.not_lacksContext_unknown rfl
  · exact (Yields.ofExcept (R := fun _ => True) fun _ _ => trivial).map fun _ _ =>
      Json.not_lacksContext_unknown rfl
  · refine (closes j s fresh).map fun e he => ?_
    rw [hs] at he
    exact he

private theorem yields_model (document : Json) : Yields (model document) Scope.start fun m =>
    ∃ fields, document = .obj fields ∧ List.Forall₂ (fun f d => f.1 = d.1 ∧
      RendersDefinition f.2 d.2) (Fields.ofList fields) m.definitions := by
  cases document with
  | obj fields =>
    rw [model, definitions_eq]
    have each : Yields (fields.mapM (named definition)) Scope.start
        (List.Forall₂ (fun f d => f.1 = d.1 ∧ RendersDefinition f.2 d.2) fields) := by
      refine Yields.mapM fun f _ t later => ?_
      exact (yields_definition f.2 later.enclosing).map fun _ hd => ⟨rfl, hd⟩
    exact each.map fun ds hds => ⟨fields, rfl, Fields.forall₂_ofList hds⟩
  | _ => exact Yields.throw _

private theorem Renders.scoping (h : Renders [] j e) :
    (e.LacksContext ↔ j.LacksContext []) ∧ (¬ e.WellScoped → e.LacksContext) := by
  obtain ⟨bound, lacks⟩ := h [] rfl
  rw [Expr.someWithin_nil] at bound lacks
  refine ⟨lacks, fun bad => ?_⟩
  rw [Expr.wellScoped_iff, not_and_or] at bad
  rcases bad with free | lacks
  · simp only [not_forall, not_not] at free
    obtain ⟨l, o, ho, -, -, unbound⟩ := free
    exact absurd ⟨o, ho, unbound⟩ bound
  · exact not_not.mp lacks

private theorem RendersDefinition.lacksContext_iff {d : Definition} (h : RendersDefinition j d) :
    j.LacksContext [] ↔ ∃ e, d = .output e ∧ e.LacksContext := by
  cases d with
  | output e =>
    rw [← (Renders.scoping h).1]
    simp
  | setter path | splice path =>
    have none : ¬ j.LacksContext [] := h
    simp [none]

private theorem RendersDefinition.closed {d : Definition} (h : RendersDefinition j d) :
    ¬ ∃ e, d = .output e ∧ ¬ e.WellScoped ∧ ¬ e.LacksContext := by
  rintro ⟨e, rfl, bad, context⟩
  exact context ((Renders.scoping h).2 bad)

end Reader

/-- In a model that was read an output lacks a context exactly if the document does, and outputs are
well scoped but for that. -/
theorem Model.outputs_of_ofJson {document : Json} {m : Model} (h : Model.ofJson document = .ok m) :
    (document.ModelLacksContext ↔ ∃ name e, (name, e) ∈ m.outputs ∧ e.LacksContext) ∧
      ∀ name e, (name, e) ∈ m.outputs → ¬ e.WellScoped → e.LacksContext := by
  obtain ⟨⟨fields, rfl, defs⟩, -⟩ := Reader.yields_model document m _ (Prod.ext h rfl)
  simp only [Model.mem_outputs]
  have lacks := exists_mem_congr (defs.imp fun f d hd => hd.2.lacksContext_iff)
  have closed : (∃ f ∈ Fields.ofList fields, False) ↔ ∃ d ∈ m.definitions,
      ∃ e, d.2 = .output e ∧ ¬ e.WellScoped ∧ ¬ e.LacksContext :=
    exists_mem_congr (defs.imp fun f d hd => (iff_false_intro hd.2.closed).symm)
  refine ⟨⟨?_, ?_⟩, ?_⟩
  · rintro ⟨_, ⟨⟩, missing⟩
    obtain ⟨⟨name, _⟩, hd, e, rfl, context⟩ := lacks.mp missing
    exact ⟨name, e, hd, context⟩
  · rintro ⟨name, e, he, context⟩
    exact ⟨fields, rfl, lacks.mpr ⟨_, he, e, rfl, context⟩⟩
  · intro name e he bad
    by_contra context
    obtain ⟨f, -, none⟩ := closed.mpr ⟨_, he, e, rfl, bad, context⟩
    exact none

/-- A model that was read never has an unbound variable: compiling gives a program or misses a
context, and it misses one exactly if the document refers to the context of a function that is given
none. -/
theorem compile_ofJson {document : Json} {m : Model} (h : Model.ofJson document = .ok m)
    (b : Backend) :
    ((∃ p, Program.compile m b = .ok p) ∨
      ∃ name, Program.compile m b = .error (.missingContext name)) ∧
    ((∃ name, Program.compile m b = .error (.missingContext name)) ↔
      document.ModelLacksContext) := by
  obtain ⟨lacks, closed⟩ := Model.outputs_of_ofJson h
  rw [lacks]
  cases hc : Program.compile m b with
  | ok p =>
    refine ⟨.inl ⟨p, rfl⟩, iff_of_false (by simp) ?_⟩
    rintro ⟨name, e, he, context⟩
    exact (Program.wellScoped_of_compile hc (name, e) he).2 context
  | error err =>
    obtain ⟨before, name, e, after, split, -, bad, rfl⟩ := Program.error_of_compile hc
    have he : (name, e) ∈ m.outputs := by simp [split]
    have context := closed name e he bad
    have missing : ScopeError.about name e = .missingContext name := if_pos context
    rw [missing]
    exact ⟨.inr ⟨name, rfl⟩, iff_of_true ⟨name, rfl⟩ ⟨name, e, he, context⟩⟩

theorem compile_outerContext :
    (∃ m, Model.ofJson (.obj [("nested", outerContext none)]) = .ok m ∧
      ∃ name, Program.compile m .simple = .error (.missingContext name)) ∧
    ∃ m p, Model.ofJson (.obj [("nested", outerContext (some .null))]) = .ok m ∧
      Program.compile m .simple = .ok p ∧
      ¬ Json.ModelLacksContext (.obj [("nested", outerContext (some .null))]) := by
  constructor
  · have read : ∃ m, Model.ofJson (.obj [("nested", outerContext none)]) = .ok m :=
      ⟨_, by with_unfolding_all rfl⟩
    obtain ⟨m, hm⟩ := read
    have lacks : Json.LacksContext [] ("nested", outerContext none).2 := outerContext_lacksContext
    have collected : Fields.ofList [("nested", outerContext none)] =
        [("nested", outerContext none)] := by with_unfolding_all rfl
    refine ⟨m, hm, (compile_ofJson hm .simple).2.mpr ⟨_, rfl, _, ?_, lacks⟩⟩
    rw [collected]
    exact List.mem_cons_self
  · have read : ∃ m p, Model.ofJson (.obj [("nested", outerContext (some .null))]) = .ok m ∧
        Program.compile m .simple = .ok p :=
      ⟨_, _, by with_unfolding_all rfl, by with_unfolding_all rfl⟩
    obtain ⟨m, p, hm, hp⟩ := read
    refine ⟨m, p, hm, hp, fun lacks => ?_⟩
    obtain ⟨name, missing⟩ := (compile_ofJson hm .simple).2.mpr lacks
    rw [hp] at missing
    cases missing

end Recalc
