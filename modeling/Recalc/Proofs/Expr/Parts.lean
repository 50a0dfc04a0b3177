import Mathlib.Tactic.Common
import Recalc.Expr.Meaning

/-! The parts of an expression, induction over them, and what a walk through them collects. The
literals of an expression are one such collection. Constant expressions are those that are made of
literals alone. -/
namespace Recalc.Expr

/-- The parts of an expression, a context before the body. -/
def parts : Expr → List Expr
  | array items => items
  | object fields => fields.map Prod.snd
  | get o k => [o, k]
  | iterate _ source _ body ctx => source :: ctx.toList ++ [body]
  | unary _ operand => [operand]
  | range stop start step => [stop, start, step]
  | ternary condition consequent alternative => [condition, consequent, alternative]
  | and items => items
  | or items => items
  | binary _ left right => [left, right]
  | call _ receiver args => receiver :: args
  | shared _ e => [e]
  | _ => []

def isIterate : Expr → Bool
  | iterate _ _ _ _ _ => true
  | _ => false

theorem sizeOf_part {e c : Expr} (h : c ∈ e.parts) : sizeOf c < sizeOf e := by
  cases e with
  | array items | and items | or items =>
    have : sizeOf c < sizeOf items := List.sizeOf_lt_of_mem h
    simp only [array.sizeOf_spec, and.sizeOf_spec, or.sizeOf_spec]
    omega
  | object fields =>
    obtain ⟨⟨name, d⟩, hf, rfl⟩ := List.mem_map.mp h
    have := List.sizeOf_lt_of_mem hf
    simp only [Prod.mk.sizeOf_spec, object.sizeOf_spec] at this ⊢
    omega
  | iterate verb source lambda body ctx =>
    cases ctx <;> simp only [parts, Option.toList, List.mem_append, List.mem_cons,
      List.not_mem_nil, or_false] at h <;>
      rcases h with (rfl | rfl) | rfl <;> simp <;> omega
  | call function receiver args =>
    rcases List.mem_cons.mp h with rfl | h
    · simp only [call.sizeOf_spec]
      omega
    · have := List.sizeOf_lt_of_mem h
      simp only [call.sizeOf_spec]
      omega
  | get | unary | range | ternary | binary | shared =>
    simp only [parts, List.mem_cons, List.not_mem_nil, or_false] at h
    rcases h with rfl | rfl | rfl <;> simp <;> omega
  | _ => cases h

/-- What holds of an expression as soon as it holds of its parts holds of every expression. -/
@[elab_as_elim]
theorem inductionOn {motive : Expr → Prop} (e : Expr)
    (step : ∀ e, (∀ c ∈ e.parts, motive c) → motive e) : motive e :=
  step e fun c hc =>
    have := sizeOf_part hc
    inductionOn c step
termination_by sizeOf e

/-! ### Collecting -/

section Collect
variable {α : Type} (own : Expr → List α) (body : LambdaId → Bool → List α → List α)

mutual

/-- Goes through an expression and its parts in order. What the body of an iteration gives is
changed according to the function and to whether it has a context. -/
def collect : Expr → List α
  | root => own root
  | val l => own (val l)
  | key l => own (key l)
  | context l => own (context l)
  | literal v => own (literal v)
  | array items => own (array items) ++ collectItems items
  | object fields => own (object fields) ++ collectFields fields
  | get o k => own (get o k) ++ (collect o ++ collect k)
  | iterate verb source lambda e ctx =>
    own (iterate verb source lambda e ctx) ++
      (collect source ++ (collectOption ctx ++ body lambda ctx.isSome (collect e)))
  | unary verb operand => own (unary verb operand) ++ collect operand
  | range stop start step =>
    own (range stop start step) ++ (collect stop ++ (collect start ++ collect step))
  | ternary condition consequent alternative =>
    own (ternary condition consequent alternative) ++
      (collect condition ++ (collect consequent ++ collect alternative))
  | and items => own (and items) ++ collectItems items
  | or items => own (or items) ++ collectItems items
  | binary verb left right => own (binary verb left right) ++ (collect left ++ collect right)
  | call function receiver args =>
    own (call function receiver args) ++ (collect receiver ++ collectItems args)
  | shared label e => own (shared label e) ++ collect e

def collectItems : List Expr → List α
  | [] => []
  | e :: rest => collect e ++ collectItems rest

def collectFields : List (String × Expr) → List α
  | [] => []
  | (_, e) :: rest => collect e ++ collectFields rest

def collectOption : Option Expr → List α
  | none => []
  | some e => collect e

end

private theorem collectItems_eq (es : List Expr) :
    collectItems own body es = es.flatMap (collect own body) := by
  induction es with
  | nil => rfl
  | cons e rest ih => rw [collectItems, ih, List.flatMap_cons]

private theorem collectFields_eq (fields : List (String × Expr)) :
    collectFields own body fields = (fields.map Prod.snd).flatMap (collect own body) := by
  induction fields with
  | nil => rfl
  | cons f rest ih => rw [collectFields, ih, List.map_cons, List.flatMap_cons]

variable {own body}

theorem collect_eq {e : Expr} (h : e.isIterate = false) :
    collect own body e = own e ++ e.parts.flatMap (collect own body) := by
  cases e with
  | iterate => cases h
  | _ => simp [collect, parts, collectItems_eq, collectFields_eq]

theorem collect_iterate (verb : CollectionVerb) (source : Expr) (lambda : LambdaId) (e : Expr)
    (ctx : Option Expr) : collect own body (iterate verb source lambda e ctx) =
      own (iterate verb source lambda e ctx) ++
        ((source :: ctx.toList).flatMap (collect own body) ++
          body lambda ctx.isSome (collect own body e)) := by
  cases ctx <;> simp [collect, collectOption]

end Collect

/-! ### Literals -/

/-- The literals of an expression. -/
def literals (e : Expr) : List Value :=
  collect (fun | literal v => [v] | _ => []) (fun _ _ vs => vs) e

theorem literals_of_part {e c : Expr} (hc : c ∈ e.parts) {v : Value} (hv : v ∈ c.literals) :
    v ∈ e.literals := by
  rw [literals]
  cases hi : e.isIterate with
  | false =>
    rw [collect_eq hi]
    exact List.mem_append_right _ (List.mem_flatMap.mpr ⟨c, hc, hv⟩)
  | true =>
    cases e with
    | iterate verb source lambda body ctx =>
      rw [collect_iterate]
      refine List.mem_append_right _ (List.mem_append.mpr ?_)
      rcases List.mem_append.mp hc with hc | hc
      · exact .inl (List.mem_flatMap.mpr ⟨c, hc, hv⟩)
      · exact .inr (List.mem_singleton.mp hc ▸ hv)
    | _ => cases hi

/-! ### Constants -/

mutual

/-- The value of an expression that is made of literals alone. -/
def constant? : Expr → Option Value
  | literal v => some v
  | array items => (constantItems? items).map .arr
  | object fields => (constantFields? fields).map fun fs => .obj (Fields.ofList fs)
  | shared _ e => constant? e
  | _ => none

def constantItems? : List Expr → Option (List Value)
  | [] => some []
  | e :: rest => do
    let v ← constant? e
    let vs ← constantItems? rest
    return v :: vs

def constantFields? : List (String × Expr) → Option (List (String × Value))
  | [] => some []
  | (k, e) :: rest => do
    let v ← constant? e
    let fs ← constantFields? rest
    return (k, v) :: fs

end

private theorem constantItems?_eq (es : List Expr) : constantItems? es = es.mapM constant? := by
  induction es with
  | nil => rfl
  | cons e rest ih => rw [constantItems?, ih, List.mapM_cons]

private theorem constantFields?_eq (fields : List (String × Expr)) : constantFields? fields =
    ((fields.map Prod.snd).mapM constant?).map ((fields.map Prod.fst).zip ·) := by
  induction fields with
  | nil => rfl
  | cons f rest ih =>
    obtain ⟨k, e⟩ := f
    simp only [constantFields?, ih, List.map_cons, List.mapM_cons]
    cases constant? e with
    | none => rfl
    | some v => cases (rest.map Prod.snd).mapM constant? <;> rfl

theorem constant?_array (items : List Expr) :
    (array items).constant? = (items.mapM constant?).map .arr := by
  rw [constant?, constantItems?_eq]

theorem constant?_object (fields : List (String × Expr)) :
    (object fields).constant? = ((fields.map Prod.snd).mapM constant?).map
      fun vs => .obj (Fields.ofList ((fields.map Prod.fst).zip vs)) := by
  rw [constant?, constantFields?_eq, Option.map_map]
  rfl

/-- Induction over constants and their values: literals, containers of constants, and constants with
a label. -/
@[elab_as_elim]
theorem constant_induction {motive : Expr → Value → Prop} {e : Expr} {w : Value}
    (h : e.constant? = some w) (literal : ∀ v, motive (literal v) v)
    (array : ∀ items vs, List.Forall₂ motive items vs → motive (array items) (.arr vs))
    (object : ∀ fields vs, List.Forall₂ motive (fields.map Prod.snd) vs →
      motive (object fields) (.obj (Fields.ofList ((fields.map Prod.fst).zip vs))))
    (shared : ∀ label e w, motive e w → motive (shared label e) w) : motive e w := by
  induction e using inductionOn generalizing w with
  | step e ih =>
    have all (es : List Expr) (vs : List Value) (hs : ∀ c ∈ es, c ∈ e.parts)
        (hv : es.mapM constant? = some vs) : List.Forall₂ motive es vs := by
      induction es generalizing vs with
      | nil =>
        cases hv
        exact .nil
      | cons c rest ihs =>
        simp only [List.mapM_cons, Option.bind_eq_bind, Option.bind_eq_some_iff,
          Option.pure_def, Option.some.injEq] at hv
        obtain ⟨v, hc, us, hr, rfl⟩ := hv
        exact .cons (ih c (hs c List.mem_cons_self) hc)
          (ihs us (fun d hd => hs d (List.mem_cons_of_mem _ hd)) hr)
    cases e with
    | literal v =>
      cases h
      exact literal _
    | array items =>
      rw [constant?_array] at h
      obtain ⟨vs, hv, rfl⟩ := Option.map_eq_some_iff.mp h
      exact array items vs (all items vs (fun _ hc => hc) hv)
    | object fields =>
      rw [constant?_object] at h
      obtain ⟨vs, hv, rfl⟩ := Option.map_eq_some_iff.mp h
      exact object fields vs (all _ vs (fun _ hc => hc) hv)
    | shared label d => exact shared label d w (ih d List.mem_cons_self h)
    | _ => cases h

/-- A class of values that is closed under making containers. -/
structure ConstantClass (D : Value → Prop) : Prop where
  array : ∀ vs, (∀ v ∈ vs, D v) → D (.arr vs)
  object : ∀ fields : List (String × Value), (∀ f ∈ fields, D f.2) → D (.obj (Fields.ofList fields))

theorem constantClass_true : ConstantClass fun _ => True := ⟨by simp, by simp⟩

/-- The values of constants are in a class as soon as their literals are. -/
theorem ConstantClass.constant {D : Value → Prop} (hD : ConstantClass D) {e : Expr} {w : Value}
    (h : e.constant? = some w) : (∀ v ∈ e.literals, D v) → D w := by
  have all {e : Expr} {es : List Expr} {vs : List Value} (he : ∀ v ∈ e.literals, D v)
      (hp : ∀ c ∈ es, c ∈ e.parts)
      (ih : List.Forall₂ (fun c w => (∀ v ∈ c.literals, D v) → D w) es vs) : ∀ v ∈ vs, D v := by
    induction ih with
    | nil => simp
    | cons first _ ihs =>
      refine List.forall_mem_cons.mpr ⟨first fun v hv => ?_, ihs fun c hc => ?_⟩
      · exact he v (literals_of_part (hp _ List.mem_cons_self) hv)
      · exact hp c (List.mem_cons_of_mem _ hc)
  refine constant_induction h ?literal ?array ?object ?shared
  case literal =>
    intro v he
    exact he v List.mem_cons_self
  case array =>
    intro items vs ih he
    exact hD.array vs (all he (fun _ hc => hc) ih)
  case object =>
    intro fields vs ih he
    refine hD.object _ fun f hf => ?_
    exact all he (fun _ hc => hc) ih f.2 (List.of_mem_zip hf).2
  case shared =>
    intro label e w ih he
    exact ih fun v hv => he v (literals_of_part List.mem_cons_self hv)

/-! ### What constants evaluate to -/

variable {lib : Library} {model : Value} {env : List Local}

private theorem evalFields_eq (fields : List (String × Expr)) : evalFields lib model env fields =
    (evalItems lib model env (fields.map Prod.snd)).map ((fields.map Prod.fst).zip ·) := by
  induction fields with
  | nil => rfl
  | cons f rest ih =>
    obtain ⟨k, e⟩ := f
    simp only [evalFields, ih, List.map_cons, evalItems]
    cases eval lib model env e with
    | error err => rfl
    | ok v => cases evalItems lib model env (rest.map Prod.snd) <;> rfl

private theorem evalItems_of_forall₂ {es : List Expr} {vs : List Value}
    (h : List.Forall₂ (fun e v => eval lib model env e = .ok v) es vs) :
    evalItems lib model env es = .ok vs := by
  induction h with
  | nil => rfl
  | cons first _ ih =>
    rw [evalItems, first, ih]
    rfl

/-- A constant evaluates to its value wherever it stands. -/
theorem eval_of_constant {e : Expr} {w : Value} (h : e.constant? = some w) :
    eval lib model env e = .ok w := by
  refine constant_induction h ?literal ?array ?object ?shared
  case literal =>
    intro v
    rfl
  case array =>
    intro items vs ih
    rw [eval, evalItems_of_forall₂ ih]
    rfl
  case object =>
    intro fields vs ih
    rw [eval, evalFields_eq, evalItems_of_forall₂ ih]
    rfl
  case shared =>
    intro label e w ih
    exact ih

end Recalc.Expr
