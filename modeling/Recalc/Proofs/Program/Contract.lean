import Mathlib.Tactic.Common
import Recalc.Library
import Recalc.Program.Combine
import Recalc.Verb.Collection

/-! What an evaluation may fail for. Verbs fail only for the values that they meet, so a node fails
for nothing else, as long as its parts and its call do not. -/
namespace Recalc

/-- An error about values that were met, and not about a name that was not found or a depth that was
exceeded. -/
def EvalError.AboutValues : EvalError → Prop
  | .type _ => True
  | .divisionByZero => True
  | .argument .zeroStep => True
  | .argument (.step _) => True
  | .argument (.length _) => True
  | _ => False

/-- A result that is no failure, or a failure about values. -/
def AboutValues {α : Type} (r : Except EvalError α) : Prop := ∀ e, r = .error e → e.AboutValues

private theorem aboutValues_ok {α : Type} (a : α) : AboutValues (.ok a) := by
  intro e h
  cases h

private theorem aboutValues_error {α : Type} {e : EvalError} (h : e.AboutValues) :
    AboutValues (.error e : Except EvalError α) := by
  rintro _ ⟨⟩
  exact h

theorem AboutValues.bind {α β : Type} {x : Except EvalError α} {f : α → Except EvalError β}
    (hx : AboutValues x) (hf : ∀ a, AboutValues (f a)) : AboutValues (x >>= f) := by
  cases x with
  | error e => exact aboutValues_error (hx e rfl)
  | ok a => exact hf a

/-! ### Verbs -/

private theorem Value.aboutValues_propertyKey (key : Value) : AboutValues key.propertyKey := by
  unfold propertyKey
  split
  · exact aboutValues_ok _
  · exact aboutValues_error trivial

theorem Value.aboutValues_get (object key : Value) : AboutValues (object.get key) := by
  unfold get
  split
  · exact aboutValues_ok _
  · exact (aboutValues_propertyKey key).bind fun name => aboutValues_ok _
  · unfold getAt
    split
    · exact aboutValues_error trivial
    · exact aboutValues_ok _
  · exact aboutValues_error trivial

private theorem UnaryVerb.aboutValues_merge (earlierWins : Bool) (operand : Value) :
    AboutValues (merge earlierWins operand) := by
  have step (out : Option (Fields Value)) (v : Value) :
      AboutValues (mergeStep earlierWins out v) := by
    unfold mergeStep
    split
    · exact aboutValues_ok _
    · split <;> exact aboutValues_ok _
    · exact aboutValues_error trivial
  have steps (items : List Value) (out : Option (Fields Value)) :
      AboutValues (items.foldlM (mergeStep earlierWins) out) := by
    induction items generalizing out with
    | nil => exact aboutValues_ok _
    | cons v rest ih =>
      rw [List.foldlM_cons]
      exact (step out v).bind ih
  unfold merge
  split
  · exact (steps _ none).bind fun next => aboutValues_ok _
  · exact aboutValues_error trivial

private theorem UnaryVerb.aboutValues_apply (verb : UnaryVerb) (operand : Value) :
    AboutValues (verb.apply operand) := by
  cases verb with
  | not => exact aboutValues_ok _
  | assign => exact UnaryVerb.aboutValues_merge false operand
  | defaults => exact UnaryVerb.aboutValues_merge true operand
  | values | keys | size =>
    cases operand <;> first | exact aboutValues_ok _ | exact aboutValues_error trivial

private theorem BinaryVerb.aboutValues_apply (verb : BinaryVerb) (left right : Value) :
    AboutValues (verb.apply left right) := by
  have comparison (verb : BinaryVerb) : AboutValues (verb.comparison left right) := by
    refine AboutValues.bind ?_ fun order => aboutValues_ok _
    unfold order
    split
    · exact aboutValues_ok _
    · exact aboutValues_ok _
    · split
      · exact aboutValues_ok _
      · exact aboutValues_error trivial
  have arithmetic (verb : BinaryVerb) : AboutValues (verb.arithmetic left right) := by
    unfold BinaryVerb.arithmetic
    split
    · unfold integers
      split
      · exact aboutValues_error trivial
      · split <;> exact aboutValues_ok _
    · exact aboutValues_ok _
    · exact aboutValues_ok _
    · exact aboutValues_ok _
    · split
      · exact aboutValues_ok _
      · exact aboutValues_error trivial
    · exact aboutValues_error trivial
  cases verb with
  | eq => exact aboutValues_ok _
  | gt | lt | gte | lte => exact comparison _
  | plus | minus | mult | div | mod => exact arithmetic _

private theorem Range.aboutValues_apply (stop start step : Value) :
    AboutValues (Range.apply stop start step) := by
  have number (v : Value) : AboutValues (Range.number v) := by
    unfold Range.number
    split
    · exact aboutValues_ok _
    · exact aboutValues_error trivial
  have length (count : Double) : AboutValues (Range.length count) := by
    unfold Range.length
    split
    · exact aboutValues_error trivial
    · exact aboutValues_ok _
  unfold Range.apply
  split
  · unfold ofInts
    split
    · exact aboutValues_error trivial
    · exact (length _).bind fun n => aboutValues_ok _
  · refine (number stop).bind fun stop => (number start).bind fun start =>
      (number step).bind fun step => ?_
    unfold ofFloats
    split
    · exact aboutValues_error trivial
    · split
      · exact aboutValues_ok _
      · exact (length _).bind fun n => aboutValues_ok _

private theorem CollectionVerb.aboutValues_entries (verb : CollectionVerb) (source : Value) :
    AboutValues (verb.entries source) := by
  unfold entries
  split
  · exact aboutValues_ok _
  · exact aboutValues_ok _
  · exact aboutValues_ok _
  · exact aboutValues_ok _
  · exact aboutValues_error trivial

private theorem CollectionVerb.aboutValues_settle (verb : CollectionVerb) (result : Value) :
    AboutValues (verb.settle result) := by
  have key : AboutValues (result.propertyKey.map fun _ => false) := by
    intro e h
    cases hk : result.propertyKey with
    | ok name => simp [hk, Except.map] at h
    | error e' =>
      simp only [hk, Except.map, Except.error.injEq] at h
      exact h ▸ result.aboutValues_propertyKey e' hk
  cases verb with
  | keyBy | mapKeys | groupBy => exact key
  | _ => exact aboutValues_ok _

/-! ### Computations -/

/-- A condition on computations with a property of their results. It respects results, sequencing,
and failure for some reasons, among them all reasons about values. -/
structure Contract (m : Type → Type) [Monad m] [MonadExceptOf EvalError m] where
  fails : EvalError → Prop
  values : ∀ e, e.AboutValues → fails e
  holds : {α : Type} → (α → Prop) → m α → Prop
  pure : {α : Type} → {P : α → Prop} → {a : α} → P a → holds P (pure a)
  bind : {α β : Type} → {P : α → Prop} → {Q : β → Prop} → {x : m α} → {f : α → m β} →
    holds P x → (∀ a, P a → holds Q (f a)) → holds Q (x >>= f)
  throw : {α : Type} → {P : α → Prop} → {e : EvalError} → fails e → holds P (throw e : m α)

namespace Contract
variable {m : Type → Type} [Monad m] [MonadExceptOf EvalError m] (C : Contract m)

/-- A computation that meets the condition, whatever it gives. -/
def Meets {α : Type} (x : m α) : Prop := C.holds (fun _ => True) x

theorem ofExcept {α : Type} {P : α → Prop} {r : Except EvalError α} (hv : AboutValues r)
    (h : ∀ a, r = .ok a → P a) : C.holds P (MonadExcept.ofExcept r) := by
  cases r with
  | error e => exact C.throw (C.values e (hv e rfl))
  | ok a => exact C.pure (h a rfl)

theorem meets_ofExcept {α : Type} {r : Except EvalError α} (hv : AboutValues r) :
    C.Meets (MonadExcept.ofExcept r : m α) := C.ofExcept hv fun _ _ => trivial

theorem mapM {α β : Type} {f : α → m β} {as : List α} (h : ∀ a ∈ as, C.Meets (f a)) :
    C.Meets (as.mapM f) := by
  have loop (acc : List β) : C.Meets (List.mapM.loop f as acc) := by
    induction as generalizing acc with
    | nil => exact C.pure trivial
    | cons a rest ih =>
      apply C.bind (h a List.mem_cons_self)
      intro b _
      exact ih (fun a ha => h a (List.mem_cons_of_mem _ ha)) (b :: acc)
  exact loop []

variable {read : NodeId → m Value}

private theorem meets_readWhile {ids : List NodeId} (h : ∀ c ∈ ids, C.Meets (read c))
    (test : Value → Bool) (last : Value) : C.Meets (readWhile read test last ids) := by
  induction ids generalizing last with
  | nil => exact C.pure trivial
  | cons c rest ih =>
    apply C.bind (h c List.mem_cons_self)
    intro v _
    split
    · exact ih (fun c hc => h c (List.mem_cons_of_mem _ hc)) v
    · exact C.pure trivial

private theorem meets_readFields {fields : List (String × NodeId)}
    (h : ∀ c ∈ fields.map Prod.snd, C.Meets (read c)) : C.Meets (readFields read fields) := by
  induction fields with
  | nil => exact C.pure trivial
  | cons e rest ih =>
    apply C.bind (h e.2 List.mem_cons_self)
    intro v _
    apply C.bind (ih fun c hc => h c (List.mem_cons_of_mem _ hc))
    intro vs _
    exact C.pure trivial

/-- A node meets the condition as soon as its parts and its call do. -/
theorem combine {n : Node} {invoke : String → List Value → m Value}
    (hr : ∀ c ∈ n.children, C.Meets (read c))
    (hi : ∀ function ids, n = .call function ids → ∀ args, C.Meets (invoke function args)) :
    C.Meets (n.combine read invoke) := by
  cases n with
  | array items => exact C.bind (C.mapM hr) fun vs _ => C.pure trivial
  | object fields => exact C.bind (C.meets_readFields hr) fun vs _ => C.pure trivial
  | unary verb operand =>
    apply C.bind (hr operand (by simp [Node.children]))
    intro v _
    exact C.meets_ofExcept (verb.aboutValues_apply v)
  | range stop start step =>
    apply C.bind (hr stop (by simp [Node.children]))
    intro a _
    apply C.bind (hr start (by simp [Node.children]))
    intro b _
    apply C.bind (hr step (by simp [Node.children]))
    intro c _
    exact C.meets_ofExcept (Range.aboutValues_apply a b c)
  | ternary condition consequent alternative =>
    apply C.bind (hr condition (by simp [Node.children]))
    intro v _
    split
    · exact hr consequent (by simp [Node.children])
    · exact hr alternative (by simp [Node.children])
  | and items => exact C.meets_readWhile hr _ _
  | or items => exact C.meets_readWhile hr _ _
  | binary verb left right =>
    apply C.bind (hr left (by simp [Node.children]))
    intro a _
    apply C.bind (hr right (by simp [Node.children]))
    intro b _
    exact C.meets_ofExcept (verb.aboutValues_apply a b)
  | call function args => exact C.bind (C.mapM hr) fun vs _ => hi function args rfl vs
  | _ => exact C.pure trivial

/-- An iteration meets the condition as soon as its body does. -/
theorem iterate {verb : CollectionVerb} {source : Value} {body : Value → Value → m Value}
    (h : ∀ key element, C.Meets (body key element)) : C.Meets (verb.iterate source body) := by
  have visit (es : List (Value × Value)) : C.Meets (verb.visit body es) := by
    induction es with
    | nil => exact C.pure trivial
    | cons e rest ih =>
      apply C.bind (h e.1 e.2)
      intro r _
      apply C.bind (C.meets_ofExcept (verb.aboutValues_settle r))
      intro done _
      split
      · exact C.pure trivial
      · exact C.bind ih fun rs _ => C.pure trivial
  apply C.bind (C.meets_ofExcept (verb.aboutValues_entries source))
  intro es _
  exact C.bind (visit es) fun rs _ => C.pure trivial

end Contract

end Recalc
