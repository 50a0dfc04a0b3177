import Recalc.Proofs.Program.Domain

/-! Evaluators of two kinds, related step by step: both give the same value, with a property, or
both fail. A relation that respects results, sequencing and failure relates the values of a node as
soon as it relates the values of its parts. -/
namespace Recalc

section
variable {σ ε α β : Type} {x : ExceptT ε (StateM σ) α} {f : α → ExceptT ε (StateM σ) β} {s t : σ}

theorem run_bind_ok {a : α} (h : x.run s = (.ok a, t)) : (x >>= f).run s = (f a).run t := by
  change (ExceptT.bindCont f (x.run s).1) (x.run s).2 = _
  rw [h]
  rfl

theorem run_bind_error {e : ε} (h : x.run s = (.error e, t)) :
    (x >>= f).run s = (.error e, t) := by
  change (ExceptT.bindCont f (x.run s).1) (x.run s).2 = _
  rw [h]
  rfl

end

/-- A relation between computations with the same results, all of which have a property. It respects
results, sequencing and failure. -/
structure Correspondence (m n : Type → Type) [Monad m] [Monad n] [MonadExceptOf EvalError m]
    [MonadExceptOf EvalError n] where
  rel : {α : Type} → (α → Prop) → m α → n α → Prop
  pure : {α : Type} → {P : α → Prop} → {a : α} → P a → rel P (pure a) (pure a)
  bind : {α β : Type} → {P : α → Prop} → {Q : β → Prop} → {x : m α} → {y : n α} →
    {f : α → m β} → {g : α → n β} → rel P x y → (∀ a, P a → rel Q (f a) (g a)) →
    rel Q (x >>= f) (y >>= g)
  throw : {α : Type} → {P : α → Prop} → (e : EvalError) → rel P (throw e : m α) (throw e)

namespace Correspondence
variable {m n : Type → Type} [Monad m] [Monad n] [MonadExceptOf EvalError m]
  [MonadExceptOf EvalError n]
variable (R : Correspondence m n)

theorem ofExcept {α : Type} {P : α → Prop} (r : Except EvalError α) (h : ∀ a, r = .ok a → P a) :
    R.rel P (MonadExcept.ofExcept r) (MonadExcept.ofExcept r) := by
  cases r with
  | error e => exact R.throw e
  | ok a => exact R.pure (h a rfl)

theorem mapM {α β : Type} {P : β → Prop} {f : α → m β} {g : α → n β} {as : List α}
    (h : ∀ a ∈ as, R.rel P (f a) (g a)) :
    R.rel (fun bs => ∀ b ∈ bs, P b) (as.mapM f) (as.mapM g) := by
  have loop (acc : List β) (ha : ∀ b ∈ acc, P b) :
      R.rel (fun bs => ∀ b ∈ bs, P b) (List.mapM.loop f as acc) (List.mapM.loop g as acc) := by
    induction as generalizing acc with
    | nil => exact R.pure fun b hb => ha b (List.mem_reverse.mp hb)
    | cons a rest ih =>
      refine R.bind (h a List.mem_cons_self) fun b hb => ?_
      exact ih (fun a ha => h a (List.mem_cons_of_mem _ ha)) (b :: acc)
        (List.forall_mem_cons.mpr ⟨hb, ha⟩)
  exact loop [] (by simp)

variable {D : Value → Prop} {read : NodeId → m Value} {read' : NodeId → n Value}

private theorem readWhile {ids : List NodeId} (h : ∀ c ∈ ids, R.rel D (read c) (read' c))
    (test : Value → Bool) {last : Value} (hl : D last) :
    R.rel D (readWhile read test last ids) (readWhile read' test last ids) := by
  induction ids generalizing last with
  | nil => exact R.pure hl
  | cons c rest ih =>
    refine R.bind (h c List.mem_cons_self) fun v hv => ?_
    split
    · exact ih (fun c hc => h c (List.mem_cons_of_mem _ hc)) hv
    · exact R.pure hv

private theorem readFields {fields : List (String × NodeId)}
    (h : ∀ c ∈ fields.map Prod.snd, R.rel D (read c) (read' c)) :
    R.rel (fun vs => ∀ e ∈ vs, D e.2) (readFields read fields) (readFields read' fields) := by
  induction fields with
  | nil => exact R.pure (by simp)
  | cons e rest ih =>
    refine R.bind (h e.2 List.mem_cons_self) fun v hv => ?_
    refine R.bind (ih fun c hc => h c (List.mem_cons_of_mem _ hc)) fun vs hvs => ?_
    exact R.pure (List.forall_mem_cons.mpr ⟨hv, hvs⟩)

variable {p : Program} {lib : Library}

section
variable (hd : VerbClass p D)
include hd

/-- Related values of the parts, and a related call if the node is one, give related values. -/
theorem combine {id : NodeId} {invoke : String → List Value → m Value}
    {invoke' : String → List Value → n Value}
    (hr : ∀ c ∈ (p.node id).children, R.rel D (read c) (read' c))
    (hi : (p.node id).isCall → ∀ f args, (∀ a ∈ args, D a) →
      R.rel D (invoke f args) (invoke' f args)) :
    R.rel D ((p.node id).combine read invoke) ((p.node id).combine read' invoke') := by
  cases hn : p.node id with
  | array items =>
    rw [hn] at hr
    exact R.bind (R.mapM hr) fun vs hvs => R.pure (hd.array vs hvs)
  | object fields =>
    rw [hn] at hr
    exact R.bind (R.readFields hr) fun vs hvs => R.pure (hd.object vs hvs)
  | unary verb operand =>
    refine R.bind (hr operand (by simp [hn, Node.children])) fun v hv => ?_
    exact R.ofExcept _ fun w hw => hd.unary verb v w hv hw
  | range stop start step =>
    refine R.bind (hr stop (by simp [hn, Node.children])) fun a ha => ?_
    refine R.bind (hr start (by simp [hn, Node.children])) fun b hb => ?_
    refine R.bind (hr step (by simp [hn, Node.children])) fun c hc => ?_
    exact R.ofExcept _ fun w hw => hd.range a b c w ha hb hc hw
  | ternary condition consequent alternative =>
    refine R.bind (hr condition (by simp [hn, Node.children])) fun v hv => ?_
    split
    · exact hr consequent (by simp [hn, Node.children])
    · exact hr alternative (by simp [hn, Node.children])
  | and items =>
    rw [hn] at hr
    exact R.readWhile hr _ (hd.bool true)
  | or items =>
    rw [hn] at hr
    exact R.readWhile hr _ (hd.bool false)
  | binary verb left right =>
    refine R.bind (hr left (by simp [hn, Node.children])) fun a ha => ?_
    refine R.bind (hr right (by simp [hn, Node.children])) fun b hb => ?_
    exact R.ofExcept _ fun w hw => hd.binary id verb left right hn a b w ha hb hw
  | call function args =>
    rw [hn] at hr hi
    exact R.bind (R.mapM hr) fun vs hvs => hi rfl function vs hvs
  | _ => exact R.pure hd.null

/-- Related values of the body on every entry give related values of an iteration. -/
theorem iterate_entries {verb : CollectionVerb} {source : Value} {body : Value → Value → m Value}
    {body' : Value → Value → n Value} (hs : D source)
    (h : ∀ es, verb.entries source = .ok es → ∀ e ∈ es, R.rel D (body e.1 e.2) (body' e.1 e.2)) :
    R.rel D (verb.iterate source body) (verb.iterate source body') := by
  have visit (es : List (Value × Value)) (he : ∀ e ∈ es, R.rel D (body e.1 e.2) (body' e.1 e.2)) :
      R.rel (fun rs => ∀ r ∈ rs, D r) (verb.visit body es) (verb.visit body' es) := by
    induction es with
    | nil => exact R.pure (by simp)
    | cons e rest ih =>
      refine R.bind (he e List.mem_cons_self) fun r hr => ?_
      refine R.bind (R.ofExcept (P := fun _ => True) _ fun _ _ => trivial) fun done _ => ?_
      split
      · exact R.pure (by simpa using hr)
      · refine R.bind (ih fun e hm => he e (List.mem_cons_of_mem _ hm)) fun rs hrs => ?_
        exact R.pure (List.forall_mem_cons.mpr ⟨hr, hrs⟩)
  refine R.bind (R.ofExcept _ fun es hes => hes) fun es hes => ?_
  refine R.bind (visit es (h es hes)) fun rs hrs => ?_
  exact R.pure (hd.gather verb source es rs
    (fun e he => hd.entries verb source es hs hes e he) hrs)

end

/-- Related values of the body on every element give related values of an iteration. -/
theorem iterate (hd : ClosedClass p lib D) {verb : CollectionVerb} {source : Value}
    {body : Value → Value → m Value} {body' : Value → Value → n Value} (hs : D source)
    (h : ∀ key element, D key → D element → source.get key = .ok element →
      R.rel D (body key element) (body' key element)) :
    R.rel D (verb.iterate source body) (verb.iterate source body') := by
  refine R.iterate_entries hd.toVerbClass hs fun es hes e he => ?_
  obtain ⟨hk, hv, hg⟩ := hd.entries verb source es hs hes e he
  exact h e.1 e.2 hk hv hg

end Correspondence

end Recalc
