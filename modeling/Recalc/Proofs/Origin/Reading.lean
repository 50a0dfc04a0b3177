import Recalc.Proofs.Origin.Basic
import Recalc.Proofs.Program.Combine

/-! Computations that read the values of origins, as trees: each read is a node with one branch for
every value it could give. A tree can be run against any assignment of values, so one tree tells how
a value depends on the values read for it, in this recalculation and in earlier ones. -/
namespace Recalc

/-- A computation that reads origins. -/
inductive Reading (α : Type) where
  | done (r : Except EvalError α)
  | read (o : Origin) (next : Value → Reading α)

namespace Reading
variable {α β : Type}

def bind (f : α → Reading β) : Reading α → Reading β
  | done (.ok a) => f a
  | done (.error e) => done (.error e)
  | read o next => read o fun v => bind f (next v)

def handle (f : EvalError → Reading α) : Reading α → Reading α
  | done (.ok a) => done (.ok a)
  | done (.error e) => f e
  | read o next => read o fun v => handle f (next v)

instance : Monad Reading where
  pure a := done (.ok a)
  bind x f := bind f x

instance : LawfulMonad Reading := LawfulMonad.mk' Reading
  (fun x => by
    change bind (fun a => done (.ok a)) x = x
    induction x with
    | done r => cases r <;> rfl
    | read o next ih => exact congrArg (read o) (funext ih))
  (fun _ _ => rfl)
  (fun x f g => by
    change bind g (bind f x) = bind (fun a => bind g (f a)) x
    induction x with
    | done r => cases r <;> rfl
    | read o next ih => exact congrArg (read o) (funext ih))

instance : MonadExceptOf EvalError Reading where
  throw e := done (.error e)
  tryCatch x f := handle f x

/-- The result when the origins have the given values. -/
def run (values : Origin → Except EvalError Value) : Reading α → Except EvalError α
  | done r => r
  | read o next => do
    let v ← values o
    run values (next v)

/-- The origins read when they have the given values, in order, up to the first that has none. -/
def reads (values : Origin → Except EvalError Value) : Reading α → List Origin
  | done _ => []
  | read o next => o :: match values o with
    | .ok v => reads values (next v)
    | .error _ => []

variable {q q' : Origin → Except EvalError Value}

@[simp]
theorem run_pure (a : α) : (pure a : Reading α).run q = .ok a := rfl

@[simp]
theorem reads_pure (a : α) : (pure a : Reading α).reads q = [] := rfl

@[simp]
theorem run_ofExcept (r : Except EvalError α) : (MonadExcept.ofExcept r : Reading α).run q = r := by
  cases r <;> rfl

@[simp]
theorem reads_ofExcept (r : Except EvalError α) :
    (MonadExcept.ofExcept r : Reading α).reads q = [] := by
  cases r <;> rfl

theorem run_bind (x : Reading α) (f : α → Reading β) :
    (x >>= f).run q = x.run q >>= fun a => (f a).run q := by
  induction x with
  | done r => cases r <;> rfl
  | read o next ih =>
    change (q o >>= fun v => (next v >>= f).run q) = (q o >>= fun v => (next v).run q) >>= _
    cases q o with
    | error e => rfl
    | ok v => exact ih v

private theorem reads_bind (x : Reading α) (f : α → Reading β) :
    (x >>= f).reads q = x.reads q ++ match x.run q with
      | .ok a => (f a).reads q
      | .error _ => [] := by
  induction x with
  | done r => cases r <;> rfl
  | read o next ih =>
    change (read o fun v => next v >>= f).reads q = _
    simp only [reads, run]
    cases q o with
    | error e => rfl
    | ok v => exact congrArg (o :: ·) (ih v)

theorem run_bind_ok {x : Reading α} {f : α → Reading β} {b : β} :
    (x >>= f).run q = .ok b ↔ ∃ a, x.run q = .ok a ∧ (f a).run q = .ok b := by
  rw [run_bind, except_bind_eq_ok]

theorem run_bind_of_ok {x : Reading α} {f : α → Reading β} {a : α} (h : x.run q = .ok a) :
    (x >>= f).run q = (f a).run q := by
  rw [run_bind, h]
  rfl

theorem run_bind_of_error {x : Reading α} {f : α → Reading β} {e : EvalError}
    (h : x.run q = .error e) : (x >>= f).run q = .error e := by
  rw [run_bind, h]
  rfl

theorem reads_bind_of_ok {x : Reading α} {f : α → Reading β} {a : α} (h : x.run q = .ok a) :
    (x >>= f).reads q = x.reads q ++ (f a).reads q := by rw [reads_bind, h]

theorem reads_subset_bind (x : Reading α) (f : α → Reading β) {o : Origin}
    (h : o ∈ x.reads q) : o ∈ (x >>= f).reads q := by
  rw [reads_bind]
  exact List.mem_append_left _ h

/-- What one of several computations reads is read when all succeed in order. -/
theorem mem_reads_mapM {f : α → Reading β} {as : List α} {bs : List β}
    (h : (as.mapM f).run q = .ok bs) {a : α} (ha : a ∈ as) {o : Origin} (ho : o ∈ (f a).reads q) :
    o ∈ (as.mapM f).reads q := by
  induction as generalizing bs with
  | nil => cases ha
  | cons first rest ih =>
    rw [List.mapM_cons] at h ⊢
    obtain ⟨b, hb, h⟩ := run_bind_ok.mp h
    rw [reads_bind_of_ok hb]
    rcases List.mem_cons.mp ha with rfl | ha
    · exact List.mem_append_left _ ho
    · obtain ⟨bs, hbs, -⟩ := run_bind_ok.mp h
      exact List.mem_append_right _ (reads_subset_bind _ _ (ih hbs ha))

/-! ### Other values -/

/-- Values other than those read do not matter. -/
theorem congr {x : Reading α} (h : ∀ o ∈ x.reads q, q' o = q o) :
    x.run q' = x.run q ∧ x.reads q' = x.reads q := by
  induction x with
  | done r => exact ⟨rfl, rfl⟩
  | read o next ih =>
    simp only [run, reads] at h ⊢
    rw [h o List.mem_cons_self]
    cases hq : q o with
    | error e => exact ⟨rfl, rfl⟩
    | ok v =>
      rw [hq] at h
      have := ih v fun o' ho' => h o' (List.mem_cons_of_mem _ ho')
      exact ⟨this.1, congrArg (o :: ·) this.2⟩

/-- While the values read so far are the same, so is what is read next. -/
theorem mem_reads_of_same {x : Reading α} {before after : List Origin} {o : Origin}
    (h : x.reads q = before ++ o :: after) (hb : ∀ o' ∈ before, q' o' = q o') :
    o ∈ x.reads q' ∧ ∀ e, q' o = .error e → x.run q' = .error e := by
  induction x generalizing before with
  | done r => simp [reads] at h
  | read first next ih =>
    cases before with
    | nil =>
      have hf : first = o := by simpa [reads] using congrArg List.head? h
      subst hf
      refine ⟨by simp [reads], fun e he => ?_⟩
      simp [run, he, Bind.bind, Except.bind]
    | cons o' before =>
      simp only [reads, List.cons_append, List.cons.injEq] at h
      obtain ⟨rfl, h⟩ := h
      have hq := hb first List.mem_cons_self
      cases hv : q first with
      | error e => simp [hv] at h
      | ok v =>
        rw [hv] at h hq
        have := ih v h fun o' ho' => hb o' (List.mem_cons_of_mem _ ho')
        simp only [run, reads, hq]
        exact ⟨List.mem_cons_of_mem _ this.1, this.2⟩

/-! ### Conditions on reads and results -/

/-- As long as reads give values of a class, all reads are of origins with a property, and the
result has a property. -/
def Meets (D : Value → Prop) (P : Origin → Prop) (Q : α → Prop) : Reading α → Prop
  | done r => ∀ a, r = .ok a → Q a
  | read o next => P o ∧ ∀ v, D v → Meets D P Q (next v)

variable {D : Value → Prop} {P P' : Origin → Prop} {Q : α → Prop} {S : β → Prop}

theorem Meets.bind {x : Reading α} {f : α → Reading β} (hx : x.Meets D P Q)
    (hf : ∀ a, Q a → (f a).Meets D P S) : (x >>= f).Meets D P S := by
  induction x with
  | done r =>
    cases r with
    | error e => exact fun a h => nomatch h
    | ok a => exact hf a (hx a rfl)
  | read o next ih => exact ⟨hx.1, fun v hv => ih v (hx.2 v hv)⟩

theorem Meets.mono {x : Reading α} {Q' : α → Prop} (hx : x.Meets D P Q) (hP : ∀ o, P o → P' o)
    (hQ : ∀ a, Q a → Q' a) : x.Meets D P' Q' := by
  induction x with
  | done r => exact fun a h => hQ a (hx a h)
  | read o next ih => exact ⟨hP o hx.1, fun v hv => ih v (hx.2 v hv)⟩

theorem Meets.pure {a : α} (h : Q a) : (Pure.pure a : Reading α).Meets D P Q := by
  intro b hb
  cases hb
  exact h

theorem Meets.throw (e : EvalError) : (MonadExcept.throw e : Reading α).Meets D P Q :=
  fun _ h => nomatch h

theorem Meets.ofExcept {r : Except EvalError α} (h : ∀ a, r = .ok a → Q a) :
    (MonadExcept.ofExcept r : Reading α).Meets D P Q := by
  cases r with
  | error e => exact Meets.throw e
  | ok a => exact Meets.pure (h a rfl)

/-- Meeting conditions respects sequencing, whatever the other computation is. -/
def meets (D : Value → Prop) (P : Origin → Prop) : Correspondence Reading (Except EvalError) where
  rel Q x _ := x.Meets D P Q
  pure h := Meets.pure h
  bind hx hf := hx.bind hf
  throw e := Meets.throw e

theorem Meets.run {x : Reading α} (hx : x.Meets D P Q)
    (hq : ∀ o, P o → ∀ v, q o = .ok v → D v) :
    (∀ o ∈ x.reads q, P o) ∧ ∀ a, x.run q = .ok a → Q a := by
  induction x with
  | done r => exact ⟨by simp [reads], hx⟩
  | read o next ih =>
    simp only [Reading.run, reads]
    cases hv : q o with
    | error e => exact ⟨by simpa using hx.1, fun a h => nomatch h⟩
    | ok v =>
      have := ih v (hx.2 v (hq o hx.1 v hv))
      exact ⟨List.forall_mem_cons.mpr ⟨hx.1, this.1⟩, this.2⟩

end Reading

end Recalc
