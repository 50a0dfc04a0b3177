import Recalc.Proofs.Program.Combine

/-! Evaluators that go in step, each over states of its own: from related states they give the same
result and come to related states. -/
namespace Recalc
variable {ε σ α β : Type}

/-- Two computations that go in step. -/
def Lockstep (S : σ → σ → Prop) (x y : ExceptT ε (StateM σ) α) : Prop :=
  ∀ s t, S s t → (y.run t).1 = (x.run s).1 ∧ S (x.run s).2 (y.run t).2

variable {S : σ → σ → Prop} {x y : ExceptT ε (StateM σ) α}

theorem Lockstep.run (h : Lockstep S x y) {s t : σ} (hs : S s t) :
    ∃ r s' t', x.run s = (r, s') ∧ y.run t = (r, t') ∧ S s' t' := by
  obtain ⟨result, states⟩ := h s t hs
  exact ⟨(x.run s).1, (x.run s).2, (y.run t).2, rfl, Prod.ext result rfl, states⟩

theorem Lockstep.bind {f g : α → ExceptT ε (StateM σ) β} (hx : Lockstep S x y)
    (hf : ∀ s a t, x.run s = (.ok a, t) → Lockstep S (f a) (g a)) :
    Lockstep S (x >>= f) (y >>= g) := by
  intro s t hs
  obtain ⟨r, s', t', hrun, hrun', hs'⟩ := hx.run hs
  cases r with
  | error e =>
    rw [run_bind_error hrun, run_bind_error hrun']
    exact ⟨rfl, hs'⟩
  | ok a =>
    rw [run_bind_ok hrun, run_bind_ok hrun']
    exact hf s a s' hrun s' t' hs'

theorem Lockstep.get {f g : σ → ExceptT ε (StateM σ) α}
    (h : ∀ s t, S s t → ((g t).run t).1 = ((f s).run s).1 ∧ S ((f s).run s).2 ((g t).run t).2) :
    Lockstep S (get >>= f) (get >>= g) := h

theorem Lockstep.modify {f g : σ → σ} (h : ∀ s t, S s t → S (f s) (g t)) :
    Lockstep S (modify f : ExceptT ε (StateM σ) Unit) (modify g) :=
  fun s t hs => ⟨rfl, h s t hs⟩

/-- Going in step, as a relation between computations. -/
def lockstep (S : σ → σ → Prop) :
    Correspondence (ExceptT EvalError (StateM σ)) (ExceptT EvalError (StateM σ)) where
  rel P x y := Lockstep S x y ∧ ∀ s a t, x.run s = (.ok a, t) → P a
  pure h := by
    refine ⟨fun _ _ hs => ⟨rfl, hs⟩, ?_⟩
    rintro s a t ⟨⟩
    exact h
  bind {α β P Q x y f g} hx hf := by
    refine ⟨hx.1.bind fun s a t hrun => (hf a (hx.2 s a t hrun)).1, ?_⟩
    intro s b u hrun
    rcases hrun' : x.run s with ⟨r, t⟩
    cases r with
    | error e =>
      rw [run_bind_error hrun'] at hrun
      cases hrun
    | ok a =>
      rw [run_bind_ok hrun'] at hrun
      exact (hf a (hx.2 s a t hrun')).2 t b u hrun
  throw e := by
    refine ⟨fun _ _ hs => ⟨rfl, hs⟩, ?_⟩
    rintro s a t ⟨⟩

theorem Lockstep.rel {x y : ExceptT EvalError (StateM σ) α} {P : α → Prop} (h : Lockstep S x y)
    (hP : ∀ a, P a) :
    (lockstep S).rel P x y := ⟨h, fun _ a _ _ => hP a⟩

end Recalc
