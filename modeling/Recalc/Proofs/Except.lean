import Mathlib.Data.List.Basic

/-! Results that may be errors. A sequence of steps gives a result exactly if each step does, and
what every step preserves is preserved by all of them. -/
namespace Recalc
variable {ε δ α β : Type} {x : Except ε α}

theorem except_bind_eq_ok {f : α → Except ε β} {b : β} :
    (x >>= f) = .ok b ↔ ∃ a, x = .ok a ∧ f a = .ok b := by
  cases x with
  | error e => simp [bind, Except.bind]
  | ok a => simp [bind, Except.bind]

private theorem except_map_eq_ok {f : α → β} {b : β} :
    (f <$> x) = .ok b ↔ ∃ a, x = .ok a ∧ f a = b := by
  cases x with
  | error e => simp [Functor.map, Except.map]
  | ok a => simp [Functor.map, Except.map]

theorem except_mapError_eq_ok {f : ε → δ} {a : α} : x.mapError f = .ok a ↔ x = .ok a := by
  cases x with
  | error e => simp [Except.mapError]
  | ok b => simp [Except.mapError]

theorem except_exists_error : (∃ e, x = .error e) ↔ ¬ ∃ a, x = .ok a := by
  cases x <;> simp

theorem except_exists_bind {f : α → Except ε β} :
    (∃ b, (x >>= f) = .ok b) ↔ ∃ a, x = .ok a ∧ ∃ b, f a = .ok b := by
  simp only [except_bind_eq_ok]
  rw [exists_comm]
  simp only [exists_and_left]

theorem except_exists_map {f : α → β} : (∃ b, (f <$> x) = .ok b) ↔ ∃ a, x = .ok a := by
  simp [except_map_eq_ok]

theorem except_exists_mapM {f : α → Except ε β} {as : List α} :
    (∃ bs, as.mapM f = .ok bs) ↔ ∀ a ∈ as, ∃ b, f a = .ok b := by
  induction as with
  | nil => simp [pure, Except.pure]
  | cons a rest ih =>
    rw [List.mapM_cons, except_exists_bind, List.forall_mem_cons, ← ih]
    simp [except_exists_map]

/-- What each step of a fold preserves holds at its end. -/
theorem except_foldlM_invariant {f : β → α → Except ε β} {P : β → Prop} {as : List α} {b c : β}
    (step : ∀ a ∈ as, ∀ b c, P b → f b a = .ok c → P c) (start : P b)
    (h : as.foldlM f b = .ok c) : P c := by
  induction as generalizing b with
  | nil =>
    cases h
    exact start
  | cons a rest ih =>
    rw [List.foldlM_cons] at h
    obtain ⟨middle, first, h⟩ := except_bind_eq_ok.mp h
    exact ih (fun a member => step a (List.mem_cons_of_mem _ member))
      (step a List.mem_cons_self b middle start first) h

theorem except_toOption_bind {f : α → Except ε β} :
    (x >>= f).toOption = x.toOption.bind fun a => (f a).toOption := by
  cases x <;> rfl

theorem exists_of_toOption_any {f : α → Bool} (h : x.toOption.any f = true) :
    ∃ a, x = .ok a ∧ f a = true := by
  cases x with
  | error e => cases h
  | ok a => exact ⟨a, rfl, h⟩

end Recalc
