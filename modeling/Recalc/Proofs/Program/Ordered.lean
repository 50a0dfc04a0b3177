import Recalc.Proofs.Path
import Recalc.Proofs.Program.Acceptance
import Recalc.Proofs.Program.Domain

/-! Values whose objects have their fields in order, as those of every document do. Evaluation never
leaves them. -/
namespace Recalc

open Value

/-- The literals of a model have their fields in order. -/
def Model.Ordered (m : Model) : Prop := ∀ o ∈ m.outputs, ∀ v ∈ o.2.literals, v.Ordered

instance (m : Model) : Decidable m.Ordered :=
  inferInstanceAs (Decidable (∀ o ∈ m.outputs, ∀ v ∈ o.2.literals, v.Ordered))

/-- A model whose literals have their fields in order. -/
abbrev OrderedModel := {m : Model // m.Ordered}

/-- The literals of a model have no doubles. -/
def Model.FloatFree (m : Model) : Prop := ∀ o ∈ m.outputs, ∀ v ∈ o.2.literals, v.FloatFree

instance (m : Model) : Decidable m.FloatFree :=
  inferInstanceAs (Decidable (∀ o ∈ m.outputs, ∀ v ∈ o.2.literals, v.FloatFree))

theorem Model.FloatFree.ordered {m : Model} (h : m.FloatFree) : m.Ordered :=
  fun o ho v hv => (h o ho v hv).ordered

/-- The functions of a library keep fields in order. -/
def Library.Ordered (lib : Library) : Prop :=
  ∀ function args v, (∀ a ∈ args, a.Ordered) → lib.call function args = .ok v → v.Ordered

/-- A library whose functions keep fields in order. -/
abbrev OrderedLibrary := {lib : Library // lib.Ordered}

def OrderedLibrary.empty : OrderedLibrary :=
  ⟨.empty, Library.call_class fun _ hf => absurd hf List.not_mem_nil⟩

/-- All that is used of arithmetic with decimals: it gives a double, or an integer in range. -/
theorem BinaryVerb.mixed_number (verb : BinaryVerb) (a b : Double) (x y : Option Decimal) :
    (∃ n, verb.mixed a b x y = int n ∧ Word.fits n = true) ∨ ∃ z, verb.mixed a b x y = float z := by
  unfold mixed
  split
  · split
    · rename_i found
      exact .inl ⟨_, rfl, (Option.filter_eq_some_iff.mp found).2⟩
    · exact .inr ⟨_, rfl⟩
  · exact .inr ⟨_, rfl⟩

private theorem BinaryVerb.ordered_apply {verb : BinaryVerb} {a b v : Value}
    (h : verb.apply a b = .ok v) : v.Ordered := by
  have comparison (verb : BinaryVerb) (h : verb.comparison a b = .ok v) : v.Ordered := by
    obtain ⟨order, -, h⟩ := except_bind_eq_ok.mp h
    cases h
    trivial
  have arithmetic (verb : BinaryVerb) (h : verb.arithmetic a b = .ok v) : v.Ordered := by
    have mixed (x y : Double) (d e : Option Decimal) : (verb.mixed x y d e).Ordered := by
      rcases verb.mixed_number x y d e with ⟨n, same, -⟩ | ⟨z, same⟩ <;> rw [same] <;> trivial
    unfold BinaryVerb.arithmetic at h
    split at h
    · unfold integers at h
      split at h
      · cases h
      · split at h <;> cases h <;> trivial
    · cases h
      trivial
    · cases h
      exact mixed _ _ _ _
    · cases h
      exact mixed _ _ _ _
    · split at h <;> cases h
      trivial
    · cases h
  cases verb with
  | eq =>
    cases h
    trivial
  | gt => exact comparison .gt h
  | lt => exact comparison .lt h
  | gte => exact comparison .gte h
  | lte => exact comparison .lte h
  | plus => exact arithmetic .plus h
  | minus => exact arithmetic .minus h
  | mult => exact arithmetic .mult h
  | div => exact arithmetic .div h
  | mod => exact arithmetic .mod h

private theorem Range.ordered_apply {stop start step v : Value}
    (h : Range.apply stop start step = .ok v) :
    v.Ordered := by
  have numbers {f : Nat → Value} (n : Nat) (hf : ∀ i, (f i).Ordered) :
      (arr ((List.range n).map f)).Ordered := by
    refine tame_arr.mpr fun w hw => ?_
    obtain ⟨i, -, rfl⟩ := List.mem_map.mp hw
    exact hf i
  unfold Range.apply at h
  split at h
  · unfold Range.ofInts at h
    split at h
    · cases h
    · obtain ⟨n, -, h⟩ := except_bind_eq_ok.mp h
      cases h
      exact numbers n fun i => trivial
  · obtain ⟨x, -, h⟩ := except_bind_eq_ok.mp h
    obtain ⟨y, -, h⟩ := except_bind_eq_ok.mp h
    obtain ⟨z, -, h⟩ := except_bind_eq_ok.mp h
    unfold Range.ofFloats at h
    split at h
    · cases h
    · split at h
      · cases h
        trivial
      · obtain ⟨n, -, h⟩ := except_bind_eq_ok.mp h
        cases h
        exact numbers n fun i => trivial

private theorem constantClass_ordered : Expr.ConstantClass Value.Ordered where
  array _ h := tame_arr.mpr h
  object _ h := tame_obj.mpr
    ⟨Fields.sorted_ofList _, fun e he => h e (Fields.mem_of_mem_ofList he)⟩

/-- Evaluation of a compiled model stays among the values with their fields in order. -/
theorem closedClass_ordered {m : Model} {b : Backend} {p : Program} {lib : Library}
    (hc : Program.compile m b = .ok p) (hm : m.Ordered) (hl : lib.Ordered) :
    ClosedClass p lib Value.Ordered where
  null := trivial
  bool _ := trivial
  array := constantClass_ordered.array
  object := constantClass_ordered.object
  literal := (Program.holds_of_compile constantClass_ordered hm hc).literal
  get _ _ _ ho h := tame_get ho h
  unary _ _ _ ha h := UnaryVerb.tame_apply ha h
  binary _ _ _ _ _ _ _ _ _ _ h := BinaryVerb.ordered_apply h
  range _ _ _ _ _ _ _ h := Range.ordered_apply h
  entries _ _ _ hs h e he :=
    let ⟨h₁, h₂⟩ := CollectionVerb.tame_entries hs h e he
    ⟨h₁, h₂, CollectionVerb.get_of_mem_entries hs h e he⟩
  gather _ _ _ _ he hr := CollectionVerb.tame_gather he hr
  call function args v ha h := hl function args v ha h

end Recalc
