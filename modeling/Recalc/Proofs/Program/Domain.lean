import Recalc.Library
import Recalc.Proofs.Value.Tame
import Recalc.Program.Combine

/-! Classes of values that the evaluation of a program never leaves and on which equality of values
is identity. The values without doubles are one, for a program without doubles and without the
arithmetic that can give one. -/
namespace Recalc

open Value

/-- A class of values that the verbs of a program do not lead out of. -/
structure VerbClass (p : Program) (D : Value → Prop) : Prop where
  null : D .null
  bool : ∀ b, D (.bool b)
  array : ∀ items, (∀ v ∈ items, D v) → D (.arr items)
  object : ∀ fields : List (String × Value), (∀ e ∈ fields, D e.2) → D (.obj (Fields.ofList fields))
  unary : ∀ (verb : UnaryVerb) a v, D a → verb.apply a = .ok v → D v
  binary : ∀ id verb l r, p.node id = .binary verb l r → ∀ a b v, D a → D b →
    verb.apply a b = .ok v → D v
  range : ∀ stop start step v, D stop → D start → D step → Range.apply stop start step = .ok v → D v
  entries : ∀ (verb : CollectionVerb) source es, D source → verb.entries source = .ok es →
    ∀ e ∈ es, D e.2
  gather : ∀ (verb : CollectionVerb) source es results, (∀ e ∈ es, D e.2) → (∀ r ∈ results, D r) →
    D (verb.gather source es results)

theorem verbClass_any (p : Program) : VerbClass p fun _ => True := by
  constructor <;> intros <;> trivial

/-- A class of values that is closed under all that nodes of a program do. -/
structure ClosedClass (p : Program) (lib : Library) (D : Value → Prop) : Prop where
  null : D .null
  bool : ∀ b, D (.bool b)
  array : ∀ items, (∀ v ∈ items, D v) → D (.arr items)
  object : ∀ fields : List (String × Value), (∀ e ∈ fields, D e.2) → D (.obj (Fields.ofList fields))
  literal : ∀ id v, p.node id = .literal v → D v
  get : ∀ object key v, D object → object.get key = .ok v → D v
  unary : ∀ (verb : UnaryVerb) a v, D a → verb.apply a = .ok v → D v
  binary : ∀ id verb l r, p.node id = .binary verb l r → ∀ a b v, D a → D b →
    verb.apply a b = .ok v → D v
  range : ∀ stop start step v, D stop → D start → D step → Range.apply stop start step = .ok v → D v
  entries : ∀ (verb : CollectionVerb) source es, D source → verb.entries source = .ok es →
    ∀ e ∈ es, D e.1 ∧ D e.2 ∧ source.get e.1 = .ok e.2
  gather : ∀ (verb : CollectionVerb) source es results, (∀ e ∈ es, D e.2) → (∀ r ∈ results, D r) →
    D (verb.gather source es results)
  call : ∀ function args v, (∀ a ∈ args, D a) → lib.call function args = .ok v → D v

theorem ClosedClass.toVerbClass {p : Program} {lib : Library} {D : Value → Prop}
    (h : ClosedClass p lib D) : VerbClass p D :=
  { h with entries := fun verb source es hs he e hm => (h.entries verb source es hs he e hm).2.1 }

/-- A class of values that reading and calling do not lead out of either. -/
structure ReadClass (p : Program) (lib : Library) (D : Value → Prop) : Prop
    extends VerbClass p D where
  literal : ∀ id v, p.node id = .literal v → D v
  get : ∀ object key v, D object → object.get key = .ok v → D v
  keys : ∀ (verb : CollectionVerb) source es, D source → verb.entries source = .ok es →
    ∀ e ∈ es, D e.1
  call : ∀ function args v, (∀ a ∈ args, D a) → lib.call function args = .ok v → D v

theorem readClass_any (p : Program) (lib : Library) : ReadClass p lib fun _ => True := by
  constructor
  · exact verbClass_any p
  all_goals
    intros
    trivial

theorem ClosedClass.toReadClass {p : Program} {lib : Library} {D : Value → Prop}
    (h : ClosedClass p lib D) : ReadClass p lib D where
  toVerbClass := h.toVerbClass
  literal := h.literal
  get := h.get
  keys verb source es hs he e hm := (h.entries verb source es hs he e hm).1
  call := h.call

/-- A closed class whose values are their own canonical forms, so that equality on it is
identity. -/
structure Domain (p : Program) (lib : Library) (D : Value → Prop) : Prop
    extends ClosedClass p lib D where
  canon : ∀ v, D v → v.canon = v

theorem Domain.eq_of_beq {p : Program} {lib : Library} {D : Value → Prop} (hd : Domain p lib D)
    {a b : Value} (ha : D a) (hb : D b) (h : (a == b) = true) : a = b := by
  rwa [beq_iff, hd.canon a ha, hd.canon b hb] at h

/-- Each element of an iteration is what access to its key gives. -/
theorem CollectionVerb.get_of_mem_entries {ok : Double → Prop} {verb : CollectionVerb}
    {source : Value} {es : List (Value × Value)} (hs : Tame ok source)
    (h : verb.entries source = .ok es) : ∀ e ∈ es, source.get e.1 = .ok e.2 := by
  intro e he
  rcases entries_cases h with ⟨items, rfl, rfl⟩ | ⟨fields, rfl, rfl⟩
  · obtain ⟨⟨v, i⟩, hv, rfl⟩ := List.mem_map.mp he
    have hi : items[i]? = some v := List.mem_zipIdx_iff_getElem?.mp hv
    simp [Value.get, getAt, isContainer, arrayIndex?, toInt?, element, hi]
  · obtain ⟨⟨k, v⟩, hv, rfl⟩ := List.mem_map.mp he
    have hg : Fields.get? k fields = some v := Fields.get?_of_mem (tame_obj.mp hs).1 hv
    simp [Value.get, propertyKey, keyText?, hg, bind, Except.bind, pure, Except.pure]

/-! ### Values without doubles -/

/-- A program without doubles and without sums, differences, products and quotients. -/
def Program.FloatFree (p : Program) : Prop :=
  ∀ id, match p.node id with
    | .literal v => v.FloatFree
    | .binary verb _ _ => verb ∉ [.plus, .minus, .mult, .div]
    | _ => True

/-- A library whose functions give no doubles when they get none. -/
def Library.FloatFree (lib : Library) : Prop :=
  ∀ function args v, (∀ a ∈ args, a.FloatFree) → lib.call function args = .ok v → v.FloatFree

/-- A class that each function of a library keeps is kept by its calls. -/
theorem Library.call_class {lib : Library} {D : Value → Prop}
    (h : ∀ f ∈ lib.functions, ∀ args, (∀ a ∈ args, D a) → D (f.2 args)) (function : String)
    (args : List Value) (v : Value) (ha : ∀ a ∈ args, D a) (hv : lib.call function args = .ok v) :
    D v := by
  unfold Library.call at hv
  split at hv
  · rename_i f hf
    cases hv
    exact h _ (Fields.mem_of_get? hf) args ha
  · cases hv

theorem Library.floatFree_of_mem {lib : Library}
    (h : ∀ f ∈ lib.functions, ∀ args, (∀ a ∈ args, a.FloatFree) → (f.2 args).FloatFree) :
    lib.FloatFree := Library.call_class h

private theorem BinaryVerb.floatFree_apply {verb : BinaryVerb} {a b v : Value}
    (hv : verb ∉ [.plus, .minus, .mult, .div]) (ha : a.FloatFree) (hb : b.FloatFree)
    (h : verb.apply a b = .ok v) : v.FloatFree := by
  have comparison (verb : BinaryVerb) (h : verb.comparison a b = .ok v) : v.FloatFree := by
    obtain ⟨order, -, h⟩ := except_bind_eq_ok.mp h
    cases h
    trivial
  have remainder (h : arithmetic .mod a b = .ok v) : v.FloatFree := by
    cases a with
    | float x => exact ha.elim
    | int m =>
      cases b with
      | float y => exact hb.elim
      | int n =>
        simp only [arithmetic, integers, exactResult?] at h
        split at h <;> cases h
        trivial
      | _ => cases h
    | str s =>
      cases b with
      | float y => exact hb.elim
      | _ => cases h
    | _ => cases b <;> cases h
  cases verb with
  | eq =>
    cases h
    trivial
  | gt => exact comparison .gt h
  | lt => exact comparison .lt h
  | gte => exact comparison .gte h
  | lte => exact comparison .lte h
  | mod => exact remainder h
  | _ => simp at hv

private theorem Range.floatFree_apply {stop start step v : Value} (h₁ : stop.FloatFree)
    (h₂ : start.FloatFree) (h₃ : step.FloatFree) (h : Range.apply stop start step = .ok v) :
    v.FloatFree := by
  have whole {a : Value} {x : Double} (ha : a.FloatFree) (hx : Range.number a = .ok x) :
      ∃ n, a.toInt? = some n := by
    cases a with
    | int n => exact ⟨n, rfl⟩
    | float y => exact ha.elim
    | _ => cases hx
  unfold Range.apply at h
  split at h
  · unfold Range.ofInts at h
    split at h
    · cases h
    · obtain ⟨n, -, h⟩ := except_bind_eq_ok.mp h
      cases h
      refine tame_arr.mpr fun w hw => ?_
      obtain ⟨i, -, rfl⟩ := List.mem_map.mp hw
      trivial
  · rename_i hn
    obtain ⟨x, hx, h⟩ := except_bind_eq_ok.mp h
    obtain ⟨y, hy, h⟩ := except_bind_eq_ok.mp h
    obtain ⟨z, hz, -⟩ := except_bind_eq_ok.mp h
    obtain ⟨a, ha⟩ := whole h₁ hx
    obtain ⟨b, hb⟩ := whole h₂ hy
    obtain ⟨c, hc⟩ := whole h₃ hz
    exact absurd hc (hn a b c ha hb)

/-- Without doubles and without the arithmetic that can give one, evaluation stays among the values
without doubles. -/
theorem domain_of_floatFree {p : Program} {lib : Library} (hp : p.FloatFree)
    (hl : lib.FloatFree) : Domain p lib Value.FloatFree where
  canon v hv := canon_of_tame (fun _ h => h.elim) v hv
  null := trivial
  bool _ := trivial
  array _ h := tame_arr.mpr h
  object _ h := tame_obj.mpr
    ⟨Fields.sorted_ofList _, fun e he => h e (Fields.mem_of_mem_ofList he)⟩
  literal id v hn := by
    have h := hp id
    rw [hn] at h
    exact h
  get _ _ _ ho h := tame_get ho h
  unary _ _ _ ha h := UnaryVerb.tame_apply ha h
  binary id verb l r hn a b v ha hb h := by
    have hv := hp id
    rw [hn] at hv
    exact BinaryVerb.floatFree_apply hv ha hb h
  range _ _ _ _ h₁ h₂ h₃ h := Range.floatFree_apply h₁ h₂ h₃ h
  entries _ _ _ hs h e he :=
    let ⟨h₁, h₂⟩ := CollectionVerb.tame_entries hs h e he
    ⟨h₁, h₂, CollectionVerb.get_of_mem_entries hs h e he⟩
  gather _ _ _ _ he hr := CollectionVerb.tame_gather he hr
  call function args v ha h := hl function args v ha h

end Recalc
