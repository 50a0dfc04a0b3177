import Recalc.Proofs.Value.Leaves
import Recalc.Verb.Collection

/-! Values as keys. Equal keys give access to the same, and the keys of elements in an iteration are
positions and field names. -/
namespace Recalc

namespace Value
open Double (isNaN nan)

theorem wholeFloat?_of_isNaN {x : Double} (h : isNaN x = true) : wholeFloat? x = none := by
  cases hx : Double.toInt? x with
  | none => rw [wholeFloat?, hx, Option.filter_none]
  | some n =>
    rw [Double.not_isNaN_of_toInt? hx] at h
    cases h

private theorem text_of_isNaN {x : Double} (h : isNaN x = true) :
    text (float x) = Json.null.render := by
  have infinite : Double.isFinite x = false := by
    simp only [Double.isNaN, Double.isFinite, decide_eq_true_eq, decide_eq_false_iff_not] at h ⊢
    omega
  rw [text, toJson, JsonNumber.ofFloat?_eq_none.mpr infinite]

theorem canon_float (x : Double) :
    (isNaN x = true ∧ (float x).canon = float nan) ∨
      (∃ n, wholeFloat? x = some n ∧ (float x).canon = int n) ∨ (float x).canon = float x := by
  unfold canon
  split
  · rename_i h
    exact .inl ⟨h, rfl⟩
  · cases h : wholeFloat? x with
    | none => exact .inr (.inr rfl)
    | some n => exact .inr (.inl ⟨n, rfl, rfl⟩)

theorem keyText?_canon (v : Value) : v.canon.keyText? = v.keyText? := by
  cases v with
  | float x =>
    have number : isNaN nan = true := by decide
    rcases canon_float x with ⟨h, same⟩ | ⟨n, h, same⟩ | same
    · simp only [same, keyText?, wholeFloat?_of_isNaN h, wholeFloat?_of_isNaN number,
        text_of_isNaN h, text_of_isNaN number]
    · simp only [same, keyText?, h]
    · rw [same]
  | _ => rfl

theorem arrayIndex?_canon (v : Value) : v.canon.arrayIndex? = v.arrayIndex? := by
  cases v with
  | float x =>
    have number : isNaN nan = true := by decide
    rcases canon_float x with ⟨h, same⟩ | ⟨n, h, same⟩ | same
    · simp only [same, arrayIndex?, toInt?, wholeFloat?_of_isNaN h, wholeFloat?_of_isNaN number]
    · simp only [same, arrayIndex?, toInt?, h]
    · rw [same]
  | _ => rfl

theorem isContainer_canon (v : Value) : v.canon.isContainer = v.isContainer := by
  cases v with
  | float x =>
    rcases canon_float x with ⟨h, same⟩ | ⟨n, h, same⟩ | same <;> rw [same] <;> rfl
  | _ => rfl

/-- Equal keys give access to the same. They can fail for different reasons. -/
theorem get_eq_ok_congr {k k' : Value} (h : (k == k') = true) (object v : Value) :
    object.get k = .ok v ↔ object.get k' = .ok v := by
  rw [beq_iff] at h
  have name : k.keyText? = k'.keyText? := by rw [← keyText?_canon, h, keyText?_canon]
  have index : k.arrayIndex? = k'.arrayIndex? := by rw [← arrayIndex?_canon, h, arrayIndex?_canon]
  have shape : k.isContainer = k'.isContainer := by rw [← isContainer_canon, h, isContainer_canon]
  cases object with
  | null => rfl
  | obj fields =>
    simp only [get, propertyKey, name]
    cases k'.keyText? with
    | none => exact ⟨(by rintro ⟨⟩), (by rintro ⟨⟩)⟩
    | some s => rfl
  | arr items =>
    simp only [get, getAt, index, shape]
    split
    · exact ⟨(by rintro ⟨⟩), (by rintro ⟨⟩)⟩
    · rfl
  | _ => exact ⟨(by rintro ⟨⟩), (by rintro ⟨⟩)⟩

/-! ### Positions -/

private theorem get_arr_position (items : List Value) (j : Nat) :
    (arr items).get (int j) = .ok (items.getD j null) := by
  simp [get, getAt, isContainer, arrayIndex?, toInt?, element]

private theorem length_eq_of_beq {vs ws : List Value} (h : (arr vs == arr ws) = true) :
    vs.length = ws.length := by
  have length := congrArg List.length (beq_arr_iff.mp h)
  rwa [List.length_map, List.length_map] at length

theorem eq_arr_of_beq {v : Value} {ws : List Value} (h : (v == arr ws) = true) :
    ∃ vs, v = arr vs := by
  cases v with
  | arr vs => exact ⟨vs, rfl⟩
  | _ => simp [beq_eq, beq] at h

private theorem getD_beq {vs ws : List Value} (h : (arr vs == arr ws) = true) (j : Nat) :
    (vs.getD j null == ws.getD j null) = true := by
  rw [beq_arr_iff] at h
  have canon_getD (us : List Value) : (us.getD j null).canon = (us.map canon).getD j null := by
    rw [List.getD_eq_getElem?_getD, List.getD_eq_getElem?_getD, List.getElem?_map]
    cases us[j]? <;> rfl
  rw [beq_iff, canon_getD, canon_getD, h]

/-- A position that two lists have, with equal elements. -/
def SameAt (old new : List Value) (j : Nat) : Prop :=
  ∃ u v, old[j]? = some u ∧ new[j]? = some v ∧ (u == v) = true

theorem SameAt.lt {old new items : List Value} {j : Nat} (h : SameAt old new j)
    (same : (arr items == arr old) = true) : j < items.length := by
  obtain ⟨x, -, hx, -, -⟩ := h
  rw [length_eq_of_beq same]
  exact (List.getElem?_eq_some_iff.mp hx).1

theorem sameAt_of_beq {old new : List Value} (same : (arr old == arr new) = true) {j : Nat}
    (hj : j < new.length) : SameAt old new j := by
  have hi : j < old.length := length_eq_of_beq same ▸ hj
  refine ⟨old[j], new[j], List.getElem?_eq_getElem hi, List.getElem?_eq_getElem hj, ?_⟩
  have equal := getD_beq same j
  rwa [List.getD_eq_getElem?_getD, List.getD_eq_getElem?_getD, List.getElem?_eq_getElem hi,
    List.getElem?_eq_getElem hj] at equal

/-- Access to such a position gives equal values, whatever equal document the first one is. -/
theorem SameAt.get {old new items : List Value} {j : Nat} (h : SameAt old new j) {key v : Value}
    (hk : (key == int j) = true) (same : (arr items == arr old) = true)
    (hv : (arr items).get key = .ok v) :
    ∃ v', (arr new).get key = .ok v' ∧ (v == v') = true := by
  obtain ⟨x, y, hx, hy, equal⟩ := h
  rw [get_eq_ok_congr hk, get_arr_position] at hv
  cases hv
  refine ⟨y, (get_eq_ok_congr hk _ _).mpr ?_, BEq.trans (getD_beq same j) ?_⟩
  · rw [get_arr_position, List.getD_eq_getElem?_getD, hy, Option.getD_some]
  · rw [List.getD_eq_getElem?_getD, hx, Option.getD_some]
    exact equal

/-! ### Keys of elements -/

/-- A position or a field name. -/
def IsKey : Value → Prop
  | int _ => True
  | str _ => True
  | _ => False

theorem IsKey.canon_eq {k : Value} (h : k.IsKey) : k.canon = k := by
  cases k with
  | int n => rfl
  | str s => rfl
  | _ => exact h.elim

end Value

theorem CollectionVerb.isKey_of_mem_entries {verb : CollectionVerb} {source : Value}
    {es : List (Value × Value)} (h : verb.entries source = .ok es) : ∀ e ∈ es, e.1.IsKey := by
  intro e he
  rcases entries_cases h with ⟨items, rfl, rfl⟩ | ⟨fields, rfl, rfl⟩
  · obtain ⟨_, -, rfl⟩ := List.mem_map.mp he
    trivial
  · obtain ⟨_, -, rfl⟩ := List.mem_map.mp he
    trivial

end Recalc
