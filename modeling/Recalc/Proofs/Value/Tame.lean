import Recalc.Proofs.Except
import Recalc.Proofs.Fields
import Recalc.Proofs.Value.Canonical
import Recalc.Verb.Collection
import Recalc.Verb.Unary

/-! Values whose doubles, at any depth, satisfy a condition. Access, container verbs and iterations
only take values apart and put them together, so they never lead out of such a class. -/
namespace Recalc

namespace Value
variable {ok : Double → Prop}

mutual

/-- Every double of a value satisfies a condition, and the fields of objects are in order. -/
def Tame (ok : Double → Prop) : Value → Prop
  | null => True
  | bool _ => True
  | int _ => True
  | float x => ok x
  | str _ => True
  | arr items => TameItems ok items
  | obj fields => Fields.Sorted fields ∧ TameFields ok fields

def TameItems (ok : Double → Prop) : List Value → Prop
  | [] => True
  | v :: rest => Tame ok v ∧ TameItems ok rest

def TameFields (ok : Double → Prop) : List (String × Value) → Prop
  | [] => True
  | (_, v) :: rest => Tame ok v ∧ TameFields ok rest

end

mutual

def decidableTame [DecidablePred ok] : (v : Value) → Decidable (Tame ok v)
  | null => .isTrue trivial
  | bool _ => .isTrue trivial
  | int _ => .isTrue trivial
  | float x => inferInstanceAs (Decidable (ok x))
  | str _ => .isTrue trivial
  | arr items => decidableTameItems items
  | obj fields =>
    have : Decidable (TameFields ok fields) := decidableTameFields fields
    inferInstanceAs (Decidable (Fields.Sorted fields ∧ TameFields ok fields))

def decidableTameItems [DecidablePred ok] : (items : List Value) → Decidable (TameItems ok items)
  | [] => .isTrue trivial
  | v :: rest =>
    have : Decidable (Tame ok v) := decidableTame v
    have : Decidable (TameItems ok rest) := decidableTameItems rest
    inferInstanceAs (Decidable (Tame ok v ∧ TameItems ok rest))

def decidableTameFields [DecidablePred ok] :
    (fields : List (String × Value)) → Decidable (TameFields ok fields)
  | [] => .isTrue trivial
  | (_, v) :: rest =>
    have : Decidable (Tame ok v) := decidableTame v
    have : Decidable (TameFields ok rest) := decidableTameFields rest
    inferInstanceAs (Decidable (Tame ok v ∧ TameFields ok rest))

end

instance [DecidablePred ok] (v : Value) : Decidable (Tame ok v) := decidableTame v

/-- A value without doubles. As in every document, the fields of its objects are in order. -/
def FloatFree (v : Value) : Prop := Tame (fun _ => False) v

@[simp]
theorem tame_arr {items : List Value} : Tame ok (arr items) ↔ ∀ v ∈ items, Tame ok v := by
  rw [Tame]
  induction items with
  | nil => simp [TameItems]
  | cons v rest ih => simp [TameItems, ih]

private theorem tameFields_iff {fields : List (String × Value)} :
    TameFields ok fields ↔ ∀ e ∈ fields, Tame ok e.2 := by
  induction fields with
  | nil => simp [TameFields]
  | cons e rest ih => rw [TameFields, ih, List.forall_mem_cons]

@[simp]
theorem tame_obj {fields : List (String × Value)} :
    Tame ok (obj fields) ↔ Fields.Sorted fields ∧ ∀ e ∈ fields, Tame ok e.2 := by
  rw [Tame, tameFields_iff]

@[simp]
theorem tame_null : Tame ok null := trivial

@[simp]
theorem tame_bool (b : Bool) : Tame ok (bool b) := trivial

@[simp]
theorem tame_int (n : Int) : Tame ok (int n) := trivial

@[simp]
theorem tame_str (s : String) : Tame ok (str s) := trivial

mutual

theorem Tame.mono {ok' : Double → Prop} (hok : ∀ x, ok x → ok' x) : (v : Value) → Tame ok v →
    Tame ok' v
  | null, _ => trivial
  | bool _, _ => trivial
  | int _, _ => trivial
  | float x, h => hok x h
  | str _, _ => trivial
  | arr items, h => tameItems_mono hok items h
  | obj fields, h => ⟨h.1, tameFields_mono hok fields h.2⟩

private theorem tameItems_mono {ok' : Double → Prop} (hok : ∀ x, ok x → ok' x) :
    (items : List Value) → TameItems ok items → TameItems ok' items
  | [], _ => trivial
  | v :: rest, h => ⟨Tame.mono hok v h.1, tameItems_mono hok rest h.2⟩

private theorem tameFields_mono {ok' : Double → Prop} (hok : ∀ x, ok x → ok' x) :
    (fields : List (String × Value)) → TameFields ok fields → TameFields ok' fields
  | [], _ => trivial
  | (_, v) :: rest, h => ⟨Tame.mono hok v h.1, tameFields_mono hok rest h.2⟩

end

instance (v : Value) : Decidable v.FloatFree := inferInstanceAs (Decidable (Tame (fun _ => False) v))

/-- The objects of a value, at every depth, have their fields in order. -/
def Ordered (v : Value) : Prop := Tame (fun _ => True) v

instance (v : Value) : Decidable v.Ordered := inferInstanceAs (Decidable (Tame (fun _ => True) v))

theorem FloatFree.ordered {v : Value} (h : v.FloatFree) : v.Ordered :=
  Tame.mono (fun _ h => h.elim) v h

/-! ### Equality -/

mutual

/-- Where doubles are their own canonical forms, so are all values. -/
theorem canon_of_tame (hok : ∀ x, ok x → canon (float x) = float x) :
    (v : Value) → Tame ok v → canon v = v
  | null, _ => rfl
  | bool _, _ => rfl
  | int _, _ => rfl
  | float x, h => hok x h
  | str _, _ => rfl
  | arr items, h => by rw [canon, canonItems_of_tame hok items h]
  | obj fields, h => by rw [canon, canonFields_of_tame hok fields h.2]

theorem canonItems_of_tame (hok : ∀ x, ok x → canon (float x) = float x) :
    (items : List Value) → TameItems ok items → canonItems items = items
  | [], _ => rfl
  | v :: rest, h => by rw [canonItems, canon_of_tame hok v h.1, canonItems_of_tame hok rest h.2]

theorem canonFields_of_tame (hok : ∀ x, ok x → canon (float x) = float x) :
    (fields : List (String × Value)) → TameFields ok fields → canonFields fields = fields
  | [], _ => rfl
  | (_, v) :: rest, h => by
    rw [canonFields, canon_of_tame hok v h.1, canonFields_of_tame hok rest h.2]

end

/-! ### Access -/

private theorem tame_element {items : List Value} (h : ∀ v ∈ items, Tame ok v) (i : Int) :
    Tame ok (element items i) := by
  unfold element
  split
  · rw [List.getD_eq_getElem?_getD]
    cases hi : items[i.toNat]? with
    | none => trivial
    | some v => exact h v (List.mem_of_getElem? hi)
  · trivial

theorem tame_get {object key v : Value} (ho : Tame ok object) (h : object.get key = .ok v) :
    Tame ok v := by
  cases object with
  | null =>
    cases h
    trivial
  | obj fields =>
    obtain ⟨name, -, h⟩ := except_bind_eq_ok.mp h
    cases h
    cases hf : Fields.get? name fields with
    | none => trivial
    | some w => exact (tame_obj.mp ho).2 _ (Fields.mem_of_get? hf)
  | arr items =>
    simp only [get, getAt] at h
    split at h
    · cases h
    · cases h
      cases hk : arrayIndex? key with
      | none => trivial
      | some i => exact tame_element (tame_arr.mp ho) i
  | _ => simp [get] at h

end Value

/-- A value whose objects, at every depth, have their fields in order. -/
abbrev OrderedValue := {v : Value // v.Ordered}

/-! ### Verbs -/

open Value
variable {ok : Double → Prop}

theorem tame_insert {name : String} {child : Value} {fields : Fields Value}
    (hf : Tame ok (obj fields)) (hc : Tame ok child) :
    Tame ok (obj (Fields.insert name child fields)) := by
  obtain ⟨hs, hall⟩ := tame_obj.mp hf
  refine tame_obj.mpr ⟨Fields.sorted_insert hs, fun e he => ?_⟩
  rcases Fields.mem_insert he with rfl | he
  · exact hc
  · exact hall e he

private theorem tame_insertNew {name : String} {child : Value} {fields : Fields Value}
    (hf : Tame ok (obj fields)) (hc : Tame ok child) :
    Tame ok (obj (Fields.insertNew name child fields)) := by
  unfold Fields.insertNew
  split
  · exact hf
  · exact tame_insert hf hc

private theorem UnaryVerb.tame_addFields {earlierWins : Bool} {gathered fields : Fields Value}
    (hg : Tame ok (obj gathered)) (hf : ∀ e ∈ fields, Tame ok e.2) :
    Tame ok (obj (UnaryVerb.addFields earlierWins gathered fields)) := by
  induction fields generalizing gathered with
  | nil => exact hg
  | cons e rest ih =>
    obtain ⟨first, others⟩ := List.forall_mem_cons.mp hf
    refine ih ?_ others
    cases earlierWins with
    | false => exact tame_insert hg first
    | true => exact tame_insertNew hg first

private theorem UnaryVerb.tame_mergeStep {earlierWins : Bool} {out next : Option (Fields Value)}
    {v : Value} (ho : Tame ok (obj (out.getD []))) (hv : Tame ok v)
    (h : UnaryVerb.mergeStep earlierWins out v = .ok next) : Tame ok (obj (next.getD [])) := by
  cases v with
  | null =>
    cases h
    exact ho
  | obj fields =>
    cases out with
    | none =>
      cases h
      exact hv
    | some gathered =>
      cases h
      exact UnaryVerb.tame_addFields ho (tame_obj.mp hv).2
  | _ => cases h

private theorem UnaryVerb.tame_merge {earlierWins : Bool} {a v : Value} (ha : Tame ok a)
    (h : UnaryVerb.merge earlierWins a = .ok v) : Tame ok v := by
  cases a with
  | arr items =>
    obtain ⟨out, ran, h⟩ := except_bind_eq_ok.mp h
    cases h
    refine except_foldlM_invariant (P := fun out => Tame ok (obj (out.getD []))) ?_ ?_ ran
    · intro item member out next ho h
      exact UnaryVerb.tame_mergeStep ho (tame_arr.mp ha item member) h
    · exact tame_obj.mpr ⟨List.Pairwise.nil, by simp⟩
  | _ => cases h

theorem UnaryVerb.tame_apply {verb : UnaryVerb} {a v : Value} (ha : Tame ok a)
    (h : verb.apply a = .ok v) : Tame ok v := by
  cases verb with
  | not =>
    cases h
    trivial
  | values =>
    cases a with
    | obj fields =>
      cases h
      refine tame_arr.mpr fun w hw => ?_
      obtain ⟨e, he, rfl⟩ := List.mem_map.mp hw
      exact (tame_obj.mp ha).2 e he
    | arr items =>
      cases h
      exact ha
    | null =>
      cases h
      simp
    | _ => cases h
  | keys =>
    cases a with
    | obj fields =>
      cases h
      simp
    | arr items =>
      cases h
      simp
    | null =>
      cases h
      simp
    | _ => cases h
  | assign => exact UnaryVerb.tame_merge ha h
  | defaults => exact UnaryVerb.tame_merge ha h
  | size =>
    cases a with
    | arr items =>
      cases h
      trivial
    | obj fields =>
      cases h
      trivial
    | str s =>
      cases h
      trivial
    | null =>
      cases h
      trivial
    | _ => cases h

namespace CollectionVerb

/-- Entries are those of an array or of an object. -/
theorem entries_cases {verb : CollectionVerb} {source : Value} {es : List (Value × Value)}
    (h : verb.entries source = .ok es) :
    (∃ items, source = arr items ∧ es = itemEntries items) ∨
      ∃ fields, source = obj fields ∧ es = fieldEntries fields := by
  unfold entries at h
  split at h <;> cases h
  · exact .inl ⟨_, rfl, rfl⟩
  · exact .inr ⟨_, rfl, rfl⟩
  · exact .inl ⟨_, rfl, rfl⟩
  · exact .inr ⟨_, rfl, rfl⟩

theorem tame_entries {verb : CollectionVerb} {source : Value} {es : List (Value × Value)}
    (hs : Tame ok source) (h : verb.entries source = .ok es) :
    ∀ e ∈ es, Tame ok e.1 ∧ Tame ok e.2 := by
  intro e he
  rcases entries_cases h with ⟨items, rfl, rfl⟩ | ⟨fields, rfl, rfl⟩
  · obtain ⟨⟨v, i⟩, hv, rfl⟩ := List.mem_map.mp he
    exact ⟨trivial, tame_arr.mp hs v (List.fst_mem_of_mem_zipIdx hv)⟩
  · obtain ⟨f, hv, rfl⟩ := List.mem_map.mp he
    exact ⟨trivial, (tame_obj.mp hs).2 f hv⟩

theorem tame_gather {verb : CollectionVerb} {source : Value} {es : List (Value × Value)}
    {results : List Value} (he : ∀ e ∈ es, Tame ok e.2) (hr : ∀ r ∈ results, Tame ok r) :
    Tame ok (verb.gather source es results) := by
  have pair {e : Value × Value} {r : Value} (h : (e, r) ∈ es.zip results) :
      Tame ok e.2 ∧ Tame ok r := ⟨he e (List.of_mem_zip h).1, hr r (List.of_mem_zip h).2⟩
  have collected {l : List (String × Value)} (h : ∀ e ∈ l, Tame ok e.2) :
      Tame ok (obj (Fields.ofList l)) :=
    tame_obj.mpr ⟨Fields.sorted_ofList _, fun e he => h e (Fields.mem_of_mem_ofList he)⟩
  have byKey : Tame ok (obj (Fields.ofList
      ((es.zip results).map fun x => (keyName x.2, x.1.2)))) := by
    refine collected fun e he => ?_
    obtain ⟨⟨e, r⟩, hm, rfl⟩ := List.mem_map.mp he
    exact (pair hm).1
  cases verb with
  | map => exact tame_arr.mpr hr
  | filter =>
    refine tame_arr.mpr fun v hv => ?_
    obtain ⟨⟨e, r⟩, hm, hv⟩ := List.mem_filterMap.mp hv
    simp only [Option.ite_none_right_eq_some, Option.some.injEq] at hv
    exact hv.2 ▸ (pair hm).1
  | any => trivial
  | anyValues => trivial
  | keyBy => exact byKey
  | mapKeys => exact byKey
  | mapValues =>
    refine collected fun e he => ?_
    obtain ⟨⟨e, r⟩, hm, rfl⟩ := List.mem_map.mp he
    exact (pair hm).2
  | filterBy =>
    refine collected fun e he => ?_
    obtain ⟨⟨e, r⟩, hm, hv⟩ := List.mem_filterMap.mp he
    simp only [Option.ite_none_right_eq_some, Option.some.injEq] at hv
    exact hv.2 ▸ (pair hm).1
  | groupBy =>
    simp only [gather]
    split
    · refine tame_obj.mpr ⟨Fields.sorted_mapValues (Fields.sorted_group _), fun e he => ?_⟩
      obtain ⟨⟨k, fields⟩, hg, rfl⟩ := List.mem_map.mp he
      refine collected fun f hf => ?_
      obtain ⟨⟨e, r⟩, hm, hf⟩ := List.mem_map.mp (Fields.mem_of_mem_group hg hf)
      cases hf
      exact (pair hm).1
    · refine tame_obj.mpr ⟨Fields.sorted_mapValues (Fields.sorted_group _), fun e he => ?_⟩
      obtain ⟨⟨k, items⟩, hg, rfl⟩ := List.mem_map.mp he
      refine tame_arr.mpr fun v hv => ?_
      obtain ⟨⟨e, r⟩, hm, hf⟩ := List.mem_map.mp (Fields.mem_of_mem_group hg hv)
      cases hf
      exact (pair hm).1

end CollectionVerb

end Recalc
