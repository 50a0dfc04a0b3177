import Recalc.Proofs.Value.Keys
import Recalc.Proofs.Verb.Grouping
import Recalc.Proofs.Verb.Merging

/-! Verbs that do not compute respect equality of values. On canonical forms they give canonical
forms, so on equal values they give equal values or fail together. -/
namespace Recalc

namespace Value
open Double (isNaN nan)

private theorem canon_arr (items : List Value) : (arr items).canon = arr (items.map canon) := by
  rw [canon, canonItems_eq]

private theorem canon_obj (fields : Fields Value) :
    (obj fields).canon = obj (Fields.mapValues canon fields) := by
  rw [canon, canonFields_eq]
  rfl

/-! ### Tests and keys -/

/-- The doubles that are zero are those that denote the integer zero. -/
theorem isZero_iff {x : Double} {n : Int} (h : Double.toInt? x = some n) :
    Double.isZero x = true ↔ n = 0 := by
  rw [Double.isZero, decide_eq_true_eq]
  constructor
  · intro zero
    rw [Double.toInt?_of_zero zero] at h
    exact (Option.some.inj h).symm
  · rintro rfl
    have null : Double.magnitude (.ofBits 0) = 0 := by decide
    have same := Double.position_eq_of_toInt? h (Double.toInt?_of_zero null)
    exact (Double.magnitude_eq_of_position same).trans null

private theorem truthy_canon (v : Value) : v.canon.truthy = v.truthy := by
  cases v with
  | float x =>
    rcases canon_float x with ⟨h, same⟩ | ⟨n, h, same⟩ | same
    · have number : isNaN nan = true := by decide
      simp [same, truthy, h, number]
    · have whole := (Option.filter_eq_some_iff.mp h).1
      rw [same, truthy, truthy, Double.not_isNaN_of_toInt? whole, Bool.not_false, Bool.and_true,
        Bool.eq_iff_iff, Bool.not_eq_true', ← Bool.not_eq_true, isZero_iff whole]
      simp
    · rw [same]
  | _ => rfl

private theorem propertyKey_canon (v : Value) : v.canon.propertyKey = v.propertyKey := by
  unfold propertyKey
  rw [keyText?_canon]
  cases v with
  | float x =>
    obtain ⟨name, named⟩ : ∃ name, (float x).keyText? = some name := by
      cases whole : wholeFloat? x with
      | none => exact ⟨text (float x), by rw [keyText?, whole]⟩
      | some n => exact ⟨toString n, by rw [keyText?, whole]⟩
    rw [named]
  | _ => rfl

private theorem element_map (items : List Value) (i : Int) :
    element (items.map canon) i = (element items i).canon := by
  unfold element
  split
  · rw [List.getD_eq_getElem?_getD, List.getD_eq_getElem?_getD, List.getElem?_map]
    cases items[i.toNat]? <;> rfl
  · rfl

/-- Access to canonical forms gives canonical forms. -/
theorem get_canon (object key : Value) :
    (object.canon.get key.canon).toOption = (object.get key).toOption.map canon := by
  cases object with
  | null => rfl
  | obj fields =>
    rw [canon_obj, get, get, propertyKey_canon]
    cases key.propertyKey with
    | error e => rfl
    | ok name =>
      change some _ = some _
      rw [Fields.get?_mapValues]
      cases Fields.get? name fields <;> rfl
  | arr items =>
    rw [canon_arr, get, get, getAt, getAt, isContainer_canon, arrayIndex?_canon]
    split
    · rfl
    · cases arrayIndex? key with
      | none => rfl
      | some i => exact congrArg some (element_map items i)
  | float x => rcases canon_float_cases x with ⟨_, same⟩ | ⟨_, same⟩ <;> rw [same] <;> rfl
  | _ => rfl

private theorem fields?_canon (v : Value) :
    v.canon.fields? = v.fields?.map (Fields.mapValues canon) := by
  cases v with
  | float x => rcases canon_float_cases x with ⟨_, same⟩ | ⟨_, same⟩ <;> rw [same] <;> rfl
  | obj fields =>
    rw [canon_obj]
    rfl
  | _ => rfl

end Value

/-! ### Verbs on one value -/

namespace UnaryVerb
open Value

private theorem addFields_mapValues (earlierWins : Bool) (gathered fields : Fields Value) :
    addFields earlierWins (Fields.mapValues canon gathered) (Fields.mapValues canon fields) =
      Fields.mapValues canon (addFields earlierWins gathered fields) := by
  induction fields generalizing gathered with
  | nil => rfl
  | cons e rest ih =>
    cases earlierWins with
    | false =>
      refine Eq.trans ?_ (ih (Fields.insert e.1 e.2 gathered))
      rw [← Fields.insert_mapValues]
      rfl
    | true =>
      refine Eq.trans ?_ (ih (Fields.insertNew e.1 e.2 gathered))
      rw [← Fields.insertNew_mapValues]
      rfl

/-- A step of a merge gathers canonical forms from canonical forms. -/
theorem mergeStep_canon (earlierWins : Bool) (out : Option (Fields Value)) (v : Value) :
    (mergeStep earlierWins (out.map (Fields.mapValues canon)) v.canon).toOption =
      (mergeStep earlierWins out v).toOption.map (Option.map (Fields.mapValues canon)) := by
  cases v with
  | float x => rcases canon_float_cases x with ⟨_, same⟩ | ⟨_, same⟩ <;> rw [same] <;> rfl
  | obj fields =>
    rw [canon_obj]
    cases out with
    | none => rfl
    | some gathered =>
      exact congrArg (fun fields => some (some fields)) (addFields_mapValues earlierWins _ _)
  | _ => rfl

private theorem foldlM_mergeStep_canon (earlierWins : Bool) (out : Option (Fields Value))
    (items : List Value) :
    ((items.map canon).foldlM (mergeStep earlierWins)
        (out.map (Fields.mapValues canon))).toOption =
      (items.foldlM (mergeStep earlierWins) out).toOption.map
        (Option.map (Fields.mapValues canon)) := by
  induction items generalizing out with
  | nil => rfl
  | cons v rest ih =>
    rw [List.map_cons, List.foldlM_cons, List.foldlM_cons, except_toOption_bind,
      except_toOption_bind, mergeStep_canon]
    cases (mergeStep earlierWins out v).toOption with
    | none => rfl
    | some next => exact ih next

/-- Merging canonical forms gives a canonical form. -/
theorem merge_canon (earlierWins : Bool) (items : List Value) :
    (merge earlierWins (arr items).canon).toOption =
      (merge earlierWins (arr items)).toOption.map canon := by
  have ran := foldlM_mergeStep_canon earlierWins none items
  rw [canon_arr, merge, merge, except_toOption_bind, except_toOption_bind]
  rw [Option.map_none] at ran
  rw [ran]
  cases (items.foldlM (mergeStep earlierWins) none).toOption with
  | none => rfl
  | some next =>
    refine congrArg some ?_
    rw [canon_obj]
    cases next <;> rfl

/-- A verb on a canonical form gives a canonical form. -/
theorem apply_canon (verb : UnaryVerb) (a : Value) :
    (verb.apply a.canon).toOption = (verb.apply a).toOption.map canon := by
  cases a with
  | float x =>
    cases verb with
    | not => exact congrArg (fun b => some (bool !b)) (truthy_canon (float x))
    | _ => rcases canon_float_cases x with ⟨_, same⟩ | ⟨_, same⟩ <;> rw [same] <;> rfl
  | obj fields =>
    rw [canon_obj]
    cases verb with
    | values =>
      refine congrArg some ?_
      rw [canon_arr, Fields.values, Fields.values, Fields.mapValues, List.map_map, List.map_map]
      rfl
    | keys =>
      refine congrArg some ?_
      rw [canon_arr, List.map_map, Fields.keys_mapValues]
      rfl
    | size => exact congrArg (fun (n : Nat) => some (int n)) (List.length_map _)
    | _ => rfl
  | arr items =>
    cases verb with
    | assign => exact merge_canon false items
    | defaults => exact merge_canon true items
    | keys =>
      rw [canon_arr]
      refine congrArg some ?_
      rw [canon_arr, List.map_map, List.length_map]
      rfl
    | size =>
      rw [canon_arr]
      exact congrArg (fun (n : Nat) => some (int n)) (List.length_map _)
    | values =>
      rw [canon_arr]
      exact congrArg some (canon_arr items).symm
    | not => rfl
  | _ => cases verb <;> rfl

end UnaryVerb

/-! ### Verbs on containers -/

/-- Grouping leaves the values as they are, so it does not matter when they are changed. -/
theorem Fields.group_map {α β : Type} (f : α → β) (entries : List (String × α)) :
    Fields.group (entries.map fun e => (e.1, f e.2)) =
      Fields.mapValues (List.map f) (Fields.group entries) := by
  have values (key : String) : Fields.valuesAt key (entries.map fun e => (e.1, f e.2)) =
      (Fields.valuesAt key entries).map f := by
    simp [Fields.valuesAt, List.filter_map, Function.comp_def]
  refine Fields.eq_of_get? (Fields.sorted_group _) (Fields.sorted_mapValues (Fields.sorted_group _))
    fun key => ?_
  rw [Fields.get?_mapValues, Fields.get?_group, Fields.get?_group, values]
  cases Fields.valuesAt key entries <;> rfl

namespace CollectionVerb
open Value
variable {verb : CollectionVerb} {es : List (Value × Value)} {rs : List Value}

/-- A key and an element in canonical form. -/
def canonEntry (e : Value × Value) : Value × Value := (e.1.canon, e.2.canon)

private theorem keyName_canon (v : Value) : keyName v.canon = keyName v := by
  rw [keyName, keyName, keyText?_canon]

private theorem settle_canon (verb : CollectionVerb) (v : Value) :
    verb.settle v.canon = verb.settle v := by
  cases verb <;> simp only [settle, truthy_canon, propertyKey_canon]

private theorem entries_canon (verb : CollectionVerb) (source : Value) :
    (verb.entries source.canon).toOption =
      (verb.entries source).toOption.map (List.map canonEntry) := by
  have items (items : List Value) :
      itemEntries (items.map canon) = (itemEntries items).map canonEntry := by
    simp only [itemEntries, List.zipIdx_map, List.map_map]
    rfl
  have fields (fields : Fields Value) :
      fieldEntries (Fields.mapValues canon fields) = (fieldEntries fields).map canonEntry := by
    simp only [fieldEntries, Fields.mapValues, List.map_map]
    rfl
  unfold entries
  generalize verb.expects = shape
  cases source with
  | arr l =>
    rw [canon_arr]
    cases shape <;> simp [Except.toOption, items]
  | obj l =>
    rw [canon_obj]
    cases shape <;> simp [Except.toOption, fields]
  | float x =>
    rcases canon_float_cases x with ⟨_, same⟩ | ⟨_, same⟩ <;> rw [same] <;> cases shape <;> rfl
  | _ => cases shape <;> rfl

/-! ### What a verb makes of canonical results -/

section Gather
variable {α : Type}

private theorem chosen_canon (xs : List α) :
    chosen truthy xs (rs.map canon) = chosen truthy xs rs := by
  simp [chosen, List.zip_map_right, List.filter_map, Function.comp_def, truthy_canon]

private theorem labelled_canon (f : α → α) (xs : List α) :
    labelled (xs.map f) (rs.map canon) = (labelled xs rs).map fun e => (e.1, f e.2) := by
  simp [labelled, List.zip_map, Function.comp_def, keyName_canon]

private theorem gather_groupBy_items {source : Value} (h : source.fields? = none) :
    gather .groupBy source es rs =
      .obj (Fields.mapValues .arr (Fields.group (labelled (es.map Prod.snd) rs))) := by
  cases source with
  | obj fields => cases h
  | _ => exact (gather_groupBy_arr : gather .groupBy (.arr []) es rs = _)

/-- From canonical results a verb gathers a canonical form. -/
theorem canon_gather (verb : CollectionVerb) (source : Value) (es : List (Value × Value))
    (rs : List Value) : (verb.gather source es rs).canon =
      verb.gather source.canon (es.map canonEntry) (rs.map canon) := by
  have elements : (es.map canonEntry).map Prod.snd = (es.map Prod.snd).map canon := by
    rw [List.map_map, List.map_map]
    rfl
  have named : (es.map canonEntry).map (fun e => (keyName e.1, e.2)) =
      (es.map fun e => (keyName e.1, e.2)).map fun e => (e.1, e.2.canon) := by
    simp [canonEntry, Function.comp_def, keyName_canon]
  have collected (entries : List (String × Value)) : (obj (Fields.ofList entries)).canon =
      obj (Fields.ofList (entries.map fun e => (e.1, e.2.canon))) := by
    rw [canon_obj, Fields.ofList_map]
  have byKey : (obj (Fields.ofList (labelled (es.map Prod.snd) rs))).canon =
      obj (Fields.ofList (labelled ((es.map canonEntry).map Prod.snd) (rs.map canon))) := by
    rw [collected, elements, labelled_canon]
  cases verb with
  | map => exact canon_arr rs
  | filter =>
    rw [gather_filter, gather_filter, canon_arr, chosen_canon, elements, chosen_map canon]
  | any => simp [gather, canon, truthy_canon, Function.comp_def]
  | anyValues => simp [gather, canon, truthy_canon, Function.comp_def]
  | keyBy => rw [gather_byKey (.inl rfl), gather_byKey (.inl rfl), byKey]
  | mapKeys => rw [gather_byKey (.inr rfl), gather_byKey (.inr rfl), byKey]
  | mapValues =>
    refine (collected _).trans (congrArg (fun l => obj (Fields.ofList l)) ?_)
    simp [List.zip_map, canonEntry, Function.comp_def, keyName_canon]
  | filterBy =>
    rw [gather_filterBy, gather_filterBy, collected, chosen_canon, named,
      chosen_map fun e : String × Value => (e.1, e.2.canon)]
  | groupBy =>
    have groups {α : Type} (f : α → α) (make : List α → Value) (xs : List α)
        (commutes : ∀ g, (make g).canon = make (g.map f)) :
        (obj (Fields.mapValues make (Fields.group (labelled xs rs)))).canon =
          obj (Fields.mapValues make (Fields.group (labelled (xs.map f) (rs.map canon)))) := by
      rw [labelled_canon, Fields.group_map, canon_obj]
      simp [Fields.mapValues, Function.comp_def, commutes]
    cases object : source.fields? with
    | none =>
      have same : source.canon.fields? = none := by rw [fields?_canon, object, Option.map_none]
      rw [gather_groupBy_items object, gather_groupBy_items same, elements]
      exact groups canon arr _ canon_arr
    | some fields =>
      obtain rfl := fields?_eq_some.mp object
      rw [canon_obj, gather_groupBy_obj, gather_groupBy_obj, named]
      exact groups (fun e => (e.1, e.2.canon)) _ _ fun g => collected g

end Gather

/-! ### Iterations side by side -/

section Iteration
variable {σ τ : Type} {body : Value → Value → ExceptT EvalError (StateM σ) Value}
  {body' : Value → Value → ExceptT EvalError (StateM τ) Value}

/-- Two runs that both fail, or that give related results and end in related states. -/
inductive Alongside {α β : Type} (P : α → β → Prop) (R : σ → τ → Prop) :
    Except EvalError α × σ → Except EvalError β × τ → Prop
  | ok {a : α} {b : β} {s : σ} {t : τ} (result : P a b) (state : R s t) :
    Alongside P R (.ok a, s) (.ok b, t)
  | error (e f : EvalError) (s : σ) (t : τ) : Alongside P R (.error e, s) (.error f, t)

/-- Two functions that on equal keys and elements give equal results or fail together, each with a
state of its own. -/
def Respects (R : σ → τ → Prop) (body : Value → Value → ExceptT EvalError (StateM σ) Value)
    (body' : Value → Value → ExceptT EvalError (StateM τ) Value) : Prop :=
  ∀ k k' v v', (k == k') = true → (v == v') = true → ∀ s t, R s t →
    Alongside (fun r r' => (r == r') = true) R ((body k v).run s) ((body' k' v').run t)

/-- Equal keys and equal elements. -/
def SameEntry (e e' : Value × Value) : Prop := (e.1 == e'.1) = true ∧ (e.2 == e'.2) = true

/-- Visits of equal entries go side by side. -/
theorem visit_alongside {R : σ → τ → Prop} (respects : Respects R body body')
    {es' : List (Value × Value)} (same : List.Forall₂ SameEntry es es') {s : σ} {t : τ}
    (states : R s t) : Alongside (List.Forall₂ fun r r' => (r == r') = true) R
      ((verb.visit body es).run s) ((verb.visit body' es').run t) := by
  induction same generalizing s t with
  | nil => exact .ok .nil states
  | @cons e e' rest rest' here _ ih =>
    have calls := respects _ _ _ _ here.1 here.2 s t states
    generalize first : (body e.1 e.2).run s = out, first' : (body' e'.1 e'.2).run t = out' at calls
    cases calls with
    | error =>
      rw [visit_failed first, visit_failed first']
      exact .error _ _ _ _
    | @ok r r' u u' equal states =>
      have settled : verb.settle r' = verb.settle r := by
        rw [← settle_canon, ← (beq_iff r r').mp equal, settle_canon]
      cases done : verb.settle r with
      | error e =>
        rw [visit_rejected first done, visit_rejected first' (settled.trans done)]
        exact .error _ _ _ _
      | ok stop =>
        cases stop with
        | true =>
          rw [visit_settled first done, visit_settled first' (settled.trans done)]
          exact .ok (.cons equal .nil) states
        | false =>
          rw [visit_next first done, visit_next first' (settled.trans done)]
          have others := ih states
          generalize (verb.visit body rest).run u = later, (verb.visit body' rest').run u' = later'
            at others
          cases others with
          | ok results states => exact .ok (.cons equal results) states
          | error e f s t => exact .error e f s t

private theorem forall₂_sameEntry {es es' : List (Value × Value)}
    (h : es.map canonEntry = es'.map canonEntry) : List.Forall₂ SameEntry es es' := by
  rw [← List.forall₂_eq_eq_eq, List.forall₂_map_left_iff, List.forall₂_map_right_iff] at h
  refine h.imp fun e e' same => ?_
  obtain ⟨key, element⟩ := Prod.ext_iff.mp same
  exact ⟨(beq_iff _ _).mpr key, (beq_iff _ _).mpr element⟩

/-- Iterations over equal values go side by side. -/
theorem iterate_alongside {R : σ → τ → Prop} (respects : Respects R body body') {a a' : Value}
    (h : (a == a') = true) {s : σ} {t : τ} (states : R s t) :
    Alongside (fun r r' => (r == r') = true) R ((verb.iterate a body).run s)
      ((verb.iterate a' body').run t) := by
  have entries := entries_canon verb a
  rw [(beq_iff a a').mp h, entries_canon] at entries
  cases found : verb.entries a with
  | error e =>
    cases found' : verb.entries a' with
    | error e' =>
      rw [iterate_run_error found, iterate_run_error found']
      exact .error _ _ _ _
    | ok es' => simp [found, found', Except.toOption] at entries
  | ok es =>
    cases found' : verb.entries a' with
    | error e' => simp [found, found', Except.toOption] at entries
    | ok es' =>
      rw [found, found'] at entries
      have same : es.map canonEntry = es'.map canonEntry := (Option.some.inj entries).symm
      rw [iterate_run found, iterate_run found']
      have visits : Alongside _ R ((verb.visit body es).run s) ((verb.visit body' es').run t) :=
        visit_alongside respects (forall₂_sameEntry same) states
      generalize (verb.visit body es).run s = out, (verb.visit body' es').run t = out' at visits
      cases visits with
      | error e f s t => exact .error e f s t
      | @ok rs rs' _ _ results states =>
        have forms : rs.map canon = rs'.map canon := beq_arr_iff.mp (beq_arr results)
        refine .ok ?_ states
        rw [beq_iff, canon_gather, canon_gather, (beq_iff a a').mp h, same, forms]

end Iteration

end CollectionVerb

/-! ### All verbs -/

/-- Both fail, or both give equal values. -/
inductive Agree : Except EvalError Value → Except EvalError Value → Prop
  | ok {v w : Value} (equal : (v == w) = true) : Agree (.ok v) (.ok w)
  | error (e f : EvalError) : Agree (.error e) (.error f)

private theorem agree_of_canon {x y : Except EvalError Value}
    (h : x.toOption.map Value.canon = y.toOption.map Value.canon) : Agree x y := by
  cases x with
  | error e =>
    cases y with
    | error f => exact .error e f
    | ok w => cases h
  | ok v =>
    cases y with
    | error f => cases h
    | ok w => exact .ok ((Value.beq_iff v w).mpr (Option.some.inj h))

/-- On equal values and equal keys, the tests, the key coercions and all verbs that do not compute
agree. -/
theorem verbs_respect_equality {a a' k k' : Value} (ha : (a == a') = true)
    (hk : (k == k') = true) :
    a.truthy = a'.truthy ∧ a.propertyKey = a'.propertyKey ∧ a.arrayIndex? = a'.arrayIndex? ∧
    Agree (a.get k) (a'.get k') ∧
    (∀ verb : UnaryVerb, Agree (verb.apply a) (verb.apply a')) ∧
    ∀ (verb : CollectionVerb) (σ τ : Type) (R : σ → τ → Prop)
      (body : Value → Value → ExceptT EvalError (StateM σ) Value)
      (body' : Value → Value → ExceptT EvalError (StateM τ) Value),
      CollectionVerb.Respects R body body' → ∀ s t, R s t →
        CollectionVerb.Alongside (fun r r' => (r == r') = true) R
          ((verb.iterate a body).run s) ((verb.iterate a' body').run t) := by
  have form := (Value.beq_iff a a').mp ha
  have keyForm := (Value.beq_iff k k').mp hk
  refine ⟨?_, ?_, ?_, agree_of_canon ?_, fun verb => agree_of_canon ?_,
    fun verb σ τ R body body' respects s t states => ?_⟩
  · rw [← Value.truthy_canon, form, Value.truthy_canon]
  · rw [← Value.propertyKey_canon, form, Value.propertyKey_canon]
  · rw [← Value.arrayIndex?_canon, form, Value.arrayIndex?_canon]
  · rw [← Value.get_canon, form, keyForm, Value.get_canon]
  · rw [← UnaryVerb.apply_canon, form, UnaryVerb.apply_canon]
  · exact CollectionVerb.iterate_alongside respects ha states

/-- Integers, and below the doubles that denote them. -/
def wholeInts : Value := .arr [.int 1, .int 0]

def wholeFloats : Value := .arr [.float (Double.ofInt 1), .float Double.negativeZero]

theorem verbs_respect_equality_wholes :
    (wholeInts == wholeFloats) = true ∧ (Value.int 0 == .float Double.negativeZero) = true ∧
      Agree (wholeInts.get (.int 0)) (wholeFloats.get (.float Double.negativeZero)) ∧
      Agree (UnaryVerb.apply .values wholeInts) (UnaryVerb.apply .values wholeFloats) ∧
      CollectionVerb.Alongside (fun r r' => (r == r') = true)
        (fun s t => (Value.arr s == .arr t) = true)
        ((CollectionVerb.groupBy.iterate wholeInts CollectionVerb.noted).run [])
        ((CollectionVerb.groupBy.iterate wholeFloats CollectionVerb.noted).run []) := by
  have equal : (wholeInts == wholeFloats) = true := by decide +kernel
  have zero : (Value.int 0 == .float Double.negativeZero) = true := by decide +kernel
  have respects : CollectionVerb.Respects (fun s t => (Value.arr s == .arr t) = true)
      CollectionVerb.noted CollectionVerb.noted := by
    intro k k' v v' key element s t states
    refine .ok element ?_
    rw [Value.beq_arr_iff] at states ⊢
    rw [List.map_cons, List.map_cons, states, (Value.beq_iff k k').mp key]
  obtain ⟨-, -, -, access, unary, iterate⟩ := verbs_respect_equality equal zero
  exact ⟨equal, zero, access, unary .values,
    iterate .groupBy _ _ _ _ _ respects [] [] BEq.rfl⟩

end Recalc
