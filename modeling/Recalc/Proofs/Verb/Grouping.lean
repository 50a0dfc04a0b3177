import Recalc.Proofs.Program.Combine
import Recalc.Proofs.Value.Tame

/-! What the verbs that group, filter and search make of the results of their calls. A verb calls a
function with a state of its own on the entries of a container, one after the other; the results
decide which elements go where. -/
namespace Recalc

private theorem Value.propertyKey_eq_ok {v : Value} {k : String} :
    v.propertyKey = .ok k ↔ v.keyText? = some k := by
  unfold propertyKey
  cases v.keyText? <;> simp

private theorem run_bind_pure {ε σ α β : Type} (x : ExceptT ε (StateM σ) α) (f : α → β) (s : σ) :
    (x >>= fun a => pure (f a)).run s = ((x.run s).1.map f, (x.run s).2) := by
  rcases run : x.run s with ⟨_ | a, t⟩
  · exact run_bind_error run
  · exact run_bind_ok run

namespace CollectionVerb
variable {σ α : Type} {body : Value → Value → ExceptT EvalError (StateM σ) Value}
variable {verb : CollectionVerb} {source : Value} {es : List (Value × Value)} {e : Value × Value}
variable {s t u : σ} {r : Value} {rs : List Value} {error : EvalError}

/-! ### Calls -/

/-- A function is called on entries in order, each once, from a state to another one, and gives
results. -/
inductive Calls (body : Value → Value → ExceptT EvalError (StateM σ) Value) :
    List (Value × Value) → σ → List Value → σ → Prop
  | nil (s : σ) : Calls body [] s [] s
  | cons {e : Value × Value} {rest : List (Value × Value)} {s t u : σ} {r : Value}
    {rs : List Value} (first : (body e.1 e.2).run s = (.ok r, t))
    (others : Calls body rest t rs u) : Calls body (e :: rest) s (r :: rs) u

/-- A function is called on entries in order up to one that ends with an outcome. No result before
passes a test. -/
def Stops (body : Value → Value → ExceptT EvalError (StateM σ) Value) (test : Value → Bool)
    (es : List (Value × Value)) (s : σ) (outcome : Except EvalError Value) (t : σ) : Prop :=
  ∃ before e after rs u, es = before ++ e :: after ∧ Calls body before s rs u ∧
    (∀ r ∈ rs, test r = false) ∧ (body e.1 e.2).run u = (outcome, t)

private theorem Calls.length_eq (h : Calls body es s rs t) : rs.length = es.length := by
  induction h with
  | nil => rfl
  | cons _ _ ih => rw [List.length_cons, List.length_cons, ih]

private theorem Calls.deterministic {rs' : List Value} {t' : σ} (h : Calls body es s rs t)
    (h' : Calls body es s rs' t') : rs = rs' ∧ t = t' := by
  induction h generalizing rs' t' with
  | nil =>
    cases h'
    exact ⟨rfl, rfl⟩
  | cons first _ ih =>
    cases h' with
    | cons first' others =>
      rw [first] at first'
      cases first'
      obtain ⟨rfl, rfl⟩ := ih others
      exact ⟨rfl, rfl⟩

private theorem Calls.of_append {before rest : List (Value × Value)}
    (h : Calls body (before ++ rest) s rs t) : ∃ rs₁ rs₂ u, rs = rs₁ ++ rs₂ ∧
      Calls body before s rs₁ u ∧ Calls body rest u rs₂ t := by
  induction before generalizing s rs with
  | nil => exact ⟨[], rs, s, rfl, .nil s, h⟩
  | cons e before ih =>
    cases h with
    | @cons _ _ _ _ _ r _ first others =>
      obtain ⟨rs₁, rs₂, u, rfl, calls, rest⟩ := ih others
      exact ⟨r :: rs₁, rs₂, u, rfl, .cons first calls, rest⟩

/-- Where all calls succeed, those up to some entry end with one of the results. -/
theorem Calls.of_stops {test : Value → Bool} {outcome : Except EvalError Value}
    (h : Calls body es s rs t) (stops : Stops body test es s outcome u) :
    ∃ r ∈ rs, outcome = .ok r := by
  obtain ⟨before, e, after, rs', v, rfl, calls, -, last⟩ := stops
  obtain ⟨rs₁, rs₂, w, rfl, before, rest⟩ := h.of_append
  obtain ⟨rfl, rfl⟩ := before.deterministic calls
  cases rest with
  | @cons _ _ _ _ _ r _ first _ =>
    rw [last] at first
    cases first
    exact ⟨r, by simp, rfl⟩

/-- Calling a function on entries finds no result that passes a test, stops at the first that does,
or fails before. -/
theorem calls_cases (body : Value → Value → ExceptT EvalError (StateM σ) Value)
    (test : Value → Bool) (es : List (Value × Value)) (s : σ) :
    (∃ rs t, Calls body es s rs t ∧ ∀ r ∈ rs, test r = false) ∨
    (∃ r t, test r = true ∧ Stops body test es s (.ok r) t) ∨
    ∃ error t, Stops body test es s (.error error) t := by
  induction es generalizing s with
  | nil => exact .inl ⟨[], s, .nil s, by simp⟩
  | cons e rest ih =>
    rcases first : (body e.1 e.2).run s with ⟨_ | r, t⟩
    case error error =>
      exact .inr (.inr ⟨error, t, [], e, rest, [], s, rfl, .nil s, by simp, first⟩)
    case ok =>
      cases passes : test r with
      | true => exact .inr (.inl ⟨r, t, passes, [], e, rest, [], s, rfl, .nil s, by simp, first⟩)
      | false =>
        have later {outcome : Except EvalError Value} {u : σ}
            (h : Stops body test rest t outcome u) :
            Stops body test (e :: rest) s outcome u := by
          obtain ⟨before, e', after, rs, v, rfl, calls, fail, last⟩ := h
          exact ⟨e :: before, e', after, r :: rs, v, rfl, .cons first calls,
            List.forall_mem_cons.mpr ⟨passes, fail⟩, last⟩
        rcases ih t with ⟨rs, u, calls, fail⟩ | ⟨r', u, passes', stops⟩ | ⟨error, u, stops⟩
        · exact .inl ⟨r :: rs, u, .cons first calls, List.forall_mem_cons.mpr ⟨passes, fail⟩⟩
        · exact .inr (.inl ⟨r', u, passes', later stops⟩)
        · exact .inr (.inr ⟨error, u, later stops⟩)

/-! ### Visits -/

section Visits
variable {rest : List (Value × Value)}

theorem visit_failed (first : (body e.1 e.2).run s = (.error error, t)) :
    (verb.visit body (e :: rest)).run s = (.error error, t) := run_bind_error first

theorem visit_rejected (first : (body e.1 e.2).run s = (.ok r, t))
    (rejected : verb.settle r = .error error) :
    (verb.visit body (e :: rest)).run s = (.error error, t) := by
  rw [visit, run_bind_ok first, rejected]
  rfl

theorem visit_settled (first : (body e.1 e.2).run s = (.ok r, t))
    (done : verb.settle r = .ok true) : (verb.visit body (e :: rest)).run s = (.ok [r], t) := by
  rw [visit, run_bind_ok first, done]
  rfl

theorem visit_next (first : (body e.1 e.2).run s = (.ok r, t)) (next : verb.settle r = .ok false) :
    (verb.visit body (e :: rest)).run s =
      (((verb.visit body rest).run t).1.map (r :: ·), ((verb.visit body rest).run t).2) := by
  rw [visit, run_bind_ok first, next]
  exact run_bind_pure (verb.visit body rest) (r :: ·) t

/-- A verb goes on with the rest after results that do not settle it. -/
theorem visit_append (h : Calls body es s rs t) (next : ∀ r ∈ rs, verb.settle r = .ok false) :
    (verb.visit body (es ++ rest)).run s =
      (((verb.visit body rest).run t).1.map (rs ++ ·), ((verb.visit body rest).run t).2) := by
  induction h with
  | nil s =>
    rcases others : (verb.visit body rest).run s with ⟨_ | rs, u⟩ <;> exact others
  | @cons e before s t u r rs first _ ih =>
    obtain ⟨now, later⟩ := List.forall_mem_cons.mp next
    rw [List.cons_append, visit_next first now, ih later]
    cases ((verb.visit body rest).run u).1 <;> rfl

private theorem visit_calls (h : Calls body es s rs t)
    (next : ∀ r ∈ rs, verb.settle r = .ok false) :
    (verb.visit body es).run s = (.ok rs, t) := by
  have all : (verb.visit body (es ++ [])).run s = (.ok (rs ++ []), t) := visit_append h next
  rwa [List.append_nil, List.append_nil] at all

/-- A verb that is never settled lists all results. -/
theorem visit_eq_ok (next : ∀ r, verb.settle r = .ok false) :
    (verb.visit body es).run s = (.ok rs, t) ↔ Calls body es s rs t := by
  refine ⟨fun h => ?_, fun h => visit_calls h fun r _ => next r⟩
  -- No result passes a test that none passes, so the calls succeed or one of them fails.
  rcases calls_cases body (fun _ => false) es s with
    ⟨rs', t', calls, -⟩ | ⟨r, t', passes, -⟩ |
      ⟨error, t', before, e, after, rs', u, rfl, calls, -, last⟩
  · rw [visit_calls calls fun r _ => next r] at h
    cases h
    exact calls
  · cases passes
  · rw [visit_append calls fun r _ => next r, visit_failed last] at h
    cases h

end Visits

theorem iterate_run (h : verb.entries source = .ok es) : (verb.iterate source body).run s =
    (((verb.visit body es).run s).1.map (verb.gather source es),
      ((verb.visit body es).run s).2) := by
  rw [iterate, h]
  exact run_bind_pure (verb.visit body es) (verb.gather source es) s

theorem iterate_run_error (h : verb.entries source = .error error) :
    (verb.iterate source body).run s = (.error error, s) := by
  rw [iterate, h]
  rfl

/-! ### Elements by their results -/

section Elements
variable {β : Type} {test : Value → Bool} {xs : List α} {x : α} {k : String}

/-- The elements whose results pass a test, in order. -/
def chosen (test : Value → Bool) (xs : List α) (rs : List Value) : List α :=
  ((xs.zip rs).filter fun x => test x.2).map Prod.fst

/-- Whether a result names a key. -/
def names (k : String) (r : Value) : Bool := r.propertyKey = .ok k

/-- Elements under the keys that their results name. -/
def labelled (xs : List α) (rs : List Value) : List (String × α) :=
  (xs.zip rs).map fun x => (keyName x.2, x.1)

private theorem labelled_map (f : α → β) :
    labelled (xs.map f) rs = (xs.zip rs).map fun x => (keyName x.2, f x.1) := by
  rw [labelled, List.zip_map_left, List.map_map]
  rfl

theorem chosen_map (f : α → β) : chosen test (xs.map f) rs = (chosen test xs rs).map f := by
  simp [chosen, List.zip_map_left, List.filter_map, Function.comp_def]

private theorem mem_chosen : x ∈ chosen test xs rs ↔ ∃ r, (x, r) ∈ xs.zip rs ∧ test r = true := by
  simp [chosen]

private theorem chosen_sublist (h : rs.length = xs.length) : (chosen test xs rs).Sublist xs := by
  have firsts : ((xs.zip rs).map Prod.fst).Sublist xs := by rw [List.map_fst_zip (by omega)]
  exact (List.filter_sublist.map _).trans firsts

private theorem exists_result (h : rs.length = xs.length) (hx : x ∈ xs) :
    ∃ r, (x, r) ∈ xs.zip rs := by
  have firsts : (xs.zip rs).map Prod.fst = xs := List.map_fst_zip (by omega)
  rw [← firsts] at hx
  obtain ⟨⟨_, r⟩, hr, rfl⟩ := List.mem_map.mp hx
  exact ⟨r, hr⟩

private theorem exists_element (h : rs.length = xs.length) (hr : r ∈ rs) :
    ∃ x, (x, r) ∈ xs.zip rs := by
  have seconds : (xs.zip rs).map Prod.snd = rs := List.map_snd_zip (by omega)
  rw [← seconds] at hr
  obtain ⟨⟨x, _⟩, hx, rfl⟩ := List.mem_map.mp hr
  exact ⟨x, hx⟩

private theorem chosen_eq_nil (h : rs.length = xs.length) :
    chosen test xs rs = [] ↔ ∀ r ∈ rs, test r = false := by
  simp only [List.eq_nil_iff_forall_not_mem, mem_chosen, not_exists, not_and, Bool.not_eq_true]
  constructor
  · intro empty r hr
    obtain ⟨x, hx⟩ := exists_element h hr
    exact empty x r hx
  · exact fun fail x r hx => fail r (List.of_mem_zip hx).2

private theorem valuesAt_labelled (valid : ∀ r ∈ rs, ∃ k, r.propertyKey = .ok k) :
    Fields.valuesAt k (labelled xs rs) = chosen (names k) xs rs := by
  have named (x : α × Value) (hx : x ∈ xs.zip rs) : decide (keyName x.2 = k) = names k x.2 := by
    obtain ⟨k', found⟩ := valid x.2 (List.of_mem_zip hx).2
    rw [names, decide_eq_decide, found, keyName, Value.propertyKey_eq_ok.mp found]
    simp
  rw [Fields.valuesAt, labelled, List.filter_map, List.map_map, chosen]
  exact congrArg (List.map Prod.fst) (List.filter_congr named)

/-- Fields by the keys that results name. Each key has what is made of all elements with it, in
order. -/
structure Groups (make : List α → Value) (groups : Fields Value) (xs : List α)
    (rs : List Value) : Prop where
  sorted : Fields.Sorted groups
  keys : ∀ k, k ∈ Fields.keys groups ↔ ∃ r ∈ rs, r.propertyKey = .ok k
  group : ∀ k ∈ Fields.keys groups, Fields.get? k groups = some (make (chosen (names k) xs rs))

private theorem exists_named (h : rs.length = xs.length) :
    chosen (names k) xs rs ≠ [] ↔ ∃ r ∈ rs, r.propertyKey = .ok k := by
  simp [chosen_eq_nil h, names]

private theorem groups_labelled (make : List α → Value) (h : rs.length = xs.length)
    (valid : ∀ r ∈ rs, ∃ k, r.propertyKey = .ok k) :
    Groups make (Fields.mapValues make (Fields.group (labelled xs rs))) xs rs := by
  have found (k : String) : Fields.get? k (Fields.mapValues make (Fields.group (labelled xs rs))) =
      if chosen (names k) xs rs = [] then none else some (make (chosen (names k) xs rs)) := by
    rw [Fields.get?_mapValues, Fields.get?_group, valuesAt_labelled valid]
    split <;> rfl
  have keys (k : String) : k ∈ Fields.keys (Fields.mapValues make (Fields.group (labelled xs rs))) ↔
      chosen (names k) xs rs ≠ [] := by
    simp only [Fields.mem_keys, ← Fields.get?_eq_some
      (Fields.sorted_mapValues (Fields.sorted_group (labelled xs rs))), found]
    split <;> simp_all
  refine ⟨Fields.sorted_mapValues (Fields.sorted_group _), fun k => ?_, fun k hk => ?_⟩
  · rw [keys, exists_named h]
  · rw [found, if_neg ((keys k).mp hk)]

/-- Where one element is kept for a key, it is the last one. -/
theorem get?_labelled (valid : ∀ r ∈ rs, ∃ k, r.propertyKey = .ok k) (k : String) :
    Fields.get? k (Fields.ofList (labelled xs rs)) = (chosen (names k) xs rs).getLast? := by
  rw [Fields.get?_ofList, valuesAt_labelled valid]

/-- One element for a key is kept exactly where there is a group. -/
theorem Groups.keys_labelled {make : List β → Value} {groups : Fields Value} {ys : List β}
    (grouped : Groups make groups ys rs) (h : rs.length = xs.length)
    (valid : ∀ r ∈ rs, ∃ k, r.propertyKey = .ok k) :
    Fields.keys (Fields.ofList (labelled xs rs)) = Fields.keys groups := by
  refine Fields.keys_eq_of_mem_iff (Fields.sorted_ofList _) grouped.sorted fun k => ?_
  rw [grouped.keys, ← exists_named h, Fields.mem_keys]
  simp only [← Fields.get?_eq_some (Fields.sorted_ofList (labelled xs rs)), get?_labelled valid]
  rw [← Option.isSome_iff_exists, List.getLast?_isSome]

end Elements

/-! ### Grouping -/

section Grouping
variable {items : List Value} {fields : Fields Value}

private theorem values_itemEntries (items : List Value) :
    (itemEntries items).map Prod.snd = items := by
  rw [itemEntries, List.map_map]
  exact List.zipIdx_map_fst 0 items

private theorem fields_fieldEntries (fields : Fields Value) :
    (fieldEntries fields).map (fun e => (keyName e.1, e.2)) = fields := by
  rw [fieldEntries, List.map_map]
  exact (List.map_congr_left fun e _ => rfl).trans (List.map_id fields)

private theorem values_fieldEntries (fields : Fields Value) :
    (fieldEntries fields).map Prod.snd = fields.map Prod.snd := by
  simp [fieldEntries]

private theorem Calls.length_items (h : Calls body (itemEntries items) s rs t) :
    rs.length = items.length := by
  rw [h.length_eq, itemEntries, List.length_map, List.length_zipIdx]

private theorem Calls.length_fields (h : Calls body (fieldEntries fields) s rs t) :
    rs.length = fields.length := by
  rw [h.length_eq, fieldEntries, List.length_map]

/-- A verb whose results are keys is run to its end by results that name some. -/
theorem iterate_keys (hv : verb = .keyBy ∨ verb = .mapKeys ∨ verb = .groupBy)
    (he : verb.entries source = .ok es) (calls : Calls body es s rs t)
    (valid : ∀ r ∈ rs, ∃ k, r.propertyKey = .ok k) :
    (verb.iterate source body).run s = (.ok (verb.gather source es rs), t) := by
  have next (r : Value) (hr : r ∈ rs) : verb.settle r = .ok false := by
    obtain ⟨k, named⟩ := valid r hr
    rcases hv with rfl | rfl | rfl <;> rw [settle, named] <;> rfl
  rw [iterate_run he, visit_calls calls next]
  rfl

theorem gather_byKey (hv : verb = .keyBy ∨ verb = .mapKeys) : verb.gather source es rs =
    .obj (Fields.ofList (labelled (es.map Prod.snd) rs)) := by
  rw [labelled_map]
  rcases hv with rfl | rfl <;> rfl

theorem gather_groupBy_arr : gather .groupBy (.arr items) es rs =
    .obj (Fields.mapValues .arr (Fields.group (labelled (es.map Prod.snd) rs))) := by
  rw [labelled_map]
  rfl

theorem gather_groupBy_obj : gather .groupBy (.obj fields) es rs =
    .obj (Fields.mapValues (fun g => .obj (Fields.ofList g))
      (Fields.group (labelled (es.map fun e => (keyName e.1, e.2)) rs))) := by
  rw [labelled_map]
  rfl

/-- Groups of elements, and fields with the last element of each group. -/
structure ArrayGrouped (groups keyed : Fields Value) (items rs : List Value) : Prop
    extends Groups .arr groups items rs where
  keys_eq : Fields.keys keyed = Fields.keys groups
  last : ∀ k, Fields.get? k keyed = (chosen (names k) items rs).getLast?

private theorem group_array (calls : Calls body (itemEntries items) s rs t)
    (valid : ∀ r ∈ rs, ∃ k, r.propertyKey = .ok k) :
    ∃ groups keyed : Fields Value,
      (groupBy.iterate (.arr items) body).run s = (.ok (.obj groups), t) ∧
      (keyBy.iterate (.arr items) body).run s = (.ok (.obj keyed), t) ∧
      ArrayGrouped groups keyed items rs := by
  have grouped : (groupBy.iterate (.arr items) body).run s = _ :=
    iterate_keys (by simp) rfl calls valid
  have keyed : (keyBy.iterate (.arr items) body).run s = _ :=
    iterate_keys (by simp) rfl calls valid
  have groups := groups_labelled .arr calls.length_items valid
  rw [gather_groupBy_arr, values_itemEntries] at grouped
  rw [gather_byKey (.inl rfl), values_itemEntries] at keyed
  have same := groups.keys_labelled calls.length_items valid
  exact ⟨_, _, grouped, keyed, groups, same, get?_labelled valid⟩

private theorem sorted_chosen {test : Value → Bool} (hs : Fields.Sorted fields)
    (h : rs.length = fields.length) : Fields.Sorted (chosen test fields rs) :=
  List.Pairwise.sublist (chosen_sublist h) hs

/-- A field has one result. -/
theorem result_unique (hs : Fields.Sorted fields) (h : rs.length = fields.length)
    {f f' : String × Value} {r r' : Value} (hr : (f, r) ∈ fields.zip rs)
    (hr' : (f', r') ∈ fields.zip rs) (same : f.1 = f'.1) : r = r' := by
  have sorted : Fields.Sorted ((fields.zip rs).map fun x => (x.1.1, x.2)) := by
    have firsts : (fields.zip rs).map Prod.fst = fields := List.map_fst_zip (by omega)
    rw [← firsts, Fields.Sorted, List.pairwise_map] at hs
    exact List.pairwise_map.mpr hs
  have found := Fields.get?_of_mem sorted (List.mem_map_of_mem hr)
  have found' := Fields.get?_of_mem sorted (List.mem_map_of_mem hr')
  dsimp only at found found'
  rw [same, found'] at found
  exact (Option.some.inj found).symm

section Groups
variable {groups : Fields Value} (h : Groups .obj groups fields rs)
include h

private theorem Groups.eq_chosen {k : String} {g : Fields Value}
    (found : Fields.get? k groups = some (.obj g)) : g = chosen (names k) fields rs := by
  have member := Fields.mem_keys.mpr ⟨_, Fields.mem_of_get? found⟩
  rw [h.group k member] at found
  cases found
  rfl

private theorem Groups.disjoint (hs : Fields.Sorted fields) (lengths : rs.length = fields.length)
    {k k' : String} {g g' : Fields Value} (different : k ≠ k')
    (found : Fields.get? k groups = some (.obj g))
    (found' : Fields.get? k' groups = some (.obj g')) : ∀ f ∈ g, ∀ f' ∈ g', f.1 ≠ f'.1 := by
  intro f hf f' hf' same
  rw [h.eq_chosen found, mem_chosen] at hf
  rw [h.eq_chosen found', mem_chosen] at hf'
  obtain ⟨r, hr, named⟩ := hf
  obtain ⟨r', hr', named'⟩ := hf'
  obtain rfl := result_unique hs lengths hr hr' same
  simp only [names, decide_eq_true_eq] at named named'
  rw [named] at named'
  exact different (Except.ok.inj named')

private theorem Groups.union (lengths : rs.length = fields.length)
    (valid : ∀ r ∈ rs, ∃ k, r.propertyKey = .ok k) (f : String × Value) :
    f ∈ fields ↔ ∃ k g, Fields.get? k groups = some (.obj g) ∧ f ∈ g := by
  constructor
  · intro hf
    obtain ⟨r, hr⟩ := exists_result lengths hf
    have result := (List.of_mem_zip hr).2
    obtain ⟨k, named⟩ := valid r result
    have member := (h.keys k).mpr ⟨r, result, named⟩
    exact ⟨k, _, h.group k member, mem_chosen.mpr ⟨r, hr, decide_eq_true named⟩⟩
  · rintro ⟨k, g, found, hf⟩
    rw [h.eq_chosen found] at hf
    exact (chosen_sublist lengths).subset hf

end Groups

/-- Groups of fields that have no name in common and have all fields together, and fields with the
value of the greatest name of each group. -/
structure ObjectGrouped (groups mapped fields : Fields Value) (rs : List Value) : Prop
    extends Groups .obj groups fields rs where
  disjoint : ∀ k k' g g', k ≠ k' → Fields.get? k groups = some (.obj g) →
    Fields.get? k' groups = some (.obj g') → ∀ f ∈ g, ∀ f' ∈ g', f.1 ≠ f'.1
  union : ∀ f, f ∈ fields ↔ ∃ k g, Fields.get? k groups = some (.obj g) ∧ f ∈ g
  keys_eq : Fields.keys mapped = Fields.keys groups
  greatest : ∀ k g, Fields.get? k groups = some (.obj g) →
    ∃ f ∈ g, (∀ f' ∈ g, f'.1 ≤ f.1) ∧ Fields.get? k mapped = some f.2

private theorem group_object (hs : Fields.Sorted fields)
    (calls : Calls body (fieldEntries fields) s rs t)
    (valid : ∀ r ∈ rs, ∃ k, r.propertyKey = .ok k) :
    ∃ groups mapped : Fields Value,
      (groupBy.iterate (.obj fields) body).run s = (.ok (.obj groups), t) ∧
      (mapKeys.iterate (.obj fields) body).run s = (.ok (.obj mapped), t) ∧
      ObjectGrouped groups mapped fields rs := by
  have lengths := calls.length_fields
  have grouped : (groupBy.iterate (.obj fields) body).run s = _ :=
    iterate_keys (by simp) rfl calls valid
  have mapped : (mapKeys.iterate (.obj fields) body).run s = _ :=
    iterate_keys (by simp) rfl calls valid
  rw [gather_groupBy_obj, fields_fieldEntries] at grouped
  rw [gather_byKey (.inr rfl), values_fieldEntries] at mapped
  have collected := groups_labelled (fun g => .obj (Fields.ofList g)) lengths valid
  generalize Fields.mapValues (fun g => Value.obj (Fields.ofList g)) _ = all at grouped collected
  have groups : Groups .obj all fields rs := by
    refine ⟨collected.sorted, collected.keys, fun k hk => ?_⟩
    rw [collected.group k hk, Fields.ofList_of_sorted (sorted_chosen hs lengths)]
  refine ⟨all, _, grouped, mapped, groups, fun _ _ _ _ => groups.disjoint hs lengths,
    groups.union lengths valid, groups.keys_labelled (by simpa using lengths) valid,
    fun k g found => ?_⟩
  have member := Fields.mem_keys.mpr ⟨_, Fields.mem_of_get? found⟩
  have nonempty := (exists_named lengths).mpr ((groups.keys k).mp member)
  obtain rfl := groups.eq_chosen found
  refine ⟨_, List.getLast_mem nonempty, ?_, ?_⟩
  · exact Fields.le_getLast (sorted_chosen hs lengths) nonempty
  · rw [get?_labelled valid, chosen_map, List.getLast?_map,
      List.getLast?_eq_some_getLast nonempty]
    rfl

end Grouping

/-! ### Filtering and searching -/

section Searching
variable {items : List Value} {fields : Fields Value} {v : Value}

private theorem entries_array (hv : verb.expects = .array) :
    verb.entries source = .ok es ↔ ∃ items, source = .arr items ∧ itemEntries items = es := by
  unfold entries
  rw [hv]
  cases source <;> simp

private theorem entries_object (hv : verb.expects = .object) :
    verb.entries source = .ok es ↔ ∃ fields, source = .obj fields ∧ fieldEntries fields = es := by
  unfold entries
  rw [hv]
  cases source <;> simp

/-- A verb that is never settled gathers the results of all calls. -/
theorem iterate_eq_ok (next : ∀ r, verb.settle r = .ok false) :
    (verb.iterate source body).run s = (.ok v, t) ↔ ∃ es rs, verb.entries source = .ok es ∧
      Calls body es s rs t ∧ verb.gather source es rs = v := by
  cases he : verb.entries source with
  | error e =>
    rw [iterate_run_error he]
    refine iff_of_false (fun h => ?_) ?_
    · cases h
    · rintro ⟨_, _, h, -⟩
      cases h
  | ok es =>
    rw [iterate_run he]
    constructor
    · intro h
      rcases visited : (verb.visit body es).run s with ⟨_ | rs, u⟩ <;> rw [visited] at h <;> cases h
      exact ⟨es, rs, rfl, (visit_eq_ok next).mp visited, rfl⟩
    · rintro ⟨_, rs, found, calls, rfl⟩
      cases found
      rw [(visit_eq_ok next).mpr calls]
      rfl

private theorem filterMap_zip {β : Type} (test : Value → Bool) (f : α → β) (xs : List α)
    (rs : List Value) :
    ((xs.zip rs).filterMap fun x => if test x.2 then some (f x.1) else none) =
      chosen test (xs.map f) rs := by
  rw [chosen_map, chosen, List.map_map]
  induction xs.zip rs with
  | nil => rfl
  | cons x rest ih =>
    cases passes : test x.2 <;> simp [passes, ih]

theorem gather_filter : gather .filter source es rs =
    .arr (chosen Value.truthy (es.map Prod.snd) rs) :=
  congrArg Value.arr (filterMap_zip Value.truthy Prod.snd es rs)

theorem gather_filterBy : gather .filterBy source es rs =
    .obj (Fields.ofList (chosen Value.truthy (es.map fun e => (keyName e.1, e.2)) rs)) :=
  congrArg (fun l => Value.obj (Fields.ofList l))
    (filterMap_zip Value.truthy (fun e => (keyName e.1, e.2)) es rs)

/-- Filtering keeps the elements of an array with truthy results. -/
theorem filter_eq_ok : (filter.iterate source body).run s = (.ok v, t) ↔
    ∃ items rs, source = .arr items ∧ Calls body (itemEntries items) s rs t ∧
      v = .arr (chosen Value.truthy items rs) := by
  have next (r : Value) : filter.settle r = .ok false := rfl
  have array : filter.expects = .array := rfl
  rw [iterate_eq_ok next]
  constructor
  · rintro ⟨es, rs, found, calls, rfl⟩
    obtain ⟨items, rfl, rfl⟩ := (entries_array array).mp found
    exact ⟨items, rs, rfl, calls, by rw [gather_filter, values_itemEntries]⟩
  · rintro ⟨items, rs, rfl, calls, rfl⟩
    exact ⟨_, rs, rfl, calls, by rw [gather_filter, values_itemEntries]⟩

/-- Filtering keeps the fields of an object with truthy results. -/
theorem filterBy_eq_ok : (filterBy.iterate source body).run s = (.ok v, t) ↔
    ∃ fields rs, source = .obj fields ∧ Calls body (fieldEntries fields) s rs t ∧
      v = .obj (Fields.ofList (chosen Value.truthy fields rs)) := by
  have next (r : Value) : filterBy.settle r = .ok false := rfl
  have object : filterBy.expects = .object := rfl
  rw [iterate_eq_ok next]
  constructor
  · rintro ⟨es, rs, found, calls, rfl⟩
    obtain ⟨fields, rfl, rfl⟩ := (entries_object object).mp found
    exact ⟨fields, rs, rfl, calls, by rw [gather_filterBy, fields_fieldEntries]⟩
  · rintro ⟨fields, rs, rfl, calls, rfl⟩
    exact ⟨_, rs, rfl, calls, by rw [gather_filterBy, fields_fieldEntries]⟩

private theorem filterBy_eq_ok_of_ordered (ordered : source.Ordered) :
    (filterBy.iterate source body).run s = (.ok v, t) ↔
      ∃ fields rs, source = .obj fields ∧ Calls body (fieldEntries fields) s rs t ∧
        v = .obj (chosen Value.truthy fields rs) := by
  rw [filterBy_eq_ok]
  refine exists_congr fun fields => exists_congr fun rs => and_congr_right fun is =>
    and_congr_right fun calls => ?_
  subst is
  rw [Fields.ofList_of_sorted (sorted_chosen ordered.1 calls.length_fields)]

/-- The verbs that search. -/
def searches : List CollectionVerb := [.any, .anyValues]

section Search
variable (hv : verb ∈ searches) (he : verb.entries source = .ok es)
include hv

private theorem settle_search (r : Value) : verb.settle r = .ok r.truthy := by
  simp only [searches, List.mem_cons, List.not_mem_nil, or_false] at hv
  rcases hv with rfl | rfl <;> rfl

private theorem settle_falsy (falsy : ∀ r ∈ rs, r.truthy = false) :
    ∀ r ∈ rs, verb.settle r = .ok false := by
  intro r hr
  rw [settle_search hv, falsy r hr]

private theorem gather_search : verb.gather source es rs = .bool (rs.any Value.truthy) := by
  simp only [searches, List.mem_cons, List.not_mem_nil, or_false] at hv
  rcases hv with rfl | rfl <;> rfl

include he

private theorem search_none (h : ∃ rs, Calls body es s rs t ∧ ∀ r ∈ rs, r.truthy = false) :
    (verb.iterate source body).run s = (.ok (.bool false), t) := by
  obtain ⟨rs, calls, falsy⟩ := h
  rw [iterate_run he, visit_calls calls (settle_falsy hv falsy), Except.map,
    gather_search hv,
    List.any_eq_false.mpr (by simpa using falsy)]

private theorem search_found (h : ∃ r, r.truthy = true ∧ Stops body Value.truthy es s (.ok r) t) :
    (verb.iterate source body).run s = (.ok (.bool true), t) := by
  obtain ⟨r, found, before, e, after, rs, u, rfl, calls, falsy, last⟩ := h
  have done : verb.settle r = .ok true := by rw [settle_search hv, found]
  rw [iterate_run he, visit_append calls (settle_falsy hv falsy), visit_settled last done]
  simp only [Except.map, gather_search hv, List.any_append, List.any_cons, found, Bool.true_or,
    Bool.or_true]

private theorem search_failed (stops : Stops body Value.truthy es s (.error error) t) :
    (verb.iterate source body).run s = (.error error, t) := by
  obtain ⟨before, e, after, rs, u, rfl, calls, falsy, last⟩ := stops
  rw [iterate_run he, visit_append calls (settle_falsy hv falsy), visit_failed last]
  rfl

/-- A search calls its function up to and including the first truthy result, or on all entries, or
up to the first failure. -/
theorem search_run :
    ((verb.iterate source body).run s = (.ok (.bool true), t) ↔
      ∃ r, r.truthy = true ∧ Stops body Value.truthy es s (.ok r) t) ∧
    ((verb.iterate source body).run s = (.ok (.bool false), t) ↔
      ∃ rs, Calls body es s rs t ∧ ∀ r ∈ rs, r.truthy = false) ∧
    ∀ error, (verb.iterate source body).run s = (.error error, t) ↔
      Stops body Value.truthy es s (.error error) t := by
  refine ⟨⟨fun h => ?_, search_found hv he⟩, ⟨fun h => ?_, search_none hv he⟩,
    fun error => ⟨fun h => ?_, search_failed hv he⟩⟩
  -- A run has one outcome, so the other two kinds of calls are ruled out each time.
  all_goals
    rcases calls_cases body Value.truthy es s with
      ⟨rs, u, falsy⟩ | ⟨r, u, found⟩ | ⟨failure, u, stops⟩
    · rw [search_none hv he ⟨rs, falsy⟩] at h
      cases h <;> exact ⟨rs, falsy⟩
    · rw [search_found hv he ⟨r, found⟩] at h
      cases h <;> exact ⟨r, found⟩
    · rw [search_failed hv he stops] at h
      cases h <;> exact stops

/-- Where all calls succeed, a search finds something exactly if a result is truthy. -/
theorem search_calls (calls : Calls body es s rs t) :
    ∃ u, (verb.iterate source body).run s = (.ok (.bool (rs.any Value.truthy)), u) := by
  rcases calls_cases body Value.truthy es s with ⟨rs', u, calls', falsy⟩ | ⟨r, u, found, stops⟩ |
    ⟨failure, u, stops⟩
  · obtain ⟨rfl, -⟩ := calls.deterministic calls'
    rw [List.any_eq_false.mpr (by simpa using falsy)]
    exact ⟨u, search_none hv he ⟨rs, calls', falsy⟩⟩
  · obtain ⟨r', hr, same⟩ := calls.of_stops stops
    cases same
    rw [List.any_eq_true.mpr ⟨r, hr, found⟩]
    exact ⟨u, search_found hv he ⟨r, found, stops⟩⟩
  · obtain ⟨r, -, same⟩ := calls.of_stops stops
    cases same

end Search

private theorem any_truthy {xs : List α} (h : rs.length = xs.length) :
    rs.any Value.truthy = !(chosen Value.truthy xs rs).isEmpty := by
  rw [Bool.eq_iff_iff, Bool.not_eq_true', List.isEmpty_eq_false_iff, ne_eq, chosen_eq_nil h]
  simp

/-- A search among elements finds something exactly if filtering them leaves some. -/
theorem any_of_filter (h : (filter.iterate source body).run s = (.ok (.arr items), t)) :
    ∃ u, (any.iterate source body).run s = (.ok (.bool !items.isEmpty), u) := by
  obtain ⟨all, rs, rfl, calls, kept⟩ := filter_eq_ok.mp h
  cases kept
  rw [← any_truthy calls.length_items]
  exact search_calls (by simp [searches]) rfl calls

private theorem anyValues_of_filterBy
    (h : (filterBy.iterate source body).run s = (.ok (.obj fields), t)) :
    ∃ u, (anyValues.iterate source body).run s = (.ok (.bool !fields.isEmpty), u) := by
  obtain ⟨all, rs, rfl, calls, kept⟩ := filterBy_eq_ok.mp h
  cases kept
  have same : (Fields.ofList (chosen Value.truthy all rs)).isEmpty =
      (chosen Value.truthy all rs).isEmpty := Fields.isEmpty_ofList _
  rw [same, ← any_truthy calls.length_fields]
  exact search_calls (by simp [searches]) rfl calls

end Searching

/-- Grouping neither loses nor repeats anything, and the verbs that group, filter and search agree
with each other, whatever the function does with its state. -/
theorem grouping_laws (body : Value → Value → ExceptT EvalError (StateM σ) Value) (s t : σ) :
    (∀ items rs, Calls body (itemEntries items) s rs t →
      (∀ r ∈ rs, ∃ k, r.propertyKey = .ok k) → ∃ groups keyed : Fields Value,
        (groupBy.iterate (.arr items) body).run s = (.ok (.obj groups), t) ∧
        (keyBy.iterate (.arr items) body).run s = (.ok (.obj keyed), t) ∧
        ArrayGrouped groups keyed items rs) ∧
    (∀ fields rs, Fields.Sorted fields → Calls body (fieldEntries fields) s rs t →
      (∀ r ∈ rs, ∃ k, r.propertyKey = .ok k) → ∃ groups mapped : Fields Value,
        (groupBy.iterate (.obj fields) body).run s = (.ok (.obj groups), t) ∧
        (mapKeys.iterate (.obj fields) body).run s = (.ok (.obj mapped), t) ∧
        ObjectGrouped groups mapped fields rs) ∧
    (∀ source v, (filter.iterate source body).run s = (.ok v, t) ↔
      ∃ items rs, source = .arr items ∧ Calls body (itemEntries items) s rs t ∧
        v = .arr (chosen Value.truthy items rs)) ∧
    (∀ (source : OrderedValue) v, (filterBy.iterate source body).run s = (.ok v, t) ↔
      ∃ fields rs, source.val = .obj fields ∧ Calls body (fieldEntries fields) s rs t ∧
        v = .obj (chosen Value.truthy fields rs)) ∧
    (∀ verb source es, verb ∈ searches → verb.entries source = .ok es →
      ((verb.iterate source body).run s = (.ok (.bool true), t) ↔
        ∃ r, r.truthy = true ∧ Stops body Value.truthy es s (.ok r) t) ∧
      ((verb.iterate source body).run s = (.ok (.bool false), t) ↔
        ∃ rs, Calls body es s rs t ∧ ∀ r ∈ rs, r.truthy = false) ∧
      ∀ error, (verb.iterate source body).run s = (.error error, t) ↔
        Stops body Value.truthy es s (.error error) t) ∧
    (∀ source items, (filter.iterate source body).run s = (.ok (.arr items), t) →
      ∃ u, (any.iterate source body).run s = (.ok (.bool !items.isEmpty), u)) ∧
    ∀ source fields, (filterBy.iterate source body).run s = (.ok (.obj fields), t) →
      ∃ u, (anyValues.iterate source body).run s = (.ok (.bool !fields.isEmpty), u) := by
  exact ⟨fun _ _ => group_array, fun _ _ => group_object, fun _ _ => filter_eq_ok,
    fun source _ => filterBy_eq_ok_of_ordered source.property, fun _ _ _ => search_run,
    fun _ _ => any_of_filter, fun _ _ => anyValues_of_filterBy⟩

/-- Gives every element back and notes the keys of the elements it was called on. -/
def noted (k v : Value) : ExceptT EvalError (StateM (List Value)) Value := do
  modify (k :: ·)
  return v

theorem grouping_laws_noted :
    (any.iterate (.arr [.int 0, .int 3, .int 4]) noted).run [] =
      (.ok (.bool true), [.int 1, .int 0]) ∧
    ∃ groups keyed : Fields Value,
      (groupBy.iterate (.arr [.int 1, .null, .str "1"]) noted).run [] =
        (.ok (.obj groups), [.int 2, .int 1, .int 0]) ∧
      (keyBy.iterate (.arr [.int 1, .null, .str "1"]) noted).run [] =
        (.ok (.obj keyed), [.int 2, .int 1, .int 0]) ∧
      Fields.get? "1" groups = some (.arr [.int 1, .str "1"]) ∧
      Fields.get? "1" keyed = some (.str "1") := by
  constructor
  · have search := (grouping_laws noted [] [.int 1, .int 0]).2.2.2.2.1 .any
      (.arr [.int 0, .int 3, .int 4]) _ (by simp [searches]) rfl
    refine search.1.mpr ⟨.int 3, rfl, [(.int 0, .int 0)], _, _, [.int 0], _, rfl,
      .cons rfl (.nil _), by simp [Value.truthy], rfl⟩
  · have calls : Calls noted (itemEntries [.int 1, .null, .str "1"]) []
        [.int 1, .null, .str "1"] [.int 2, .int 1, .int 0] :=
      .cons rfl (.cons rfl (.cons rfl (.nil _)))
    obtain ⟨groups, keyed, grouped, lasts, h⟩ := (grouping_laws noted [] _).1 _ _ calls (by
      simp only [List.mem_cons, List.not_mem_nil, or_false]
      rintro r (rfl | rfl | rfl)
      · exact ⟨"1", by decide⟩
      · exact ⟨"null", by decide⟩
      · exact ⟨"1", by decide⟩)
    have member := (h.keys "1").mpr ⟨.str "1", by simp, by decide⟩
    exact ⟨groups, keyed, grouped, lasts, (h.group "1" member).trans rfl,
      (h.last "1").trans rfl⟩

end CollectionVerb

end Recalc
