import Recalc.Proofs.Except
import Recalc.Proofs.Fields
import Recalc.Verb.Unary

/-! Objects merged into one. Of two fields with one name one verb takes the later and the other the
earlier, so each of them is the other on the reversed array. -/
namespace Recalc

namespace Fields
variable {α : Type}

/-- Sorted fields with the same values at all keys are the same. -/
theorem eq_of_get? {a b : Fields α} (ha : Sorted a) (hb : Sorted b)
    (h : ∀ key, get? key a = get? key b) : a = b := by
  refine eq_of_mem_iff ha hb fun e => ?_
  rw [← get?_eq_some ha, ← get?_eq_some hb, h]

end Fields

namespace Value

/-- The fields of an object. -/
def fields? : Value → Option (Fields Value)
  | obj fields => some fields
  | _ => none

/-- The value that an object has at a key. -/
def field? (key : String) (v : Value) : Option Value := v.fields?.bind (Fields.get? key)

/-- Null, which has no fields, or an object. -/
def Mergeable (v : Value) : Prop := v = null ∨ ∃ fields, v = obj fields

theorem fields?_eq_some {v : Value} {fields : Fields Value} :
    v.fields? = some fields ↔ v = obj fields := by
  cases v <;> simp [fields?]

end Value

namespace UnaryVerb
variable {earlierWins : Bool} {gathered fields : Fields Value} {out next : Option (Fields Value)}
variable {done items xs ys : List Value} {a b v : Value} {key : String}

/-! ### Steps of a merge -/

private theorem sorted_addFields (h : Fields.Sorted gathered) :
    Fields.Sorted (addFields earlierWins gathered fields) := by
  induction fields generalizing gathered with
  | nil => exact h
  | cons f rest ih =>
    refine ih ?_
    cases earlierWins with
    | false => exact Fields.sorted_insert h
    | true => exact Fields.sorted_insertNew h

/-- Of two values, the one that counts in a merge. -/
def prevailing (earlierWins : Bool) (earlier later : Option Value) : Option Value :=
  if earlierWins then earlier.or later else later.or earlier

/-- Names of the added object are distinct, so each of its fields meets the gathered ones only. -/
theorem get?_addFields (sorted : Fields.Sorted fields) :
    Fields.get? key (addFields earlierWins gathered fields) =
      prevailing earlierWins (Fields.get? key gathered) (Fields.get? key fields) := by
  induction fields generalizing gathered with
  | nil => cases earlierWins <;> simp [addFields, prevailing, Fields.get?]
  | cons f rest ih =>
    obtain ⟨k, v⟩ := f
    obtain ⟨least, others⟩ := List.pairwise_cons.mp sorted
    have absent : Fields.get? k rest = none := by
      refine Option.eq_none_iff_forall_not_mem.mpr fun w found => ?_
      exact String.lt_irrefl k (least _ (Fields.mem_of_get? found))
    refine (ih others).trans ?_
    cases earlierWins with
    | false =>
      simp only [prevailing, Bool.false_eq_true, if_false, Fields.get?_insert, Fields.get?]
      split
      · rename_i same
        rw [← same, absent, Option.none_or, Option.some_or]
      · rfl
    | true =>
      simp only [prevailing, if_true, Fields.get?_insertNew, Fields.get?, Option.or_assoc]
      split
      · rename_i same
        rw [← same, absent, Option.or_none]
      · rw [Option.none_or]

/-- The value of a field in the first or in the last element with it. -/
def fieldIn (earlierWins : Bool) (key : String) (items : List Value) : Option Value :=
  (if earlierWins then items else items.reverse).findSome? (Value.field? key)

private theorem fieldIn_append : fieldIn earlierWins key (xs ++ ys) =
    prevailing earlierWins (fieldIn earlierWins key xs) (fieldIn earlierWins key ys) := by
  cases earlierWins with
  | false => simp only [fieldIn, prevailing, Bool.false_eq_true, if_false, List.reverse_append,
      List.findSome?_append]
  | true => simp only [fieldIn, prevailing, if_true, List.findSome?_append]

private theorem fieldIn_singleton : fieldIn earlierWins key [v] = v.field? key := by
  cases earlierWins <;> simp [fieldIn]

/-- What is gathered when some elements of an array are done: the fields of all objects among them,
each with the value that counts. -/
structure Gathered (earlierWins : Bool) (done : List Value) (fields : Fields Value) : Prop where
  sorted : Fields.Sorted fields
  get?_eq : ∀ key, Fields.get? key fields = fieldIn earlierWins key done

private theorem Gathered.unique {other : Fields Value} (h : Gathered earlierWins items fields)
    (h' : Gathered earlierWins items other) : fields = other :=
  Fields.eq_of_get? h.sorted h'.sorted fun key => (h.get?_eq key).trans (h'.get?_eq key).symm

private theorem mergeStep_exists_ok :
    (∃ next, mergeStep earlierWins out v = .ok next) ↔ v.Mergeable := by
  cases v with
  | obj fields => cases out <;> simp [mergeStep, Value.Mergeable]
  | _ => simp [mergeStep, Value.Mergeable]

/-- One element more is done after each step. -/
theorem Gathered.step (h : Gathered earlierWins done (out.getD []))
    (sorted : ∀ fields, v = .obj fields → Fields.Sorted fields)
    (stepped : mergeStep earlierWins out v = .ok next) :
    Gathered earlierWins (done ++ [v]) (next.getD []) := by
  have more (key : String) : fieldIn earlierWins key (done ++ [v]) =
      prevailing earlierWins (Fields.get? key (out.getD [])) (v.field? key) := by
    rw [fieldIn_append, fieldIn_singleton, h.get?_eq]
  cases v with
  | null =>
    cases stepped
    refine ⟨h.sorted, fun key => ?_⟩
    rw [more]
    cases earlierWins <;> simp [prevailing, Value.field?, Value.fields?]
  | obj fields =>
    have own := sorted fields rfl
    cases out with
    | none =>
      cases stepped
      refine ⟨own, fun key => ?_⟩
      rw [more]
      cases earlierWins <;> simp [prevailing, Value.field?, Value.fields?, Fields.get?]
    | some gathered =>
      cases stepped
      refine ⟨sorted_addFields h.sorted, fun key => ?_⟩
      rw [more]
      exact get?_addFields own
  | _ => cases stepped

/-! ### Merges -/

/-- Steps go on as long as the elements are objects or null. -/
theorem foldlM_mergeStep_exists_ok :
    (∃ next, items.foldlM (mergeStep earlierWins) out = .ok next) ↔ ∀ v ∈ items, v.Mergeable := by
  induction items generalizing out with
  | nil => simp [pure, Except.pure]
  | cons v rest ih =>
    simp only [List.foldlM_cons, except_exists_bind, ih, List.forall_mem_cons, exists_and_right,
      mergeStep_exists_ok]

/-- From what is gathered of some elements, the steps over the rest gather all of them. -/
theorem Gathered.run (h : Gathered earlierWins done (out.getD []))
    (sorted : ∀ fields, .obj fields ∈ items → Fields.Sorted fields)
    (ran : items.foldlM (mergeStep earlierWins) out = .ok next) :
    Gathered earlierWins (done ++ items) (next.getD []) := by
  induction items generalizing done out with
  | nil =>
    cases ran
    rwa [List.append_nil]
  | cons v rest ih =>
    rw [List.foldlM_cons] at ran
    obtain ⟨middle, first, ran⟩ := except_bind_eq_ok.mp ran
    have stepped := h.step (fun fields same => sorted fields (same ▸ List.mem_cons_self)) first
    have others := ih stepped
      (fun fields member => sorted fields (List.mem_cons_of_mem _ member)) ran
    rwa [List.append_assoc] at others

private theorem gathered_none : Gathered earlierWins [] ((none : Option (Fields Value)).getD []) :=
  ⟨List.Pairwise.nil, fun key => by cases earlierWins <;> rfl⟩

private theorem merge_exists_ok :
    (∃ v, merge earlierWins (.arr items) = .ok v) ↔ ∀ v ∈ items, v.Mergeable := by
  rw [merge, except_exists_bind, ← foldlM_mergeStep_exists_ok]
  exact exists_congr fun next => and_iff_left ⟨_, rfl⟩

/-- An array merges exactly if its elements are objects or null, into one object with all their
fields, each with the value that counts. -/
theorem merge_eq_ok (sorted : ∀ fields, .obj fields ∈ items → Fields.Sorted fields) :
    merge earlierWins (.arr items) = .ok v ↔
      (∀ v ∈ items, v.Mergeable) ∧
        ∃ fields, v = .obj fields ∧ Gathered earlierWins items fields := by
  have gathers {next} (ran : items.foldlM (mergeStep earlierWins) none = .ok next) :
      Gathered earlierWins items (next.getD []) := gathered_none.run sorted ran
  rw [merge, except_bind_eq_ok]
  constructor
  · rintro ⟨next, ran, ⟨⟩⟩
    exact ⟨foldlM_mergeStep_exists_ok.mp ⟨next, ran⟩, _, rfl, gathers ran⟩
  · rintro ⟨all, fields, rfl, gathered⟩
    obtain ⟨next, ran⟩ := foldlM_mergeStep_exists_ok.mpr all
    refine ⟨next, ran, ?_⟩
    rw [gathered.unique (gathers ran)]
    rfl

private theorem mem_keys_gathered (h : Gathered earlierWins items gathered) :
    key ∈ Fields.keys gathered ↔ ∃ fields, .obj fields ∈ items ∧ key ∈ Fields.keys fields := by
  have elements : (∃ v, fieldIn earlierWins key items = some v) ↔
      ∃ item ∈ items, ∃ v, item.field? key = some v := by
    simp only [← Option.isSome_iff_exists]
    cases earlierWins <;> simp [fieldIn]
  simp only [Fields.mem_keys_iff_get?, h.get?_eq, elements]
  constructor
  · rintro ⟨item, member, v, found⟩
    obtain ⟨fields, object, found⟩ := Option.bind_eq_some_iff.mp found
    exact ⟨fields, Value.fields?_eq_some.mp object ▸ member, v, found⟩
  · rintro ⟨fields, member, v, found⟩
    exact ⟨.obj fields, member, v, found⟩

/-- The first element with a field is the last one of the reversed array. -/
theorem gathered_reverse : Gathered true xs.reverse fields ↔ Gathered false xs fields :=
  ⟨fun h => ⟨h.sorted, h.get?_eq⟩, fun h => ⟨h.sorted, h.get?_eq⟩⟩

/-- What is gathered of two parts is gathered of the whole. -/
theorem Gathered.append_iff {as bs : Fields Value} (ha : Gathered earlierWins xs as)
    (hb : Gathered earlierWins ys bs) :
    Gathered earlierWins (xs ++ ys) fields ↔ Gathered earlierWins [.obj as, .obj bs] fields := by
  have same (key : String) : fieldIn earlierWins key (xs ++ ys) =
      fieldIn earlierWins key ([.obj as] ++ [.obj bs]) := by
    rw [fieldIn_append, fieldIn_append, fieldIn_singleton, fieldIn_singleton, ← ha.get?_eq,
      ← hb.get?_eq]
    rfl
  exact ⟨fun h => ⟨h.sorted, fun key => (h.get?_eq key).trans (same key)⟩,
    fun h => ⟨h.sorted, fun key => (h.get?_eq key).trans (same key).symm⟩⟩

/-- Arrays may be merged in parts. -/
theorem merge_append (sorted : ∀ fields, .obj fields ∈ xs ++ ys → Fields.Sorted fields)
    (ha : merge earlierWins (.arr xs) = .ok a) (hb : merge earlierWins (.arr ys) = .ok b) :
    ∃ c, merge earlierWins (.arr (xs ++ ys)) = .ok c ∧ merge earlierWins (.arr [a, b]) = .ok c := by
  obtain ⟨first, as, rfl, left⟩ := (merge_eq_ok fun fields member =>
    sorted fields (List.mem_append_left ys member)).mp ha
  obtain ⟨second, bs, rfl, right⟩ := (merge_eq_ok fun fields member =>
    sorted fields (List.mem_append_right xs member)).mp hb
  have all : ∀ v ∈ xs ++ ys, v.Mergeable := List.forall_mem_append.mpr ⟨first, second⟩
  have parts : ∀ v ∈ [Value.obj as, .obj bs], v.Mergeable := by simp [Value.Mergeable]
  have ordered : ∀ fields, .obj fields ∈ [Value.obj as, .obj bs] → Fields.Sorted fields := by
    simp only [List.mem_cons, Value.obj.injEq, List.not_mem_nil, or_false]
    rintro _ (rfl | rfl)
    · exact left.sorted
    · exact right.sorted
  obtain ⟨next, ran⟩ := foldlM_mergeStep_exists_ok.mpr all
  have gathered := gathered_none.run sorted ran
  exact ⟨_, (merge_eq_ok sorted).mpr ⟨all, _, rfl, gathered⟩,
    (merge_eq_ok ordered).mpr ⟨parts, _, rfl, (left.append_iff right).mp gathered⟩⟩

/-- An array of objects with sorted fields is assigned exactly if all its elements are objects or
null, and exactly if its reverse gives defaults. Both give one object, in which each name has the
value of the last element with it, and both may be taken in parts. -/
theorem assign_mirrors_defaults (xs ys : List Value)
    (sorted : ∀ fields, .obj fields ∈ xs ++ ys → Fields.Sorted fields) :
    ((∃ v, apply .assign (.arr xs) = .ok v) ↔ ∀ v ∈ xs, v = .null ∨ ∃ fields, v = .obj fields) ∧
    ((∃ v, apply .assign (.arr xs) = .ok v) ↔ ∃ v, apply .defaults (.arr xs.reverse) = .ok v) ∧
    (∀ v, apply .assign (.arr xs) = .ok v →
      apply .defaults (.arr xs.reverse) = .ok v ∧
      ∃ out : Fields Value, v = .obj out ∧ Fields.Sorted out ∧
        (∀ key, key ∈ Fields.keys out ↔
          ∃ fields, .obj fields ∈ xs ∧ key ∈ Fields.keys fields) ∧
        ∀ key, Fields.get? key out = xs.reverse.findSome? (Value.field? key)) ∧
    (∀ a b, apply .assign (.arr xs) = .ok a → apply .assign (.arr ys) = .ok b →
      ∃ c, apply .assign (.arr (xs ++ ys)) = .ok c ∧ apply .assign (.arr [a, b]) = .ok c) ∧
    ∀ a b, apply .defaults (.arr xs) = .ok a → apply .defaults (.arr ys) = .ok b →
      ∃ c, apply .defaults (.arr (xs ++ ys)) = .ok c ∧ apply .defaults (.arr [a, b]) = .ok c := by
  have here : ∀ fields, .obj fields ∈ xs → Fields.Sorted fields := fun fields member =>
    sorted fields (List.mem_append_left ys member)
  have assigned (v : Value) : apply .assign (.arr xs) = .ok v ↔
      (∀ v ∈ xs, v.Mergeable) ∧ ∃ fields, v = .obj fields ∧ Gathered false xs fields :=
    merge_eq_ok here
  have mirrored (v : Value) :
      apply .assign (.arr xs) = .ok v ↔ apply .defaults (.arr xs.reverse) = .ok v := by
    refine (assigned v).trans (Iff.trans ?_ (merge_eq_ok (by simpa using here)).symm)
    simp only [List.mem_reverse, gathered_reverse]
  refine ⟨merge_exists_ok, exists_congr mirrored, fun v result => ⟨(mirrored v).mp result, ?_⟩,
    fun _ _ => merge_append sorted, fun _ _ => merge_append sorted⟩
  obtain ⟨-, out, rfl, gathered⟩ := (assigned v).mp result
  exact ⟨out, rfl, gathered.sorted, fun key => mem_keys_gathered gathered, gathered.get?_eq⟩

/-- Three layers of settings, of which the second one is missing. -/
def layers : List Value :=
  [.obj [("depth", .int 1), ("name", .str "base")], .null,
    .obj [("depth", .null), ("size", .int 3)]]

theorem assign_mirrors_defaults_layers :
    (∀ fields, .obj fields ∈ layers ++ layers → Fields.Sorted fields) ∧
      ∃ out b : Fields Value,
        apply .assign (.arr layers) = .ok (.obj out) ∧
        apply .defaults (.arr layers.reverse) = .ok (.obj out) ∧
        Fields.get? "depth" out = some .null ∧ Fields.get? "name" out = some (.str "base") ∧
        (∃ c, apply .assign (.arr (layers ++ layers)) = .ok c ∧
          apply .assign (.arr [.obj out, .obj out]) = .ok c) ∧
        apply .defaults (.arr layers) = .ok (.obj b) ∧ Fields.get? "depth" b = some (.int 1) ∧
        ∃ c, apply .defaults (.arr (layers ++ layers)) = .ok c ∧
          apply .defaults (.arr [.obj b, .obj b]) = .ok c := by
  have sorted : ∀ fields, .obj fields ∈ layers ++ layers → Fields.Sorted fields := by
    simp only [layers, List.mem_append, or_self, List.mem_cons, List.not_mem_nil, Value.obj.injEq,
      reduceCtorEq, or_false, false_or]
    rintro fields (rfl | rfl) <;> exact List.pairwise_pair.mpr (by decide)
  have mergeable : ∀ v ∈ layers, v.Mergeable := by simp [layers, Value.Mergeable]
  obtain ⟨w, defaults⟩ := merge_exists_ok.mpr mergeable
  obtain ⟨-, b, rfl, first⟩ := (merge_eq_ok fun fields member =>
    sorted fields (List.mem_append_left layers member)).mp defaults
  obtain ⟨succeeds, -, result, assignParts, defaultParts⟩ :=
    assign_mirrors_defaults layers layers sorted
  obtain ⟨v, assigned⟩ := succeeds.mpr mergeable
  obtain ⟨mirrored, out, rfl, -, -, last⟩ := result v assigned
  exact ⟨sorted, out, b, assigned, mirrored, (last "depth").trans rfl, (last "name").trans rfl,
    assignParts _ _ assigned assigned, defaults, (first.get?_eq "depth").trans rfl,
    defaultParts _ _ defaults defaults⟩

end UnaryVerb

end Recalc
