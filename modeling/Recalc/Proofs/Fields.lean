import Mathlib.Data.List.Forall2
import Mathlib.Tactic.Common
import Recalc.Fields

/-! Fields as finite maps: what collecting and grouping entries keeps of them, that a name has one
entry when keys are strictly increasing, and which entries are found by a key. -/
namespace Recalc.Fields
variable {α β : Type}

/-! ### Sorted fields -/

theorem sorted_group (entries : List (String × α)) : Sorted (group entries) := sorted_toList _

/-- With strictly increasing keys, every entry is the one found by its key. -/
theorem get?_of_mem {fields : Fields α} (hs : Sorted fields) {key : String} {v : α}
    (h : (key, v) ∈ fields) : get? key fields = some v := by
  induction fields with
  | nil => cases h
  | cons e rest ih =>
    obtain ⟨k, w⟩ := e
    obtain ⟨hlt, hs⟩ := List.pairwise_cons.mp hs
    rcases List.mem_cons.mp h with h | h
    · cases h
      rw [get?, if_pos rfl]
    · have hne : k ≠ key := fun he => absurd (hlt _ h) (he ▸ String.lt_irrefl k)
      rw [get?, if_neg hne]
      exact ih hs h

theorem mem_of_get? {fields : Fields α} {key : String} {v : α} (h : get? key fields = some v) :
    (key, v) ∈ fields := by
  induction fields with
  | nil => cases h
  | cons e rest ih =>
    obtain ⟨k, w⟩ := e
    rw [get?] at h
    split at h
    · cases h
      simp_all
    · exact List.mem_cons_of_mem _ (ih h)

/-- Sorted fields with the same entries are the same. -/
theorem eq_of_mem_iff {a b : Fields α} (ha : Sorted a) (hb : Sorted b)
    (h : ∀ e, e ∈ a ↔ e ∈ b) : a = b := by
  have nodup {l : Fields α} (hl : Sorted l) : l.Nodup := by
    refine List.Pairwise.imp (fun {x y} hlt he => ?_) hl
    subst he
    exact String.lt_irrefl _ hlt
  refine List.Perm.eq_of_pairwise (fun x y _ _ hx hy => ?_) ha hb
    ((List.perm_ext_iff_of_nodup (nodup ha) (nodup hb)).mpr h)
  exact absurd (String.lt_trans hx hy) (String.lt_irrefl _)

/-- The last of sorted fields has the greatest name. -/
theorem le_getLast {fields : Fields α} (hs : Sorted fields) (h : fields ≠ []) :
    ∀ f ∈ fields, f.1 ≤ (fields.getLast h).1 := by
  intro f hf
  rw [← List.dropLast_concat_getLast h] at hs hf
  obtain ⟨-, -, below⟩ := List.pairwise_append.mp hs
  rcases List.mem_append.mp hf with before | last
  · exact String.not_lt.mp (String.lt_asymm (below f before _ List.mem_cons_self))
  · obtain rfl := List.mem_singleton.mp last
    exact String.le_refl _

/-! ### Where entries come from -/

private theorem mem_insertMany (entries : List (String × α)) (t : Std.TreeMap String α)
    {key : String} {v : α} (h : (t.insertMany entries)[key]? = some v) :
    (key, v) ∈ entries ∨ t[key]? = some v := by
  induction entries generalizing t with
  | nil => exact Or.inr h
  | cons e rest ih =>
    obtain ⟨k, w⟩ := e
    rw [Std.TreeMap.insertMany_cons] at h
    rcases ih _ h with h | h
    · exact Or.inl (List.mem_cons_of_mem _ h)
    · rw [Std.TreeMap.getElem?_insert] at h
      split at h
      · rename_i hk
        cases h
        obtain rfl := Std.LawfulEqCmp.eq_of_compare hk
        exact Or.inl List.mem_cons_self
      · exact Or.inr h

theorem mem_of_mem_ofList {entries : List (String × α)} {e : String × α} (h : e ∈ ofList entries) :
    e ∈ entries := by
  obtain ⟨k, v⟩ := e
  rw [ofList, Std.TreeMap.mem_toList_iff_getElem?_eq_some,
    Std.TreeMap.ofList_eq_insertMany_empty] at h
  rcases mem_insertMany entries ∅ h with h | h
  · exact h
  · simp at h

private theorem getElem?_insertMany_map (f : α → β) (entries : List (String × α))
    (t : Std.TreeMap String α) (u : Std.TreeMap String β)
    (h : ∀ k : String, u[k]? = t[k]?.map f) (key : String) :
    (u.insertMany (entries.map fun e => (e.1, f e.2)))[key]? =
      (t.insertMany entries)[key]?.map f := by
  induction entries generalizing t u with
  | nil => exact h key
  | cons e rest ih =>
    rw [List.map_cons, Std.TreeMap.insertMany_cons, Std.TreeMap.insertMany_cons]
    refine ih _ _ fun k => ?_
    rw [Std.TreeMap.getElem?_insert, Std.TreeMap.getElem?_insert, h]
    split <;> rfl

/-- Collecting entries leaves the values as they are, so it does not matter when they are changed. -/
theorem ofList_map (f : α → β) (entries : List (String × α)) :
    ofList (entries.map fun e => (e.1, f e.2)) = mapValues f (ofList entries) := by
  refine eq_of_mem_iff (sorted_ofList _) (sorted_mapValues (sorted_ofList _)) fun e => ?_
  obtain ⟨k, w⟩ := e
  have key := getElem?_insertMany_map f entries ∅ ∅ (by simp) k
  simp only [ofList, mapValues, List.mem_map, Prod.mk.injEq, Prod.exists,
    Std.TreeMap.mem_toList_iff_getElem?_eq_some, Std.TreeMap.ofList_eq_insertMany_empty, key,
    Option.map_eq_some_iff]
  constructor
  · rintro ⟨v, hv, rfl⟩
    exact ⟨k, v, hv, rfl, rfl⟩
  · rintro ⟨_, v, hv, rfl, rfl⟩
    exact ⟨v, hv, rfl⟩

/-- Entries that are related one by one are so after they are collected. -/
theorem forall₂_ofList {R : α → β → Prop} {as : List (String × α)} {bs : List (String × β)}
    (h : List.Forall₂ (fun a b => a.1 = b.1 ∧ R a.2 b.2) as bs) :
    List.Forall₂ (fun a b => a.1 = b.1 ∧ R a.2 b.2) (ofList as) (ofList bs) := by
  -- Both lists are images of one list of pairs.
  obtain ⟨pairs, rfl, rfl, related⟩ : ∃ pairs : List (String × α × β),
      as = pairs.map (fun p => (p.1, p.2.1)) ∧ bs = pairs.map (fun p => (p.1, p.2.2)) ∧
        ∀ p ∈ pairs, R p.2.1 p.2.2 := by
    induction h with
    | nil => exact ⟨[], rfl, rfl, by simp⟩
    | @cons a b _ _ first _ ih =>
      obtain ⟨pairs, rfl, rfl, related⟩ := ih
      refine ⟨(a.1, a.2, b.2) :: pairs, rfl, ?_, List.forall_mem_cons.mpr ⟨first.2, related⟩⟩
      simp [first.1]
  rw [ofList_map (fun p : α × β => p.1), ofList_map (fun p : α × β => p.2), mapValues, mapValues,
    List.forall₂_map_left_iff, List.forall₂_map_right_iff, List.forall₂_same]
  intro p hp
  exact ⟨rfl, related p (mem_of_mem_ofList hp)⟩

private theorem some_of_mem_getD {o : Option (List α)} {v : α} (h : v ∈ o.getD []) :
    ∃ vs, o = some vs ∧ v ∈ vs := by
  cases o with
  | none => cases h
  | some vs => exact ⟨vs, rfl, h⟩

theorem mem_of_mem_group {entries : List (String × α)} {key : String} {vs : List α}
    (h : (key, vs) ∈ group entries) {v : α} (hv : v ∈ vs) : (key, v) ∈ entries := by
  rw [group, Std.TreeMap.mem_toList_iff_getElem?_eq_some] at h
  induction entries generalizing vs with
  | nil => simp at h
  | cons e rest ih =>
    obtain ⟨k, w⟩ := e
    rw [List.foldr_cons, Std.TreeMap.getElem?_insert] at h
    split at h
    · rename_i hk
      obtain rfl := Std.LawfulEqCmp.eq_of_compare hk
      cases h
      rcases List.mem_cons.mp hv with rfl | hv
      · exact List.mem_cons_self
      · rw [Std.TreeMap.getD_eq_getD_getElem?] at hv
        obtain ⟨ws, hr, hw⟩ := some_of_mem_getD hv
        exact List.mem_cons_of_mem _ (ih hr hw)
    · exact List.mem_cons_of_mem _ (ih h hv)

/-! ### Finding entries by key -/

theorem get?_eq_some {fields : Fields α} (hs : Sorted fields) {key : String} {v : α} :
    get? key fields = some v ↔ (key, v) ∈ fields := ⟨mem_of_get?, get?_of_mem hs⟩

private theorem get?_toList (t : Std.TreeMap String α) (key : String) :
    get? key t.toList = t[key]? := by
  refine Option.ext fun v => ?_
  rw [get?_eq_some (sorted_toList t), Std.TreeMap.mem_toList_iff_getElem?_eq_some]

theorem mem_keys {fields : Fields α} {key : String} :
    key ∈ keys fields ↔ ∃ v, (key, v) ∈ fields := by
  simp [keys]

theorem mem_keys_iff_get? {fields : Fields α} {key : String} :
    key ∈ keys fields ↔ ∃ v, get? key fields = some v := by
  induction fields with
  | nil => simp [keys, get?]
  | cons e rest ih =>
    obtain ⟨k, w⟩ := e
    rw [keys, List.map_cons, List.mem_cons, get?]
    by_cases same : k = key
    · simp [same]
    · rw [if_neg same, ← ih]
      exact or_iff_right (Ne.symm same)

theorem get?_mapValues (f : α → β) (fields : Fields α) (key : String) :
    get? key (mapValues f fields) = (get? key fields).map f := by
  induction fields with
  | nil => rfl
  | cons e rest ih =>
    rw [mapValues, List.map_cons, get?, get?]
    split
    · rfl
    · exact ih

theorem keys_mapValues (f : α → β) (fields : Fields α) :
    keys (mapValues f fields) = keys fields := by
  simp [keys, mapValues]

/-- Sorted fields with the same names have them in the same order. -/
theorem keys_eq_of_mem_iff {a : Fields α} {b : Fields β} (ha : Sorted a) (hb : Sorted b)
    (h : ∀ key, key ∈ keys a ↔ key ∈ keys b) : keys a = keys b := by
  have named {γ : Type} (l : Fields γ) (e : String × Unit) :
      e ∈ mapValues (fun _ => ()) l ↔ e.1 ∈ keys l := by
    simp [mapValues, keys, Prod.ext_iff]
  have same := eq_of_mem_iff (sorted_mapValues ha) (sorted_mapValues hb) fun e => by
    rw [named a e, named b e, h]
  rw [← keys_mapValues (fun _ => ()) a, same, keys_mapValues]

/-- The values of entries with a key, in the order of the entries. -/
def valuesAt (key : String) (entries : List (String × α)) : List α :=
  (entries.filter fun e => e.1 = key).map Prod.snd

private theorem valuesAt_cons (key : String) (e : String × α) (rest : List (String × α)) :
    valuesAt key (e :: rest) =
      if e.1 = key then e.2 :: valuesAt key rest else valuesAt key rest := by
  rw [valuesAt, List.filter_cons]
  simp only [decide_eq_true_eq]
  split <;> rfl

private theorem getElem?_insertMany (entries : List (String × α)) (t : Std.TreeMap String α)
    (key : String) : (t.insertMany entries)[key]? = (valuesAt key entries).getLast?.or t[key]? := by
  induction entries generalizing t with
  | nil => rfl
  | cons e rest ih =>
    obtain ⟨k, v⟩ := e
    rw [Std.TreeMap.insertMany_cons, ih, valuesAt_cons, Std.TreeMap.getElem?_insert]
    by_cases same : k = key
    · subst same
      cases last : (valuesAt k rest).getLast? <;> simp [List.getLast?_cons, last]
    · simp [same]

/-- Of the entries with one key, the last counts. -/
theorem get?_ofList (entries : List (String × α)) (key : String) :
    get? key (ofList entries) = (valuesAt key entries).getLast? := by
  rw [ofList, get?_toList, Std.TreeMap.ofList_eq_insertMany_empty, getElem?_insertMany]
  simp

theorem isEmpty_ofList (entries : List (String × α)) :
    (ofList entries).isEmpty = entries.isEmpty := by
  rw [Bool.eq_iff_iff, List.isEmpty_iff, List.isEmpty_iff]
  constructor
  · intro empty
    cases entries with
    | nil => rfl
    | cons e rest =>
      have last := get?_ofList (e :: rest) e.1
      rw [empty, valuesAt_cons, if_pos rfl, List.getLast?_cons] at last
      cases last
  · rintro rfl
    rfl

/-- All entries with one key are in its group. -/
theorem get?_group (entries : List (String × α)) (key : String) :
    get? key (group entries) =
      if valuesAt key entries = [] then none else some (valuesAt key entries) := by
  rw [group, get?_toList]
  induction entries with
  | nil => rfl
  | cons e rest ih =>
    obtain ⟨k, v⟩ := e
    rw [List.foldr_cons, Std.TreeMap.getElem?_insert, valuesAt_cons]
    by_cases same : k = key
    · subst same
      rw [if_pos Std.ReflCmp.compare_self, if_pos rfl, if_neg (List.cons_ne_nil _ _),
        Std.TreeMap.getD_eq_getD_getElem?, ih]
      split
      · rename_i none
        rw [none]
        rfl
      · rfl
    · rw [if_neg same, if_neg (mt Std.LawfulEqCmp.eq_of_compare same), ih]

private theorem valuesAt_of_sorted {fields : Fields α} (hs : Sorted fields) (key : String) :
    valuesAt key fields = (get? key fields).toList := by
  induction fields with
  | nil => rfl
  | cons e rest ih =>
    obtain ⟨k, v⟩ := e
    obtain ⟨least, sorted⟩ := List.pairwise_cons.mp hs
    rw [valuesAt_cons, get?, ih sorted]
    split
    · rename_i same
      subst same
      cases found : get? k rest with
      | none => rfl
      | some w => exact absurd (least _ (mem_of_get? found)) (String.lt_irrefl k)
    · rfl

/-- Fields that are sorted are collected as they are. -/
theorem ofList_of_sorted {fields : Fields α} (hs : Sorted fields) : ofList fields = fields := by
  refine eq_of_mem_iff (sorted_ofList fields) hs fun e => ?_
  obtain ⟨k, v⟩ := e
  rw [← get?_eq_some (sorted_ofList fields), ← get?_eq_some hs, get?_ofList, valuesAt_of_sorted hs]
  cases get? k fields <;> rfl

/-! ### Inserting fields -/

theorem get?_insert (key other : String) (v : α) (fields : Fields α) :
    get? other (insert key v fields) = if key = other then some v else get? other fields := by
  induction fields with
  | nil => rfl
  | cons f rest ih =>
    obtain ⟨k, w⟩ := f
    rw [insert]
    split
    · rfl
    · split
      · rename_i same
        subst same
        simp only [get?]
        split <;> rfl
      · rename_i other
        simp only [get?, ih]
        split
        · rename_i same
          rw [if_neg (same ▸ Ne.symm other)]
        · rfl

private theorem insert_cons_self (key : String) (v w : α) (rest : Fields α) :
    insert key w ((key, v) :: rest) = (key, w) :: rest := by
  rw [insert, if_neg (String.lt_irrefl key), if_pos rfl]

/-- Of two insertions with one key the later counts. -/
theorem insert_insert (key : String) (v w : α) (fields : Fields α) :
    insert key w (insert key v fields) = insert key w fields := by
  induction fields with
  | nil => exact insert_cons_self key v w []
  | cons f rest ih =>
    obtain ⟨k, u⟩ := f
    by_cases before : key < k
    · have first (x : α) : insert key x ((k, u) :: rest) = (key, x) :: (k, u) :: rest := by
        rw [insert, if_pos before]
      rw [first, first, insert_cons_self]
    · by_cases same : k = key
      · subst same
        rw [insert_cons_self, insert_cons_self, insert_cons_self]
      · simp [insert, before, same, ih]

theorem insert_get? {key : String} {v : α} {fields : Fields α} (hs : Sorted fields)
    (h : get? key fields = some v) : insert key v fields = fields := by
  induction fields with
  | nil => cases h
  | cons f rest ih =>
    obtain ⟨k, w⟩ := f
    obtain ⟨hlt, hrest⟩ := List.pairwise_cons.mp hs
    rw [get?] at h
    split at h
    · rename_i same
      subst same
      cases h
      rw [insert_cons_self]
    · rename_i other
      have before : k < key := hlt _ (mem_of_get? h)
      have after : ¬ key < k := fun lt => String.lt_irrefl _ (String.lt_trans before lt)
      rw [insert, if_neg after, if_neg other, ih hrest h]

theorem length_insert {key : String} {v : α} {fields : Fields α} (hs : Sorted fields) :
    (insert key v fields).length = fields.length + if get? key fields = none then 1 else 0 := by
  induction fields with
  | nil => rfl
  | cons f rest ih =>
    obtain ⟨k, w⟩ := f
    obtain ⟨hlt, hrest⟩ := List.pairwise_cons.mp hs
    rw [insert]
    split
    · rename_i before
      have absent : get? key ((k, w) :: rest) = none := by
        refine Option.eq_none_iff_forall_not_mem.mpr fun x hx => ?_
        rcases List.mem_cons.mp (mem_of_get? hx) with same | later
        · cases same
          exact String.lt_irrefl _ before
        · exact String.lt_irrefl _ (String.lt_trans before (hlt _ later))
      rw [absent]
      rfl
    · split
      · rename_i same
        simp [get?, same]
      · rename_i other
        simp [get?, other, ih hrest]
        omega

theorem insert_mapValues (f : α → β) (key : String) (v : α) (fields : Fields α) :
    insert key (f v) (mapValues f fields) = mapValues f (insert key v fields) := by
  induction fields with
  | nil => rfl
  | cons e rest ih =>
    obtain ⟨k, w⟩ := e
    change insert key (f v) ((k, f w) :: mapValues f rest) = _
    rw [insert, insert]
    split
    · rfl
    · split
      · rfl
      · exact congrArg ((k, f w) :: ·) ih

/-! ### Inserting new fields -/

theorem sorted_insertNew {key : String} {v : α} {fields : Fields α} (hs : Sorted fields) :
    Sorted (insertNew key v fields) := by
  unfold insertNew
  split
  · exact hs
  · exact sorted_insert hs

theorem get?_insertNew (key other : String) (v : α) (fields : Fields α) :
    get? other (insertNew key v fields) =
      (get? other fields).or (if key = other then some v else none) := by
  unfold insertNew
  split
  · rename_i taken
    obtain ⟨w, found⟩ := Option.isSome_iff_exists.mp taken
    by_cases same : key = other
    · subst same
      rw [found, Option.some_or]
    · rw [if_neg same, Option.or_none]
  · rename_i free
    rw [get?_insert]
    by_cases same : key = other
    · subst same
      rw [Option.not_isSome_iff_eq_none.mp free, if_pos rfl, Option.none_or]
    · rw [if_neg same, if_neg same, Option.or_none]

theorem insertNew_mapValues (f : α → β) (key : String) (v : α) (fields : Fields α) :
    insertNew key (f v) (mapValues f fields) = mapValues f (insertNew key v fields) := by
  unfold insertNew
  rw [get?_mapValues, Option.isSome_map]
  split
  · rfl
  · exact insert_mapValues f key v fields

end Recalc.Fields
