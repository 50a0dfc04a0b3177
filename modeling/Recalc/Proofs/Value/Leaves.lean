import Recalc.Proofs.Value.Tame

/-! The scalars that a value is made of. Equality of values is identity as far as it is identity of
their scalars. -/
namespace Recalc.Value

mutual

/-- The scalars of a value, at every depth. -/
def leaves : Value → List Value
  | null => [null]
  | bool b => [bool b]
  | int n => [int n]
  | float x => [float x]
  | str s => [str s]
  | arr items => itemLeaves items
  | obj fields => fieldLeaves fields

def itemLeaves : List Value → List Value
  | [] => []
  | v :: rest => leaves v ++ itemLeaves rest

def fieldLeaves : List (String × Value) → List Value
  | [] => []
  | (_, v) :: rest => leaves v ++ fieldLeaves rest

end

theorem leaves_arr (items : List Value) : (arr items).leaves = items.flatMap leaves := by
  rw [leaves]
  induction items with
  | nil => rfl
  | cons v rest ih => rw [itemLeaves, ih, List.flatMap_cons]

theorem leaves_obj (fields : List (String × Value)) :
    (obj fields).leaves = fields.flatMap fun f => f.2.leaves := by
  rw [leaves]
  induction fields with
  | nil => rfl
  | cons f rest ih => rw [fieldLeaves, ih, List.flatMap_cons]

/-- Equality is identity between the values of two lists. -/
def Coherent (vs ws : List Value) : Prop := ∀ v ∈ vs, ∀ w ∈ ws, (v == w) = true → v = w

theorem Coherent.mono {vs vs' ws ws' : List Value} (h : Coherent vs ws) (hv : vs' ⊆ vs)
    (hw : ws' ⊆ ws) : Coherent vs' ws' := fun v hm w hn => h v (hv hm) w (hw hn)

private theorem Coherent.append {as bs cs ds : List Value} (h : Coherent (as ++ bs) (cs ++ ds)) :
    Coherent as cs ∧ Coherent bs ds :=
  ⟨h.mono (List.subset_append_left _ _) (List.subset_append_left _ _),
    h.mono (List.subset_append_right _ _) (List.subset_append_right _ _)⟩

mutual

private theorem eq_of_beq_leaves : (v w : Value) → Coherent v.leaves w.leaves → beq v w = true →
    v = w
  | arr as, w, hc, h => by
    cases w with
    | arr bs => rw [eq_of_beqItems_leaves as bs hc h]
    | _ => cases h
  | obj as, w, hc, h => by
    cases w with
    | obj bs => rw [eq_of_beqFields_leaves as bs hc h]
    | _ => cases h
  | null, w, hc, h | bool _, w, hc, h | int _, w, hc, h | float _, w, hc, h | str _, w, hc, h => by
    cases w with
    | arr bs => cases h
    | obj bs => cases h
    | _ => exact hc _ List.mem_cons_self _ List.mem_cons_self ((beq_eq _ _).trans h)

private theorem eq_of_beqItems_leaves : (as bs : List Value) →
    Coherent (itemLeaves as) (itemLeaves bs) → beqItems as bs = true → as = bs
  | [], bs, _, h => by
    cases bs with
    | nil => rfl
    | cons b bs => cases h
  | a :: as, bs, hc, h => by
    cases bs with
    | nil => cases h
    | cons b bs =>
      obtain ⟨first, rest⟩ := Coherent.append hc
      rw [beqItems, Bool.and_eq_true] at h
      rw [eq_of_beq_leaves a b first h.1, eq_of_beqItems_leaves as bs rest h.2]

private theorem eq_of_beqFields_leaves : (as bs : List (String × Value)) →
    Coherent (fieldLeaves as) (fieldLeaves bs) → beqFields as bs = true → as = bs
  | [], bs, _, h => by
    cases bs with
    | nil => rfl
    | cons b bs => cases h
  | (k, a) :: as, bs, hc, h => by
    cases bs with
    | nil => cases h
    | cons f bs =>
      obtain ⟨l, b⟩ := f
      obtain ⟨first, rest⟩ := Coherent.append hc
      rw [beqFields, Bool.and_eq_true, Bool.and_eq_true, decide_eq_true_eq] at h
      rw [h.1.1, eq_of_beq_leaves a b first h.1.2, eq_of_beqFields_leaves as bs rest h.2]

end

theorem eq_of_coherent {v w : Value} (hc : Coherent v.leaves w.leaves) (h : (v == w) = true) :
    v = w := eq_of_beq_leaves v w hc (beq_eq v w ▸ h)

/-! ### Containers of equal values -/

theorem canonItems_eq (items : List Value) : canonItems items = items.map canon := by
  induction items with
  | nil => rfl
  | cons v rest ih => rw [canonItems, ih, List.map_cons]

theorem canonFields_eq (fields : List (String × Value)) :
    canonFields fields = fields.map fun f => (f.1, canon f.2) := by
  induction fields with
  | nil => rfl
  | cons f rest ih =>
    obtain ⟨k, v⟩ := f
    rw [canonFields, ih, List.map_cons]

private theorem map_canon_eq {vs ws : List Value}
    (h : List.Forall₂ (fun v w => (v == w) = true) vs ws) : vs.map canon = ws.map canon := by
  induction h with
  | nil => rfl
  | cons first _ ih => rw [List.map_cons, List.map_cons, (beq_iff _ _).mp first, ih]

theorem beq_arr_iff {vs ws : List Value} :
    (arr vs == arr ws) = true ↔ vs.map canon = ws.map canon := by
  rw [beq_iff, canon, canon, canonItems_eq, canonItems_eq, arr.injEq]

theorem beq_arr {vs ws : List Value} (h : List.Forall₂ (fun v w => (v == w) = true) vs ws) :
    (arr vs == arr ws) = true := beq_arr_iff.mpr (map_canon_eq h)

theorem beq_obj_ofList (names : List String) {vs ws : List Value}
    (h : List.Forall₂ (fun v w => (v == w) = true) vs ws) :
    (obj (Fields.ofList (names.zip vs)) == obj (Fields.ofList (names.zip ws))) = true := by
  have collected (us : List Value) : canonFields (Fields.ofList (names.zip us)) =
      Fields.ofList (names.zip (us.map canon)) := by
    rw [canonFields_eq, List.zip_map_right]
    exact (Fields.ofList_map canon _).symm
  rw [beq_iff, canon, canon, collected, collected, map_canon_eq h]

end Recalc.Value
