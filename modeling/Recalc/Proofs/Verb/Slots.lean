import Recalc.Proofs.Graph.Replay
import Recalc.Proofs.Value.Keys
import Recalc.Proofs.Verb.Grouping

/-! What a verb calls its function on. The keys are those of the container, in order, and an element
is what access to its key gives, so a cell for the key has the element as its value. -/
namespace Recalc

/-! ### Cells for keys -/

namespace Graph
variable {p : Program} {lib : Library} {verify : CellId → CellM Unit} {id slot : CellId}
  {key source element : Value} {s t : State}

private theorem value_of_pull (pulled : (pull verify id).run s = (.ok source, t)) :
    t.graph.value id = source := by
  rcases verified : (verify id).run s with ⟨_ | _, u⟩
  · rw [pull_run_error verified] at pulled
    cases pulled
  · rw [pull_run_ok verified] at pulled
    cases pulled
    rfl

/-- A cell for a key stands for access to the value of its source. -/
theorem compute_slot (pulled : (pull verify id).run s = (.ok source, t))
    (got : source.get key = .ok element) :
    (compute p lib verify (.slot id key)).run s = (.ok element, t) := by
  have access : (t.graph.cell id).access.val key = .ok element := by
    rw [(t.graph.cell id).access.property, ← got, ← value_of_pull pulled]
    rfl
  rw [compute, run_bind_ok pulled]
  change (MonadExcept.ofExcept ((t.graph.cell id).access.val key) : CellM Value).run t = _
  rw [access]
  rfl

/-- Computing a cell for a key leaves it with a value equal to what access gives. -/
theorem recompute_slot (keyed : (s.graph.cell slot).key = .slot id key)
    (pulled : (pull verify id).run { s with reads := [] } = (.ok source, t))
    (present : slot < t.graph.cells.size) (got : source.get key = .ok element) :
    ∃ u, (recompute (compute p lib verify) slot).run s = (.ok (), u) ∧
      (u.graph.value slot == element) = true := by
  have computed : (compute p lib verify (s.graph.cell slot).key).run { s with reads := [] } =
      (.ok element, t) := by
    rw [keyed]
    exact compute_slot pulled got
  exact ⟨_, recompute_run_ok computed, value_store present⟩

/-- A cell stands for an element of a container that another cell has as its value. Whenever that
cell has been read, computing the cell gives the element and leaves an equal value in it. -/
structure StandsFor (verify : CellId → CellM Unit) (id : CellId) (source : Value) (slot : CellId)
    (key element : Value) : Prop where
  gives : ∀ p lib s t, (pull verify id).run s = (.ok source, t) →
    (compute p lib verify (.slot id key)).run s = (.ok element, t)
  holds : ∀ p lib s t, (s.graph.cell slot).key = .slot id key →
    (pull verify id).run { s with reads := [] } = (.ok source, t) → slot < t.graph.cells.size →
    ∃ u, (recompute (compute p lib verify) slot).run s = (.ok (), u) ∧
      (u.graph.value slot == element) = true

private theorem standsFor_of_get (got : source.get key = .ok element) :
    StandsFor verify id source slot key element where
  gives _ _ _ _ pulled := compute_slot pulled got
  holds _ _ _ _ keyed pulled present := recompute_slot keyed pulled present got

/-- What an element is bound to is a cell for its key or an equal one. -/
theorem elementHandle_run (indexed : s.graph.Indexed) (verify : CellId → CellM Unit) (id : CellId)
    (key element : Value) : ∃ slot k t,
      ((access verify).elementHandle (.cell id) key element).run s = (.ok (.cell slot), t) ∧
      (t.graph.cell slot).key = .slot id k ∧ (k == key) = true := by
  have run {slot : CellId} {g : Graph} (h : s.graph.intern (.slot id key) = (slot, g)) :
      ((access verify).elementHandle (.cell id) key element).run s =
        (.ok (.cell slot), { s with graph := g }) := by
    have interned : (internCell (.slot id key)).run s = (.ok slot, { s with graph := g }) := by
      change (Except.ok (s.graph.intern _).1, { s with graph := (s.graph.intern _).2 }) = _
      rw [h]
    exact run_bind_ok interned
  rcases intern_cases indexed (.slot id key) with ⟨slot, found, same⟩ | ⟨slot, g, new, allocated⟩
  · obtain ⟨-, equal⟩ := indexed.found _ slot found
    cases keyed : (s.graph.cell slot).key with
    | slot id' k =>
      rw [keyed, CellKey.beq_iff] at equal
      simp only [CellKey.canon, CellKey.slot.injEq] at equal
      obtain ⟨rfl, equal⟩ := equal
      exact ⟨slot, k, _, run same, keyed, (Value.beq_iff k key).mpr equal⟩
    | _ =>
      rw [keyed] at equal
      cases equal
  · refine ⟨slot, key, _, run new, ?_, BEq.rfl⟩
    rw [allocated.cell_eq, if_pos rfl]

end Graph

private theorem Fields.nodup_keys {fields : Fields Value} (sorted : Fields.Sorted fields) :
    (Fields.keys fields).Nodup :=
  List.pairwise_map.mpr (sorted.imp fun lt => String.ne_of_lt lt)

namespace CollectionVerb
variable {σ : Type} {body : Value → Value → ExceptT EvalError (StateM σ) Value}
  {verb : CollectionVerb} {source : Value} {es : List (Value × Value)} {s t : σ}

/-! ### Entries -/

private theorem keys_itemEntries (items : List Value) : (itemEntries items).map Prod.fst =
    (List.range items.length).map fun (i : Nat) => Value.int i := by
  rw [itemEntries, List.map_map, List.range_eq_range', ← List.zipIdx_map_snd 0 items, List.map_map]
  rfl

private theorem keys_fieldEntries (fields : Fields Value) :
    (fieldEntries fields).map Prod.fst = (Fields.keys fields).map .str := by
  rw [fieldEntries, Fields.keys, List.map_map, List.map_map]
  rfl

/-- The keys of the entries are the keys of the container, in the same order. -/
theorem keys_entries (h : verb.entries source = .ok es) :
    UnaryVerb.apply .keys source = .ok (.arr (es.map Prod.fst)) := by
  rcases entries_cases h with ⟨items, rfl, rfl⟩ | ⟨fields, rfl, rfl⟩
  · rw [keys_itemEntries]
    rfl
  · rw [keys_fieldEntries]
    rfl

private theorem nodup_keys (ordered : source.Ordered) (h : verb.entries source = .ok es) :
    (es.map Prod.fst).Nodup := by
  rcases entries_cases h with ⟨items, rfl, rfl⟩ | ⟨fields, rfl, rfl⟩
  · rw [keys_itemEntries]
    exact List.nodup_range.map fun i j same => Int.ofNat.inj (Value.int.inj same)
  · rw [keys_fieldEntries]
    have sorted := Fields.nodup_keys (Value.tame_obj.mp ordered).1
    exact sorted.map fun k l same => Value.str.inj same

/-- No two entries have equal keys. -/
theorem distinct_entries (ordered : source.Ordered) (h : verb.entries source = .ok es) :
    es.Pairwise fun e f => (e.1 == f.1) = false := by
  have isKey := isKey_of_mem_entries h
  refine (List.pairwise_map.mp (nodup_keys ordered h)).imp_of_mem fun {e f} he hf differ => ?_
  rw [← Bool.not_eq_true, Value.beq_iff, (isKey e he).canon_eq, (isKey f hf).canon_eq]
  exact differ

/-! ### Calls on record -/

/-- A function with a record of the keys and elements that it is called on, in order. -/
def recorded (body : Value → Value → ExceptT EvalError (StateM σ) Value) (key element : Value) :
    ExceptT EvalError (StateM (σ × List (Value × Value))) Value :=
  ExceptT.mk fun s =>
    let out := (body key element).run s.1
    (out.1, out.2, s.2 ++ [(key, element)])

private theorem recorded_run {e : Value × Value} {outcome : Except EvalError Value}
    (h : (body e.1 e.2).run s = (outcome, t)) (called : List (Value × Value)) :
    (recorded body e.1 e.2).run (s, called) = (outcome, t, called ++ [e]) := by
  rw [recorded, ExceptT.run_mk, h]

/-- Only a search is done before its last entry. -/
theorem settle_ne_true (hv : verb ∉ searches) (r : Value) : verb.settle r ≠ .ok true := by
  cases verb with
  | any | anyValues => simp [searches] at hv
  | keyBy | mapKeys | groupBy =>
    unfold settle
    cases r.propertyKey <;> rintro ⟨⟩
  | _ => rintro ⟨⟩

/-- A record does not change what a visit gives. The calls are on entries from the first on, on all
of them if a verb that does not search succeeds. -/
theorem visit_recorded {outcome : Except EvalError (List Value)}
    (run : (verb.visit body es).run s = (outcome, t)) (called : List (Value × Value)) :
    ∃ done rest, es = done ++ rest ∧
      (verb.visit (recorded body) es).run (s, called) = (outcome, t, called ++ done) ∧
      (verb ∉ searches → ∀ rs, outcome = .ok rs → rest = []) := by
  induction es generalizing s t outcome called with
  | nil =>
    cases run
    exact ⟨[], [], rfl, by rw [List.append_nil]; rfl, fun _ _ _ => rfl⟩
  | cons e es ih =>
    rcases first : (body e.1 e.2).run s with ⟨_ | r, u⟩
    case error =>
      rw [visit_failed first] at run
      cases run
      exact ⟨[e], es, rfl, visit_failed (recorded_run first called), fun _ _ => nofun⟩
    case ok =>
      -- The call is on record before the verb looks at its result.
      have noted := recorded_run first called
      cases done : verb.settle r with
      | error error =>
        rw [visit_rejected first done] at run
        cases run
        exact ⟨[e], es, rfl, visit_rejected noted done, fun _ _ => nofun⟩
      | ok stop =>
        cases stop with
        | true =>
          rw [visit_settled first done] at run
          cases run
          exact ⟨[e], es, rfl, visit_settled noted done,
            fun hv => absurd done (settle_ne_true hv r)⟩
        | false =>
          rcases others : (verb.visit body es).run u with ⟨results, w⟩
          rw [visit_next first done, others] at run
          cases run
          obtain ⟨before, rest, rfl, recorded, all⟩ := ih others (called ++ [e])
          refine ⟨e :: before, rest, rfl, ?_, fun hv rs found => ?_⟩
          · rw [visit_next noted done, recorded, List.append_assoc]
            rfl
          · cases results with
            | error error => cases found
            | ok rs => exact all hv rs rfl

/-- An iteration with a record fails without a call, or calls its function on entries from the first
on. -/
theorem iterate_recorded {outcome : Except EvalError Value}
    (run : (verb.iterate source body).run s = (outcome, t)) :
    (∃ error, outcome = .error error ∧
      (verb.iterate source (recorded body)).run (s, []) = (outcome, t, [])) ∨
    ∃ called rest, verb.entries source = .ok (called ++ rest) ∧
      (verb.iterate source (recorded body)).run (s, []) = (outcome, t, called) ∧
      (verb ∉ searches → ∀ v, outcome = .ok v → rest = []) := by
  cases found : verb.entries source with
  | error error =>
    rw [iterate_run_error found] at run
    cases run
    exact .inl ⟨error, rfl, iterate_run_error found⟩
  | ok es =>
    rcases visits : (verb.visit body es).run s with ⟨results, u⟩
    rw [iterate_run found, visits] at run
    cases run
    obtain ⟨called, rest, rfl, visited, all⟩ := visit_recorded visits []
    refine .inr ⟨called, rest, rfl, ?_, fun hv v result => ?_⟩
    · rw [iterate_run found, visited]
      rfl
    · cases results with
      | error error => cases result
      | ok rs => exact all hv rs rfl

/-- An element that a verb calls its function on is what access to its key gives. The keys differ
from each other and are in the order of the container's keys. The cell that is bound in place of an
element of a cell's value stands for the element. -/
theorem elements_are_slots (source : OrderedValue) (verb : CollectionVerb)
    (body : Value → Value → ExceptT EvalError (StateM σ) Value) (s : σ) :
    ∃ outcome t called, (verb.iterate source body).run s = (outcome, t) ∧
      (verb.iterate source (recorded body)).run (s, []) = (outcome, t, called) ∧
      (∀ e ∈ called, source.val.get e.1 = .ok e.2) ∧
      called.Pairwise (fun e f => (e.1 == f.1) = false) ∧
      (called ≠ [] → ∃ rest,
        UnaryVerb.apply .keys source = .ok (.arr (called.map Prod.fst ++ rest))) ∧
      (verb ∉ searches → ∀ v, outcome = .ok v →
        UnaryVerb.apply .keys source = .ok (.arr (called.map Prod.fst))) ∧
      ∀ e ∈ called, ∀ verify id u, u.graph.Indexed → ∃ slot key w,
        ((Graph.access verify).elementHandle (.cell id) e.1 e.2).run u = (.ok (.cell slot), w) ∧
        (w.graph.cell slot).key = .slot id key ∧
        Graph.StandsFor verify id source slot key e.2 := by
  obtain ⟨source, ordered⟩ := source
  rcases run : (verb.iterate source body).run s with ⟨outcome, t⟩
  refine ⟨outcome, t, ?_⟩
  rcases iterate_recorded run with ⟨error, rfl, failed⟩ | ⟨called, rest, found, recorded, all⟩
  · exact ⟨[], rfl, failed, nofun, .nil, fun h => absurd rfl h, fun _ _ => nofun, nofun⟩
  have got (e : Value × Value) (he : e ∈ called) : source.get e.1 = .ok e.2 :=
    get_of_mem_entries ordered found e (List.mem_append_left rest he)
  have keys := keys_entries found
  rw [List.map_append] at keys
  refine ⟨called, rfl, recorded, got, (List.pairwise_append.mp (distinct_entries ordered found)).1,
    fun _ => ⟨_, keys⟩, fun hv v result => ?_, fun e he verify id u indexed => ?_⟩
  · rwa [all hv v result, List.map_nil, List.append_nil] at keys
  · obtain ⟨slot, key, w, handle, keyed, same⟩ :=
      Graph.elementHandle_run indexed verify id e.1 e.2
    have access : source.get key = .ok e.2 := (Value.get_eq_ok_congr same source e.2).mpr (got e he)
    exact ⟨slot, key, w, handle, keyed, Graph.standsFor_of_get access⟩

/-- Fields whose names look like a number and like null. -/
def lookalikes : OrderedValue :=
  ⟨.obj [("0", .null), ("null", .int 7), ("x", .str "y")], by decide⟩

/-- A graph with a document. -/
def lookalikeState : Graph.State where
  graph := Graph.empty.setModel lookalikes

/-- A program without outputs. -/
def idle : Program := ⟨.optimizing, #[], [], [], []⟩

theorem elements_are_slots_lookalikes :
    (anyValues.iterate lookalikes (recorded noted)).run ([], []) =
      (.ok (.bool true), [.str "null", .str "0"],
        [(.str "0", .null), (.str "null", .int 7)]) ∧
    lookalikes.val.get (.str "null") = .ok (.int 7) ∧ (Value.str "0" == .str "null") = false ∧
    (∃ rest, UnaryVerb.apply .keys lookalikes = .ok (.arr (.str "0" :: .str "null" :: rest))) ∧
    ∃ w u, ((Graph.access (Graph.verify idle .empty 1)).elementHandle (.cell Graph.modelCell)
        (.str "null") (.int 7)).run lookalikeState = (.ok (.cell 1), w) ∧
      (Graph.recompute (Graph.compute idle .empty (Graph.verify idle .empty 1)) 1).run w =
        (.ok (), u) ∧ (u.graph.value 1 == .int 7) = true := by
  have indexed : lookalikeState.graph.Indexed := Graph.indexed_empty.setCell (by decide) rfl
  have calls : (anyValues.iterate lookalikes (recorded noted)).run ([], []) =
      (.ok (.bool true), [.str "null", .str "0"],
        [(.str "0", .null), (.str "null", .int 7)]) := rfl
  obtain ⟨outcome, t, called, -, run, got, distinct, keys, -, slots⟩ :=
    elements_are_slots lookalikes .anyValues noted []
  rw [calls] at run
  cases run
  obtain ⟨slot, key, w, handle, keyed, stands⟩ := slots (.str "null", .int 7) (by simp)
    (Graph.verify idle .empty 1) Graph.modelCell lookalikeState indexed
  cases handle
  obtain ⟨u, computed, holds⟩ := stands.holds idle .empty _ _ keyed rfl (by decide)
  refine ⟨calls, got (.str "null", .int 7) (by simp), ?_, keys (by simp), _, u, rfl, computed,
    holds⟩
  exact (List.pairwise_cons.mp distinct).1 (.str "null", .int 7) (by simp)

end CollectionVerb

end Recalc
