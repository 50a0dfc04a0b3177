import Recalc.Proofs.Graph.Locality

/-! A map over the document, from one array to the next. The map and the slots of the array read the
whole document, so they are computed again whenever it changes. A slot that keeps its value stops the
change there. -/
namespace Recalc

namespace Graph

/-- The state after the body of a map has been read for the first elements of a new document. -/
def afterElements (p : Program) (lib : Library) (lambda : LambdaId) (body : NodeId) (g : Graph)
    (model : Value) (n : Nat) : State :=
  (((access (verify p lib (depthBound p - 1))).readElements p lambda body n).run
    { graph := g.advance.setModel model, reads := [modelCell] }).2

/-- The cell of a node whose bindings give a function the element at a position. -/
def BindsElement (g : Graph) (id : CellId) (lambda : LambdaId) (j : Nat) : Prop :=
  ∃ n env b slot key, (g.cell id).key = .node n env ∧ CellEnv.lookup env lambda = .ok b ∧
    b.val = .cell slot ∧ (g.cell slot).key = .slot modelCell key ∧ (key == .int j) = true

variable {p : Program} {g : Graph} {name : String} {out : NodeId} {root : CellId}

/-- Reading one output is bringing its cell up to date. -/
theorem state_readOutputs (lib : Library) (ho : p.outputs = [(name, out)]) (model : Value)
    (found : g.find? (.node out []) = some root) :
    let s : State := { graph := g.advance.setModel model }
    ∃ reads, (readOutputs p lib model g).2 =
      { ((verify p lib (depthBound p) root).run s).2 with reads } := by
  intro s
  have interned : (internCell (.node out [])).run s = (.ok root, s) := internCell_found found
  have outputs : readOutputs p lib model g =
      (do return [← readOutput p lib out] : CellM (List (CellId × Value))).run s := by
    simp only [readOutputs, ho, List.mapM_cons, List.mapM_nil, pure_bind]
    rfl
  rw [outputs]
  rcases hrun : (verify p lib (depthBound p) root).run s with ⟨e | u, t⟩
  · have read : (readOutput p lib out).run s = (.error e, t) :=
      (run_bind_ok interned).trans (run_bind_error (run_bind_error hrun))
    exact ⟨t.reads, congrArg Prod.snd (run_bind_error read)⟩
  · have read : (readOutput p lib out).run s =
        (.ok (root, t.graph.value root), { t with reads := root :: t.reads }) :=
      (run_bind_ok interned).trans (run_bind_ok (pull_run_ok hrun))
    exact ⟨root :: t.reads, congrArg Prod.snd (run_bind_ok read)⟩

/-- From one state to another, with nothing but one cell computed. -/
structure Completes (root : CellId) (s t : State) : Prop where
  calls : t.calls = s.calls
  computed : ∀ id ∈ t.computed, id = root ∨ id ∈ s.computed
  embeds : s.graph.Embeds t.graph

private theorem completes_recompute {s : State} (compute : CellKey CellId → CellM Value)
    (live : ((compute (s.graph.cell root).key).run { s with reads := [] }).2.graph.Live root) :
    Completes root ((compute (s.graph.cell root).key).run { s with reads := [] }).2
      ((recompute compute root).run s).2 := by
  rcases hrun : (compute (s.graph.cell root).key).run { s with reads := [] } with ⟨e | v, t⟩
  · rw [recompute_run_error hrun]
    exact ⟨rfl, fun id hid => .inr hid, ⟨fun _ h => h, fun _ _ => rfl⟩⟩
  · rw [recompute_run_ok hrun]
    rw [hrun] at live
    exact ⟨rfl, fun id hid => List.mem_cons.mp hid, embeds_store live v _⟩

end Graph

/-! ### Computing the map -/

namespace Program.MapsDocument
open Recalc.Graph
open Origin (canonical)
variable {p : Program} {out body : NodeId} {lambda : LambdaId} (h : p.MapsDocument out lambda body)
include h

/-- The map reads the document and then its elements. -/
theorem course_eq (lib : Library) :
    Origin.course p lib (.node out []) = .read (.of .model) fun v =>
      CollectionVerb.map.iterate v fun key _ => canonical.readElement p lambda body key := by
  obtain ⟨source, hs, hn⟩ := h.node
  rw [Origin.course, CellAccess.evalNode_map _ _ hs hn]
  rfl

/-- What the map reads over an array. -/
theorem course_arr (lib : Library) {q : Origin → Except EvalError Value} {items : List Value}
    (document : q (.of .model) = .ok (.arr items)) :
    let elements := canonical.readElements p lambda body items.length
    (Origin.course p lib (.node out [])).reads q =
        .of .model :: (do return .arr (← elements) : Reading Value).reads q ∧
      (Origin.course p lib (.node out [])).run q =
        (do return .arr (← elements) : Reading Value).run q := by
  have steps := CollectionVerb.iterate_map (m := Reading) (canonical.readElement p lambda body) items
  rw [h.course_eq, Reading.reads, Reading.run, document]
  exact ⟨congrArg (fun x => .of .model :: Reading.reads q x) steps, congrArg (Reading.run q) steps⟩

/-- Over an array, computing the map comes to reading the elements of the array. -/
theorem state_compute (lib : Library) {s : State} {items : List Value} (fuel : Nat)
    (hm : (s.graph.cell modelCell).key = .model)
    (document : s.graph.value modelCell = .arr items) :
    ((compute p lib (verify p lib (fuel + 1)) (.node out [])).run s).2 =
      (((access (verify p lib (fuel + 1))).readElements p lambda body items.length).run
        { s with reads := modelCell :: s.reads }).2 := by
  obtain ⟨source, hs, hn⟩ := h.node
  have pulled : (pull (verify p lib (fuel + 1)) modelCell).run s =
      (.ok (.arr items), { s with reads := modelCell :: s.reads }) := by
    rw [← document]
    exact pull_run_ok (verify_modelCell fuel hm)
  have steps := CollectionVerb.iterate_map
    ((access (verify p lib (fuel + 1))).readElement p lambda body) items
  have run : (compute p lib (verify p lib (fuel + 1)) (.node out [])).run s =
      (do return .arr (← (access (verify p lib (fuel + 1))).readElements p lambda body items.length)
        : CellM Value).run { s with reads := modelCell :: s.reads } := by
    rw [compute, CellAccess.evalNode_map _ _ hs hn]
    refine (run_bind_ok pulled).trans ?_
    rw [steps]
    rfl
  rw [run]
  rcases hread : ((access (verify p lib (fuel + 1))).readElements p lambda body items.length).run
    { s with reads := modelCell :: s.reads } with ⟨e | results, t⟩
  · exact congrArg Prod.snd (run_bind_error hread)
  · exact congrArg Prod.snd (run_bind_ok hread)

end Program.MapsDocument

/-! ### From one array to the next -/

namespace Linkage
open Recalc.Graph
open Origin (Local)
variable {L : Linkage} {w : World} {out body : NodeId} {lambda : LambdaId} {root id : CellId}
  {old new : List Value} {i j : Nat} {o : Origin}

/-- A cell about one element binds functions to no other element of the document. -/
theorem eq_of_bindsElement (layout : w.Layout L.program) (stems : w.graph.Stems id o)
    (about : Local L.program (.int i) o) (binds : w.graph.BindsElement id lambda j) : i = j := by
  obtain ⟨n, env, b, slot, key, hk, lookup, val, hs, position⟩ := binds
  have live : w.graph.Live slot := by
    rw [Live, hs]
    rfl
  have within : CellEnv.Within (Local L.program (.int i)) (fun _ => True)
      (CellEnv.map w.origin env) := by
    rw [← layout.origin_eq stems, (layout.placed id stems.live).origin_ofKey, hk] at about
    exact (Origin.local_ofKey.mp about).2
  have bound := (within.lookup ((CellEnv.lookup_map w.origin env lambda).trans
    (congrArg (Except.map _) lookup))).val
  have read : Local L.program (.int i) (w.origin slot) := by
    rw [CellBinding.map, val] at bound
    exact bound
  rw [origin_slot layout live hs, layout.origin_eq layout.indexed.stems_model] at read
  have same := read.position_eq.symm.trans ((Value.beq_iff key (.int j)).mp position)
  exact Int.ofNat.inj (Value.int.inj same)

variable (L) in
/-- A graph in which a map over the document is current, over an array. -/
structure Maps (w : World) (out : NodeId) (lambda : LambdaId) (body : NodeId) (root : CellId)
    (old : List Value) : Prop where
  program : L.program.MapsDocument out lambda body
  layout : w.Layout L.program
  faithful : w.graph.Faithful L.program L.library
  reflects : w.graph.Reflects (.arr old)
  presents : ∃ outputs, w.graph.Presents L.program outputs
  live : w.graph.Live root
  current : w.graph.Current root
  key : (w.graph.cell root).key = .node out []

namespace Maps
variable (h : L.Maps w out lambda body root old)
include h

private theorem ne_modelCell : root ≠ modelCell := by
  rintro rfl
  have key := h.key
  rw [h.layout.indexed.model] at key
  cases key

private theorem deps_eq : ∃ rest, (w.graph.cell root).deps = modelCell :: rest := by
  obtain ⟨q, replays, -⟩ := h.faithful.current h.layout h.live h.current
  have reads : (Origin.course L.program L.library (.node out [])).reads q = _ :=
    h.key ▸ replays.reads
  rw [h.program.course_eq, Reading.reads] at reads
  cases hd : (w.graph.cell root).deps with
  | nil =>
    rw [hd] at reads
    cases reads
  | cons d rest =>
    rw [hd, List.map_cons, List.cons.injEq] at reads
    have live := ((h.layout.placed root h.live).deps d (hd ▸ List.mem_cons_self)).1
    have document := h.layout.origin_eq h.layout.indexed.stems_model
    rw [h.layout.grounded.origin_injective live h.layout.indexed.live_model
      (reads.1.symm.trans document.symm)]
    exact ⟨rest, rfl⟩

/-- All that a new array keeps is foreseen. -/
theorem foreseen (new : List Value) : L.Foreseen w lambda body old new := by
  obtain ⟨items, document⟩ := Value.eq_arr_of_beq h.reflects.value
  have equal : (Value.arr items == .arr old) = true := document ▸ h.reflects.value
  obtain ⟨q, replays, values⟩ := h.faithful.current h.layout h.live h.current
  obtain ⟨rest, deps⟩ := h.deps_eq
  have placed := h.layout.placed root h.live
  have read := values modelCell (deps ▸ List.mem_cons_self)
  rw [h.layout.origin_eq h.layout.indexed.stems_model, document] at read
  obtain ⟨reads, result⟩ := h.program.course_arr L.library read
  have replayed := replays.result
  rw [h.key] at replayed
  obtain ⟨v, run, -⟩ := replayed rfl
  obtain ⟨results, all, -⟩ := Reading.run_bind_ok.mp (result.symm.trans run)
  refine ⟨q, fun j same o ho => ?_⟩
  have mem : o ∈ (w.graph.cell root).deps.map w.origin := by
    rw [← replays.reads, h.key]
    refine reads.symm ▸ List.mem_cons_of_mem _ (Reading.reads_subset_bind _ _ ?_)
    exact Reading.mem_reads_mapM all (List.mem_range.mpr (same.lt equal)) ho
  obtain ⟨d, hd, rfl⟩ := List.mem_map.mp mem
  have about := ((Origin.readElement_local L.linked.lawful h.program.rootless j).run (q := q)
    fun _ _ _ _ => trivial).1 _ ho
  obtain ⟨live, -⟩ := placed.deps d hd
  exact ⟨d, h.layout.stems live, steady_of_local L.linked.lawful h.layout h.faithful document equal
    same live (placed.current h.current d hd) about, values d hd⟩

private theorem reached (new : List Value) (n : Nat) : L.Reached (Nat.pow 4 out) w old new
    (afterElements L.program L.library lambda body w.graph (.arr new) n) := by
  have large := h.program.pow_le_depthBound L.linked.lawful
  have pos := Origin.pow_pos out
  have start : L.Reached (Nat.pow 4 out) w old new _ := .start h.layout h.faithful pos
  exact start.readElements h.layout h.program (by omega) (h.foreseen new) n

/-- Elements that a new array keeps are read without a call. -/
theorem calls_afterElements (same : Value.SameAt old new j) :
    (afterElements L.program L.library lambda body w.graph (.arr new) (j + 1)).calls =
      (afterElements L.program L.library lambda body w.graph (.arr new) j).calls := by
  have large := h.program.pow_le_depthBound L.linked.lawful
  have pos := Origin.pow_pos out
  have start : L.Reached (Nat.pow 4 out) w old new _ := .start h.layout h.faithful pos
  exact start.calls_readElements h.layout h.program (by omega) (h.foreseen new) same

/-- Over another document the map is computed again, without a look at its elements before. -/
theorem verify_other {model : Value} (other : (w.graph.value modelCell == model) = false)
    (fuel : Nat) :
    let s : State := { graph := w.graph.advance.setModel model }
    (verify L.program L.library (fuel + 2) root).run s =
      (recompute (compute L.program L.library (verify L.program L.library (fuel + 1))) root).run
        s := by
  intro s
  obtain ⟨start, -⟩ := h.layout.start model
  obtain ⟨rest, deps⟩ := h.deps_eq
  have cell : s.graph.cell root = w.graph.cell root := cell_setModel_of_ne h.layout h.ne_modelCell
  have verified : (verify L.program L.library (fuel + 1) modelCell).run s = (.ok (), s) :=
    verify_modelCell fuel start.indexed.model
  have step := anyChanged_run_ok w.graph.revision rest verified
  rw [(setModel_other h.layout h.reflects.current other).2, if_pos (Nat.lt_succ_self _)] at step
  have stale : ¬ w.graph.revision = s.graph.revision := (Nat.lt_succ_self w.graph.revision).ne
  rw [verify_succ, bring_run, cell, h.key, h.current.2, deps]
  simp only [CellKey.isModel, Option.isNone_eq_false_iff.mpr h.current.1, Bool.false_eq_true,
    if_false, stale]
  exact run_bind_ok step

/-- Over another array, reading the output is reading the elements and keeping the result. -/
theorem completes (other : (w.graph.value modelCell == .arr new) = false) :
    Completes root (afterElements L.program L.library lambda body w.graph (.arr new) new.length)
      (readOutputs L.program L.library (.arr new) w.graph).2 := by
  obtain ⟨name, ho⟩ := h.program.outputs
  obtain ⟨fuel, hf⟩ : ∃ k, depthBound L.program = k + 2 := by
    have large := h.program.pow_le_depthBound L.linked.lawful
    have pos := Origin.pow_pos out
    exact ⟨depthBound L.program - 2, by omega⟩
  have found : w.graph.find? (.node out []) = some root :=
    h.layout.indexed.find_eq h.live (by rw [h.key]; exact BEq.rfl)
  obtain ⟨reads, state⟩ := state_readOutputs L.library ho (.arr new) found
  have elements : ((compute L.program L.library (verify L.program L.library (fuel + 1))
      ((w.graph.advance.setModel (.arr new)).cell root).key).run
        { graph := w.graph.advance.setModel (.arr new) }).2 =
      afterElements L.program L.library lambda body w.graph (.arr new) new.length := by
    have value : (w.graph.advance.setModel (.arr new)).value modelCell = .arr new := by
      rw [Graph.value, (setModel_other h.layout h.reflects.current other).1]
      rfl
    rw [cell_setModel_of_ne h.layout h.ne_modelCell, h.key, afterElements, hf]
    exact h.program.state_compute L.library fuel (h.layout.start _).1.indexed.model value
  have live := (h.reached new new.length).embeds.live root h.live
  have completes := completes_recompute (s := { graph := w.graph.advance.setModel (.arr new) })
    (compute L.program L.library (verify L.program L.library (fuel + 1))) (elements ▸ live)
  rw [state, hf, h.verify_other other, ← elements]
  exact ⟨completes.calls, completes.computed, completes.embeds⟩

/-- Over an equal array nothing is computed. -/
theorem quiet (same : (w.graph.value modelCell == .arr new) = true) :
    Quiet L.program w.graph (.arr new) (readOutputs L.program L.library (.arr new) w.graph).2 := by
  obtain ⟨outputs, presents⟩ := h.presents
  have calm : Calm L.program w (.arr new) := ⟨h.layout, h.reflects.current,
    fun _ hb => (current_of_presents h.layout presents hb).2, .inl same⟩
  exact (calm.refresh L.linked.lawful presents).1

/-- Cells that are computed bind functions to no element that the new array keeps. -/
theorem not_sameAt (hid : id ∈ (readOutputs L.program L.library (.arr new) w.graph).2.computed)
    (binds : (readOutputs L.program L.library (.arr new) w.graph).2.graph.BindsElement id lambda j) :
    ¬ Value.SameAt old new j := by
  cases same : w.graph.value modelCell == .arr new with
  | true =>
    rw [(h.quiet same).unchanged same] at hid
    cases hid
  | false =>
    have completes := h.completes same
    have reached := h.reached new new.length
    have embeds := reached.embeds.trans completes.embeds
    rcases completes.computed id hid with rfl | hid
    · obtain ⟨n, env, b, slot, k, hk, lookup, -⟩ := binds
      rw [embeds.key id h.live, h.key] at hk
      cases hk
      cases lookup
    · rcases reached.computed id hid with onModel | ⟨i, changed, o, stems, about⟩
      · obtain ⟨n, env, b, slot, k, hk, -⟩ := binds
        obtain ⟨k', hk'⟩ := onModel.exists_key
        have live : w.graph.Live id := by
          rw [Live, hk']
          rfl
        rw [embeds.key id live, hk'] at hk
        cases hk
      · obtain ⟨origin, layout, -, -⟩ := readOutputs_keeps h.layout (.arr new)
        rw [← eq_of_bindsElement layout (stems.embedded completes.embeds) about binds]
        exact changed

/-- The calls are those made in reading the elements. -/
theorem calls_readOutputs (new : List Value) :
    (readOutputs L.program L.library (.arr new) w.graph).2.calls =
      (afterElements L.program L.library lambda body w.graph (.arr new) new.length).calls := by
  cases same : w.graph.value modelCell == .arr new with
  | false => exact (h.completes same).calls
  | true =>
    have equal : (Value.arr old == .arr new) = true := BEq.trans (BEq.symm h.reflects.value) same
    have silent (n : Nat) (hn : n ≤ new.length) :
        (afterElements L.program L.library lambda body w.graph (.arr new) n).calls = #[] := by
      induction n with
      | zero => rfl
      | succ n ih =>
        rw [h.calls_afterElements (Value.sameAt_of_beq equal hn)]
        exact ih (Nat.le_of_succ_le hn)
    exact (h.quiet same).calls.trans (silent new.length (Nat.le_refl _)).symm

end Maps

end Linkage

namespace Graph
variable {m : Model} {backend : Backend} {p : Program} {lib : Library} {out body : NodeId}
  {lambda : LambdaId} {documents outputs old : List Value} {g : Graph} {work : Work}

/-- A map over the document goes by element from one array to the next. After a success over one
array, reached in any way, no cell is computed whose bindings give the function of the map an element
that the new array keeps. The calls are those made in reading the elements one after the other, and
there are none for an element that the new array keeps. -/
theorem refresh_map_local (hc : Program.compile m backend = .ok p)
    (hp : p.MapsDocument out lambda body)
    (hok : (after p lib documents).refresh p lib (.arr old) = (.ok outputs, g, work))
    (new : List Value) :
    (∀ id ∈ (readOutputs p lib (.arr new) g).2.computed, ∀ j,
      (readOutputs p lib (.arr new) g).2.graph.BindsElement id lambda j →
        ¬ Value.SameAt old new j) ∧
    (g.refresh p lib (.arr new)).2.2.calls =
      (afterElements p lib lambda body g (.arr new) new.length).calls ∧
    ∀ j, Value.SameAt old new j →
      (afterElements p lib lambda body g (.arr new) (j + 1)).calls =
        (afterElements p lib lambda body g (.arr new) j).calls := by
  let L := Linkage.any (Program.linked_of_compile hc) lib
  obtain ⟨_, before⟩ := L.layout_after documents
  have faithful := Linkage.refresh_faithful before (L.faithful_after documents) (.arr old)
  obtain ⟨origin, layout, reflects, presents⟩ := Linkage.refresh_keeps before (.arr old)
  have hok : (after L.program L.library documents).refresh L.program L.library (.arr old) =
      (.ok outputs, g, work) := hok
  rw [hok] at faithful layout reflects presents
  obtain ⟨name, ho⟩ := hp.exists_mem
  obtain ⟨⟨root, v⟩, delivers⟩ := presents.delivers ho
  have maps : L.Maps ⟨g, origin⟩ out lambda body root old := ⟨hp, layout, faithful, reflects,
    ⟨outputs, presents⟩, delivers.live, delivers.current, CellKey.eq_node_of_beq delivers.key⟩
  refine ⟨fun id hid j => maps.not_sameAt hid, ?_, fun j => maps.calls_afterElements⟩
  rw [refresh_calls]
  exact maps.calls_readOutputs new

/-- Marks each entry of each row of the document. -/
def rows : Model :=
  ⟨[("marks", .output (.iterate .map .root 0
    (.iterate .map (.val 0) 1 (.call "mark" (.val 1) []) none) none))], by decide⟩

def rowsProgram : Program where
  backend := .optimizing
  entries := #[⟨.root, [], []⟩, ⟨.val 0, [0], []⟩, ⟨.val 1, [1], []⟩, ⟨.call "mark" [2], [1], []⟩,
    ⟨.iterate .map 1 1 3 none, [0], []⟩, ⟨.iterate .map 0 0 4 none, [], []⟩]
  outputs := [("marks", 5)]
  mutators := []
  functions := ["mark"]

private theorem compile_rows : Program.compile rows .optimizing = .ok rowsProgram := by
  with_unfolding_all rfl

private theorem mapsDocument_rows : rowsProgram.MapsDocument 5 0 4 where
  outputs := ⟨"marks", rfl⟩
  node := ⟨0, rfl, rfl⟩
  rootless := by
    have leaf {id : NodeId} (hn : rowsProgram.node id ≠ .root)
        (none : (rowsProgram.node id).children = []) : rowsProgram.Rootless id :=
      .of_children hn fun c hc => by
        rw [none] at hc
        cases hc
    have entry : rowsProgram.Rootless 3 :=
      .of_children (by rintro ⟨⟩) (List.forall_mem_singleton.mpr (leaf (by rintro ⟨⟩) rfl))
    have row : rowsProgram.Rootless 1 := leaf (by rintro ⟨⟩) rfl
    exact .of_children (by rintro ⟨⟩)
      (List.forall_mem_cons.mpr ⟨row, List.forall_mem_singleton.mpr entry⟩)

def firstRows : List Value := [.arr [.int 1, .int 2], .arr [.int 3]]

/-- The second row changes and a third one comes. -/
def nextRows : List Value := [.arr [.int 1, .int 2], .arr [.int 4], .arr []]

/-- The graph after a failure and the first rows. -/
def rowsGraph : Graph :=
  ((after rowsProgram markLibrary [.null]).refresh rowsProgram markLibrary (.arr firstRows)).2.1

/-- The entries of the row that is kept are not marked again. -/
theorem refresh_rows_local : Value.SameAt firstRows nextRows 0 ∧
    (∀ id ∈ (readOutputs rowsProgram markLibrary (.arr nextRows) rowsGraph).2.computed,
      ¬ (readOutputs rowsProgram markLibrary (.arr nextRows) rowsGraph).2.graph.BindsElement
        id 0 0) ∧
    (rowsGraph.refresh rowsProgram markLibrary (.arr nextRows)).2.2.calls =
      (afterElements rowsProgram markLibrary 0 4 rowsGraph (.arr nextRows) 3).calls ∧
    (afterElements rowsProgram markLibrary 0 4 rowsGraph (.arr nextRows) 1).calls = #[] ∧
    (afterElements rowsProgram markLibrary 0 4 rowsGraph (.arr nextRows) 3).calls.size = 1 := by
  have same : Value.SameAt firstRows nextRows 0 := ⟨_, _, rfl, rfl, BEq.rfl⟩
  have ok : ((after rowsProgram markLibrary [.null]).refresh rowsProgram markLibrary
      (.arr firstRows)).1.isOk = true := by decide +kernel
  rcases first : (after rowsProgram markLibrary [.null]).refresh rowsProgram markLibrary
    (.arr firstRows) with ⟨r, g, work⟩
  have graph : rowsGraph = g := congrArg (fun r => r.2.1) first
  rw [first] at ok
  cases r with
  | error e => cases ok
  | ok outputs =>
    subst graph
    obtain ⟨untouched, calls, silent⟩ :=
      refresh_map_local compile_rows mapsDocument_rows first nextRows
    exact ⟨same, fun id hid binds => untouched id hid 0 binds same, calls, silent 0 same,
      by decide +kernel⟩

end Graph

end Recalc
