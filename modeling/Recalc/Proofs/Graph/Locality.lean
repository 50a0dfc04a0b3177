import Recalc.Proofs.Graph.Steady
import Recalc.Proofs.Value.Keys

/-! Reading the elements of an array one by one. Cells that are about an element are steady if the
element stays the same, however deep they are nested. So reading it computes none of them, apart from
slots of the document, and makes no call; reading another element computes only what is about that
element. -/
namespace Recalc

/-! ### Maps as lists of steps -/

namespace CollectionVerb
variable {m : Type → Type} [Monad m] [LawfulMonad m] [MonadExceptOf EvalError m]

private theorem visit_map (body : Value → Value → m Value) (es : List (Value × Value)) :
    CollectionVerb.map.visit body es = es.mapM fun e => body e.1 e.2 := by
  have settled (r : Value) :
      (MonadExcept.ofExcept (CollectionVerb.map.settle r) : m Bool) = pure false := rfl
  induction es with
  | nil => rw [visit, List.mapM_nil]
  | cons e rest ih =>
    rw [visit, List.mapM_cons, ih]
    simp only [settled, pure_bind, Bool.false_eq_true, if_false]

private theorem itemEntries_keys (items : List Value) :
    (itemEntries items).map Prod.fst = (List.range items.length).map fun j => .int j := by
  rw [itemEntries, List.map_map, List.range_eq_range', ← List.zipIdx_map_snd, List.map_map]
  rfl

/-- A map that goes by the keys of an array reads its positions in order. -/
theorem iterate_map (step : Value → m Value) (items : List Value) :
    CollectionVerb.map.iterate (.arr items) (fun key _ => step key) = (do
      let results ← (List.range items.length).mapM fun j : Nat => step (.int j)
      return .arr results) := by
  have entries : (MonadExcept.ofExcept (CollectionVerb.map.entries (.arr items)) : m _) =
      pure (itemEntries items) := rfl
  have steps : (itemEntries items).mapM (fun e => step e.1) =
      (List.range items.length).mapM fun j : Nat => step (.int j) := by
    have keys := congrArg (List.mapM step) (itemEntries_keys items)
    rwa [List.mapM_map, List.mapM_map] at keys
  rw [iterate, entries, pure_bind, visit_map, steps]
  rfl

end CollectionVerb

namespace CellAccess
variable {m : Type → Type} [Monad m] [LawfulMonad m] [MonadExceptOf EvalError m] {ι : Type}
variable (cells : CellAccess m ι) (p : Program) (lambda : LambdaId) (body : NodeId)

/-- Reads the body of a map for one element of the document. -/
def readElement (key : Value) : m Value := do
  let cell ← cells.intern (.slot cells.model key)
  cells.readNode p body (CellEnv.bind [] lambda ⟨.cell cell, key, none⟩)

/-- Reads the body of a map for the first elements of the document, in order. -/
def readElements (n : Nat) : m (List Value) :=
  (List.range n).mapM fun j : Nat => cells.readElement p lambda body (.int j)

variable {p lambda body} {out source : NodeId}

private theorem readElements_succ (n : Nat) : cells.readElements p lambda body (n + 1) = (do
    let results ← cells.readElements p lambda body n
    let result ← cells.readElement p lambda body (.int n)
    return results ++ [result]) := by
  simp only [readElements, List.range_succ, List.mapM_append, List.mapM_cons, List.mapM_nil,
    bind_assoc, pure_bind]

theorem evalNode_map (invoke : String → List Value → m Value) (hs : p.node source = .root)
    (hn : p.node out = .iterate .map source lambda body none) :
    cells.evalNode p invoke out [] = (do
      let elements ← cells.pull cells.model
      CollectionVerb.map.iterate elements fun key _ => cells.readElement p lambda body key) := by
  have handle : cells.handle p source [] = pure (.cell cells.model) := by
    rw [CellAccess.handle, handleWithin, hs]
  have element (key element : Value) : (do
      let val ← cells.elementHandle (.cell cells.model) key element
      cells.readNode p body (CellEnv.bind [] lambda ⟨val, key, none⟩)) =
      cells.readElement p lambda body key := by
    simp only [elementHandle, readElement, bind_assoc, pure_bind]
  rw [evalNode_iterate _ _ hn, handle, pure_bind]
  simp only [contextHandle, pure_bind, element]
  rfl

end CellAccess

theorem CellKey.eq_node_of_beq {ι : Type} [BEq ι] [LawfulBEq ι] {key : CellKey ι} {id : NodeId}
    (h : (key == .node id []) = true) : key = .node id [] := by
  rw [CellKey.beq_iff] at h
  cases key with
  | node n env =>
    simp only [canon, node.injEq] at h
    rw [h.1, List.map_eq_nil_iff.mp h.2]
  | model | vacant | slot source k => cases h

/-- A program with one output, which maps over the document with a function that has no root. -/
structure Program.MapsDocument (p : Program) (out : NodeId) (lambda : LambdaId) (body : NodeId) :
    Prop where
  outputs : ∃ name, p.outputs = [(name, out)]
  node : ∃ source, p.node source = .root ∧ p.node out = .iterate .map source lambda body none
  rootless : p.Rootless body

namespace Program.MapsDocument
variable {p : Program} {out body : NodeId} {lambda : LambdaId} (h : p.MapsDocument out lambda body)
include h

theorem exists_mem : ∃ name, (name, out) ∈ p.outputs := by
  obtain ⟨name, ho⟩ := h.outputs
  exact ⟨name, ho ▸ List.mem_cons_self⟩

private theorem body_lt (hl : p.Lawful) : body < out := by
  obtain ⟨source, -, hn⟩ := h.node
  exact hl.child_lt out body (by simp [hn, Node.children])

theorem pow_le_depthBound (hl : p.Lawful) : 4 * Nat.pow 4 out ≤ Graph.depthBound p := by
  obtain ⟨name, ho⟩ := h.exists_mem
  exact Origin.pow_step (Nat.lt_succ_of_lt (hl.output_lt _ ho))

end Program.MapsDocument

/-! ### Cells about one element -/

namespace Graph
open Origin (Local ofKey)
variable {p : Program} {lib : Library} {w : World} {id : CellId} {j : Nat}

/-- A current cell has read what its course reads with the values that its reads have now. -/
theorem Faithful.current (h : w.graph.Faithful p lib) (layout : w.Layout p)
    (hl : w.graph.Live id) (hc : w.graph.Current id) :
    ∃ q, w.ReplaysBy p lib id q ∧
      ∀ d ∈ (w.graph.cell id).deps, q (w.origin d) = .ok (w.graph.value d) := by
  obtain ⟨q, replays⟩ := h w.origin layout id hl hc.1
  have placed := layout.placed id hl
  refine ⟨q, replays, fun d hd => replays.values d hd ?_⟩
  have read := layout.placed d (placed.deps d hd).1
  rw [hc.2]
  exact Nat.le_trans read.changed_le read.verified_le

/-- A current slot of the document has the element of the document. -/
theorem Faithful.value_slot (h : w.graph.Faithful p lib) (layout : w.Layout p)
    (hl : w.graph.Live id) (hc : w.graph.Current id) {key : Value}
    (hk : (w.graph.cell id).key = .slot modelCell key) :
    ∃ v, (w.graph.value modelCell).get key = .ok v ∧ (w.graph.value id == v) = true := by
  obtain ⟨q, replays, values⟩ := h.current layout hl hc
  have deps := (layout.placed id hl).slot modelCell key hk hc.1
  have document := values modelCell (by rw [deps]; exact List.mem_cons_self)
  obtain ⟨v, run, equal⟩ := replays.result (by rw [hk]; rfl)
  refine ⟨v, ?_, equal⟩
  rw [hk] at run
  simp only [CellKey.map, Origin.course, Reading.run, document] at run
  rw [← run]
  exact (Reading.run_ofExcept _).symm

theorem origin_slot (layout : w.Layout p) (hl : w.graph.Live id) {source : CellId} {key : Value}
    (hk : (w.graph.cell id).key = .slot source key) :
    w.origin id = .of (.slot (w.origin source) key.canon) := by
  rw [(layout.placed id hl).origin_eq, World.originOf, hk]
  rfl

/-- Current cells about an element that keeps its value are steady. -/
theorem steady_of_local (hp : p.Lawful) (layout : w.Layout p) (faithful : w.graph.Faithful p lib)
    {items old new : List Value} (document : w.graph.value modelCell = .arr items)
    (equal : (Value.arr items == .arr old) = true) (same : Value.SameAt old new j)
    (hl : w.graph.Live id) (hc : w.graph.Current id) (h : Local p (.int j) (w.origin id)) :
    w.graph.Steady (.arr new) id := by
  induction hn : (w.origin id).weight using Nat.strongRecOn generalizing id with
  | ind n ih =>
    have placed := layout.placed id hl
    have dep {d : CellId} (hd : d ∈ (w.graph.cell id).deps) (about : Local p (.int j) (w.origin d)) :
        w.graph.Steady (.arr new) d :=
      ih _ (hn ▸ (placed.deps d hd).2) (placed.deps d hd).1 (placed.current hc d hd) about rfl
    cases hk : (w.graph.cell id).key with
    | model =>
      rw [placed.origin_eq, hk] at h
      exact absurd h Origin.not_local_model
    | vacant => simp [Live, hk, CellKey.isVacant] at hl
    | slot source key =>
      have deps := placed.slot source key hk hc.1
      rw [origin_slot layout hl hk] at h
      generalize ho : w.origin source = o at h
      generalize hkey : key.canon = k at h
      cases h with
      | element =>
        -- The slot of the document itself, which has the element of both arrays.
        have live := placed.references source (by rw [hk]; exact List.mem_cons_self)
        obtain rfl : source = modelCell := layout.grounded.origin_injective live
          layout.indexed.live_model (ho.trans (layout.origin_eq layout.indexed.stems_model).symm)
        obtain ⟨v, get, value⟩ := faithful.value_slot layout hl hc hk
        rw [document] at get
        obtain ⟨v', get', same⟩ := same.get ((Value.beq_iff key (.int j)).mpr hkey) equal get
        exact .slot hc hk get' (BEq.trans value same)
      | slot _ about =>
        refine .cell hc (by rw [hk]; rfl) fun d hd => dep hd ?_
        rw [deps, List.mem_singleton] at hd
        rw [hd, ho]
        exact about
    | node m env =>
      obtain ⟨q, replays, -⟩ := faithful.current layout hl hc
      refine .cell hc (by rw [hk]; rfl) fun d hd => dep hd ?_
      have reads := replays.reads
      rw [hk] at reads
      rw [placed.origin_ofKey, hk] at h
      have meets : (Origin.course p lib ((CellKey.node m env).map w.origin)).Meets _ _ _ :=
        Origin.course_local_node hp h
      refine (meets.run (q := q) fun _ _ _ _ => trivial).1 _ ?_
      exact reads ▸ List.mem_map_of_mem hd

/-- A state in which whatever has been computed, apart from some cells, is about one element. -/
structure Confined (p : Program) (lib : Library) (position : Value) (others : List CellId)
    (s : State) : Prop where
  faithful : s.graph.Faithful p lib
  computed : ∀ id ∈ s.computed, id ∈ others ∨ ∃ o, s.graph.Stems id o ∧ Local p position o

variable {position : Value} {others : List CellId} {s : State}

private theorem Confined.embedded (h : Confined p lib position others s) {g : Graph}
    (faithful : g.Faithful p lib) (hg : s.graph.Embeds g) :
    Confined p lib position others { s with graph := g } where
  faithful := faithful
  computed id hid := (h.computed id hid).imp_right fun ⟨o, stems, about⟩ =>
    ⟨o, stems.embedded hg, about⟩

/-- Reading about one element computes what is about that element only. -/
theorem confined_regimen (L : Linkage) (position : Value) (others : List CellId) :
    L.Regimen (fun o => o = .of .model ∨ Local L.program position o)
      (Confined L.program L.library position others) := by
  have course (key : CellKey Origin)
      (h : ofKey key = .of .model ∨ Local L.program position (ofKey key)) :
      (Origin.course L.program L.library key).Meets (fun _ => True)
        (fun o => o = .of .model ∨ Local L.program position o) fun _ => True := by
    rcases h with h | h
    · cases key with
      | model => exact Reading.Meets.pure trivial
      | _ => cases h
    · exact Origin.course_local L.linked.lawful h
  refine ⟨course, ?_, ?_, ?_, ?_, ?_, ?_⟩
  · intro s origin id layout h hl hs about d hd
    obtain ⟨q, replays⟩ := h.faithful origin layout id hl hs
    have same : origin id = ofKey ((s.graph.cell id).key.map origin) :=
      (layout.placed id hl).origin_ofKey
    rw [same] at about
    refine ((course _ about).run (q := q) fun _ _ _ _ => trivial).1 _ ?_
    exact replays.reads ▸ List.mem_map_of_mem hd
  · exact fun s reads h => ⟨h.faithful, h.computed⟩
  · exact fun s c h => ⟨h.faithful, h.computed⟩
  · intro s origin key layout h
    exact h.embedded (h.faithful.intern layout key) (layout.indexed.sustains_intern key).toEmbeds
  · intro fuel s id v t origin origin' hr about _ h
    have live : t.graph.Live id := hr.later.live id hr.live
    have stale : ¬ t.graph.Current id := hr.later.not_current hr.live (Nat.le_refl _) hr.stale
    have embeds := (sustains_store live stale v t.reads.reverse).toEmbeds
    have stored := h.embedded (h.faithful.store hr) embeds
    refine ⟨stored.faithful, List.forall_mem_cons.mpr ⟨.inr ⟨origin id, ?_, ?_⟩, stored.computed⟩⟩
    · exact ((hr.layout.stems hr.live).embedded hr.later.sustains.toEmbeds).embedded embeds
    · refine about.resolve_left fun document => ?_
      have key := hr.isModel
      rw [hr.layout.grounded.origin_injective hr.live hr.layout.indexed.live_model (document.trans
        (hr.layout.origin_eq hr.layout.indexed.stems_model).symm), hr.layout.indexed.model] at key
      cases key
  · intro s id origin hc h
    exact h.embedded (h.faithful.confirm hc) (sustains_confirm hc.live hc.stale).toEmbeds

end Graph

/-! ### Reading an element -/

section
open Origin (canonical ofKey Local)
variable {p : Program} {out body : NodeId} {lambda : LambdaId}

/-- What is read for an element is lighter than the map. -/
theorem Origin.readElement_light (hl : p.Lawful) (hb : body < out) (key : Value) :
    (canonical.readElement p lambda body key).Meets (fun _ => True)
      (fun o => o.weight < Nat.pow 4 out) fun _ => True := by
  have step := pow_step hb
  have pos := pow_pos body
  have slot : (ofKey (.slot (.of .model) key)).weight ≤ 1 :=
    (weights p).slot (n := 0) (Nat.le_of_eq weight_model) trivial
  have env : CellEnv.Within (fun o : Origin => o.weight ≤ 1) (fun _ => True)
      (CellEnv.bind [] lambda ⟨.cell (ofKey (.slot (.of .model) key)), key, none⟩) :=
    CellEnv.Within.bind (by simp [CellEnv.Within]) ⟨slot, trivial, by simp⟩
  have meets : (canonical.readElement p lambda body key).Meets (fun _ => True)
      (fun o => o.weight ≤ Nat.pow 4 out - 1) fun _ => True :=
    (weights p).readNode_meets hl (readClass_any p .empty) env trivial (by omega)
  exact meets.mono (fun o ho => by omega) fun _ h => h

/-- What is read for an element is about that element. -/
theorem Origin.readElement_local (hl : p.Lawful) (hr : p.Rootless body) (j : Nat) :
    (canonical.readElement p lambda body (.int j)).Meets (fun _ => True) (Local p (.int j))
      fun _ => True :=
  readNode_local hl hr (CellEnv.Within.bind (by simp [CellEnv.Within])
    ⟨Local.element, trivial, by simp⟩)

end

namespace Linkage
open Recalc.Graph
open Origin (canonical Local)
open Round (Same CellOf)
variable {L : Linkage} {b : Nat} {verify : CellId → CellM Unit} {loud : Prop} {w : World}
  {out body : NodeId} {lambda : LambdaId}

private theorem Enacts.readElement (hv : L.Verifies b verify) (layout : w.Layout L.program)
    (hp : L.program.MapsDocument out lambda body) (key : Value) :
    L.Enacts b verify loud w (Same fun _ => True)
      ((access verify).readElement L.program lambda body key)
      (canonical.readElement L.program lambda body key) := by
  obtain ⟨name, ho⟩ := hp.exists_mem
  obtain ⟨source, -, hn⟩ := hp.node
  have document : w.origin modelCell = .of .model := layout.origin_eq layout.indexed.stems_model
  have slot : L.Enacts b verify loud w CellOf (internCell (.slot modelCell key))
      (canonical.intern ((CellKey.slot modelCell key).map w.origin)) := by
    apply Enacts.intern rfl
    · exact fun d hd => List.mem_singleton.mp hd ▸ layout.indexed.live_model
    · rintro m env ⟨⟩
  rw [CellKey.map, document] at slot
  refine slot.bind fun w' id o _ _ hc => Enacts.readNode hv ?_
  obtain ⟨live, rfl⟩ := hc
  have outer : L.EnvFrom w' out [] [] :=
    ⟨by simp [CellEnv.Within], ⟨.nil, L.linked.covers_output ho _⟩, rfl⟩
  have element : HandleFrom w' (.cell id) (.cell (w'.origin id)) := ⟨live, rfl⟩
  exact outer.inner hn element key ⟨by simp, rfl⟩ rfl

variable {old new : List Value} {s : State} {j n fuel : Nat}

variable (L) in
/-- Before a new array came, reading an element that it keeps would have read only cells that are
steady now. -/
def Foreseen (w : World) (lambda : LambdaId) (body : NodeId) (old new : List Value) : Prop :=
  ∃ q, ∀ j : Nat, Value.SameAt old new j →
    ∀ o ∈ (canonical.readElement L.program lambda body (.int j)).reads q,
      ∃ id, w.graph.Stems id o ∧ w.graph.Steady (.arr new) id ∧ q o = .ok (w.graph.value id)

variable (L) in
/-- A state in which some elements of a new array have been read. Apart from slots of the array,
whatever has been computed is about an element that the array does not keep. -/
structure Reached (b : Nat) (w : World) (old new : List Value) (s : State) : Prop where
  running : ∃ origin, L.Running b s origin
  undisturbed : Undisturbed w.graph (.arr new) s
  embeds : w.graph.Embeds s.graph
  faithful : s.graph.Faithful L.program L.library
  computed : ∀ id ∈ s.computed, w.graph.OnModel id ∨
    ∃ j : Nat, ¬ Value.SameAt old new j ∧ ∃ o, s.graph.Stems id o ∧ Local L.program (.int j) o

/-- Reading one more element leads from one such state to another, without calls if the array keeps
the element. -/
theorem Reached.readElement (h : L.Reached (Nat.pow 4 out) w old new s)
    (layout : w.Layout L.program) (hp : L.program.MapsDocument out lambda body)
    (hf : Nat.pow 4 out ≤ fuel) (foreseen : L.Foreseen w lambda body old new) (j : Nat) :
    L.Reached (Nat.pow 4 out) w old new
        (((access (Graph.verify L.program L.library fuel)).readElement
          L.program lambda body (.int j)).run s).2 ∧
    (Value.SameAt old new j → (((access (Graph.verify L.program L.library fuel)).readElement
      L.program lambda body (.int j)).run s).2.calls = s.calls) := by
  obtain ⟨q, foreseen⟩ := foreseen
  obtain ⟨origin, running⟩ := h.running
  have lawful := L.linked.lawful
  have verifies := (L.verifies fuel).mono hf
  have plays : L.Plays _ _ False ⟨s.graph, origin⟩ (Same fun _ => True) _ s _ :=
    Enacts.readElement verifies running.layout hp (.int j) s origin (.refl _ _) running
      (Origin.readElement_light lawful (hp.body_lt lawful) _)
  generalize ((access (Graph.verify L.program L.library fuel)).readElement L.program lambda body
    (.int j)).run s = r at plays ⊢
  have idle (same : Value.SameAt old new j) :=
    plays_idle layout hf plays h.undisturbed h.embeds (foreseen j same)
  obtain ⟨sustains, running'⟩ := plays.sustains verifies
  have after := (confined_regimen L (.int j) s.computed).upholds_plays plays hf
    ((Origin.readElement_local lawful hp.rootless j).mono (fun _ ho => .inr ho) fun _ h => h)
    ⟨h.faithful, fun _ hid => .inl hid⟩
  refine ⟨⟨running', ?_, h.embeds.trans sustains.toEmbeds, after.faithful, fun id hid => ?_⟩,
    fun same => (idle same).calls⟩
  · exact (undisturbed_regimen layout (.arr new)).upholds_plays plays hf (Reading.meets_any _)
      h.undisturbed
  · have before (hid : id ∈ s.computed) : w.graph.OnModel id ∨ ∃ j : Nat,
        ¬ Value.SameAt old new j ∧ ∃ o, r.2.graph.Stems id o ∧ Local L.program (.int j) o := by
      rcases h.computed id hid with slot | ⟨j, changed, o, stems, about⟩
      · exact .inl slot
      · exact .inr ⟨j, changed, o, stems.embedded sustains.toEmbeds, about⟩
    by_cases same : Value.SameAt old new j
    · exact ((idle same).computed id hid).elim before .inl
    · exact (after.computed id hid).elim before fun about => .inr ⟨j, same, about⟩

end Linkage

namespace Graph
variable {p : Program} {out body : NodeId} {lambda : LambdaId} {s : State}

/-- After a failure no further element is read. -/
theorem run_readElements_succ (verify : CellId → CellM Unit) (n : Nat) (s : State) :
    (((access verify).readElements p lambda body (n + 1)).run s).2 =
        (((access verify).readElements p lambda body n).run s).2 ∨
      (((access verify).readElements p lambda body (n + 1)).run s).2 =
        (((access verify).readElement p lambda body (.int n)).run
          (((access verify).readElements p lambda body n).run s).2).2 := by
  rw [CellAccess.readElements_succ]
  rcases hrun : ((access verify).readElements p lambda body n).run s with ⟨e | results, t⟩
  · rw [run_bind_error hrun]
    exact .inl rfl
  · rw [run_bind_ok hrun]
    right
    rcases hstep : ((access verify).readElement p lambda body (.int n)).run t with ⟨e | v, u⟩
    · rw [run_bind_error hstep]
    · rw [run_bind_ok hstep]
      rfl

end Graph

namespace Linkage
open Recalc.Graph
variable {L : Linkage} {w : World} {out body : NodeId} {lambda : LambdaId} {old new : List Value}
  {s : State} {fuel : Nat}

theorem Reached.start {b : Nat} (layout : w.Layout L.program)
    (faithful : w.graph.Faithful L.program L.library) (hb : 0 < b) :
    L.Reached b w old new
      { graph := w.graph.advance.setModel (.arr new), reads := [modelCell] } where
  running := by
    obtain ⟨start, current⟩ := layout.start (.arr new)
    refine ⟨w.origin, start, current, List.forall_mem_singleton.mpr
      ⟨start.indexed.live_model, current, ?_⟩⟩
    rw [layout.origin_eq layout.indexed.stems_model, Origin.weight_model]
    exact hb
  undisturbed :=
    have start := Undisturbed.start layout (.arr new)
    ⟨start.revision, start.model, start.cells⟩
  embeds :=
    have embeds := embeds_store (g := w.graph.advance) layout.indexed.live_model (.arr new)
      (w.graph.cell modelCell).deps
    ⟨embeds.live, embeds.key⟩
  faithful := faithful.start layout (.arr new)
  computed := by simp

section
variable (h : L.Reached (Nat.pow 4 out) w old new s) (layout : w.Layout L.program)
  (hp : L.program.MapsDocument out lambda body) (hf : Nat.pow 4 out ≤ fuel)
  (foreseen : L.Foreseen w lambda body old new)
include h layout hp hf foreseen

theorem Reached.readElements (n : Nat) : L.Reached (Nat.pow 4 out) w old new
    (((access (verify L.program L.library fuel)).readElements L.program lambda body n).run s).2 := by
  induction n with
  | zero => exact h
  | succ n ih =>
    rcases run_readElements_succ (verify L.program L.library fuel) n s with stay | step
    · rw [stay]
      exact ih
    · rw [step]
      exact (ih.readElement layout hp hf foreseen n).1

/-- Elements that the new array keeps are read without a call. -/
theorem Reached.calls_readElements {j : Nat} (same : Value.SameAt old new j) :
    (((access (verify L.program L.library fuel)).readElements L.program lambda body
      (j + 1)).run s).2.calls =
    (((access (verify L.program L.library fuel)).readElements L.program lambda body
      j).run s).2.calls := by
  rcases run_readElements_succ (verify L.program L.library fuel) j s with stay | step
  · rw [stay]
  · rw [step]
    exact ((h.readElements layout hp hf foreseen j).readElement layout hp hf foreseen j).2 same

end

end Linkage

end Recalc
