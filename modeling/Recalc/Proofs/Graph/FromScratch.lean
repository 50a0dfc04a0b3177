import Recalc.Proofs.Graph.Refresh
import Recalc.Proofs.Pass.Evaluation

/-! A graph against a pass from scratch. Whatever documents the graph has seen, it gives the outputs
of the pass, computes each cell at most once, and makes no more calls than the pass. -/
namespace Recalc

namespace Graph

/-- The graph after recalculations over documents, one after the other. -/
def after (p : Program) (lib : Library) (documents : List Value) : Graph :=
  documents.foldl (fun g v => (g.refresh p lib v).2.1) .empty

theorem refresh_calls (p : Program) (lib : Library) (model : Value) (g : Graph) :
    (g.refresh p lib model).2.2.calls = (readOutputs p lib model g).2.calls := by
  unfold refresh
  rcases readOutputs p lib model g with ⟨r, s⟩
  cases r <;> rfl

section
variable {p : Program} {lib : Library} {D : Value → Prop} (hl : p.Lawful) (hd : Domain p lib D)
include hl hd

private theorem refreshes_valid {documents : List Value} (hdoc : ∀ v ∈ documents, D v) {w : World}
    {model : Revision → Value} {hm : ∀ r, D (model r)}
    (hw : w.Valid ⟨p, lib, D, hl, hd, model, hm⟩) :
    ∃ model hm origin, World.Valid ⟨p, lib, D, hl, hd, model, hm⟩
      ⟨documents.foldl (fun g v => (g.refresh p lib v).2.1) w.graph, origin⟩ := by
  induction documents generalizing w model hm with
  | nil => exact ⟨model, hm, w.origin, hw⟩
  | cons v rest ih =>
    obtain ⟨hv, hrest⟩ := List.forall_mem_cons.mp hdoc
    obtain ⟨-, origin, hnext⟩ := hw.refresh hv
    exact ih hrest hnext

/-- The invariant holds after any recalculations. -/
theorem valid_after {documents : List Value} (hdoc : ∀ v ∈ documents, D v) :
    ∃ model hm origin, World.Valid ⟨p, lib, D, hl, hd, model, hm⟩ ⟨after p lib documents, origin⟩ :=
  refreshes_valid hl hd hdoc
    (World.valid_empty ⟨p, lib, D, hl, hd, fun _ => .null, fun _ => hd.null⟩)

theorem refresh_ok_iff {documents : List Value} (hdoc : ∀ v ∈ documents, D v) {model : Value}
    (hm : D model) (outputs : List Value) :
    ((after p lib documents).refresh p lib model).1 = .ok outputs ↔
      (Pass.run p lib model).1 = .ok outputs := by
  obtain ⟨_, _, origin, hw⟩ := valid_after hl hd hdoc
  rw [(hw.refresh hm).1]
  exact (Pass.Setting.run_ok_iff ⟨p, lib, D, hl, hd, model, hm⟩ outputs).symm

/-- No cell is computed twice, and calls are made for different origins, each of which a pass calls
for. -/
theorem readOutputs_economy {documents : List Value} (hdoc : ∀ v ∈ documents, D v) {model : Value}
    (hm : D model) :
    (readOutputs p lib model (after p lib documents)).2.computed.Nodup ∧
      ∀ values, (Pass.run p lib model).1 = .ok values →
        (readOutputs p lib model (after p lib documents)).2.calls.size ≤
          (Pass.run p lib model).2.calls.size := by
  let E : Pass.Setting := ⟨p, lib, D, hl, hd, model, hm⟩
  obtain ⟨_, _, origin, hw⟩ := valid_after hl hd hdoc
  refine ⟨?_, fun values hv => ?_⟩
  · obtain ⟨_, hr, -⟩ := hw.readOutputs_run hm (fun _ => True) (fun _ _ _ _ => trivial)
      fun _ _ => trivial
    exact hr.nodup
  · obtain ⟨called, hlen, hcover⟩ := E.run_covers hv
    obtain ⟨origin', hr, -⟩ := hw.readOutputs_run hm (E.Covered called)
      (fun _ _ ho hd => ho.reads hd) hcover
    generalize readOutputs p lib model (after p lib documents) = r at hr ⊢
    -- Calls are made for computed cells only, and their origins are different ones of the log.
    let calling := r.2.computed.filter fun id => (origin' id).isCall p
    have distinct : (calling.map origin').Nodup := by
      refine List.Nodup.map_on (fun i hi j hj he => ?_) (hr.nodup.filter _)
      exact hr.valid.grounded.origin_injective (hr.computed i (List.mem_filter.mp hi).1).1
        (hr.computed j (List.mem_filter.mp hj).1).1 he
    have logged : calling.map origin' ⊆ called := by
      intro o ho
      obtain ⟨id, hid, rfl⟩ := List.mem_map.mp ho
      obtain ⟨hcomputed, hcall⟩ := List.mem_filter.mp hid
      exact (hr.needed id hcomputed).call hcall
    calc r.2.calls.size = calling.length := hr.calls
      _ = (calling.map origin').length := (List.length_map origin').symm
      _ ≤ called.length := (List.subperm_of_subset distinct logged).length_le
      _ = (Pass.run p lib model).2.calls.size := hlen

end

/-! ### A model with calls -/

/-- Marks each element of a list by a call. -/
def marking : Model :=
  ⟨[("marks", .output (.iterate .map (.get .root (.literal (.str "xs"))) 0
    (.call "mark" (.val 0) []) none))], by decide⟩

def markingProgram : Program where
  backend := .optimizing
  entries := #[⟨.root, [], []⟩, ⟨.literal (.str "xs"), [], []⟩, ⟨.get 0 1, [], []⟩,
    ⟨.val 0, [0], []⟩, ⟨.call "mark" [3], [0], []⟩, ⟨.iterate .map 2 0 4 none, [], []⟩]
  outputs := [("marks", 5)]
  mutators := []
  functions := ["mark"]

def markLibrary : Library := ⟨[("mark", fun args => .arr args)]⟩

/-- A document, and one over which the model fails. -/
def markedDocuments : List Value := [.obj [("xs", .arr [.int 1, .int 2])], .obj [("xs", .null)]]

theorem compile_marking : Program.compile marking .optimizing = .ok markingProgram := by
  with_unfolding_all rfl

private theorem floatFree_marking : markingProgram.FloatFree := by
  intro id
  rcases id with _ | _ | _ | _ | _ | _ | id <;> trivial

private theorem floatFree_markLibrary : markLibrary.FloatFree := by
  refine Library.floatFree_of_mem fun f hf args ha => ?_
  obtain rfl := List.mem_singleton.mp hf
  exact Value.tame_arr.mpr ha

private theorem floatFree_markedDocuments : ∀ v ∈ markedDocuments, v.FloatFree := by
  simp [markedDocuments, Value.FloatFree, Value.tame_obj, Value.tame_arr, Fields.Sorted]

/-! ### Programs without doubles -/

variable {m : Model} {backend : Backend} {p : Program} {lib : Library} {documents : List Value}
  {model : Value}

/-- A recalculation succeeds exactly when a pass from scratch does, with the same outputs, after any
recalculations before it. -/
theorem refresh_eq_ok_iff (hc : Program.compile m backend = .ok p) (hp : p.FloatFree)
    (hlib : lib.FloatFree) (hdoc : ∀ v ∈ documents, v.FloatFree) (hm : model.FloatFree)
    (outputs : List Value) :
    ((after p lib documents).refresh p lib model).1 = .ok outputs ↔
      (Pass.run p lib model).1 = .ok outputs :=
  refresh_ok_iff (Program.lawful_of_compile hc) (domain_of_floatFree hp hlib) hdoc hm outputs

theorem refresh_marking : Program.compile marking .optimizing = .ok markingProgram ∧
    ((after markingProgram markLibrary markedDocuments).refresh markingProgram markLibrary
      (.obj [("xs", .arr [.int 2, .int 3])])).1 = .ok [.arr [.arr [.int 2], .arr [.int 3]]] := by
  refine ⟨compile_marking, (refresh_eq_ok_iff compile_marking floatFree_marking
    floatFree_markLibrary floatFree_markedDocuments ?_ _).mpr rfl⟩
  simp [Value.FloatFree, Value.tame_obj, Value.tame_arr, Fields.Sorted]

/-- A recalculation computes no cell twice, and one that succeeds makes no more calls than a pass
from scratch, after any recalculations before it. -/
theorem refresh_economy (hc : Program.compile m backend = .ok p) (hp : p.FloatFree)
    (hlib : lib.FloatFree) (hdoc : ∀ v ∈ documents, v.FloatFree) (hm : model.FloatFree) :
    (readOutputs p lib model (after p lib documents)).2.computed.Nodup ∧
      ∀ outputs, ((after p lib documents).refresh p lib model).1 = .ok outputs →
        ((after p lib documents).refresh p lib model).2.2.calls.size ≤
          (Pass.run p lib model).2.calls.size := by
  have hl := Program.lawful_of_compile hc
  have hd := domain_of_floatFree hp hlib
  obtain ⟨hnodup, hcalls⟩ := readOutputs_economy hl hd hdoc hm
  refine ⟨hnodup, fun outputs ho => ?_⟩
  rw [refresh_calls]
  exact hcalls outputs ((refresh_ok_iff hl hd hdoc hm outputs).mp ho)

theorem refresh_marking_economy : Program.compile marking .optimizing = .ok markingProgram ∧
    (readOutputs markingProgram markLibrary (.obj [("xs", .arr [.int 2, .int 3])])
      (after markingProgram markLibrary markedDocuments)).2.computed.Nodup ∧
    ((after markingProgram markLibrary markedDocuments).refresh markingProgram markLibrary
      (.obj [("xs", .arr [.int 2, .int 3])])).2.2.calls.size ≤
      (Pass.run markingProgram markLibrary
        (.obj [("xs", .arr [.int 2, .int 3])])).2.calls.size := by
  have hm : (Value.obj [("xs", .arr [.int 2, .int 3])]).FloatFree := by
    simp [Value.FloatFree, Value.tame_obj, Value.tame_arr, Fields.Sorted]
  have economy := refresh_economy compile_marking floatFree_marking floatFree_markLibrary
    floatFree_markedDocuments hm
  refine ⟨compile_marking, economy.1, economy.2 [.arr [.arr [.int 2], .arr [.int 3]]] ?_⟩
  exact (refresh_ok_iff (Program.lawful_of_compile compile_marking)
    (domain_of_floatFree floatFree_marking floatFree_markLibrary) floatFree_markedDocuments hm
      _).mpr rfl

end Graph

end Recalc
