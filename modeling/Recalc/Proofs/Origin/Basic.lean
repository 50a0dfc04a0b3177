import Mathlib.Tactic.Common
import Recalc.Graph.Evaluation
import Recalc.Proofs.Except

/-! Origins of values: what a cell stands for, whichever number it has. The key of an origin names
origins where the key of a cell names cells, so an origin is a finite tree. Its weight bounds how
deep the reads for it can go. -/
namespace Recalc

/-! ### Keys over other names -/

section
variable {ι κ : Type}

/-- The cell has a property, or the constant has another. -/
def Handle.Within (P : ι → Prop) (D : Value → Prop) : Handle ι → Prop
  | cell id => P id
  | const v => D v

structure CellBinding.Within (P : ι → Prop) (D : Value → Prop) (b : CellBinding ι) : Prop where
  val : b.val.Within P D
  key : D b.key
  context : ∀ h, b.context = some h → h.Within P D

def CellEnv.Within (P : ι → Prop) (D : Value → Prop) (env : CellEnv ι) : Prop :=
  ∀ e ∈ env, e.2.Within P D

/-- All cells that a key names have a property, and all its constants have another. -/
def CellKey.Within (P : ι → Prop) (D : Value → Prop) : CellKey ι → Prop
  | model => True
  | node _ env => CellEnv.Within P D env
  | slot source key => P source ∧ D key
  | vacant => True

def Handle.map (f : ι → κ) : Handle ι → Handle κ
  | cell id => cell (f id)
  | const v => const v

def CellBinding.map (f : ι → κ) (b : CellBinding ι) : CellBinding κ :=
  ⟨b.val.map f, b.key, b.context.map (Handle.map f)⟩

def CellEnv.map (f : ι → κ) (env : CellEnv ι) : CellEnv κ :=
  List.map (fun e => (e.1, e.2.map f)) env

/-- The key with other names for its cells. -/
def CellKey.map (f : ι → κ) : CellKey ι → CellKey κ
  | model => model
  | node id env => node id (CellEnv.map f env)
  | slot source key => slot (f source) key
  | vacant => vacant

variable {P Q : ι → Prop} {D E : Value → Prop} {f g : ι → κ}

theorem Handle.Within.mono (hP : ∀ i, P i → Q i) (hD : ∀ v, D v → E v) {h : Handle ι}
    (hw : h.Within P D) : h.Within Q E := by
  cases h with
  | cell id => exact hP id hw
  | const v => exact hD v hw

theorem CellEnv.Within.mono (hP : ∀ i, P i → Q i) (hD : ∀ v, D v → E v) {env : CellEnv ι}
    (hw : env.Within P D) : env.Within Q E := fun e he =>
  ⟨(hw e he).val.mono hP hD, hD _ (hw e he).key,
    fun h hc => ((hw e he).context h hc).mono hP hD⟩

theorem CellKey.Within.mono (hP : ∀ i, P i → Q i) (hD : ∀ v, D v → E v) {key : CellKey ι}
    (hw : key.Within P D) : key.Within Q E := by
  cases key with
  | model => trivial
  | node id env => exact CellEnv.Within.mono hP hD hw
  | slot source key => exact ⟨hP _ hw.1, hD _ hw.2⟩
  | vacant => trivial

private theorem handle_within_iff {h : Handle ι} :
    h.Within P D ↔ (∀ i ∈ CellKey.handleCells h, P i) ∧ h.Within (fun _ => True) D := by
  cases h <;> simp [CellKey.handleCells, Handle.Within]

/-- A key's cells are its references. -/
theorem CellKey.within_iff {key : CellKey ι} :
    key.Within P D ↔ (∀ i ∈ key.references, P i) ∧ key.Within (fun _ => True) D := by
  refine ⟨fun hw => ⟨?_, hw.mono (fun _ _ => trivial) fun _ hv => hv⟩, fun ⟨hr, hw⟩ => ?_⟩
  · cases key with
    | model => simp [references]
    | vacant => simp [references]
    | slot source key => simpa [references] using hw.1
    | node id env =>
      intro i hi
      obtain ⟨e, he, hi⟩ := List.mem_flatMap.mp hi
      rcases List.mem_append.mp hi with hi | hi
      · exact (handle_within_iff.mp (hw e he).val).1 i hi
      · cases hc : e.2.context with
        | none => simp [hc] at hi
        | some h =>
          rw [hc] at hi
          exact (handle_within_iff.mp ((hw e he).context h hc)).1 i hi
  · cases key with
    | model => trivial
    | vacant => trivial
    | slot source key => exact ⟨hr source List.mem_cons_self, hw.2⟩
    | node id env =>
      intro e he
      refine ⟨handle_within_iff.mpr ⟨fun i hi => ?_, (hw e he).val⟩, (hw e he).key,
        fun h hc => handle_within_iff.mpr ⟨fun i hi => ?_, (hw e he).context h hc⟩⟩
      · exact hr i (List.mem_flatMap.mpr ⟨e, he, List.mem_append_left _ hi⟩)
      · refine hr i (List.mem_flatMap.mpr ⟨e, he, List.mem_append_right _ ?_⟩)
        rw [hc]
        exact hi

/-- Any constants will do for a key whose cells have a property. -/
theorem CellKey.within_references {key : CellKey ι} (h : ∀ i ∈ key.references, P i) :
    key.Within P fun _ => True := by
  refine CellKey.within_iff.mpr ⟨h, ?_⟩
  cases key with
  | node id env =>
    intro e _
    exact ⟨by cases e.2.val <;> trivial, trivial, fun h _ => by cases h <;> trivial⟩
  | slot source key => exact ⟨trivial, trivial⟩
  | model | vacant => trivial

/-! ### Renaming -/

theorem Handle.map_congr {h : Handle ι} (hw : h.Within (fun i => f i = g i) D) :
    h.map f = h.map g := by
  cases h with
  | cell id => exact congrArg Handle.cell hw
  | const v => rfl

theorem CellEnv.map_congr {env : CellEnv ι} (hw : env.Within (fun i => f i = g i) D) :
    env.map f = env.map g := by
  refine List.map_congr_left fun e he => ?_
  have hc : e.2.context.map (Handle.map f) = e.2.context.map (Handle.map g) := by
    cases hc : e.2.context with
    | none => rfl
    | some h => exact congrArg some (Handle.map_congr ((hw e he).context h hc))
  simp only [CellBinding.map, Handle.map_congr (hw e he).val, hc]

theorem CellKey.map_congr {key : CellKey ι} (hw : key.Within (fun i => f i = g i) D) :
    key.map f = key.map g := by
  cases key with
  | model => rfl
  | vacant => rfl
  | slot source key => exact congrArg (CellKey.slot · key) hw.1
  | node id env => exact congrArg (CellKey.node id) (CellEnv.map_congr hw)

section
variable (hf : ∀ i j, P i → P j → f i = f j → i = j)
include hf

private theorem Handle.map_injective {a b : Handle ι} (ha : a.Within P D) (hb : b.Within P E)
    (h : a.map f = b.map f) : a = b := by
  cases a with
  | cell i =>
    cases b with
    | cell j => exact congrArg Handle.cell (hf i j ha hb (by simpa [map] using h))
    | const w => cases h
  | const v =>
    cases b with
    | cell j => cases h
    | const w => simpa [map] using h

private theorem CellBinding.map_injective {a b : CellBinding ι} (ha : a.Within P D)
    (hb : b.Within P E) (h : a.map f = b.map f) : a = b := by
  obtain ⟨val, key, ctx⟩ := a
  obtain ⟨val', key', ctx'⟩ := b
  simp only [map, mk.injEq] at h
  obtain ⟨hval, rfl, hctx⟩ := h
  obtain rfl : val = val' := Handle.map_injective hf ha.val hb.val hval
  cases ctx with
  | none =>
    cases ctx' with
    | none => rfl
    | some h' => cases hctx
  | some h =>
    cases ctx' with
    | none => cases hctx
    | some h' =>
      rw [Handle.map_injective hf (ha.context h rfl) (hb.context h' rfl) (by simpa using hctx)]

private theorem CellEnv.map_injective {a b : CellEnv ι} (ha : a.Within P D) (hb : b.Within P E)
    (h : a.map f = b.map f) : a = b := by
  induction a generalizing b with
  | nil => cases b with
    | nil => rfl
    | cons e rest => cases h
  | cons e rest ih =>
    cases b with
    | nil => cases h
    | cons e' rest' =>
      obtain ⟨he, hw⟩ := List.forall_mem_cons.mp ha
      obtain ⟨he', hw'⟩ := List.forall_mem_cons.mp hb
      simp only [map, List.map_cons, List.cons.injEq, Prod.mk.injEq] at h
      obtain ⟨⟨hl, hbinding⟩, hrest⟩ := h
      rw [ih hw hw' hrest, Prod.ext hl (CellBinding.map_injective hf he he' hbinding)]

/-- Names that tell cells apart tell keys apart. -/
theorem CellKey.map_injective {a b : CellKey ι} (ha : a.Within P D) (hb : b.Within P E)
    (h : a.map f = b.map f) : a = b := by
  cases a with
  | model => cases b <;> first | rfl | cases h
  | vacant => cases b <;> first | rfl | cases h
  | slot i k =>
    cases b with
    | slot j k' =>
      simp only [map, slot.injEq] at h
      rw [hf i j ha.1 hb.1 h.1, h.2]
    | _ => cases h
  | node id env =>
    cases b with
    | node id' env' =>
      simp only [map, node.injEq] at h
      rw [h.1, CellEnv.map_injective hf ha hb h.2]
    | _ => cases h

end

private theorem Handle.within_map {P : κ → Prop} {h : Handle ι} :
    (h.map f).Within P D ↔ h.Within (fun i => P (f i)) D := by
  cases h <;> exact Iff.rfl

private theorem CellEnv.within_map {P : κ → Prop} {env : CellEnv ι} :
    (env.map f).Within P D ↔ env.Within (fun i => P (f i)) D := by
  refine List.forall_mem_map.trans (forall₂_congr fun e _ => ?_)
  refine ⟨fun ⟨hv, hk, hc⟩ => ⟨Handle.within_map.mp hv, hk, fun h he => ?_⟩,
    fun ⟨hv, hk, hc⟩ => ⟨Handle.within_map.mpr hv, hk, fun h he => ?_⟩⟩
  · exact Handle.within_map.mp (hc _ (by simp [CellBinding.map, he]))
  · obtain ⟨h, hb, rfl⟩ := Option.map_eq_some_iff.mp he
    exact Handle.within_map.mpr (hc h hb)

theorem CellKey.within_map {P : κ → Prop} {key : CellKey ι} :
    (key.map f).Within P D ↔ key.Within (fun i => P (f i)) D := by
  cases key with
  | node id env => exact CellEnv.within_map
  | _ => exact Iff.rfl

end

/-! ### Environments -/

namespace CellEnv
variable {ι κ : Type} {P : ι → Prop} {D : Value → Prop} {env : CellEnv ι} (f : ι → κ)

theorem lookup_map (env : CellEnv ι) (l : LambdaId) :
    lookup (map f env) l = (lookup env l).map (CellBinding.map f) := by
  unfold lookup map
  rw [List.find?_map]
  cases h : List.find? ((fun e => decide (e.1 = l)) ∘
    fun e => (e.1, CellBinding.map f e.2)) env with
  | none =>
    have h : env.find? (fun e => e.1 = l) = none := h
    rw [h]
    rfl
  | some e =>
    have h : env.find? (fun e => e.1 = l) = some e := h
    rw [h]
    rfl

theorem context_map (env : CellEnv ι) (l : LambdaId) :
    context (map f env) l = (context env l).map (Handle.map f) := by
  unfold context
  rw [lookup_map]
  cases lookup env l with
  | error e => rfl
  | ok b =>
    obtain ⟨val, key, ctx⟩ := b
    cases ctx <;> rfl

theorem restrict_map (p : Program) (id : NodeId) (env : CellEnv ι) :
    restrict p id (map f env) = map f (restrict p id env) := List.filter_map

private theorem insertBinding_map (l : LambdaId) (b : CellBinding ι) (env : CellEnv ι) :
    insertBinding l (b.map f) (map f env) = map f (insertBinding l b env) := by
  induction env with
  | nil => rfl
  | cons e rest ih =>
    simp only [map, List.map_cons, insertBinding] at ih ⊢
    split
    · rw [ih]
      rfl
    · rfl

theorem bind_map (l : LambdaId) (b : CellBinding ι) (env : CellEnv ι) :
    bind (map f env) l (b.map f) = map f (bind env l b) := by
  unfold bind
  rw [← insertBinding_map]
  exact congrArg _ List.filter_map

theorem mem_of_lookup {l : LambdaId} {b : CellBinding ι} (h : lookup env l = .ok b) :
    (l, b) ∈ env := by
  unfold lookup at h
  split at h
  · rename_i hf
    cases h
    have hl := List.find?_some hf
    simp only [decide_eq_true_eq] at hl
    exact hl ▸ List.mem_of_find?_eq_some hf
  · cases h

theorem Within.lookup (hw : env.Within P D) {l : LambdaId} {b : CellBinding ι}
    (h : lookup env l = .ok b) : b.Within P D := hw (l, b) (mem_of_lookup h)

theorem Within.context (hw : env.Within P D) {l : LambdaId} {h : Handle ι}
    (hc : context env l = .ok h) : h.Within P D := by
  obtain ⟨b, hl, hc⟩ := except_bind_eq_ok.mp hc
  split at hc
  · cases hc
    exact (hw.lookup hl).context _ ‹_›
  · cases hc

theorem Within.restrict (hw : env.Within P D) (p : Program) (id : NodeId) :
    (restrict p id env).Within P D := fun e he => hw e (List.mem_filter.mp he).1

theorem mem_insertBinding {l : LambdaId} {b : CellBinding ι} {e : LambdaId × CellBinding ι} :
    e ∈ insertBinding l b env ↔ e = (l, b) ∨ e ∈ env := by
  induction env with
  | nil => simp [insertBinding]
  | cons c rest ih =>
    unfold insertBinding
    split
    · simp only [List.mem_cons, ih]
      exact or_left_comm
    · exact List.mem_cons

theorem mem_bind {l : LambdaId} {b : CellBinding ι} {e : LambdaId × CellBinding ι} :
    e ∈ bind env l b ↔ e = (l, b) ∨ e ∈ env ∧ e.1 ≠ l := by
  rw [bind, mem_insertBinding, List.mem_filter, decide_eq_true_eq]

theorem Within.bind (hw : env.Within P D) {l : LambdaId} {b : CellBinding ι}
    (hb : b.Within P D) : (bind env l b).Within P D := by
  intro e he
  rcases mem_bind.mp he with rfl | ⟨he, -⟩
  · exact hb
  · exact hw e he

end CellEnv

/-! ### Origins -/

/-- What a cell stands for. -/
inductive Origin where
  | of (key : CellKey Origin)

private theorem CellKey.sizeOf_reference {ι : Type} [SizeOf ι] {key : CellKey ι} {i : ι}
    (h : i ∈ key.references) : sizeOf i < sizeOf key := by
  have handle {h : Handle ι} (hi : i ∈ handleCells h) : sizeOf i < sizeOf h := by
    cases h with
    | cell c =>
      obtain rfl := List.mem_singleton.mp hi
      simp
    | const v => cases hi
  cases key with
  | model => cases h
  | vacant => cases h
  | slot source key =>
    obtain rfl := List.mem_singleton.mp h
    simp only [slot.sizeOf_spec]
    omega
  | node id env =>
    obtain ⟨⟨l, val, key, context⟩, hb, hi⟩ := List.mem_flatMap.mp h
    have he := List.sizeOf_lt_of_mem hb
    simp only [Prod.mk.sizeOf_spec, CellBinding.mk.sizeOf_spec, node.sizeOf_spec] at he ⊢
    rcases List.mem_append.mp hi with hi | hi
    · have hv : sizeOf i < sizeOf val := handle hi
      omega
    · cases context with
      | none => cases hi
      | some h =>
        have hc : sizeOf i < sizeOf h := handle hi
        simp only [Option.some.sizeOf_spec] at he
        omega

namespace Origin

/-- All constants in an origin are of a class. -/
inductive In (D : Value → Prop) : Origin → Prop
  | of {key : CellKey Origin} (cells : ∀ o ∈ key.references, In D o)
    (constants : key.Within (fun _ => True) D) : In D (.of key)

theorem in_of {D : Value → Prop} {key : CellKey Origin} :
    In D (.of key) ↔ key.Within (In D) D :=
  ⟨fun | .of cells constants => CellKey.within_iff.mpr ⟨cells, constants⟩,
    fun h => .of (CellKey.within_iff.mp h).1 (CellKey.within_iff.mp h).2⟩

theorem in_slot {D : Value → Prop} {source : Origin} {key : Value} (hs : source.In D)
    (hk : D key) : In D (.of (.slot source key)) :=
  in_of.mpr (show CellKey.Within _ _ (.slot source key) from ⟨hs, hk⟩)

theorem in_node {D : Value → Prop} {id : NodeId} {env : CellEnv Origin}
    (he : env.Within (In D) D) : In D (.of (.node id env)) :=
  in_of.mpr (show CellKey.Within _ _ (.node id env) from he)

/-- How much deeper the reads for a key can go than those for the cells that it names. -/
def height : CellKey Origin → Nat
  | .node id _ => Nat.pow 4 id
  | .slot _ _ => 1
  | .model => 0
  | .vacant => 0

/-- A bound on how deep reads can go. -/
def weight : Origin → Nat
  | .of key => (key.references.attach.map fun o => weight o.1).foldr max 0 + height key
termination_by o => o
decreasing_by
  have := CellKey.sizeOf_reference o.2
  simp only [of.sizeOf_spec]
  omega

private theorem foldr_max_le {xs : List Nat} {n : Nat} :
    xs.foldr max 0 ≤ n ↔ ∀ x ∈ xs, x ≤ n := by
  induction xs with
  | nil => simp
  | cons x rest ih => rw [List.foldr_cons, Nat.max_le, ih, List.forall_mem_cons]

/-- The weight of a key over bounded cells. -/
theorem weight_le {key : CellKey Origin} {n : Nat} :
    weight (.of key) ≤ n + height key ↔ ∀ o ∈ key.references, o.weight ≤ n := by
  rw [weight, Nat.add_le_add_iff_right, foldr_max_le]
  simp

theorem exists_weight (key : CellKey Origin) :
    ∃ n, weight (.of key) = n + height key ∧ ∀ o ∈ key.references, o.weight ≤ n := by
  refine ⟨_, weight.eq_1 key, ?_⟩
  simpa using foldr_max_le.mp (Nat.le_refl
    ((key.references.attach.map fun o => weight o.1).foldr max 0))

theorem weight_of_reference (key : CellKey Origin) {o : Origin} (h : o ∈ key.references) :
    o.weight + height key ≤ weight (.of key) := by
  obtain ⟨n, hn, hr⟩ := exists_weight key
  have := hr o h
  omega

theorem weight_lt_of_reference {key : CellKey Origin} {o : Origin} (h : o ∈ key.references) :
    o.weight < weight (.of key) := by
  have hpos : 0 < height key := by
    cases key with
    | node id env => exact Nat.pow_pos (by decide)
    | slot source key => exact Nat.one_pos
    | model => cases h
    | vacant => cases h
  have := weight_of_reference key h
  omega

end Origin

end Recalc
