import Recalc.Proofs.Graph.Layout

/-! How the value of a cell is computed from the values of others, whatever constants its key has.
Cells with equal keys are one cell, so keys of cells that are read are made canonical. What is read
for a node that contains no root stays with the elements that its bindings are about. -/
namespace Recalc

/-- A node that neither is the document nor has it among its parts. -/
def Program.Rootless (p : Program) (id : NodeId) : Prop :=
  ∀ n, Relation.ReflTransGen (fun a b => b ∈ (p.node a).children) id n → p.node n ≠ .root

namespace Program.Rootless
variable {p : Program} {id c : NodeId}

private theorem child (h : p.Rootless id) (hc : c ∈ (p.node id).children) : p.Rootless c :=
  fun n path => h n (path.head hc)

/-- It is enough to look at the node and at its parts. -/
theorem of_children (hn : p.node id ≠ .root) (h : ∀ c ∈ (p.node id).children, p.Rootless c) :
    p.Rootless id := by
  intro n path
  rcases Relation.ReflTransGen.cases_head path with rfl | ⟨c, hc, rest⟩
  · exact hn
  · exact h c hc n rest

end Program.Rootless

section
variable {ι κ : Type} (f : ι → κ)

private theorem CellEnv.canon_map (env : CellEnv ι) : (env.map f).canon = env.canon.map f := by
  have handle (h : Handle ι) : (h.map f).canon = h.canon.map f := by
    cases h <;> rfl
  simp only [CellEnv.canon, CellEnv.map, List.map_map]
  refine List.map_congr_left fun e _ => ?_
  obtain ⟨l, val, key, ctx⟩ := e
  cases ctx <;> simp [CellBinding.canon, CellBinding.map, handle]

theorem CellKey.canon_map (key : CellKey ι) : (key.map f).canon = key.canon.map f := by
  cases key with
  | node id env => exact congrArg (CellKey.node id) (CellEnv.canon_map f env)
  | model | vacant | slot source key => rfl

end

namespace Origin

/-- The same name for all equal keys. -/
def ofKey (key : CellKey Origin) : Origin := .of key.canon

/-- Origins as names of cells, one for all equal keys. -/
abbrev canonical : CellAccess Reading Origin := accessBy ofKey

/-- How the value of a key is computed from the values of origins. -/
def course (p : Program) (lib : Library) : CellKey Origin → Reading Value
  | .slot source key => .read source fun v => MonadExcept.ofExcept (v.get key)
  | .node id env => canonical.evalNode p (invoke lib) id env
  | .model => pure .null
  | .vacant => pure .null

variable {p : Program} {lib : Library} {position : Value}

/-! ### Weights -/

theorem weight_ofKey_le {key : CellKey Origin} {n : Nat} (h : ∀ o ∈ key.references, o.weight ≤ n) :
    (ofKey key).weight ≤ n + height key := by
  have same : height key.canon = height key := by
    cases key <;> rfl
  rw [ofKey, ← same]
  apply weight_le.mpr
  rw [CellKey.references_canon]
  exact h

private theorem exists_weight_ofKey (key : CellKey Origin) :
    ∃ n, (ofKey key).weight = n + height key ∧ ∀ o ∈ key.references, o.weight ≤ n := by
  have same : height key.canon = height key := by
    cases key <;> rfl
  obtain ⟨n, hn, light⟩ := exists_weight key.canon
  rw [same] at hn
  rw [CellKey.references_canon] at light
  exact ⟨n, hn, light⟩

/-- Origins by weight. -/
def weights (p : Program) : Grading p fun _ => True where
  name := ofKey
  nodes _ := True
  grade n o := o.weight ≤ n
  child _ _ := trivial
  mono h hn := Nat.le_trans h hn
  model n _ _ := by simp [weight_model]
  slot hs _ := weight_ofKey_le fun _ ho => List.mem_singleton.mp ho ▸ hs
  node {_ id env} _ he :=
    have within : (CellKey.node id env).Within _ _ := he
    weight_ofKey_le (CellKey.within_iff.mp within).1

/-- What is read for a key is lighter than it. -/
theorem course_light (hl : p.Lawful) (key : CellKey Origin) :
    (course p lib key).Meets (fun _ => True) (fun o => o.weight < (ofKey key).weight)
      fun _ => True := by
  obtain ⟨n, hn, light⟩ := exists_weight_ofKey key
  cases key with
  | model | vacant => exact Reading.Meets.pure trivial
  | slot source key =>
    refine ⟨?_, fun v _ => Reading.Meets.ofExcept fun _ _ => trivial⟩
    rw [hn]
    exact Nat.lt_succ_of_le (light source List.mem_cons_self)
  | node id env =>
    have within : (CellKey.node id env).Within (fun o => o.weight ≤ n) fun _ => True :=
      CellKey.within_references light
    have hpos := pow_pos id
    simp only [height] at hn
    refine ((weights p).evalNode_meets hl (readClass_any p lib) within trivial
      (b := n + Nat.pow 4 id - 1) (by omega)).mono (fun o ho => ?_) fun _ h => h
    have ho : o.weight ≤ n + Nat.pow 4 id - 1 := ho
    omega

/-! ### One element of the document -/

/-- An origin that is about one element of the document: it is the element, a slot of such an origin
or a node without root under bindings to such origins. -/
inductive Local (p : Program) (position : Value) : Origin → Prop
  | element : Local p position (.of (.slot (.of .model) position))
  | slot {o : Origin} (key : Value) : Local p position o → Local p position (.of (.slot o key))
  | node {id : NodeId} {env : CellEnv Origin} : p.Rootless id →
      (∀ o ∈ (CellKey.node id env).references, Local p position o) →
      Local p position (.of (.node id env))

theorem not_local_model : ¬ Local p position (.of .model) := nofun

/-- An element is about no other position than its own. -/
theorem Local.position_eq {key : Value} (h : Local p position (.of (.slot (.of .model) key))) :
    key = position := by
  cases h with
  | element => rfl
  | slot key h => exact absurd h not_local_model

theorem local_ofKey {id : NodeId} {env : CellEnv Origin} :
    Local p position (ofKey (.node id env)) ↔
      p.Rootless id ∧ env.Within (Local p position) fun _ => True := by
  have references := CellKey.references_canon (CellKey.node id env)
  constructor
  · intro h
    cases h with
    | node hr he =>
      have within : (CellKey.node id env).Within (Local p position) fun _ => True :=
        CellKey.within_references (references ▸ he)
      exact ⟨hr, within⟩
  · rintro ⟨hr, he⟩
    refine .node hr fun o ho => ?_
    have within : (CellKey.node id env).Within _ _ := he
    exact (CellKey.within_iff.mp within).1 o (references ▸ ho)

/-- Origins that are about one element, for nodes without root. -/
def locality (p : Program) (position : Value) : Grading p fun _ => True where
  name := ofKey
  nodes := p.Rootless
  grade _ := Local p position
  child := Program.Rootless.child
  mono h _ := h
  model _ hr hn := absurd hn (hr _ .refl)
  slot hs _ := .slot _ hs
  node hr he := local_ofKey.mpr ⟨hr, he⟩

theorem readNode_local (hl : p.Lawful) {env : CellEnv Origin} {id : NodeId} (hr : p.Rootless id)
    (he : env.Within (Local p position) fun _ => True) :
    (canonical.readNode p id env).Meets (fun _ => True) (Local p position) fun _ => True :=
  (locality p position).readNode_meets hl (readClass_any p .empty) (n := 0) he hr
    (Nat.le_add_right _ _)

/-- What is read for a node about one element is about that element. -/
theorem course_local_node (hl : p.Lawful) {id : NodeId} {env : CellEnv Origin}
    (h : Local p position (ofKey (.node id env))) :
    (course p lib (.node id env)).Meets (fun _ => True) (Local p position) fun _ => True := by
  obtain ⟨hr, he⟩ := local_ofKey.mp h
  exact (locality p position).evalNode_meets hl (readClass_any p lib) he hr (n := 0) (Nat.le_succ _)

/-- What is read for a key about one element is about that element, or is the document. -/
theorem course_local (hl : p.Lawful) {key : CellKey Origin} (h : Local p position (ofKey key)) :
    (course p lib key).Meets (fun _ => True)
      (fun o => o = .of .model ∨ Local p position o) fun _ => True := by
  cases key with
  | model => exact absurd h not_local_model
  | vacant => cases h
  | slot source key =>
    refine ⟨?_, fun v _ => Reading.Meets.ofExcept fun _ _ => trivial⟩
    generalize hk : ofKey (.slot source key) = o at h
    cases h with
    | element =>
      cases hk
      exact .inl rfl
    | slot _ ho =>
      cases hk
      exact .inr ho
    | node _ _ => cases hk
  | node id env => exact (course_local_node hl h).mono (fun _ ho => .inr ho) fun _ h => h

end Origin

theorem World.Placed.origin_ofKey {p : Program} {w : World} {id : CellId} (h : w.Placed p id) :
    w.origin id = Origin.ofKey ((w.graph.cell id).key.map w.origin) := by
  rw [h.origin_eq, originOf, Origin.ofKey, CellKey.canon_map]

end Recalc
