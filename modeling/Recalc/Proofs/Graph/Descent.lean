import Mathlib.Logic.Relation
import Recalc.Proofs.Graph.Arena
import Recalc.Proofs.Graph.Parallel

/-! Reading cells ends. What a cell needs is lighter than the cell, so no cell needs itself, however
far the needs are followed: while a cell is being brought up to date it is never come to again, and
the depth that a recalculation allows is never used up. -/
namespace Recalc

/-- With any library evaluation may fail for any reason but its depth. -/
def Linkage.shallow {p : Program} (hp : p.Linked) (lib : Library) : Linkage where
  program := p
  library := lib
  linked := hp
  fails e := e ≠ .tooDeep
  values e h := by
    rintro rfl
    exact h
  call f _ args e h := by
    rintro rfl
    unfold Library.call at h
    split at h <;> cases h

namespace Graph

/-! ### What a cell needs -/

/-- Brings cells up to date, but gives up at one of them. -/
def barring (d : CellId) (verify : CellId → CellM Unit) (id : CellId) : CellM Unit :=
  if id = d then throw .tooDeep else verify id

/-- Computes a cell over a document, with a way to bring cells up to date. -/
def computeOver (p : Program) (lib : Library) (verify : CellId → CellM Unit) (model : Value)
    (g : Graph) (id : CellId) : Except EvalError Value × State :=
  (compute p lib verify (g.cell id).key).run { graph := g.advance.setModel model }

/-- What a cell needs: the cells that it has read, those that its key names, and those that
computing it over some document would read or, if that fails, could not do without. -/
inductive Needs (p : Program) (lib : Library) (g : Graph) (id d : CellId) : Prop
  | deps (h : d ∈ (g.cell id).deps)
  | key (h : d ∈ (g.cell id).key.references)
  | read (model : Value) (fuel : Nat)
    (h : d ∈ (computeOver p lib (verify p lib fuel) model g id).2.reads)
  | asked (model : Value) (h : ∀ fuel, depthBound p ≤ fuel →
      (computeOver p lib (barring d (verify p lib fuel)) model g id).1 = .error .tooDeep)

private theorem key_start {g : Graph} (h : modelCell < g.cells.size) (model : Value) (id : CellId) :
    ((g.advance.setModel model).cell id).key = (g.cell id).key := by
  rw [setModel, store, cell_setCell (g := g.advance) h]
  split
  · subst id
    exact Cell.key_renew _ _ _
  · rfl

section
variable {L : Linkage} {g : Graph} {origin : CellId → Origin} {verify : CellId → CellM Unit}
  {id d : CellId}

/-- Giving up at a heavy cell does not show while lighter cells are brought up to date. -/
theorem barring_verifies {w : World} {c : Nat} (hv : L.VerifiesAfter w c verify)
    (hl : w.graph.Live d) (hd : c ≤ (w.origin d).weight) :
    L.VerifiesAfter w c (barring d verify) := by
  intro b s origin id later running live light
  have other : id ≠ d := by
    rintro rfl
    rw [show origin id = w.origin id from later.origin id hl] at light
    omega
  rw [barring, if_neg other]
  exact hv b s origin id later running live light

/-- Computing a cell over a document reads only cells that are lighter, and fails only for a reason
of the linkage. -/
theorem computeOver_keeps (layout : World.Layout L.program ⟨g, origin⟩) (hl : g.Live id)
    (model : Value) (hv : L.VerifiesAfter ⟨g.advance.setModel model, origin⟩ (origin id).weight
      verify) :
    (∀ e, (computeOver L.program L.library verify model g id).1 = .error e → L.fails e) ∧
    ∀ d ∈ (computeOver L.program L.library verify model g id).2.reads, g.Live d →
      (origin d).weight < (origin id).weight := by
  obtain ⟨start, current⟩ := layout.start model
  have size := layout.indexed.live_model.lt
  have live_iff (j : CellId) : (g.advance.setModel model).Live j ↔ g.Live j := by
    rw [Live, Live, key_start size]
  unfold computeOver
  cases hm : (g.cell id).key.isModel with
  | true =>
    cases hk : (g.cell id).key with
    | model => exact ⟨by rintro e ⟨⟩, by rintro d ⟨⟩⟩
    | _ => simp [hk, CellKey.isModel] at hm
  | false =>
    have running : L.Running (origin id).weight { graph := g.advance.setModel model } origin :=
      ⟨start, current, by simp⟩
    have keeps := Linkage.keeps_compute (w := ⟨g.advance.setModel model, origin⟩) hv start
      ((live_iff id).mpr hl) (by rw [key_start size]; exact hm)
    rw [key_start size] at keeps
    obtain ⟨origin', later, running', ends⟩ := keeps _ origin (.refl _ _) running
    refine ⟨fun e he => ?_, fun d hd live => ?_⟩
    · rw [he] at ends
      exact ends
    · rw [← show origin' d = origin d from later.origin d ((live_iff d).mpr live)]
      exact (running'.reads d hd).2.2

end

section
variable {p : Program} {lib : Library} {g : Graph} {origin : CellId → Origin} {id d : CellId}

/-- With little fuel cells may be left as they are, but never more than that. -/
theorem verifies_any (hp : p.Linked) (lib : Library) (c fuel : Nat) :
    (Linkage.any hp lib).Verifies c (verify p lib fuel) := by
  induction fuel generalizing c with
  | zero =>
    intro b s origin id running _ _
    exact ⟨origin, .refl _ _, running, rfl, trivial⟩
  | succ fuel ih =>
    intro b s origin id running hl _
    exact Linkage.bring_brings (L := .any hp lib) ((ih _).after _) running hl

/-- What a cell needs is lighter than the cell. -/
theorem Needs.lighter (hp : p.Linked) (layout : World.Layout p ⟨g, origin⟩)
    (h : g.Needs p lib id d) :
    g.Live id ∧ (g.Live d → (origin d).weight < (origin id).weight) := by
  by_cases hl : g.Live id
  · refine ⟨hl, fun hd => ?_⟩
    have placed := layout.placed id hl
    cases h with
    | deps h => exact (placed.deps d h).2
    | key h =>
      exact placed.lighter h
    | read model fuel h =>
      have verifies := verifies_any hp lib (origin id).weight fuel
      exact (computeOver_keeps (L := .any hp lib) layout hl model (verifies.after _)).2 d h hd
    | asked model h =>
      by_contra heavy
      let L := Linkage.shallow hp lib
      let fuel := max (depthBound p) (origin id).weight
      have verifies := ((L.verifies fuel).after ⟨g.advance.setModel model, origin⟩).mono
        (Nat.le_max_right _ _)
      have live : (g.advance.setModel model).Live d := by
        rw [Live, key_start layout.indexed.live_model.lt]
        exact hd
      have barred := barring_verifies verifies live (Nat.not_lt.mp heavy)
      exact (computeOver_keeps layout hl model barred).1 _ (h fuel (Nat.le_max_left _ _)) rfl
  · -- A cell that is not in use has nothing to name or to read.
    have vacant : g.cell id = default := layout.vacant id hl
    cases h with
    | deps h =>
      rw [vacant] at h
      cases h
    | key h =>
      rw [vacant] at h
      cases h
    | read model fuel h =>
      rw [computeOver, vacant] at h
      cases h
    | asked model h =>
      have failed := h _ (Nat.le_refl _)
      rw [computeOver, vacant] at failed
      cases failed

/-- No cell needs itself, not even through others. -/
theorem acyclic_of_layout (hp : p.Linked) (layout : World.Layout p ⟨g, origin⟩) (id : CellId) :
    ¬ Relation.TransGen (g.Needs p lib) id id := by
  have lighter {a b : CellId} (h : Relation.TransGen (g.Needs p lib) a b) :
      g.Live a ∧ (g.Live b → (origin b).weight < (origin a).weight) := by
    induction h with
    | single h => exact h.lighter hp layout
    | tail _ h ih =>
      obtain ⟨live, light⟩ := h.lighter hp layout
      exact ⟨ih.1, fun hl => Nat.lt_trans (light hl) (ih.2 live)⟩
  intro cycle
  obtain ⟨live, light⟩ := lighter cycle
  exact Nat.lt_irrefl _ (light live)

end

/-! ### Giving up -/

section
variable {α β : Type}

/-- A computation that gives up, or does what another one does. -/
def Refines (x y : CellM α) : Prop := ∀ s, (x.run s).1 = .error .tooDeep ∨ x.run s = y.run s

theorem Refines.refl (x : CellM α) : Refines x x := fun _ => .inr rfl

theorem Refines.bind {x y : CellM α} {f g : α → CellM β} (hx : Refines x y)
    (hf : ∀ s a t, x.run s = (.ok a, t) → Refines (f a) (g a)) :
    Refines (x >>= f) (y >>= g) := by
  intro s
  rcases hrun : x.run s with ⟨r, t⟩
  rcases hx s with failed | same
  · rw [hrun] at failed
    cases failed
    rw [run_bind_error hrun]
    exact .inl rfl
  · have hrun' := same ▸ hrun
    cases r with
    | error e =>
      rw [run_bind_error hrun, run_bind_error hrun']
      exact .inr rfl
    | ok a =>
      rw [run_bind_ok hrun, run_bind_ok hrun']
      exact hf s a t hrun t

/-- Giving up or doing the same, as a relation between computations. -/
def refinement : Correspondence CellM CellM where
  rel P x y := Refines x y ∧ ∀ s a t, x.run s = (.ok a, t) → P a
  pure h := by
    refine ⟨Refines.refl _, ?_⟩
    rintro s a t ⟨⟩
    exact h
  bind {α β P Q x y f g} hx hf := by
    refine ⟨hx.1.bind fun s a t hrun => (hf a (hx.2 s a t hrun)).1, ?_⟩
    intro s b u hrun
    rcases hrun' : x.run s with ⟨r, t⟩
    cases r with
    | error e =>
      rw [run_bind_error hrun'] at hrun
      cases hrun
    | ok a =>
      rw [run_bind_ok hrun'] at hrun
      exact (hf a (hx.2 s a t hrun')).2 t b u hrun
  throw e := by
    refine ⟨Refines.refl _, ?_⟩
    rintro s a t ⟨⟩

private theorem Refines.alike {x y : CellM α} (h : Refines x y) : refinement.Alike x y :=
  ⟨h, fun _ _ _ _ => trivial⟩

variable {p : Program} {lib : Library} {verify verify' : CellId → CellM Unit}
  (hv : ∀ id, Refines (verify id) (verify' id))
include hv

private theorem refines_pull (id : CellId) : Refines (pull verify id) (pull verify' id) :=
  (hv id).bind fun _ _ _ _ => Refines.refl _

private theorem refines_compute (key : CellKey CellId) :
    Refines (compute p lib verify key) (compute p lib verify' key) := by
  cases key with
  | model | vacant => exact Refines.refl _
  | slot source key => exact (refines_pull hv source).bind fun _ _ _ _ => Refines.refl _
  | node id env =>
    have accesses : refinement.Accesses (access verify) (access verify') :=
      ⟨rfl, fun _ => (Refines.refl _).alike, fun id => (refines_pull hv id).alike⟩
    exact (accesses.evalNode (fun _ _ => (Refines.refl _).alike) id env).1

private theorem refines_recompute (id : CellId) :
    Refines (recompute (compute p lib verify) id) (recompute (compute p lib verify') id) := by
  intro s
  unfold recompute
  simp only [ExceptT.run_mk]
  have computed : Refines (compute p lib verify (s.graph.cell id).key)
      (compute p lib verify' (s.graph.cell id).key) := refines_compute hv _
  rcases computed { s with reads := [] } with failed | same
  · rcases hrun : (compute p lib verify (s.graph.cell id).key).run { s with reads := [] }
      with ⟨r, t⟩
    rw [hrun] at failed
    cases failed
    exact .inl rfl
  · rw [same]
    exact .inr rfl

private theorem refines_anyChanged (since : Revision) (ids : List CellId) :
    Refines (anyChanged verify since ids) (anyChanged verify' since ids) := by
  induction ids with
  | nil => exact Refines.refl _
  | cons id rest ih =>
    apply (hv id).bind
    intro _ _ _ _
    apply (Refines.refl get).bind
    intro _ s _ _
    split
    · exact Refines.refl _
    · exact ih

private theorem refines_bring (id : CellId) :
    Refines (bring p lib verify id) (bring p lib verify' id) := by
  apply (Refines.refl get).bind
  intro _ s _ _
  simp only
  split
  · exact Refines.refl _
  · split
    · exact refines_recompute hv id
    · split
      · exact Refines.refl _
      · apply (refines_anyChanged hv _ _).bind
        intro _ changed _ _
        split
        · exact refines_recompute hv id
        · exact Refines.refl _

private theorem refines_readOutputsBy (p : Program) (model : Value) (g : Graph) :
    (readOutputsBy verify p model g).1 = .error .tooDeep ∨
      readOutputsBy verify p model g = readOutputsBy verify' p model g := by
  have output (o : String × NodeId) :
      refinement.Alike (readOutputBy verify o.2) (readOutputBy verify' o.2) := by
    apply Refines.alike
    apply (Refines.refl (internCell (.node o.2 []))).bind
    intro _ id _ _
    exact (refines_pull hv id).bind fun _ _ _ _ => Refines.refl _
  have outputs := refinement.mapM fun o (_ : o ∈ p.outputs) => output o
  exact outputs.1 _

end

/-! ### Never coming back -/

/-- Brings a cell up to date, but gives up when it comes to a cell that is being brought up to date
already. -/
def guarded (p : Program) (lib : Library) : Nat → List CellId → CellId → CellM Unit
  | 0, _, _ => throw .tooDeep
  | fuel + 1, busy, id =>
    if id ∈ busy then throw .tooDeep else bring p lib (guarded p lib fuel (id :: busy)) id

/-- While heavy cells are busy, all lighter cells are brought up to date. -/
theorem guarded_verifies (L : Linkage) {w : World} {c fuel : Nat} {busy : List CellId}
    (hc : c ≤ fuel) (hb : ∀ d ∈ busy, w.graph.Live d ∧ c ≤ (w.origin d).weight) :
    L.VerifiesAfter w c (guarded L.program L.library fuel busy) := by
  induction fuel generalizing w c busy with
  | zero =>
    intro b s origin id _ _ _ hw
    omega
  | succ fuel ih =>
    intro b s origin id later running hl hw
    -- The busy cells stay as heavy as they were, and the cell is lighter than all of them.
    have heavy : ∀ d ∈ busy, s.graph.Live d ∧ c ≤ (origin d).weight :=
      later.forall_live (P := (c ≤ ·.weight)) hb
    have free : id ∉ busy := fun hm => absurd (heavy id hm).2 (Nat.not_le.mpr hw)
    rw [guarded, if_neg free]
    apply Linkage.bring_brings _ running hl
    apply ih (w := ⟨s.graph, origin⟩) (by omega)
    refine List.forall_mem_cons.mpr ⟨⟨hl, Nat.le_refl _⟩, fun d hd => ⟨(heavy d hd).1, ?_⟩⟩
    exact Nat.le_trans (Nat.le_of_lt hw) (heavy d hd).2

section
variable {p : Program} {lib : Library}

private theorem guarded_refines (fuel : Nat) (busy : List CellId) (id : CellId) :
    Refines (guarded p lib fuel busy id) (verify p lib fuel id) := by
  induction fuel generalizing busy id with
  | zero => exact Refines.refl _
  | succ fuel ih =>
    rw [guarded]
    split
    · exact fun _ => .inl rfl
    · exact refines_bring (ih (id :: busy)) id

/-- More fuel changes nothing, except where it ran out. -/
theorem verify_refines {fuel fuel' : Nat} (h : fuel ≤ fuel') (id : CellId) :
    Refines (verify p lib fuel id) (verify p lib fuel' id) := by
  induction fuel generalizing fuel' id with
  | zero => exact fun _ => .inl rfl
  | succ fuel ih =>
    obtain ⟨k, rfl⟩ := Nat.exists_eq_add_of_lt h
    exact refines_bring (ih (Nat.le_add_right fuel k)) id

end

variable {m : Model} {backend : Backend} {p : Program} {lib : Library} {g : Graph}

/-- Reading outputs, by whatever brings cells up to date, does not give up. -/
theorem readOutputsBy_ne_tooDeep {L : Linkage} (hf : ∀ e, L.fails e → e ≠ .tooDeep)
    {verify : CellId → CellM Unit} (hv : L.Verifies (depthBound L.program) verify)
    {origin : CellId → Origin} (layout : World.Layout L.program ⟨g, origin⟩) (model : Value) :
    (readOutputsBy verify L.program model g).1 ≠ .error .tooDeep := by
  obtain ⟨-, -, -, ends⟩ := Linkage.readOutputsBy_keeps hv layout model
  intro failed
  rw [failed] at ends
  exact hf _ ends rfl

/-- A recalculation does not give up. -/
theorem refresh_ne_tooDeep (hp : p.Linked) (lib : Library) {origin : CellId → Origin}
    (layout : World.Layout p ⟨g, origin⟩) (model : Value) :
    (g.refresh p lib model).1 ≠ .error .tooDeep := by
  obtain ⟨-, -, -, ends⟩ := (Linkage.shallow hp lib).refresh_keeps layout model
  intro failed
  change (Linkage.shallow hp lib).Ends _ (g.refresh p lib model).1 at ends
  rw [failed] at ends
  exact ends rfl

/-- In every state that recalculations lead to, no cell needs itself, not even through other cells.
A recalculation that gives up when it comes back to a cell that is being brought up to date, or when
it goes deeper than any bound that is at least the one always allowed, is the recalculation itself,
and it does not give up. -/
theorem reading_ends (hc : Program.compile m backend = .ok p) (hg : Arises p lib g) :
    (∀ id, ¬ Relation.TransGen (g.Needs p lib) id id) ∧
    ∀ model fuel, depthBound p ≤ fuel →
      readOutputsBy (guarded p lib fuel []) p model g = readOutputs p lib model g ∧
      (g.refresh p lib model).1 ≠ .error .tooDeep := by
  have linked := Program.linked_of_compile hc
  let L := Linkage.shallow linked lib
  obtain ⟨origin, layout⟩ := layout_of_arises (L := L) hg
  refine ⟨acyclic_of_layout linked layout, fun model fuel hf => ⟨?_, ?_⟩⟩
  · have reads : (readOutputsBy (verify p lib (depthBound p)) p model g).1 ≠ .error .tooDeep :=
      readOutputsBy_ne_tooDeep (fun _ h => h) (L.verifies _) layout model
    have guards : (readOutputsBy (guarded p lib fuel []) p model g).1 ≠ .error .tooDeep :=
      readOutputsBy_ne_tooDeep (L := L) (fun _ h => h) (fun b s origin id running hl hw =>
        guarded_verifies L hf (by simp) b s origin id (.refl _ ⟨s.graph, origin⟩) running hl hw)
        layout model
    calc readOutputsBy (guarded p lib fuel []) p model g
      _ = readOutputsBy (verify p lib fuel) p model g :=
        (refines_readOutputsBy (guarded_refines fuel []) p model g).resolve_left guards
      _ = readOutputsBy (verify p lib (depthBound p)) p model g :=
        ((refines_readOutputsBy (verify_refines hf) p model g).resolve_left reads).symm
      _ = readOutputs p lib model g := (readOutputs_eq p lib model g).symm
  · exact refresh_ne_tooDeep linked lib layout model

/-- After a recalculation that succeeds and one that fails. -/
theorem reading_ends_marking :
    (∀ id, ¬ Relation.TransGen
      ((after markingProgram markLibrary markedDocuments).Needs markingProgram markLibrary) id id) ∧
    ∀ model fuel, depthBound markingProgram ≤ fuel →
      readOutputsBy (guarded markingProgram markLibrary fuel []) markingProgram model
          (after markingProgram markLibrary markedDocuments) =
        readOutputs markingProgram markLibrary model
          (after markingProgram markLibrary markedDocuments) ∧
      ((after markingProgram markLibrary markedDocuments).refresh markingProgram markLibrary
        model).1 ≠ .error .tooDeep :=
  reading_ends compile_marking (.after markedDocuments)

end Graph

end Recalc
