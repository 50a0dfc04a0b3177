import Recalc.Proofs.Graph.Replay
import Recalc.Proofs.Graph.Unread

/-! Cells that a new document does not touch. A slot of the document is steady if it keeps its
value, and any other cell if all that it has read is steady. Whatever else happens in a
recalculation, no steady cell changes, and none but slots of the document is computed. -/
namespace Recalc.Graph

/-- A cell that was current before a new document and keeps its value. -/
inductive Steady (g : Graph) (new : Value) : CellId → Prop
  | slot {id : CellId} {key v : Value} : g.Current id → (g.cell id).key = .slot modelCell key →
      new.get key = .ok v → (g.value id == v) = true → Steady g new id
  | cell {id : CellId} : g.Current id → (g.cell id).key.isModel = false →
      (∀ d ∈ (g.cell id).deps, Steady g new d) → Steady g new id

/-- A state of a recalculation over a new document in which the steady cells have at most been
verified. -/
structure Undisturbed (g : Graph) (new : Value) (s : State) : Prop where
  revision : s.graph.revision = g.revision + 1
  model : s.graph.cell modelCell = (g.advance.setModel new).cell modelCell
  cells : ∀ id, g.Steady new id → s.graph.cell id = g.cell id ∨
    s.graph.cell id = { g.cell id with verifiedAt := g.revision + 1 }

variable {p : Program} {lib : Library} {w : World} {g : Graph} {new : Value} {s : State}
  {id : CellId}

private theorem Steady.current (h : g.Steady new id) : g.Current id := by
  cases h with
  | slot hc _ _ _ => exact hc
  | cell hc _ _ => exact hc

private theorem Steady.live (h : w.graph.Steady new id) (layout : w.Layout p) :
    w.graph.Live id := by
  by_contra hl
  have value := h.current.1
  rw [layout.vacant id hl] at value
  cases value

private theorem Steady.isModel (h : g.Steady new id) : (g.cell id).key.isModel = false := by
  cases h with
  | slot _ hk _ _ =>
    rw [hk]
    rfl
  | cell _ hm _ => exact hm

private theorem Steady.ne_model (h : g.Steady new id) (hg : g.Indexed) : id ≠ modelCell := by
  rintro rfl
  have hm := h.isModel
  rw [hg.model] at hm
  cases hm

/-! ### Undisturbed states -/

namespace Undisturbed

theorem start (layout : w.Layout p) (new : Value) :
    Undisturbed w.graph new { graph := w.graph.advance.setModel new } where
  revision := rfl
  model := rfl
  cells _ h := .inl (cell_setModel_of_ne layout (h.ne_model layout.indexed))

private theorem key_model (hu : Undisturbed w.graph new s) (layout : w.Layout p) :
    (s.graph.cell modelCell).key = .model := by
  rw [hu.model]
  exact (layout.start new).1.indexed.model

/-- The document has not changed, or is the new one. -/
theorem model_cases (hu : Undisturbed w.graph new s) (layout : w.Layout p) :
    (s.graph.cell modelCell).changedAt ≤ w.graph.revision ∨ s.graph.value modelCell = new := by
  have live := layout.advance.indexed.live_model
  have placed := layout.placed _ layout.indexed.live_model
  rw [Graph.value, hu.model, setModel, cell_store live.lt]
  rcases (w.graph.advance.cell modelCell).renew_cases new w.graph.advance.revision
    with ⟨old, hold, -, he⟩ | he
  · rw [he]
    exact .inl (Nat.le_trans placed.changed_le placed.verified_le)
  · rw [he]
    exact .inr rfl

private theorem current_model (hu : Undisturbed w.graph new s) (layout : w.Layout p) :
    s.graph.Current modelCell := by
  have current := (layout.start new).2
  unfold Graph.Current at current ⊢
  rw [hu.model, hu.revision]
  exact current

section
variable (hu : Undisturbed g new s) (h : g.Steady new id)
include hu h

private theorem key_eq : (s.graph.cell id).key = (g.cell id).key := by
  rcases hu.cells id h with he | he <;> rw [he]

private theorem value_eq : s.graph.value id = g.value id := by
  rw [Graph.value, Graph.value]
  rcases hu.cells id h with he | he <;> rw [he]

private theorem isSome : (s.graph.cell id).value.isSome := by
  rcases hu.cells id h with he | he <;> rw [he] <;> exact h.current.1

/-- A steady cell that is not current has not been verified yet. -/
theorem cell_of_stale (stale : ¬ s.graph.Current id) : s.graph.cell id = g.cell id := by
  rcases hu.cells id h with he | he
  · exact he
  · refine absurd ?_ stale
    unfold Graph.Current
    rw [he, hu.revision]
    exact ⟨h.current.1, rfl⟩

end

private theorem live (hu : Undisturbed w.graph new s) (layout : w.Layout p)
    (h : w.graph.Steady new id) : s.graph.Live id := by
  rw [Live, hu.key_eq h]
  exact h.live layout

private theorem changed_le (hu : Undisturbed w.graph new s) (layout : w.Layout p)
    (h : w.graph.Steady new id) : (s.graph.cell id).changedAt ≤ w.graph.revision := by
  have placed := layout.placed id (h.live layout)
  have le := Nat.le_trans placed.changed_le placed.verified_le
  rcases hu.cells id h with he | he <;> rw [he] <;> exact le

/-- A cell other than the document gets a new content, which is that of before if it is steady. -/
theorem setCell (hu : Undisturbed g new s) (hl : id < s.graph.cells.size) (hm : id ≠ modelCell)
    {c : Cell} (hc : g.Steady new id → c = { g.cell id with verifiedAt := g.revision + 1 })
    {reads computed : List CellId} {calls : Array Call} :
    Undisturbed g new ⟨s.graph.setCell id c, reads, computed, calls⟩ where
  revision := hu.revision
  model := by
    rw [cell_setCell hl, if_neg (Ne.symm hm)]
    exact hu.model
  cells j hj := by
    rw [cell_setCell hl]
    split
    · rename_i he
      subst he
      exact .inr (hc hj)
    · exact hu.cells j hj

private theorem intern (hu : Undisturbed w.graph new s) (layout : w.Layout p) (hg : s.graph.Indexed)
    (key : CellKey CellId) :
    Undisturbed w.graph new { s with graph := (s.graph.intern key).2 } := by
  rcases Graph.intern_cases hg key with ⟨j, -, he⟩ | ⟨j, g', he, ha⟩
  · rw [he]
    exact hu
  · rw [he]
    refine ⟨ha.revision.trans hu.revision, ?_, fun id h => ?_⟩
    · exact (ha.cell_of_live hg.live_model).trans hu.model
    · change g'.cell id = _ ∨ g'.cell id = _
      rw [ha.cell_of_live (hu.live layout h)]
      exact hu.cells id h

end Undisturbed

/-- A slot of the new document with an equal value is stored as it is. -/
theorem store_steadySlot (layout : w.Layout p) {key v : Value} (h : w.graph.Steady new id)
    (hk : (w.graph.cell id).key = .slot modelCell key) (equal : (w.graph.value id == v) = true) :
    { (w.graph.cell id).renew v (w.graph.revision + 1) with
      verifiedAt := w.graph.revision + 1, deps := [modelCell] } =
      { w.graph.cell id with verifiedAt := w.graph.revision + 1 } := by
  have value := h.current.1
  have deps := (layout.placed id (h.live layout)).slot modelCell key hk value
  rw [Cell.renew, if_pos ((holds_eq value v).trans equal), ← deps]

/-! ### Recalculation elsewhere -/

/-- A steady cell is computed anew only if it is a slot of the document, and then from the document
alone and with an equal value. -/
theorem recomputes_steady {L : Linkage} {fuel : Nat} {v : Value} {t : State}
    {origin origin' : CellId → Origin} (layout : w.Layout L.program)
    (hr : L.Recomputes fuel s id v t origin origin') (hu : Undisturbed w.graph new s)
    (h : w.graph.Steady new id) : ∃ key, (w.graph.cell id).key = .slot modelCell key ∧
      (w.graph.value id == v) = true ∧ t = { s with reads := [modelCell] } := by
  have cell := hu.cell_of_stale h hr.stale
  have verified : (s.graph.cell id).verifiedAt = w.graph.revision := by
    rw [cell]
    exact h.current.2
  rcases hr.reason with none | ⟨d, hd, changed⟩
  · have some := hu.isSome h
    rw [none] at some
    cases some
  · rw [verified] at changed
    rw [cell] at hd
    cases h with
    | cell _ _ steady =>
      exact absurd (hu.changed_le layout (steady d hd)) (Nat.not_le_of_lt changed)
    | @slot _ key v' current hk get equal =>
      have live := Steady.live (.slot current hk get equal) layout
      rw [(layout.placed id live).slot modelCell key hk current.1, List.mem_singleton] at hd
      subst hd
      have model := (hu.model_cases layout).resolve_left (Nat.not_le_of_lt changed)
      have run := hr.run
      rw [cell, hk] at run
      cases fuel with
      | zero =>
        have failed : (compute L.program L.library (verify L.program L.library 0)
            (.slot modelCell key)).run { s with reads := [] } =
            (.error .tooDeep, { s with reads := [] }) := rfl
        rw [failed] at run
        cases run
      | succ fuel =>
        rw [compute_modelSlot (s := { s with reads := [] }) fuel (hu.key_model layout)] at run
        change (MonadExcept.ofExcept ((s.graph.value modelCell).get key) : CellM Value).run _ = _
          at run
        rw [model, get] at run
        cases run
        exact ⟨key, hk, equal, rfl⟩

/-- Whatever is recalculated, steady cells stay as they are. -/
theorem undisturbed_regimen {L : Linkage} (layout : w.Layout L.program) (new : Value) :
    L.Regimen (fun _ => True) (Undisturbed w.graph new) where
  course _ _ := Reading.meets_any _
  deps _ _ _ _ _ _ _ _ _ _ := trivial
  reads _ _ hu := ⟨hu.revision, hu.model, hu.cells⟩
  call _ _ hu := ⟨hu.revision, hu.model, hu.cells⟩
  intern _ _ key hg hu := hu.intern layout hg.indexed key
  store fuel s id v t origin origin' hr _ hs ht := by
    have live : t.graph.Live id := hr.later.live id hr.live
    refine ht.setCell live.lt (fun he => hr.stale (he ▸ hs.current_model layout)) fun h => ?_
    obtain ⟨key, hk, equal, rfl⟩ := recomputes_steady layout hr hs h
    have cell := hs.cell_of_stale h hr.stale
    change { (s.graph.cell id).renew v s.graph.revision with
      verifiedAt := s.graph.revision, deps := [modelCell] } = _
    rw [cell, hs.revision]
    exact store_steadySlot layout h hk equal
  confirm s id origin hc hs := by
    refine hs.setCell hc.live.lt (fun he => hc.stale (he ▸ hs.current_model layout)) fun h => ?_
    rw [hs.cell_of_stale h hc.stale, hs.revision]

/-! ### Verifying steady cells -/

/-- From one undisturbed state to another, without a call and without computing more than slots of
the document. -/
structure Idle (g : Graph) (new : Value) (s t : State) : Prop where
  undisturbed : Undisturbed g new t
  calls : t.calls = s.calls
  computed : ∀ j ∈ t.computed, j ∈ s.computed ∨ g.OnModel j

theorem Idle.refl (hu : Undisturbed g new s) : Idle g new s s :=
  ⟨hu, rfl, fun _ h => .inl h⟩

theorem Idle.trans {t u : State} (h : Idle g new s t) (k : Idle g new t u) : Idle g new s u where
  undisturbed := k.undisturbed
  calls := k.calls.trans h.calls
  computed j hj := (k.computed j hj).elim (h.computed j) .inr

/-- Steady cells are found unchanged. -/
theorem anyChanged_steady {verify : CellId → CellM Unit} {ids : List CellId}
    (layout : w.Layout p) (h : ∀ d ∈ ids, w.graph.Steady new d ∧ ∀ s, Undisturbed w.graph new s →
      ∃ t, (verify d).run s = (.ok (), t) ∧ Idle w.graph new s t)
    (hu : Undisturbed w.graph new s) :
    ∃ t, (anyChanged verify w.graph.revision ids).run s = (.ok false, t) ∧
      Idle w.graph new s t := by
  induction ids generalizing s with
  | nil => exact ⟨s, rfl, .refl hu⟩
  | cons d rest ih =>
    obtain ⟨steady, rests⟩ := h d List.mem_cons_self
    obtain ⟨t, run, idle⟩ := rests s hu
    obtain ⟨u, run', idle'⟩ := ih (fun d hd => h d (List.mem_cons_of_mem _ hd)) idle.undisturbed
    refine ⟨u, ?_, idle.trans idle'⟩
    rw [anyChanged_run_ok w.graph.revision rest run,
      if_neg (Nat.not_lt.mpr (idle.undisturbed.changed_le layout steady))]
    exact run'

/-- A steady cell that has been verified is not looked at again, and one that has not has its reads
checked. -/
theorem Steady.verify_eq (h : w.graph.Steady new id) (hu : Undisturbed w.graph new s)
    (fuel : Nat) : (verify p lib (fuel + 1) id).run s = (.ok (), s) ∨
      s.graph.cell id = w.graph.cell id ∧ (verify p lib (fuel + 1) id).run s = (do
        if ← anyChanged (verify p lib fuel) w.graph.revision (w.graph.cell id).deps then
          recompute (compute p lib (verify p lib fuel)) id
        else modify fun s => { s with graph := s.graph.confirm id } : CellM Unit).run s := by
  have value := hu.isSome h
  have key : (s.graph.cell id).key.isModel = false := by
    rw [hu.key_eq h]
    exact h.isModel
  rw [verify_succ, bring_run, key]
  simp only [Option.isNone_eq_false_iff.mpr value, Bool.false_eq_true, if_false]
  by_cases verified : (s.graph.cell id).verifiedAt = s.graph.revision
  · rw [if_pos verified]
    exact .inl rfl
  · have cell := hu.cell_of_stale h fun hc => verified hc.2
    rw [if_neg verified, cell, h.current.2]
    exact .inr ⟨rfl, rfl⟩

private theorem Steady.confirm (h : w.graph.Steady new id) (layout : w.Layout p) {t : State}
    (hu : Undisturbed w.graph new t) :
    Idle w.graph new t { t with graph := t.graph.confirm id } := by
  refine ⟨hu.setCell (hu.live layout h).lt (h.ne_model layout.indexed) fun _ => ?_, rfl,
    fun _ hj => .inl hj⟩
  rw [hu.revision]
  rcases hu.cells id h with he | he <;> rw [he]

/-- With fuel above its weight, a steady cell is verified in passing. -/
theorem Steady.rests {fuel : Nat} (layout : w.Layout p) (h : w.graph.Steady new id)
    (hw : (w.origin id).weight < fuel) (hu : Undisturbed w.graph new s) :
    ∃ t, (verify p lib fuel id).run s = (.ok (), t) ∧ Idle w.graph new s t := by
  induction fuel generalizing id s with
  | zero => exact absurd hw (Nat.not_lt_zero _)
  | succ fuel ih =>
    rcases h.verify_eq hu fuel with run | ⟨cell, run⟩
    · exact ⟨s, run, .refl hu⟩
    · have placed := layout.placed id (h.live layout)
      rw [run]
      cases h with
      | cell current hm steady =>
        have h : w.graph.Steady new id := .cell current hm steady
        obtain ⟨t, checked, idle⟩ := anyChanged_steady layout (fun d hd => ⟨steady d hd,
          fun s hs => ih (steady d hd) (Nat.lt_of_lt_of_le (placed.deps d hd).2
            (Nat.le_of_lt_succ hw)) hs⟩) hu
        rw [run_bind_ok checked]
        exact ⟨_, rfl, idle.trans (h.confirm layout idle.undisturbed)⟩
      | @slot _ key v current hk get equal =>
        have h : w.graph.Steady new id := .slot current hk get equal
        have deps := placed.slot modelCell key hk current.1
        have heavier : 0 < (w.origin id).weight := by
          refine Nat.lt_of_le_of_lt (Nat.zero_le _) (placed.deps modelCell ?_).2
          rw [deps]
          exact List.mem_cons_self
        -- The slot is heavier than the document, so there is fuel left to look at the document.
        obtain ⟨fuel, rfl⟩ : ∃ k, fuel = k + 1 := ⟨fuel - 1, by omega⟩
        have verified : (verify p lib (fuel + 1) modelCell).run s = (.ok (), s) :=
          verify_modelCell fuel (hu.key_model layout)
        have step := anyChanged_run_ok w.graph.revision [] verified
        rw [deps]
        by_cases changed : w.graph.revision < (s.graph.cell modelCell).changedAt
        · rw [if_pos changed] at step
          have model := (hu.model_cases layout).resolve_left (Nat.not_le_of_lt changed)
          have computed : (recompute (compute p lib (verify p lib (fuel + 1))) id).run s =
              (.ok (), { s with
                graph := s.graph.store id v [modelCell]
                computed := id :: s.computed }) :=
            recompute_modelSlot fuel (cell ▸ hk) (model ▸ get) (hu.key_model layout)
          rw [run_bind_ok step]
          refine ⟨_, computed, ⟨hu.setCell (hu.live layout h).lt (h.ne_model layout.indexed)
            fun _ => ?_, rfl, fun j hj => ?_⟩⟩
          · rw [cell, hu.revision]
            exact store_steadySlot layout h hk equal
          · rcases List.mem_cons.mp hj with rfl | hj
            · refine .inr ?_
              rw [OnModel, hk]
              rfl
            · exact .inl hj
        · rw [if_neg changed] at step
          rw [run_bind_ok step]
          exact ⟨_, rfl, h.confirm layout hu⟩

/-- A computation idles as long as it reads steady cells only, where it makes no calls of its own.
What it reads is determined by values from before. -/
theorem plays_idle {L : Linkage} {α β : Type} {b fuel : Nat} {v : World} {R : World → α → β → Prop}
    {y : Reading β} {q : Origin → Except EvalError Value} {out : Except EvalError α × State}
    (layout : w.Layout L.program) (hb : b ≤ fuel)
    (h : L.Plays b (verify L.program L.library fuel) False v R y s out)
    (hu : Undisturbed w.graph new s) (hg : w.graph.Embeds s.graph)
    (hq : ∀ o ∈ y.reads q, ∃ id, w.graph.Stems id o ∧ w.graph.Steady new id ∧
      q o = .ok (w.graph.value id)) : Idle w.graph new s out.2 := by
  -- Each read is of a steady cell, the only one that stems from its origin.
  have reads {o : Origin} {next : Value → Reading β} {s : State} {id : CellId}
      (visits : L.Visits b s id o) (hu : Undisturbed w.graph new s) (hg : w.graph.Embeds s.graph)
      (hq : ∀ o' ∈ (Reading.read o next).reads q, ∃ id, w.graph.Stems id o' ∧
        w.graph.Steady new id ∧ q o' = .ok (w.graph.value id)) :
      w.graph.Steady new id ∧ q o = .ok (w.graph.value id) ∧
        ∃ t, (verify L.program L.library fuel id).run s = (.ok (), t) ∧ Idle w.graph new s t := by
    obtain ⟨id', stems, steady, value⟩ := hq o (by simp [Reading.reads])
    obtain ⟨origin, running⟩ := visits.running
    obtain rfl : id' = id := running.layout.eq_of_stems (stems.embedded hg) visits.stems
    refine ⟨steady, value, steady.rests layout ?_ hu⟩
    rw [layout.origin_eq stems]
    exact Nat.lt_of_lt_of_le visits.light hb
  induction h with
  | done | fail => exact .refl hu
  | intern key running _ ih =>
    obtain ⟨origin, running⟩ := running
    have interned := hu.intern layout running.layout.indexed key
    have idle := ih interned (hg.trans (running.layout.indexed.sustains_intern key).toEmbeds) hq
    exact ⟨idle.undisturbed, idle.calls, idle.computed⟩
  | call _ quiet => exact quiet.elim
  | stop visits run =>
    obtain ⟨-, -, t, rests, -⟩ := reads visits hu hg hq
    rw [rests] at run
    cases run
  | @read o next s t id out visits run _ ih =>
    obtain ⟨steady, value, t', rests, idle⟩ := reads visits hu hg hq
    rw [rests] at run
    cases run
    obtain ⟨origin, running⟩ := visits.running
    have same : origin id = o := running.layout.origin_eq visits.stems
    obtain ⟨_, brought, -, -, -⟩ := (L.verifies fuel).mono hb b s origin id running
      visits.stems.live (same ▸ visits.light)
    rw [rests] at brought
    have rest := ih ⟨idle.undisturbed.revision, idle.undisturbed.model, idle.undisturbed.cells⟩
      (hg.trans brought.sustains.toEmbeds) fun o' ho' => hq o' ?_
    · exact idle.trans ⟨rest.undisturbed, rest.calls, rest.computed⟩
    · rw [idle.undisturbed.value_eq steady] at ho'
      simp only [Reading.reads, value]
      exact List.mem_cons_of_mem _ ho'

end Recalc.Graph
