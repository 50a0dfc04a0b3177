import Recalc.Proofs.Graph.Opening.Trial

/-! The first recalculation of a graph beside evaluation without a graph. A cell is computed at most
once, so the first failure is that of a cell which was asked for; it is the failure of the plain
evaluation, up to the order in which the parts of an access are evaluated. -/
namespace Recalc

/-- What the first recalculation of a graph is about: a program that tells its constants apart, a
library and a document. -/
structure Opening where
  program : Program
  library : Library
  model : Value
  linked : program.Linked
  closed : ClosedClass program library Value.Ordered
  discerns : program.Discerns
  ordered : model.Ordered

namespace Opening
open Recalc.Graph Trial
variable (O : Opening)

/-- The judged value of a node. -/
def judged (id : NodeId) (e : Pass.Env) : Judged Value :=
  Pass.judged O.program O.library O.model id e

/-- What a key stands for. -/
inductive Meant (w : Trial) : CellKey CellId → Judged Value → Prop
  | model : Meant w .model (pure O.model)
  | slot {source : CellId} {key : Value} (h : w.graph.Live source) :
    Meant w (.slot source key) (w.judged source >>= fun v => MonadExcept.ofExcept (v.get key))
  | node {id : NodeId} {env : CellEnv CellId} {e : Pass.Env} (h : w.Means O.program id env e)
    (only : ∀ b ∈ env, b.1 ∈ O.program.free id) : Meant w (.node id env) (O.judged id e)

/-- The state of a first recalculation: every cell stands for what its key does, and a cell with a
value is current and stands for the value. -/
structure Sound (w : Trial) : Prop where
  indexed : w.graph.Indexed
  model : (w.graph.cell modelCell).value = some O.model
  filled : ∀ id v, w.graph.Live id → (w.graph.cell id).value = some v →
    (w.graph.cell id).verifiedAt = w.graph.revision ∧ (w.judged id).result = .ok v ∧ v.Ordered
  meant : ∀ id, w.graph.Live id → O.Meant w (w.graph.cell id).key (w.judged id)

variable {O} {w w' : Trial}

private theorem Meant.onward {key : CellKey CellId} {j : Judged Value} (h : O.Meant w key j)
    (hw : w.Onward w') : O.Meant w' key j := by
  cases h with
  | model => exact .model
  | slot hl =>
    rw [← hw.judged _ hl]
    exact .slot (hw.live _ hl)
  | node hm only => exact .node (hm.onward hw) only

private theorem Meant.used {key : CellKey CellId} {j : Judged Value} (h : O.Meant w key j) :
    key.isVacant = false := by
  cases h <;> rfl

/-- Equal keys of nodes stand for one judged value. -/
theorem Meant.unique {id : NodeId} {env : CellEnv CellId} {key : CellKey CellId} {j k : Judged Value}
    (h : O.Meant w (.node id env) j) (h' : O.Meant w key k)
    (he : (key == .node id env) = true) : j = k := by
  rw [CellKey.beq_iff] at he
  cases h with
  | node hm only =>
    cases h' with
    | model => cases he
    | slot => cases he
    | @node _ env' _ hm' only' =>
      simp only [CellKey.canon, CellKey.node.injEq] at he
      obtain ⟨rfl, he⟩ := he
      have envs : env' = env := by
        refine CellEnv.eq_of_canon he fun x hx y hy hl hc => ?_
        obtain ⟨l, b⟩ := x
        obtain ⟨l', b'⟩ := y
        obtain rfl : l = l' := hl
        have free : l ∈ O.program.free _ := only (l, b') hy
        obtain ⟨c, -, binds⟩ := hm'.binds l free b
          ((CellEnv.lookup_eq_ok hm'.serves.sorted).mpr hx)
        obtain ⟨c', -, binds'⟩ := hm.binds l free b'
          ((CellEnv.lookup_eq_ok hm.serves.sorted).mpr hy)
        exact binds.eq_of_canon O.discerns binds' hc
      subst envs
      exact Pass.judged_congr O.linked.lawful (hm.alike hm')

theorem Sound.live_model (h : O.Sound w) : w.graph.Live modelCell := h.indexed.live_model

theorem Sound.judged_model (h : O.Sound w) : w.judged modelCell = pure O.model := by
  have meant := h.meant _ h.live_model
  rw [h.indexed.model] at meant
  generalize w.judged modelCell = j at meant ⊢
  cases meant with
  | model => rfl

/-- A cell without a value that stands for a failure is pending. -/
theorem Sound.pending (h : O.Sound w) {id : CellId} {e : EvalError} (hl : w.graph.Live id)
    (he : (w.judged id).result = .error e) : w.Pending e := by
  refine ⟨id, hl, ?_, he⟩
  cases hv : (w.graph.cell id).value with
  | none => rfl
  | some v =>
    rw [(h.filled id v hl hv).2.1] at he
    cases he

/-- A cell with a value stands for it. -/
theorem Sound.value_eq (h : O.Sound w) {id : CellId} (hl : w.graph.Live id)
    (hv : (w.graph.cell id).value.isSome) :
    (w.judged id).result = .ok (w.graph.value id) ∧ (w.graph.value id).Ordered := by
  obtain ⟨a, ha⟩ := Option.isSome_iff_exists.mp hv
  have given : w.graph.value id = a := by
    rw [Graph.value, ha]
    rfl
  rw [given]
  exact (h.filled id a hl ha).2

/-! ### Changes of the graph -/

/-- A key that stands for something has a cell already, or gets a new one that stands for the
same. -/
theorem Sound.intern (h : O.Sound w) {key : CellKey CellId} {j : Judged Value}
    (hk : O.Meant w key j) {id : CellId} {g : Graph} (hi : w.graph.intern key = (id, g)) :
    ∃ judged, w.Onward ⟨g, judged⟩ ∧ O.Sound ⟨g, judged⟩ ∧ g.Live id ∧
      ((⟨g, judged⟩ = w ∧ ((w.graph.cell id).key == key) = true) ∨
        judged id = j ∧ ∀ e, Pending ⟨g, judged⟩ e → w.Pending e ∨ j.result = .error e) := by
  rcases Graph.intern_cases h.indexed key with ⟨id', hf, he⟩ | ⟨id', g', he, ha⟩
  · rw [hi] at he
    cases he
    obtain ⟨hl, hb⟩ := h.indexed.found key id hf
    exact ⟨w.judged, .refl w, h, hl, .inl ⟨rfl, hb⟩⟩
  · rw [hi] at he
    cases he
    have self : g.cell id = { key } := (ha.cell_eq id).trans (if_pos rfl)
    let judged := fun d => if d = id then j else w.judged d
    have ne_of_live {d : CellId} (hd : w.graph.Live d) : d ≠ id := fun he => ha.unused (he ▸ hd)
    have live_iff (d : CellId) : g.Live d ↔ d = id ∨ w.graph.Live d := by
      unfold Graph.Live
      rw [ha.cell_eq]
      split <;> simp [*, hk.used]
    have onward : w.Onward ⟨g, judged⟩ :=
      ⟨fun d hd => (live_iff d).mpr (.inr hd), fun d hd => if_neg (ne_of_live hd),
        fun d hd hs => (congrArg (fun c => c.value.isSome) (ha.cell_of_live hd)).trans hs⟩
    refine ⟨judged, onward, ⟨ha.indexed h.indexed hk.used, ?_, ?_, ?_⟩,
      (live_iff id).mpr (.inl rfl), .inr ⟨if_pos rfl, ?_⟩⟩
    · change (g.cell modelCell).value = some O.model
      rw [ha.cell_of_live h.live_model]
      exact h.model
    · intro d v hd hv
      rcases (live_iff d).mp hd with rfl | hd
      · simp only [self] at hv
        cases hv
      · simp only [ha.cell_of_live hd, ha.revision] at hv ⊢
        rw [show judged d = w.judged d from if_neg (ne_of_live hd)]
        exact h.filled d v hd hv
    · intro d hd
      rcases (live_iff d).mp hd with rfl | hd
      · simp only [self]
        rw [show judged d = j from if_pos rfl]
        exact hk.onward onward
      · simp only [ha.cell_of_live hd]
        rw [show judged d = w.judged d from if_neg (ne_of_live hd)]
        exact (h.meant d hd).onward onward
    · rintro e ⟨d, hd, hv, hr⟩
      rcases (live_iff d).mp hd with rfl | hd
      · rw [show Trial.judged ⟨g, judged⟩ d = j from if_pos rfl] at hr
        exact .inr hr
      · simp only [ha.cell_of_live hd] at hv
        rw [show Trial.judged ⟨g, judged⟩ d = w.judged d from if_neg (ne_of_live hd)] at hr
        exact .inl ⟨d, hd, hv, hr⟩

/-- A cell gets the value that it stands for. -/
theorem Sound.store (h : O.Sound w) {id : CellId} (hl : w.graph.Live id) {v : Value}
    (hv : (w.judged id).result = .ok v) (ho : v.Ordered) (deps : List CellId) :
    w.Onward ⟨w.graph.store id v deps, w.judged⟩ ∧ O.Sound ⟨w.graph.store id v deps, w.judged⟩ ∧
      ((w.graph.store id v deps).cell id).value.isSome ∧
      w.Calm ⟨w.graph.store id v deps, w.judged⟩ := by
  let c : Cell := { (w.graph.cell id).renew v w.graph.revision with
    verifiedAt := w.graph.revision, deps }
  have key : c.key = (w.graph.cell id).key := Cell.key_renew _ _ _
  -- A value that the cell has already is the one that it stands for.
  have value : c.value = some v := by
    rcases (w.graph.cell id).renew_cases v w.graph.revision with ⟨old, hold, -, he⟩ | he
    · have same := (h.filled id old hl hold).2.1
      rw [hv] at same
      cases same
      simp only [c, he]
      exact hold
    · simp only [c, he]
  have cell_eq (d : CellId) : (w.graph.store id v deps).cell d =
      if d = id then c else w.graph.cell d := cell_setCell hl.lt c d
  have live_iff (d : CellId) : (w.graph.store id v deps).Live d ↔ w.graph.Live d :=
    live_setCell hl.lt key d
  have onward : w.Onward ⟨w.graph.store id v deps, w.judged⟩ := by
    refine ⟨fun d hd => (live_iff d).mpr hd, fun _ _ => rfl, fun d _ hs => ?_⟩
    simp only [cell_eq]
    split
    · rw [value]
      rfl
    · exact hs
  refine ⟨onward, ⟨h.indexed.setCell hl.lt key, ?_, ?_, ?_⟩, ?_, ?_⟩
  · simp only [cell_eq]
    split
    · rename_i hm
      subst hm
      rw [h.judged_model] at hv
      cases hv
      exact value
    · exact h.model
  · intro d u hd hu
    rw [live_iff] at hd
    simp only [cell_eq] at hu ⊢
    split at hu
    · subst d
      rw [if_pos rfl]
      cases value.symm.trans hu
      exact ⟨rfl, hv, ho⟩
    · rw [if_neg ‹_›]
      exact h.filled d u hd hu
  · intro d hd
    rw [live_iff] at hd
    simp only [cell_eq]
    have meant := (h.meant d hd).onward onward
    split
    · subst d
      rw [key]
      exact meant
    · exact meant
  · rw [cell_eq, if_pos rfl, value]
    rfl
  · rintro e ⟨d, hd, hn, hr⟩
    rw [live_iff] at hd
    simp only [cell_eq] at hn
    split at hn
    · cases value.symm.trans hn
    · exact ⟨d, hd, hn, hr⟩

/-! ### Computations -/

section
variable {α β γ δ : Type}

variable (O) in
/-- What a computation leads to from a state. -/
def Leads (w : Trial) (good : Trial → α → Prop) (y : Judged γ) (r : Except EvalError α × State) :
    Prop :=
  ∃ judged, w.Onward ⟨r.2.graph, judged⟩ ∧ O.Sound ⟨r.2.graph, judged⟩ ∧
    (∀ a, r.1 = .ok a → good ⟨r.2.graph, judged⟩ a) ∧ ∀ e, r.1 = .error e → w.Errs y e

variable (O) in
/-- A computation from all states later than a given one. If it succeeds, the states before and
after it have a property with the result; otherwise it fails as a judged value does. -/
def Tries (w : Trial) (good : Trial → Trial → α → Prop) (x : CellM α) (y : Judged γ) : Prop :=
  ∀ s judged, w.Onward ⟨s.graph, judged⟩ → O.Sound ⟨s.graph, judged⟩ →
    O.Leads ⟨s.graph, judged⟩ (good ⟨s.graph, judged⟩) y (x.run s)

variable {good : Trial → Trial → α → Prop} {good' : Trial → Trial → β → Prop}

theorem Tries.later {x : CellM α} {y : Judged γ} (h : O.Tries w good x y) (hw : w.Onward w') :
    O.Tries w' good x y := fun s judged hs => h s judged (hw.trans hs)

theorem Tries.mono {post : Trial → Trial → α → Prop} {x : CellM α} {y : Judged γ}
    (h : O.Tries w good x y) (hp : ∀ v v' a, good v v' a → post v v' a) : O.Tries w post x y := by
  intro s judged hs sound
  obtain ⟨judged', onward, sound', ok, error⟩ := h s judged hs sound
  exact ⟨judged', onward, sound', fun a ha => hp _ _ a (ok a ha), error⟩

theorem Tries.pure {a : α} {y : Judged γ} (h : ∀ v, w.Onward v → O.Sound v → good v v a) :
    O.Tries w good (pure a) y := by
  intro s judged hs sound
  refine ⟨judged, .refl _, sound, ?_, by rintro e ⟨⟩⟩
  rintro _ ⟨⟩
  exact h _ hs sound

theorem Tries.throw {y : Judged γ} {e : EvalError} (h : ∀ v : Trial, v.Errs y e) :
    O.Tries w good (throw e : CellM α) y := by
  intro s judged hs sound
  refine ⟨judged, .refl _, sound, by rintro a ⟨⟩, ?_⟩
  rintro _ ⟨⟩
  exact h _

theorem Tries.map {x : CellM α} {y : Judged γ} {f : α → β} (hx : O.Tries w good x y)
    (h : ∀ v v' a, w.Onward v → v.Onward v' → good v v' a → good' v v' (f a)) :
    O.Tries w good' (x >>= fun a => Pure.pure (f a)) y := by
  intro s judged hs sound
  obtain ⟨judged', onward, sound', ok, error⟩ := hx s judged hs sound
  rcases hrun : x.run s with ⟨r, t⟩
  rw [hrun] at onward sound' ok error
  cases r with
  | error e =>
    rw [run_bind_error hrun]
    refine ⟨judged', onward, sound', by rintro a ⟨⟩, ?_⟩
    rintro _ ⟨⟩
    exact error e rfl
  | ok a =>
    rw [run_bind_ok hrun]
    refine ⟨judged', onward, sound', ?_, by rintro e ⟨⟩⟩
    rintro _ ⟨⟩
    exact h _ _ a hs onward (ok a rfl)

/-- Two computations in sequence, beside a judged value that fails as the first part does and, if
that succeeds, as the second part does. -/
theorem Tries.andThen {x : CellM α} {f : α → CellM β} {y : Judged γ} {z : Judged δ}
    (hx : O.Tries w good x y) (fails : ∀ (v : Trial) e, v.Errs y e → v.Errs z e)
    (goes : ∀ v v' a, w.Onward v → v.Onward v' → O.Sound v' → good v v' a →
      ∃ (rest : Judged δ) (post : Trial → Trial → β → Prop), O.Tries v' post (f a) rest ∧
        (∀ e, v'.Errs rest e → v.Errs z e) ∧
        ∀ u b, v'.Onward u → post v' u b → good' v u b) :
    O.Tries w good' (x >>= f) z := by
  intro s judged hs sound
  obtain ⟨judged₁, onward₁, sound₁, ok₁, error₁⟩ := hx s judged hs sound
  rcases hrun : x.run s with ⟨r, t⟩
  rw [hrun] at onward₁ sound₁ ok₁ error₁
  cases r with
  | error e =>
    rw [run_bind_error hrun]
    refine ⟨judged₁, onward₁, sound₁, by rintro a ⟨⟩, ?_⟩
    rintro _ ⟨⟩
    exact fails _ _ (error₁ e rfl)
  | ok a =>
    rw [run_bind_ok hrun]
    obtain ⟨rest, post, second, errs, ends⟩ := goes _ _ a hs onward₁ sound₁ (ok₁ a rfl)
    obtain ⟨judged₂, onward₂, sound₂, ok₂, error₂⟩ := second t judged₁ (.refl _) sound₁
    exact ⟨judged₂, onward₁.trans onward₂, sound₂, fun b hb => ends _ b onward₂ (ok₂ b hb),
      fun e he => errs e (error₂ e he)⟩

variable (O) in
/-- A computation gives what a judged value is, with a property, and brings in no failure. -/
def Follows (w : Trial) (P : α → Prop) (x : CellM α) (y : Judged α) : Prop :=
  O.Tries w (fun v v' a => y.result = .ok a ∧ P a ∧ v.Calm v') x y

/-- After a computation that brings in no failure, a failure is one of the judged sequence. -/
theorem errs_bind {v v' : Trial} {y : Judged γ} {f : γ → Judged δ} {c : γ} {e : EvalError}
    (hy : y.result = .ok c) (calm : v.Calm v') (h : v'.Errs (f c) e) : v.Errs (y >>= f) e := by
  rcases h with rfl | ⟨e', he, fair⟩
  · exact .inl rfl
  · rw [Judged.bind_of_ok hy]
    exact .inr ⟨e', he, fun hf => (fair hf).imp_right (calm e)⟩

theorem errs_pure {v : Trial} {c : γ} {e : EvalError} (h : v.Errs (pure c : Judged γ) e) :
    e = .tooDeep := by
  rcases h with rfl | ⟨e', he, -⟩
  · rfl
  · cases he

theorem errs_bind_first {v : Trial} {y : Judged γ} {f : γ → Judged δ} {e : EvalError}
    (h : v.Errs y e) : v.Errs (y >>= f) e := by
  rcases h with rfl | ⟨e', he, fair⟩
  · exact .inl rfl
  · refine .inr ⟨e', Judged.result_bind_of_error he, fun hf => fair ?_⟩
    rw [← Judged.fair_bind_of_error he]
    exact hf

/-- A computation that goes on with what a judged value is. -/
theorem Tries.follow {x : CellM α} {f : α → CellM β} {y : Judged γ} {g : γ → Judged β}
    {P : β → Prop} (hx : O.Tries w good x y)
    (hf : ∀ v v' a, w.Onward v → v.Onward v' → good v v' a →
      v.Calm v' ∧ ∃ c, y.result = .ok c ∧ O.Follows v' P (f a) (g c)) :
    O.Follows w P (x >>= f) (y >>= g) := by
  refine Tries.andThen hx (fun _ _ => errs_bind_first) fun v v' a hw hv _ ha => ?_
  obtain ⟨calm, c, hc, follows⟩ := hf v v' a hw hv ha
  refine ⟨g c, _, follows, fun e he => errs_bind hc calm he, ?_⟩
  rintro u b - ⟨hb, hP, calm'⟩
  refine ⟨?_, hP, calm.trans calm'⟩
  rw [Judged.bind_of_ok hc]
  exact hb

variable (O) in
/-- Following, from one state, as a relation between computations with the same results. -/
def correspondence (w : Trial) : Correspondence CellM Judged where
  rel P x y := O.Follows w P x y
  pure h := Tries.pure fun v _ _ => ⟨rfl, h, .refl v⟩
  bind hx hf := by
    refine Tries.follow hx ?_
    rintro v v' a hw hv ⟨ha, hP, calm⟩
    exact ⟨calm, a, ha, (hf a hP).later (hw.trans hv)⟩
  throw e := Tries.throw fun _ => .inr ⟨e, rfl, fun _ => .inl rfl⟩

end

/-! ### Cells -/

/-- A slot of a cell in use: the handle stands for access to the cell with an equal key, and if the
key is not the one asked for, a failure is that of a cell which was there. -/
structure Slot (w w' : Trial) (source : CellId) (key : Value) (id : CellId) : Prop where
  live : w'.graph.Live id
  judged : ∃ k, (k == key) = true ∧
    w'.judged id = (w'.judged source >>= fun v => MonadExcept.ofExcept (v.get k)) ∧
    (k = key ∨ ∀ e, (w'.judged id).result = .error e → w.Pending e)
  pending : ∀ e, w'.Pending e → w.Pending e ∨ (w'.judged id).result = .error e

theorem Slot.before {v w w' : Trial} {source id : CellId} {key : Value}
    (h : Slot w w' source key id) (calm : v.Calm w) : Slot v w' source key id := by
  obtain ⟨k, same, judged, new⟩ := h.judged
  exact ⟨h.live, ⟨k, same, judged, new.imp_right fun failed e he => calm e (failed e he)⟩,
    fun e he => (h.pending e he).imp_left (calm e)⟩

private theorem tries_intern {α : Type} {good : Trial → Trial → CellId → Prop} {y : Judged α}
    {key : CellKey CellId} {j : Judged Value} (hk : O.Meant w key j)
    (ends : ∀ v v' id, w.Onward v → O.Sound v → v.Onward v' → O.Sound v' → v'.graph.Live id →
      ((v' = v ∧ ((v.graph.cell id).key == key) = true) ∨
        v'.judged id = j ∧ ∀ e, v'.Pending e → v.Pending e ∨ j.result = .error e) →
      good v v' id) : O.Tries w good (internCell key) y := by
  intro s judged hs sound
  rcases hi : s.graph.intern key with ⟨id, g⟩
  have hrun : (internCell key).run s = (.ok id, { s with graph := g }) := by
    change (Except.ok (s.graph.intern key).1, { s with graph := (s.graph.intern key).2 }) = _
    rw [hi]
  obtain ⟨judged', onward, sound', live, cases⟩ := sound.intern (hk.onward hs) hi
  rw [hrun]
  refine ⟨judged', onward, sound', ?_, by rintro e ⟨⟩⟩
  rintro _ ⟨⟩
  exact ends ⟨s.graph, judged⟩ ⟨g, judged'⟩ id hs sound onward sound' live cases

theorem tries_slot {α : Type} {y : Judged α} {source : CellId} (key : Value)
    (hl : w.graph.Live source) :
    O.Tries w (fun v v' id => Slot v v' source key id) (internCell (.slot source key)) y := by
  refine tries_intern (.slot hl) fun v v' id hw sound onward sound' live cases => ?_
  have source_eq : v'.judged source = w.judged source := (hw.trans onward).judged source hl
  rcases cases with ⟨rfl, found⟩ | ⟨new, pending⟩
  · -- The cell was there, so a failure that it stands for was pending.
    refine ⟨live, ?_, fun e he => .inl he⟩
    have meant := sound.meant id live
    have failed {e : EvalError} := sound.pending live (e := e)
    generalize (v'.graph.cell id).key = other at meant found
    generalize v'.judged id = j at meant failed
    cases meant with
    | model => cases found
    | node => cases found
    | @slot source' k hl' =>
      rw [CellKey.beq_iff] at found
      simp only [CellKey.canon, CellKey.slot.injEq] at found
      obtain ⟨rfl, found⟩ := found
      exact ⟨k, (Value.beq_iff k key).mpr found, rfl, .inr fun _ => failed⟩
  · rw [← source_eq] at new pending
    refine ⟨live, ⟨key, BEq.rfl, new, .inl rfl⟩, fun e he => ?_⟩
    rw [new]
    exact pending e he

/-- The cell of a node stands for the node. -/
theorem tries_node {α : Type} {y : Judged α} {id : NodeId} {env : CellEnv CellId} {e : Pass.Env}
    (hm : w.Means O.program id env e) (only : ∀ b ∈ env, b.1 ∈ O.program.free id) :
    O.Tries w (fun v v' cell => v'.graph.Live cell ∧ v'.judged cell = O.judged id e ∧
      ∀ e, v'.Pending e → v.Pending e ∨ (v'.judged cell).result = .error e)
      (internCell (.node id env)) y := by
  refine tries_intern (.node hm only) fun v v' cell hw sound onward sound' live cases => ?_
  rcases cases with ⟨rfl, found⟩ | ⟨new, pending⟩
  · have meant : O.Meant v' (.node id env) (O.judged id e) := .node (hm.onward hw) only
    exact ⟨live, (meant.unique (sound.meant cell live) found).symm, fun e he => .inl he⟩
  · refine ⟨live, new, fun e he => ?_⟩
    rw [new]
    exact pending e he

variable (O) in
/-- A way to bring cells up to date. -/
def Verifies (verify : CellId → CellM Unit) : Prop :=
  ∀ w id, w.graph.Live id → O.Tries w
    (fun v v' _ => (v'.graph.cell id).value.isSome ∧ v.Calm v') (verify id) (w.judged id)

section
variable {verify : CellId → CellM Unit} (hv : O.Verifies verify)
include hv

theorem tries_pull {id : CellId} (hl : w.graph.Live id) :
    O.Tries w (fun v v' a => ((v'.graph.cell id).value.isSome ∧ (w.judged id).result = .ok a) ∧
      a.Ordered ∧ v.Calm v') (pull verify id) (w.judged id) := by
  intro s judged hs sound
  obtain ⟨judged', onward, sound', ok, error⟩ := hv w id hl s judged hs sound
  rcases hrun : (verify id).run s with ⟨r, t⟩
  rw [hrun] at onward sound' ok error
  cases r with
  | error e =>
    rw [pull_run_error hrun]
    refine ⟨judged', onward, sound', by rintro a ⟨⟩, ?_⟩
    rintro _ ⟨⟩
    exact error e rfl
  | ok u =>
    rw [pull_run_ok hrun]
    refine ⟨judged', onward, sound', ?_, by rintro e ⟨⟩⟩
    rintro _ ⟨⟩
    obtain ⟨value, calm⟩ := ok u rfl
    have later := hs.trans onward
    obtain ⟨result, ordered⟩ := sound'.value_eq (later.live id hl) value
    rw [later.judged id hl] at result
    exact ⟨⟨value, result⟩, ordered, calm⟩

private theorem follows_pull {id : CellId} (hl : w.graph.Live id) :
    O.Follows w Value.Ordered (pull verify id) (w.judged id) :=
  (tries_pull hv hl).mono fun _ _ _ h => ⟨h.1.2, h.2⟩

theorem follows_read {h : Handle CellId} {D : Value → Prop} (hh : h.Within w.graph.Live D)
    (hD : ∀ v, D v → v.Ordered) :
    O.Follows w Value.Ordered ((access verify).read h) (w.sense h) := by
  cases h with
  | cell id => exact follows_pull hv hh
  | const v => exact Tries.pure fun u _ _ => ⟨rfl, hD v hh, .refl u⟩

end

end Opening

end Recalc
