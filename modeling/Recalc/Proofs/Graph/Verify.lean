import Recalc.Proofs.Graph.Simulation

/-! Bringing a cell up to date. If nothing that the cell has read has changed, evaluation would read
the same again and give the same value; up to the first change it reads the same cells, so only
needed cells are ever touched. -/
namespace Recalc.Graph

/-- Brings a cell up to date, with a way to bring the cells that it reads up to date. -/
def bring (p : Program) (lib : Library) (verify : CellId → CellM Unit) (id : CellId) :
    CellM Unit := do
  let g := (← get).graph
  let cell := g.cell id
  if cell.key.isModel then return
  else if cell.value.isNone then recompute (compute p lib verify) id
  else if cell.verifiedAt = g.revision then return
  else if ← anyChanged verify cell.verifiedAt cell.deps then recompute (compute p lib verify) id
  else modify fun s => { s with graph := s.graph.confirm id }

theorem verify_succ (p : Program) (lib : Library) (fuel : Nat) (id : CellId) :
    verify p lib (fuel + 1) id = bring p lib (verify p lib fuel) id := rfl

/-- What bringing a cell up to date does. -/
theorem bring_run (p : Program) (lib : Library) (verify : CellId → CellM Unit) (id : CellId)
    (s : State) : (bring p lib verify id).run s =
      (if (s.graph.cell id).key.isModel then pure ()
      else if (s.graph.cell id).value.isNone then recompute (compute p lib verify) id
      else if (s.graph.cell id).verifiedAt = s.graph.revision then pure ()
      else do
        if ← anyChanged verify (s.graph.cell id).verifiedAt (s.graph.cell id).deps then
          recompute (compute p lib verify) id
        else modify fun s => { s with graph := s.graph.confirm id } : CellM Unit).run s := rfl

/-- The document and current cells are left alone. Other cells are computed, or checked first if they
have a value. -/
theorem bring_cases (p : Program) (lib : Library) (verify : CellId → CellM Unit) {s : State}
    (hg : s.graph.Indexed) {id : CellId} (hl : s.graph.Live id) :
    (id = modelCell ∨ s.graph.Current id) ∧ (bring p lib verify id).run s = (.ok (), s) ∨
    (s.graph.cell id).key.isModel = false ∧ ¬ s.graph.Current id ∧
      ((s.graph.cell id).value = none ∧
        (bring p lib verify id).run s = (recompute (compute p lib verify) id).run s ∨
      (s.graph.cell id).value.isSome ∧ (bring p lib verify id).run s = (do
        if ← anyChanged verify (s.graph.cell id).verifiedAt (s.graph.cell id).deps then
          recompute (compute p lib verify) id
        else modify fun s => { s with graph := s.graph.confirm id } : CellM Unit).run s) := by
  rw [bring_run]
  split
  · rename_i hm
    exact .inl ⟨.inl (hg.eq_modelCell hl hm), rfl⟩
  · rename_i hm
    have hm : (s.graph.cell id).key.isModel = false := by simpa using hm
    split
    · rename_i hnone
      rw [Option.isNone_iff_eq_none] at hnone
      refine .inr ⟨hm, fun hc => ?_, .inl ⟨hnone, rfl⟩⟩
      simp [Current, hnone] at hc
    · rename_i hsome
      have hs : (s.graph.cell id).value.isSome := by simpa [Option.isSome_iff_ne_none] using hsome
      split
      · rename_i hverified
        exact .inl ⟨.inr ⟨hs, hverified⟩, rfl⟩
      · rename_i hverified
        exact .inr ⟨hm, fun hc => hverified hc.2, .inr ⟨hs, rfl⟩⟩

end Recalc.Graph

namespace Recalc.Round
open Recalc.Graph
variable {K : Round} {b : Nat} {w : World} {s : State} {origin : CellId → Origin} {id : CellId}
  {verify : CellId → CellM Unit}

theorem Verifies.mono {c : Nat} (h : K.Verifies c verify) (hb : b ≤ c) : K.Verifies b verify :=
  fun s origin id hr hl hn hw => h s origin id hr hl hn (Nat.lt_of_lt_of_le hw hb)

/-! ### Computing -/

/-- Computing the key of a cell follows the plan of its origin. -/
theorem Sim.compute (hv : K.Verifies b verify) (hw : w.Valid K.history) (hl : w.graph.Live id)
    (hm : (w.graph.cell id).key.isModel = false) :
    K.Sim b (if K.isCall (w.origin id) then 1 else 0) w (Same K.domain)
      (Graph.compute K.program K.library verify (w.graph.cell id).key)
      (K.history.plan (w.origin id)) := by
  have hf := hw.fits id hl
  have hwithin := hf.within
  rw [hf.origin_of_key]
  cases hk : (w.graph.cell id).key with
  | model => simp [hk, CellKey.isModel] at hm
  | vacant => simp [Live, hk, CellKey.isVacant] at hl
  | node n env =>
    rw [hk] at hwithin
    exact Sim.evalNode hv n ⟨hwithin, rfl⟩
  | slot source key =>
    rw [hk] at hwithin
    refine Sim.bind (y := Origin.access.pull (w.origin source)) (Sim.pull hv ⟨hwithin.1, rfl⟩)
      fun w' a c _ _ hc => ?_
    obtain ⟨⟨rfl, hd⟩, hlive, hcurrent, hvalue⟩ := hc
    intro t origin' hs hr hn
    have haccess : (t.graph.cell source).access.val key = a.get key := by
      rw [(t.graph.cell source).access.property, hs.kept source hlive (.inl hcurrent)]
      exact congrArg (Value.get · key) hvalue
    change K.Follows b 0 _ _ t origin'
      ((MonadExcept.ofExcept ((t.graph.cell source).access.val key) : CellM Value).run t)
    rw [haccess]
    exact (K.correspondence b w').ofExcept (a.get key)
      (fun v hv => K.history.closed.get a key v hd hv) t origin' hs hr hn

private theorem origin_ne_model (hr : K.Running 0 s origin) (hl : s.graph.Live id)
    (hm : (s.graph.cell id).key.isModel = false) : origin id ≠ .of .model := by
  intro he
  have horigin : Origin.of _ = _ := (hr.valid.fits id hl).origin_of_key.symm.trans he
  cases hk : (s.graph.cell id).key <;> simp_all [CellKey.map, CellKey.isModel]

private theorem now_eq (hr : K.Running 0 s origin) (hl : s.graph.Live id)
    (hm : (s.graph.cell id).key.isModel = false) :
    K.now (origin id) = (K.history.plan (origin id)).run K.now :=
  K.history.meaning_eq (hr.valid.fits id hl).origin_in (origin_ne_model hr hl hm)

/-- What evaluation of a needed origin reads is needed, and lighter. -/
private theorem reads_needed (hr : K.Running 0 s origin) (hl : s.graph.Live id)
    (hn : K.needed (origin id)) {d : Origin} (hd : d ∈ (K.history.plan (origin id)).reads K.now) :
    K.needed d ∧ d.weight < (origin id).weight :=
  ⟨K.needed_reads _ d hn hd, (K.history.mem_reads (hr.valid.fits id hl).origin_in hd).2⟩

/-- Keeping the value computed for a cell, with the cells read for it. -/
private theorem Running.store (hr : K.Running (if K.isCall (origin id) then 1 else 0) s origin)
    (hl : s.graph.Live id) (hn : K.needed (origin id)) (hc : ¬ s.graph.Current id) {v : Value}
    (hv : K.now (origin id) = .ok v)
    (hreads : s.reads.map origin = ((K.history.plan (origin id)).reads K.now).reverse)
    {rs : List CellId} (hrs : ∀ d ∈ rs, s.graph.Live d ∧ s.graph.Current d) :
    World.Later ((origin id).weight + 1) ⟨s.graph, origin⟩
        ⟨s.graph.store id v s.reads.reverse, origin⟩ ∧
      K.Running 0 { s with
        graph := s.graph.store id v s.reads.reverse
        reads := rs
        computed := id :: s.computed } origin := by
  have hvalid : World.Valid K.history ⟨s.graph.store id v s.reads.reverse, origin⟩ := by
    refine hr.valid.store hl hc ?_ ?_ fun d hd => hr.reads d (List.mem_reverse.mp hd)
    · rw [hr.revision]
      exact hv
    · rw [hr.revision, List.map_reverse, hreads, List.reverse_reverse]
      rfl
  have hlater : World.Later ((origin id).weight + 1) ⟨s.graph, origin⟩
      ⟨s.graph.store id v s.reads.reverse, origin⟩ :=
    World.later_setCell (w := ⟨s.graph, origin⟩) hl (Cell.key_renew _ _ _) hc (Nat.lt_succ_self _)
  have hfresh : id ∉ s.computed := fun hmem => hc (hr.computed id hmem).2
  have hr' := hr.later hlater hvalid
  refine ⟨hlater, { hr' with reads := ?_, computed := ?_, needed := ?_, nodup := ?_, calls := ?_ }⟩
  · exact fun d hd => ⟨hlater.live d (hrs d hd).1, hlater.current (hrs d hd).1 (hrs d hd).2⟩
  · exact List.forall_mem_cons.mpr
      ⟨⟨hlater.live id hl, Graph.current_store hl.lt v _⟩, hr'.computed⟩
  · exact List.forall_mem_cons.mpr ⟨hn, hr'.needed⟩
  · exact List.nodup_cons.mpr ⟨hfresh, hr.nodup⟩
  · have := hr.calls
    cases hcall : K.isCall (origin id) <;> simp [hcall] at this ⊢ <;> exact this

/-- Computing a cell anew brings it up to date. -/
theorem recompute_brings (hv : K.Verifies (origin id).weight verify) (hr : K.Running 0 s origin)
    (hl : s.graph.Live id) (hn : K.needed (origin id))
    (hm : (s.graph.cell id).key.isModel = false) (hc : ¬ s.graph.Current id) :
    K.Brings s origin id
      ((recompute (Graph.compute K.program K.library verify) id).run s) := by
  have hstart : K.Running 0 { s with reads := [] } origin := { hr with reads := by simp }
  have hfollows := Sim.compute hv hr.valid hl hm { s with reads := [] } origin (.refl _ _) hstart
    fun d hd => reads_needed hr hl hn hd
  have hnow := now_eq hr hl hm
  rcases hrun : (Graph.compute K.program K.library verify (s.graph.cell id).key).run
    { s with reads := [] } with ⟨r, t⟩
  rw [hrun] at hfollows
  cases r with
  | error e =>
    obtain ⟨origin', hlater, hr', he⟩ := hfollows
    rw [recompute_run_error hrun]
    refine ⟨origin', hlater.mono (Nat.le_succ _), { hr' with reads := fun d hd => ?_ }, rfl,
      hnow.trans he⟩
    obtain ⟨hd, hc⟩ := hr.reads d hd
    exact ⟨hlater.live d hd, hlater.current hd hc⟩
  | ok v =>
    obtain ⟨origin', hlater, hr', hreads, v', hv', rfl, -⟩ := hfollows
    have horigin : origin' id = origin id := hlater.origin id hl
    -- The cell is as heavy as the bound, so reading for it has left it alone.
    have hc' : ¬ t.graph.Current id := hlater.not_current hl (Nat.le_refl _) hc
    have hrs (d : CellId) (hd : d ∈ s.reads) : t.graph.Live d ∧ t.graph.Current d :=
      ⟨hlater.live d (hr.reads d hd).1, hlater.current (hr.reads d hd).1 (hr.reads d hd).2⟩
    simp only [← horigin] at hr' hreads hnow hn hv'
    obtain ⟨hlater', hr''⟩ := Running.store hr' (hlater.live id hl) hn hc' (hnow.trans hv')
      (by simpa using hreads) hrs
    rw [recompute_run_ok hrun]
    refine ⟨origin', (hlater.mono (Nat.le_succ _)).trans (horigin ▸ hlater'), hr'', rfl, ?_⟩
    exact Graph.current_store (hlater.live id hl).lt v _

/-! ### Checking what was read -/

variable (K) in
/-- A cell that was read is current, and what was read then still holds. -/
def Unchanged (s : State) (origin : CellId → Origin) (id d : CellId) : Prop :=
  s.graph.Current d ∧
    K.now (origin d) = K.history.meaning (s.graph.cell id).verifiedAt (origin d)

variable (K) in
/-- What checking the cells that a cell has read leads to. -/
def Checks (s : State) (origin : CellId → Origin) (id : CellId) :
    Except EvalError Bool × State → Prop
  | (result, t) => ∃ origin', World.Later (origin id).weight ⟨s.graph, origin⟩ ⟨t.graph, origin'⟩ ∧
      K.Running 0 t origin' ∧ t.reads = s.reads ∧
      match result with
      | .ok true => True
      | .ok false => ∀ d ∈ (t.graph.cell id).deps, K.Unchanged t origin' id d
      | .error e => K.now (origin id) = .error e

section
variable {t : State} {origin' : CellId → Origin} (hl : s.graph.Live id)
  (hlater : World.Later (origin id).weight ⟨s.graph, origin⟩ ⟨t.graph, origin'⟩)
include hl hlater

private theorem Unchanged.later {d : CellId} (hd : s.graph.Live d)
    (h : K.Unchanged s origin id d) : K.Unchanged t origin' id d := by
  have hcell : t.graph.cell id = s.graph.cell id := hlater.kept id hl (.inr (Nat.le_refl _))
  have horigin : origin' d = origin d := hlater.origin d hd
  refine ⟨hlater.current hd h.1, ?_⟩
  rw [hcell, horigin]
  exact h.2

private theorem Checks.after {result : Except EvalError Bool × State} (hreads : t.reads = s.reads)
    (h : K.Checks t origin' id result) : K.Checks s origin id result := by
  have horigin : origin' id = origin id := hlater.origin id hl
  obtain ⟨origin'', hlater', hr, hreads', hcase⟩ := h
  rw [horigin] at hlater' hcase
  exact ⟨origin'', hlater.trans hlater', hr, hreads'.trans hreads, hcase⟩

private theorem Brings.after {result : Except EvalError Unit × State} (hreads : t.reads = s.reads)
    (h : K.Brings t origin' id result) : K.Brings s origin id result := by
  have horigin : origin' id = origin id := hlater.origin id hl
  obtain ⟨origin'', hlater', hr, hreads', hcase⟩ := h
  rw [horigin] at hlater' hcase
  exact ⟨origin'', (hlater.mono (Nat.le_succ _)).trans hlater', hr, hreads'.trans hreads, hcase⟩

end

/-- The cells that a cell has read are checked in the order in which evaluation would read them
now, as long as none has changed. -/
theorem anyChanged_checks (hv : K.Verifies (origin id).weight verify) (hr : K.Running 0 s origin)
    (hl : s.graph.Live id) (hn : K.needed (origin id)) (hs : (s.graph.cell id).value.isSome)
    (hm : (s.graph.cell id).key.isModel = false) (before after : List CellId)
    (hdeps : (s.graph.cell id).deps = before ++ after)
    (hb : ∀ d ∈ before, K.Unchanged s origin id d) :
    K.Checks s origin id ((anyChanged verify (s.graph.cell id).verifiedAt after).run s) := by
  induction after generalizing s origin before with
  | nil =>
    refine ⟨origin, .refl _ _, hr, rfl, ?_⟩
    simpa [hdeps] using hb
  | cons d rest ih =>
    have hf := hr.valid.fits id hl
    have hrec := hf.records hs
    have hd : s.graph.Live d := hf.read d (by simp [hdeps])
    have hreads : (K.history.plan (origin id)).reads
        (K.history.meaning (s.graph.cell id).verifiedAt) =
        before.map origin ++ origin d :: rest.map origin := by
      rw [← hrec.reads, hdeps]
      simp
    -- What was read before this cell still holds, so the plan comes to read this cell again.
    obtain ⟨hmem, hfail⟩ := Reading.mem_reads_of_same hreads
      (List.forall_mem_map.mpr fun d hd => (hb d hd).2)
    obtain ⟨hneed, hlight⟩ := reads_needed hr hl hn hmem
    have hbrings := hv s origin d hr hd hneed hlight
    rcases hrun : (verify d).run s with ⟨r, t⟩
    rw [hrun] at hbrings
    obtain ⟨origin', hlater, hr', hsame, hcase⟩ := hbrings
    have hlater : World.Later (origin id).weight ⟨s.graph, origin⟩ ⟨t.graph, origin'⟩ :=
      hlater.mono hlight
    cases r with
    | error e =>
      rw [anyChanged_run_error (s.graph.cell id).verifiedAt rest hrun]
      exact ⟨origin', hlater, hr', hsame, (now_eq hr hl hm).trans (hfail e hcase)⟩
    | ok u =>
      have horigin : origin' id = origin id := hlater.origin id hl
      have hcell : t.graph.cell id = s.graph.cell id := hlater.kept id hl (.inr (Nat.le_refl _))
      have hl' : t.graph.Live id := hlater.live id hl
      rw [anyChanged_run_ok (s.graph.cell id).verifiedAt rest hrun]
      split
      · exact ⟨origin', hlater, hr', hsame, trivial⟩
      · rename_i hold
        have hrec' := (hr'.valid.fits id hl').records (by rw [hcell]; exact hs)
        have hd' : t.graph.Live d := hlater.live d hd
        have hun : K.Unchanged t origin' id d := by
          refine ⟨hcase, (hr'.meaning hd' hcase).trans ?_⟩
          refine ((hrec'.seen d ?_).same ?_).symm
          · simp [hcell, hdeps]
          · rw [hcell]
            exact Nat.le_of_not_lt hold
        have hbefore : ∀ c ∈ before ++ [d], K.Unchanged t origin' id c := by
          intro c hc
          rcases List.mem_append.mp hc with hc | hc
          · exact (hb c hc).later hl hlater (hf.read c (by simp [hdeps, hc]))
          · exact List.mem_singleton.mp hc ▸ hun
        have hchecks := ih (horigin ▸ hv) hr' hl' (horigin ▸ hn) (hcell ▸ hs) (hcell ▸ hm)
          (before ++ [d]) (by simp [hcell, hdeps]) hbefore
        rw [hcell] at hchecks
        exact hchecks.after hl hlater hsame

/-! ### Verifying -/

/-- A cell whose reads are all unchanged is brought up to date by confirming it. -/
private theorem confirm_brings (hr : K.Running 0 s origin) (hl : s.graph.Live id)
    (hs : (s.graph.cell id).value.isSome) (hm : (s.graph.cell id).key.isModel = false)
    (hc : ¬ s.graph.Current id) (hu : ∀ d ∈ (s.graph.cell id).deps, K.Unchanged s origin id d) :
    K.Brings s origin id (.ok (), { s with graph := s.graph.confirm id }) := by
  have hvalid : World.Valid K.history ⟨s.graph.confirm id, origin⟩ := by
    refine hr.valid.confirm hl hs (origin_ne_model hr hl hm) (fun d hd => (hu d hd).1)
      fun d hd => ?_
    rw [hr.revision]
    exact (hu d hd).2
  have hlater : World.Later ((origin id).weight + 1) ⟨s.graph, origin⟩
      ⟨s.graph.confirm id, origin⟩ :=
    World.later_setCell (w := ⟨s.graph, origin⟩) hl rfl hc (Nat.lt_succ_self _)
  refine ⟨origin, hlater, hr.later hlater hvalid, rfl, ?_⟩
  unfold Graph.Current Graph.confirm
  rw [Graph.cell_setCell hl.lt, if_pos rfl]
  exact ⟨hs, rfl⟩

/-- Checking a cell's reads, and then computing or confirming it, brings it up to date. -/
private theorem check_brings (hv : K.Verifies (origin id).weight verify) (hr : K.Running 0 s origin)
    (hl : s.graph.Live id) (hn : K.needed (origin id)) (hs : (s.graph.cell id).value.isSome)
    (hm : (s.graph.cell id).key.isModel = false) (hc : ¬ s.graph.Current id) :
    K.Brings s origin id ((do
      if ← anyChanged verify (s.graph.cell id).verifiedAt (s.graph.cell id).deps then
        recompute (Graph.compute K.program K.library verify) id
      else modify fun s => { s with graph := s.graph.confirm id } : CellM Unit).run s) := by
  have hchecks := anyChanged_checks hv hr hl hn hs hm [] _ rfl (by simp)
  rcases hany : (anyChanged verify (s.graph.cell id).verifiedAt (s.graph.cell id).deps).run s
    with ⟨r, t⟩
  rw [hany] at hchecks
  obtain ⟨origin', hlater, hr', hreads, hcase⟩ := hchecks
  have horigin : origin' id = origin id := hlater.origin id hl
  have hl' : t.graph.Live id := hlater.live id hl
  have hcell : t.graph.cell id = s.graph.cell id := hlater.kept id hl (.inr (Nat.le_refl _))
  have hc' : ¬ t.graph.Current id := hlater.not_current hl (Nat.le_refl _) hc
  cases r with
  | error e =>
    rw [run_bind_error hany]
    exact ⟨origin', hlater.mono (Nat.le_succ _), hr', hreads, hcase⟩
  | ok changed =>
    rw [run_bind_ok hany]
    refine Brings.after hl hlater hreads ?_
    cases changed with
    | true => exact recompute_brings (horigin ▸ hv) hr' hl' (horigin ▸ hn) (hcell ▸ hm) hc'
    | false => exact confirm_brings hr' hl' (hcell ▸ hs) (hcell ▸ hm) hc' hcase

/-- With fuel above their weight, all needed cells are brought up to date. -/
theorem verifies (K : Round) (fuel : Nat) :
    K.Verifies fuel (Graph.verify K.program K.library fuel) := by
  induction fuel with
  | zero => exact fun s origin id _ _ _ hw => absurd hw (Nat.not_lt_zero _)
  | succ fuel ih =>
    intro s origin id hr hl hn hw
    have hv : K.Verifies (origin id).weight (Graph.verify K.program K.library fuel) :=
      ih.mono (Nat.le_of_lt_succ hw)
    rw [verify_succ]
    rcases bring_cases K.program K.library (Graph.verify K.program K.library fuel)
      hr.valid.indexed hl with ⟨hc, hrun⟩ | ⟨hm, hc, ⟨-, hrun⟩ | ⟨hs, hrun⟩⟩
    · rw [hrun]
      refine ⟨origin, .refl _ _, hr, rfl, ?_⟩
      rcases hc with rfl | hc
      · exact hr.model
      · exact hc
    · rw [hrun]
      exact recompute_brings hv hr hl hn hm hc
    · rw [hrun]
      exact check_brings hv hr hl hn hs hm hc

end Recalc.Round
