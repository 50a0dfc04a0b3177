import Recalc.Proofs.Graph.Grounding
import Recalc.Proofs.Origin.Meaning

/-! What the cells of a graph record. A value with the revision it was last verified at is the
meaning of the cell's origin over the document of that revision, and the cells listed with it are
those that evaluation reads there. What a cell has read and what has not changed since still has
the value that was read. -/
namespace Recalc

/-- A program over the documents of its recalculations. Evaluation never leaves a class of values,
and all documents are of that class. -/
structure History where
  program : Program
  library : Library
  domain : Value → Prop
  lawful : program.Lawful
  closed : Domain program library domain
  model : Revision → Value
  model_mem : ∀ r, domain (model r)

namespace History
variable (H : History)

/-- The value of an origin at a revision. -/
def meaning (r : Revision) (o : Origin) : Except EvalError Value :=
  Origin.meaning H.program H.library (H.model r) o

def plan (o : Origin) : Reading Value := Origin.plan H.program H.library o

theorem meaning_eq {r : Revision} {o : Origin} (ho : o.In H.domain) (hne : o ≠ .of .model) :
    H.meaning r o = (H.plan o).run (H.meaning r) :=
  Origin.meaning_eq H.lawful H.closed (H.model_mem r) ho hne

theorem meaning_mem {r : Revision} {o : Origin} (ho : o.In H.domain) {v : Value}
    (h : H.meaning r o = .ok v) : H.domain v :=
  Origin.meaning_mem H.lawful H.closed (H.model_mem r) ho h

theorem mem_reads {r : Revision} {o d : Origin} (ho : o.In H.domain)
    (h : d ∈ (H.plan o).reads (H.meaning r)) : d.In H.domain ∧ d.weight < o.weight :=
  Origin.mem_reads_plan H.lawful H.closed (H.model_mem r) ho h

/-- The history with the document of one revision. -/
def record (r : Revision) (v : Value) (hv : H.domain v) : History :=
  { H with
    model := fun s => if s = r then v else H.model s
    model_mem := fun s => by
      split
      · exact hv
      · exact H.model_mem s }

private theorem meaning_record {r s : Revision} {v : Value} (hv : H.domain v) (h : s ≠ r) :
    (H.record r v hv).meaning s = H.meaning s := by
  funext o
  simp only [meaning, record, if_neg h]

theorem meaning_record_self {r : Revision} {v : Value} (hv : H.domain v) :
    (H.record r v hv).meaning r = Origin.meaning H.program H.library v := by
  funext o
  simp only [meaning, record, if_true]

end History

namespace World
variable (H : History) (w : World)

/-- A cell that was current at a revision. Unless it has changed since, its value is the one that it
had then. -/
structure Seen (r : Revision) (d : CellId) : Prop where
  isSome : (w.graph.cell d).value.isSome
  le : r ≤ (w.graph.cell d).verifiedAt
  same : (w.graph.cell d).changedAt ≤ r → H.meaning r (w.origin d) = .ok (w.graph.value d)

/-- What a cell with a value records. -/
structure Records (id : CellId) : Prop where
  meaning : H.meaning (w.graph.cell id).verifiedAt (w.origin id) = .ok (w.graph.value id)
  reads : (w.graph.cell id).deps.map w.origin =
    (H.plan (w.origin id)).reads (H.meaning (w.graph.cell id).verifiedAt)
  seen : ∀ d ∈ (w.graph.cell id).deps, w.Seen H (w.graph.cell id).verifiedAt d

/-- A cell is based on cells in use, its key has constants of the class of values, and it records
what it should. -/
structure Fits (id : CellId) : Prop extends World.Based w id where
  constants : (w.graph.cell id).key.Within (fun _ => True) H.domain
  origin_in : (w.origin id).In H.domain
  unset : (w.graph.cell id).value = none → (w.graph.cell id).deps = []
  records : (w.graph.cell id).value.isSome → w.Records H id

/-- The invariant of a graph: the index finds the cells in use, and they record what they should. -/
structure Valid : Prop where
  indexed : w.graph.Indexed
  fits : ∀ id, w.graph.Live id → w.Fits H id

variable {H w}

theorem Valid.grounded (h : w.Valid H) : w.Grounded :=
  ⟨h.indexed, fun id hl => (h.fits id hl).toBased⟩

theorem Fits.within {id : CellId} (h : w.Fits H id) :
    (w.graph.cell id).key.Within w.graph.Live H.domain :=
  CellKey.within_iff.mpr ⟨h.references, h.constants⟩

/-- Over values that are their own canonical forms, so are keys. -/
theorem originOf_eq {key : CellKey CellId} {P : CellId → Prop} (h : key.Within P H.domain) :
    w.originOf key = .of (key.map w.origin) := by
  rw [originOf, CellKey.canon_of_within H.closed.canon h]

theorem Fits.origin_of_key {id : CellId} (h : w.Fits H id) :
    w.origin id = .of ((w.graph.cell id).key.map w.origin) :=
  h.origin_eq.trans (originOf_eq h.constants)

/-- A current cell has the meaning of its origin. -/
theorem Valid.meaning (h : w.Valid H) {id : CellId} (hl : w.graph.Live id)
    (hc : w.graph.Current id) :
    H.meaning w.graph.revision (w.origin id) = .ok (w.graph.value id) := by
  rw [← hc.2]
  exact ((h.fits id hl).records hc.1).meaning

theorem Valid.seen_of_current (h : w.Valid H) {id : CellId} (hl : w.graph.Live id)
    (hc : w.graph.Current id) : w.Seen H w.graph.revision id :=
  ⟨hc.1, Nat.le_of_eq hc.2.symm, fun _ => h.meaning hl hc⟩

/-- A cell that stays as it is fits into another state, if what it has seen is seen there. -/
theorem Fits.transfer {w' : World} {id : CellId} (h : w.Fits H id) (based : w'.Based id)
    (cell : w'.graph.cell id = w.graph.cell id) (self : w'.origin id = w.origin id)
    (origin : ∀ d ∈ (w.graph.cell id).deps, w'.origin d = w.origin d)
    (seen : ∀ d ∈ (w.graph.cell id).deps, ∀ r, w.Seen H r d → w'.Seen H r d) :
    w'.Fits H id := by
  have value : w'.graph.value id = w.graph.value id := by unfold Graph.value; rw [cell]
  refine ⟨based, cell ▸ h.constants, self ▸ h.origin_in, cell ▸ h.unset, fun hv => ?_⟩
  rw [cell] at hv
  have hr := h.records hv
  refine ⟨?_, ?_, ?_⟩ <;> rw [cell]
  · rw [self, value]
    exact hr.meaning
  · rw [self, ← hr.reads]
    exact List.map_congr_left origin
  · exact fun d hd => seen d hd _ (hr.seen d hd)

theorem Seen.transfer {w' : World} {r : Revision} {d : CellId} (h : w.Seen H r d)
    (cell : w'.graph.cell d = w.graph.cell d) (origin : w'.origin d = w.origin d) :
    w'.Seen H r d := by
  have value : w'.graph.value d = w.graph.value d := by unfold Graph.value; rw [cell]
  refine ⟨cell ▸ h.isSome, cell ▸ h.le, fun hc => ?_⟩
  rw [origin, value]
  exact h.same (cell ▸ hc)

/-! ### Computing and confirming -/

/-- A new content for a cell, which is what it should record. A changed value is marked as such, and
only a cell that is not current yet can get one. -/
structure Update (H : History) (w : World) (id : CellId) (c : Cell) : Prop
    extends World.Renews w id c where
  meaning : H.meaning w.graph.revision (w.origin id) = .ok (c.value.getD .null)
  reads : c.deps.map w.origin = (H.plan (w.origin id)).reads (H.meaning w.graph.revision)
  kept : (w.graph.cell id).value.isSome →
    (c.value = (w.graph.cell id).value ∧ c.changedAt = (w.graph.cell id).changedAt) ∨
      ((w.graph.cell id).verifiedAt < w.graph.revision ∧ c.changedAt = w.graph.revision)

/-- What has been seen of a cell stays seen. -/
private theorem Update.seen {id : CellId} (h : w.Based id) (hl : w.graph.Live id) {c : Cell}
    (u : w.Update H id c) {r : Revision} {d : CellId} (hs : w.Seen H r d) :
    (w.setCell id c).Seen H r d := by
  by_cases hd : d = id
  · subst hd
    have self := setCell_self hl c
    have hle : r ≤ w.graph.revision := Nat.le_trans hs.le h.verified_le
    refine ⟨by rw [self]; exact u.isSome, by rw [self, u.verified]; exact hle, fun hc => ?_⟩
    rw [self] at hc
    rw [Graph.value, self]
    rcases u.kept hs.isSome with ⟨hv, hch⟩ | ⟨hlt, hch⟩
    · rw [hv]
      exact hs.same (hch ▸ hc)
    · exact absurd (hch ▸ hc) (Nat.not_le.mpr (Nat.lt_of_le_of_lt hs.le hlt))
  · exact hs.transfer (setCell_of_ne hl c hd) rfl

theorem Valid.setCell (h : w.Valid H) {id : CellId} (hl : w.graph.Live id) {c : Cell}
    (u : w.Update H id c) : (w.setCell id c).Valid H := by
  have grounded := h.grounded.setCell hl u.toRenews
  have based := (h.fits id hl).toBased
  refine ⟨grounded.indexed, fun j hj => ?_⟩
  have hf := h.fits j ((u.live_iff hl j).mp hj)
  by_cases hid : j = id
  · subst hid
    have self := setCell_self hl c
    refine ⟨grounded.based j hj, ?_, hf.origin_in, fun hv => ?_, fun _ => ⟨?_, ?_, ?_⟩⟩
    · rw [self, u.key]
      exact hf.constants
    · rw [self] at hv
      have := u.isSome
      simp [hv] at this
    all_goals rw [self, u.verified]
    · rw [Graph.value, self]
      exact u.meaning
    · exact u.reads
    · exact fun d hd => u.seen based hl (h.seen_of_current (u.live d hd) (u.current d hd))
  · exact hf.transfer (grounded.based j hj) (setCell_of_ne hl c hid) rfl (fun _ _ => rfl)
      fun d _ r => u.seen based hl

/-- A cell is confirmed when all that it read is current and has the values that it had then. -/
theorem Valid.confirm (h : w.Valid H) {id : CellId} (hl : w.graph.Live id)
    (hv : (w.graph.cell id).value.isSome) (hne : w.origin id ≠ .of .model)
    (hc : ∀ d ∈ (w.graph.cell id).deps, w.graph.Current d)
    (hs : ∀ d ∈ (w.graph.cell id).deps, H.meaning w.graph.revision (w.origin d) =
      H.meaning (w.graph.cell id).verifiedAt (w.origin d)) :
    World.Valid H { w with graph := w.graph.confirm id } := by
  have hr := (h.fits id hl).records hv
  have hin := (h.fits id hl).origin_in
  have same : ∀ o ∈ (H.plan (w.origin id)).reads (H.meaning (w.graph.cell id).verifiedAt),
      H.meaning w.graph.revision o = H.meaning (w.graph.cell id).verifiedAt o := by
    rw [← hr.reads]
    exact List.forall_mem_map.mpr hs
  obtain ⟨run, reads⟩ := Reading.congr same
  refine h.setCell hl ⟨(h.fits id hl).renews_confirm hv hc, ?_, hr.reads.trans reads.symm,
    fun _ => .inl ⟨rfl, rfl⟩⟩
  rw [H.meaning_eq hin hne, run, ← H.meaning_eq hin hne]
  exact hr.meaning

/-- A cell that is not current gets its meaning, with the cells read for it. -/
theorem Valid.store (h : w.Valid H) {id : CellId} (hl : w.graph.Live id)
    (hc : ¬ w.graph.Current id) {v : Value} {deps : List CellId}
    (hm : H.meaning w.graph.revision (w.origin id) = .ok v)
    (hr : deps.map w.origin = (H.plan (w.origin id)).reads (H.meaning w.graph.revision))
    (hd : ∀ d ∈ deps, w.graph.Live d ∧ w.graph.Current d) :
    World.Valid H { w with graph := w.graph.store id v deps } := by
  have hf := h.fits id hl
  have renews := hf.renews_store v hd
  have stale (hv : (w.graph.cell id).value.isSome) :
      (w.graph.cell id).verifiedAt < w.graph.revision :=
    Nat.lt_of_le_of_ne hf.verified_le fun he => hc ⟨hv, he⟩
  refine h.setCell hl ⟨renews, ?_, hr, ?_⟩
  all_goals
    rcases (w.graph.cell id).renew_cases v w.graph.revision with ⟨old, hold, hbeq, he⟩ | he
  · have hrec := hf.records (by rw [hold]; rfl)
    have hval : w.graph.value id = old := by rw [Graph.value, hold]; rfl
    have hsame : old = v := H.closed.eq_of_beq
      (H.meaning_mem hf.origin_in (hval ▸ hrec.meaning)) (H.meaning_mem hf.origin_in hm) hbeq
    rw [he, hold, hsame]
    exact hm
  · rw [he]
    exact hm
  · rw [he]
    exact fun _ => .inl ⟨rfl, rfl⟩
  · rw [he]
    exact fun hs => .inr ⟨stale hs, rfl⟩

/-! ### New recalculations -/

theorem valid_empty (H : History) : World.Valid H ⟨.empty, fun _ => .of .model⟩ := by
  refine ⟨Graph.indexed_empty, fun id hl => ?_⟩
  have based := grounded_empty.based id hl
  obtain rfl := Graph.live_empty.mp hl
  refine ⟨based, trivial, Origin.in_of.mpr trivial, fun _ => rfl, fun h => ?_⟩
  cases h

theorem Valid.advance (h : w.Valid H) {model : Value} (hm : H.domain model) :
    World.Valid (H.record (w.graph.revision + 1) model hm) { w with graph := w.graph.advance } := by
  have past {r : Revision} (hr : r ≤ w.graph.revision) :
      (H.record (w.graph.revision + 1) model hm).meaning r = H.meaning r :=
    H.meaning_record hm (Nat.ne_of_lt (Nat.lt_succ_of_le hr))
  have grounded := h.grounded.advance
  refine ⟨grounded.indexed, fun id hl => ?_⟩
  have hf := h.fits id hl
  refine ⟨grounded.based id hl, hf.constants, hf.origin_in, hf.unset, fun hv => ?_⟩
  have hr := hf.records hv
  refine ⟨(past hf.verified_le) ▸ hr.meaning, (past hf.verified_le) ▸ hr.reads, fun d hd => ?_⟩
  have hs := hr.seen d hd
  exact ⟨hs.isSome, hs.le, fun hc => (past hf.verified_le) ▸ hs.same hc⟩

/-- A recalculation starts with the new document in its cell. -/
theorem Valid.start (h : w.Valid H) {model : Value} (hm : H.domain model) :
    World.Valid (H.record (w.graph.revision + 1) model hm)
        { w with graph := w.graph.advance.setModel model } ∧
      (w.graph.advance.setModel model).Current Graph.modelCell := by
  have ha := h.advance hm
  have hl : w.graph.advance.Live Graph.modelCell := ha.indexed.live_model
  have hf := h.fits _ h.indexed.live_model
  have origin := h.grounded.origin_model
  have hdeps : (w.graph.advance.cell Graph.modelCell).deps = [] := by
    cases hv : (w.graph.cell Graph.modelCell).value with
    | none => exact hf.unset hv
    | some v =>
      have hr := (hf.records (by rw [hv]; rfl)).reads
      rw [origin] at hr
      exact List.map_eq_nil_iff.mp hr
  constructor
  · refine ha.store hl hf.not_current_advance ?_ ?_ ?_
    · simp only [origin]
      simp [History.meaning, History.record, Graph.advance, Origin.meaning_model]
    · simp only [origin, hdeps]
      rfl
    · simp [hdeps]
  · exact Graph.current_store hl.lt model _

/-! ### Sweeping -/

theorem Valid.sweep (h : w.Valid H) (roots : List CellId) :
    World.Valid H { w with graph := w.graph.sweep roots } := by
  have grounded := h.grounded.sweep roots
  have kept {d : CellId} (hd : w.graph.Reaches roots d) :
      (w.graph.sweep roots).cell d = w.graph.cell d := Graph.cell_sweep fun _ => hd
  refine ⟨grounded.indexed, fun j hj => ?_⟩
  obtain ⟨hl, hr⟩ := (Graph.live_sweep h.indexed).mp hj
  refine (h.fits j hl).transfer (grounded.based j hj) (kept hr) rfl (fun _ _ => rfl)
    fun d hd r hs => hs.transfer (kept ?_) rfl
  exact hr.successor (List.mem_append_left _ hd)

end World

end Recalc
