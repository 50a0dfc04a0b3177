import Recalc.Proofs.Pass.Simulation

/-! Evaluation of nodes in a pass, one kind of node after the other, and the whole pass. -/
namespace Recalc.Pass.Setting
open Origin

variable {E : Setting} {a : Log} {env : Env} {cells : CellEnv Origin} {id : NodeId}

/-! ### References -/

private theorem covered_model : E.Covered a.called (.of .model) :=
  .of (fun h => by simp [isCall] at h) (by simp [plan, Origin.plan])

private theorem meaning_slot {source : Origin} {key : Value} (hs : source.In E.domain)
    (hk : E.domain key) : E.meaning (.of (.slot source key)) =
      E.meaning source >>= fun v => v.get key := by
  rw [E.meaning_eq (in_slot hs hk) (by simp)]
  change (E.meaning source >>= fun v =>
    Reading.run E.meaning (MonadExcept.ofExcept (v.get key))) = _
  simp only [Reading.run_ofExcept]

private theorem covered_slot {source : Origin} {key : Value} (h : E.Covered a.called source) :
    E.Covered a.called (.of (.slot source key)) := by
  refine .of (fun h => by simp [isCall] at h) fun d hd => ?_
  have : d = source := by
    simp only [plan, Origin.plan, Reading.reads] at hd
    cases hm : E.meaning source with
    | error e => simpa [hm] using hd
    | ok v => simpa [hm] using hd
  exact this ▸ h

/-- An element of a handle's value, as a slot or a constant. -/
private theorem holds_element {h : Handle Origin} {v key value : Value} (hh : E.Holds a h v)
    (hw : h.Within (In E.domain) E.domain) (hk : E.domain key) (hg : v.get key = .ok value) :
    E.Holds a (element h key value) value := by
  cases h with
  | const w => exact ⟨rfl, by simp [element, CellAccess.read]⟩
  | cell o =>
    obtain ⟨hv, hc⟩ := holds_cell.mp hh
    refine holds_cell.mpr ⟨?_, covered_slot hc⟩
    rw [meaning_slot hw hk, hv]
    exact hg

private theorem within_element {D : Value → Prop} {h : Handle Origin} {key value : Value}
    (hw : h.Within (In D) D) (hk : D key) (hv : D value) :
    (element h key value).Within (In D) D := by
  cases h with
  | cell o => exact in_slot hw hk
  | const w => exact hv

/-- What access to a key of a handle's value gives. -/
private def slotValue (h : Handle Origin) (key : Value) : Reading Value :=
  match h with
  | .cell o => access.read (.cell (.of (.slot o key)))
  | .const v => MonadExcept.ofExcept (v.get key)

private theorem run_slotValue {h : Handle Origin} (hw : h.Within (In E.domain) E.domain)
    {key : Value} (hk : E.domain key) : (slotValue h key).run E.meaning =
      (access.read h).run E.meaning >>= fun v => v.get key := by
  cases h with
  | cell o => rw [slotValue, run_read_cell, run_read_cell, meaning_slot hw hk]
  | const v => exact Reading.run_ofExcept _

private theorem Sim.slotValue {h : Handle Origin} {v key : Value} (hh : E.Holds a h v)
    (hw : h.Within (In E.domain) E.domain) (hk : E.domain key) :
    E.Sim a (Within E.domain) (MonadExcept.ofExcept (v.get key)) (slotValue h key) := by
  intro s b hl hr
  have hrun := run_slotValue hw hk
  rw [hh.run] at hrun
  cases hg : v.get key with
  | error e => exact ⟨e, hrun.trans hg⟩
  | ok w =>
    refine ⟨b, .refl b, hr, hrun.trans hg, E.closed.get v key w (hh.mem hw) hg, fun o ho => ?_⟩
    cases h with
    | const u => simp [Setting.slotValue] at ho
    | cell source =>
      obtain rfl : o = .of (.slot source key) := by simpa [Setting.slotValue] using ho
      exact (covered_slot (holds_cell.mp hh).2).mono hl.called

private theorem readNode_get {o k : NodeId} (hn : E.program.node id = .get o k) :
    access.readNode E.program id cells = (do
      let o ← access.handle E.program o cells
      let k ← access.handle E.program k cells
      let key ← access.read k
      slotValue o key) := by
  rw [CellAccess.readNode, CellAccess.handle_get _ E.lawful hn]
  simp only [bind_assoc]
  refine bind_congr fun o => bind_congr fun _ => bind_congr fun key => ?_
  cases o with
  | cell o => rfl
  | const v =>
    simp only [slotValue, bind_assoc, pure_bind]
    cases v.get key <;> rfl

/-- The value of a node is evaluated on both sides. -/
private abbrev Evaluates (E : Setting) (a : Log) (eval : NodeId → Env → PassM Value) (env : Env)
    (cells : CellEnv Origin) (id : NodeId) : Prop :=
  E.Sim a (Within E.domain) (eval id env) (access.readNode E.program id cells)

variable {eval : NodeId → Env → PassM Value}

/-- A pass evaluates the object first, and then the key. Origins have the key first, and the object
when the slot is read. -/
private theorem Sim.get {o k : NodeId} (hn : E.program.node id = .get o k)
    (hw : cells.Within (In E.domain) E.domain) (ho : E.Evaluates a eval env cells o)
    (hk : E.Evaluates a eval env cells k) :
    E.Sim a (Within E.domain) (do
      let o ← eval o env
      let k ← eval k env
      MonadExcept.ofExcept (o.get k)) (access.readNode E.program id cells) := by
  rw [readNode_get hn]
  refine ho.andThen (fun e he => ?_) fun b v hl hv hrun hcover => ?_
  · cases hho : (access.handle E.program o cells).run E.meaning with
    | error e' => exact ⟨e', Reading.run_bind_of_error hho⟩
    | ok h =>
      have hwh := Origin.handle_mem E.lawful E.closed E.model_mem hw hho
      rw [CellAccess.readNode, Reading.run_bind_of_ok hho] at he
      rw [Reading.run_bind_of_ok hho]
      cases hkey : (access.readNode E.program k cells).run E.meaning with
      | error e' => exact ⟨e', run_handle_error hkey _⟩
      | ok key =>
        obtain ⟨h', hhk, hkey⟩ := Reading.run_bind_ok.mp hkey
        have hwk := Origin.handle_mem E.lawful E.closed E.model_mem hw hhk
        refine ⟨e, ?_⟩
        rw [Reading.run_bind_of_ok hhk, Reading.run_bind_of_ok hkey, run_slotValue hwh
          (Origin.read_mem E.lawful E.closed E.model_mem hwk hkey), he]
        rfl
  · obtain ⟨h, hho, hv'⟩ := Reading.run_bind_ok.mp hrun
    have hwh := Origin.handle_mem E.lawful E.closed E.model_mem hw hho
    have holds : E.Holds b h v := by
      refine ⟨hv', fun d hd => hcover d ?_⟩
      rw [CellAccess.readNode, Reading.reads_bind_of_ok hho]
      exact List.mem_append_right _ hd
    refine ⟨_, (hk.later hl).handle fun c h' key hl' hd _ _ => ?_,
      Reading.run_bind_of_ok hho, fun o ho => ?_⟩
    · exact Sim.slotValue (holds.later hl') hwh hd
    · rw [Reading.reads_bind_of_ok hho] at ho
      exact (List.mem_append.mp ho).imp_left fun ho => Reading.reads_subset_bind _ _ ho

private theorem Sim.holds {h : Handle Origin} {v : Value} (hh : E.Holds a h v)
    (hw : h.Within (In E.domain) E.domain) :
    E.Sim a (Within E.domain) (Pure.pure v) (access.read h) :=
  fun _ b hl hr => ⟨b, .refl b, hr, hh.run, hh.mem hw, fun o ho => (hh.covered o ho).mono hl.called⟩

/-- References are followed by reading their handles. -/
private theorem Sim.reference {invoke : String → List Value → PassM Value}
    (hr : (E.program.node id).isReference) (hm : E.Matches a env cells id)
    (hparts : ∀ c ∈ (E.program.node id).children, E.Evaluates a eval env cells c) :
    E.Sim a (Within E.domain) (step E.program E.model invoke number eval id env)
      (access.readNode E.program id cells) := by
  have bound {l : LambdaId} (h : (E.program.node id).Needs E.program.free l) :
      ∃ b c, Env.lookup env l = .ok b ∧ CellEnv.lookup cells l = .ok c ∧ E.Pairs a l b c ∧
        c.Within (In E.domain) E.domain := by
    obtain ⟨b, c, hb, hc, hp⟩ := hm.bound l ((E.lawful.mem_free id l).mpr h)
    exact ⟨b, c, by simp [Env.lookup, hb], hc, hp, hm.within.lookup hc⟩
  unfold step
  cases hn : E.program.node id with
  | root =>
    have read : access.readNode E.program id cells = access.read (.cell (.of .model)) := by
      simp only [CellAccess.readNode, CellAccess.handle, CellAccess.handleWithin, hn]
      rfl
    rw [read]
    exact Sim.holds (holds_cell.mpr ⟨rfl, covered_model⟩) (in_of.mpr trivial)
  | literal v =>
    have read : access.readNode E.program id cells = access.read (.const v) := by
      simp only [CellAccess.readNode, CellAccess.handle, CellAccess.handleWithin, hn]
      rfl
    rw [read]
    exact Sim.pure fun _ _ => E.closed.literal id v hn
  | val l =>
    obtain ⟨b, c, hb, hc, hp, hw⟩ := bound (l := l) (by simp [hn, Node.Needs])
    have read : access.readNode E.program id cells = access.read c.val := by
      simp only [CellAccess.readNode, CellAccess.handle, CellAccess.handleWithin, hn, hc]
      rfl
    simp only [read, hb]
    exact Sim.holds hp.val hw.val
  | key l =>
    obtain ⟨b, c, hb, hc, hp, hw⟩ := bound (l := l) (by simp [hn, Node.Needs])
    have read : access.readNode E.program id cells = access.read (.const b.key) := by
      simp only [CellAccess.readNode, CellAccess.handle, CellAccess.handleWithin, hn, hc, ← hp.key]
      rfl
    simp only [read, hb]
    exact Sim.pure fun _ _ => hp.key ▸ hw.key
  | context l =>
    obtain ⟨b, c, hb, hc, hp, hw⟩ := bound (l := l) (by simp [hn, Node.Needs])
    obtain ⟨lambda, val, key, value, number⟩ := b
    obtain ⟨h, hkey, context⟩ := c
    simp only [CellAccess.readNode, CellAccess.handle, CellAccess.handleWithin, hn,
      CellEnv.context, hc, Env.context, hb]
    cases hp.context with
    | none => exact fun _ _ _ _ => ⟨_, rfl⟩
    | some hh => exact Sim.holds hh (hw.context _ rfl)
  | get o k =>
    rw [hn] at hparts
    exact Sim.get hn hm.within (hparts o (by simp [Node.children]))
      (hparts k (by simp [Node.children]))
  | _ => simp [hn, Node.isReference] at hr

/-! ### Iterations -/

private theorem Sim.context {β : Type} {Q : Log → β → Prop} {f : Option Value → PassM β}
    {g : Option (Handle Origin) → Reading β} {ctx : Option NodeId}
    (hx : ∀ c ∈ ctx, E.Evaluates a eval env cells c)
    (hf : ∀ b h v, a.Later b → (access.contextHandle E.program cells ctx).run E.meaning = .ok h →
      Option.Rel (E.Holds b) h v → E.Sim b Q (f v) (g h)) :
    E.Sim a Q (contextValue (fun c => eval c env) ctx >>= f)
      (access.contextHandle E.program cells ctx >>= g) := by
  cases ctx with
  | none => exact hf a none none (.refl a) rfl .none
  | some c =>
    have first : contextValue (fun c => eval c env) (some c) >>= f =
        eval c env >>= fun v => f (some v) := by
      simp only [contextValue, map_eq_pure_bind, bind_assoc, pure_bind]
    have second : access.contextHandle E.program cells (some c) >>= g = (do
        let h ← access.handle E.program c cells
        let _ ← access.read h
        g (some h)) := by
      simp only [CellAccess.contextHandle, bind_assoc, pure_bind]
    rw [first, second]
    refine (hx c rfl).handle fun b h v hl _ hh hv => hf b (some h) (some v) hl ?_ (.some hv)
    rw [CellAccess.contextHandle, Reading.run_bind_of_ok hh, Reading.run_bind_of_ok hv.run]
    rfl

private theorem Sim.number {β : Type} {Q : Log → β → Prop} {key : Value} {f : BindingId → PassM β}
    {y : Reading β} {c : LambdaId × CellBinding Origin} (hm : E.Matches a env cells id)
    (hk : E.domain key) (hb : E.Binds cells id key c)
    (hf : ∀ b n, a.Later b → b.bindings[n]? = some c → E.Sim b Q (f n) y) :
    E.Sim a Q (Pass.number ⟨id, bindingsRead E.program id env, key⟩ >>= f) y := by
  intro s b hl hr
  obtain ⟨n, t, d, hrun, hl', hr', hn⟩ := hr.number ⟨id, bindingsRead E.program id env, key⟩ hk
    hm.sorted (hm.stands.later hl) hb
  rw [run_bind_ok hrun]
  exact (hf d n (hl.trans hl') hn t d (.refl d) hr').later hl'

/-- An iteration binds the same on both sides for every element. -/
private theorem Sim.iterate {verb : CollectionVerb} {source body : NodeId} {lambda : LambdaId}
    {ctx : Option NodeId} (hn : E.program.node id = .iterate verb source lambda body ctx)
    {invoke : String → List Value → PassM Value} (hm : E.Matches a env cells id)
    (hparts : ∀ b env cells, ∀ c ∈ (E.program.node id).children, E.Matches b env cells c →
      E.Evaluates b eval env cells c) :
    E.Sim a (Within E.domain) (step E.program E.model invoke Pass.number eval id env)
      (access.evalNode E.program (Origin.invoke E.library) id cells) := by
  have source_free : ∀ l ∈ E.program.free source, l ∈ E.program.free id :=
    fun l h => E.lawful.free_source hn List.mem_cons_self h
  have ctx_free (c : NodeId) (hc : c ∈ ctx) : ∀ l ∈ E.program.free c, l ∈ E.program.free id :=
    fun l h => E.lawful.free_source hn (List.mem_cons_of_mem _ (Option.mem_toList.mpr hc)) h
  have body_free : ∀ l ∈ E.program.free body, l ≠ lambda → l ∈ E.program.free id :=
    fun l h hne => E.lawful.free_body hn h hne
  rw [hn] at hparts
  rw [CellAccess.evalNode_iterate _ _ hn]
  simp only [step, hn]
  refine (hparts a env cells source (by simp [Node.children]) (hm.part source_free)).handle
    fun b₁ h elements hl₁ helements hh helds => ?_
  refine Sim.context (fun c hc => hparts b₁ env cells c
    (by simp [Node.children, Option.mem_def.mp hc]) ((hm.later hl₁).part (ctx_free c hc)))
    fun b₂ ctxHandle ctxValue hl₂ hctx hctxs => ?_
  have hwh := Origin.handle_mem E.lawful E.closed E.model_mem hm.within hh
  refine (E.correspondence b₂).iterate E.closed.toClosedClass helements
    fun key value hkey hvalue hget => ?_
  rw [elementHandle_eq, pure_bind]
  refine Sim.number (hm.later (hl₁.trans hl₂)) hkey (.intro hn hh helds.run hget hctx)
    fun b₃ n hl₃ hnumber => ?_
  have hl := hl₂.trans hl₃
  have pairs : E.Pairs b₃ lambda ⟨lambda, value, key, ctxValue, n⟩
      ⟨element h key value, key, ctxHandle⟩ :=
    ⟨hnumber, holds_element (helds.later hl) hwh hkey hget, rfl, holds_context_later hctxs hl₃⟩
  refine hparts b₃ _ _ body (by simp [Node.children]) ((hm.later (hl₁.trans hl)).bind body_free rfl
    pairs ⟨within_element hwh hkey hvalue, hkey, ?_⟩)
  rintro h' rfl
  exact Origin.contextHandle_mem E.lawful E.closed E.model_mem hm.within hctx

/-! ### Calls -/

/-- A call is logged for an origin. -/
private theorem Sim.invoke {function : String} {args : List Value} (ha : ∀ v ∈ args, E.domain v)
    (o : Origin) : E.Sim a (fun b v => E.domain v ∧ o ∈ b.called)
      (Pass.invoke E.library function args) (Origin.invoke E.library function args) := by
  intro s b hl hr
  have hread : (Origin.invoke E.library function args).run E.meaning =
      E.library.call function args := Reading.run_ofExcept _
  cases hc : E.library.call function args with
  | error e =>
    rw [invoke_run_error hc]
    exact ⟨e, hread.trans hc⟩
  | ok v =>
    rw [invoke_run_ok hc]
    have logged : b.Later ⟨b.bindings, o :: b.called⟩ :=
      ⟨List.prefix_refl _, List.subset_cons_self _ _⟩
    refine ⟨_, logged, hr.later logged rfl rfl hr.count ?_, hread.trans hc,
      ⟨E.closed.call function args v ha hc, List.mem_cons_self⟩, by simp [Origin.invoke]⟩
    simp [Work.recordCall, hr.calls]

/-- The parts of a node give its value on both sides, and a call is logged for it. -/
private theorem Sim.step (hr : (E.program.node id).isReference = false)
    (hm : E.Matches a env cells id)
    (hparts : ∀ b env cells, ∀ c ∈ (E.program.node id).children, E.Matches b env cells c →
      E.Evaluates b eval env cells c) :
    E.Sim a (fun b v => E.domain v ∧
        ((E.program.node id).isCall → (.of (.node id cells) : Origin) ∈ b.called))
      (step E.program E.model (Pass.invoke E.library) Pass.number eval id env)
      (access.evalNode E.program (Origin.invoke E.library) id cells) := by
  cases hi : (E.program.node id).isIterate with
  | true =>
    cases hn : E.program.node id with
    | iterate verb source lambda body ctx =>
      exact (Sim.iterate hn hm hparts).mono fun b v hv => ⟨hv, by simp [Node.isCall]⟩
    | _ => simp [hn, Node.isIterate] at hi
  | false =>
    have parts (c : NodeId) (hc : c ∈ (E.program.node id).children) :
        E.Evaluates a eval env cells c :=
      hparts a env cells c hc (hm.part fun l h => E.lawful.free_part hi hc h)
    rw [CellAccess.evalNode_combine _ _ hr hi, step_combine hr hi]
    cases hn : E.program.node id with
    | call function args =>
      rw [hn] at parts
      refine Sim.bind ((E.correspondence a).mapM parts) fun b vs _ hvs => ?_
      exact (Sim.invoke hvs (.of (.node id cells))).mono fun _ _ h => ⟨h.1, fun _ => h.2⟩
    | _ =>
      have notCall : (E.program.node id).isCall = false := by simp [hn, Node.isCall]
      rw [← hn]
      refine Sim.mono ((E.correspondence a).combine E.closed.toVerbClass parts ?_)
        fun b v hv => ⟨hv, ?_⟩
      · simp [notCall]
      · simp [notCall]

/-! ### Remembered nodes -/

/-- Following the plan of an origin gives its meaning. -/
private theorem Sim.cell {x : PassM Value} {P : Log → Value → Prop} {o : Origin}
    (ho : o.In E.domain) (hne : o ≠ .of .model) (hx : E.Sim a P x (E.plan o))
    (hcall : ∀ b v, P b v → o.isCall E.program → o ∈ b.called) :
    E.Sim a (fun b v => P b v ∧ E.Covered b.called o) x (access.read (.cell o)) := by
  intro s b hl hs
  have meaning : (access.read (.cell o)).run E.meaning = (E.plan o).run E.meaning := by
    rw [run_read_cell, E.meaning_eq ho hne]
  have follows := hx s b hl hs
  rcases hrun : x.run s with ⟨r, t⟩
  rw [hrun] at follows
  cases r with
  | error e =>
    obtain ⟨e', he⟩ := follows
    exact ⟨e', meaning.trans he⟩
  | ok v =>
    obtain ⟨c, hc, hs', hv, hP, hcover⟩ := follows
    have covered : E.Covered c.called o := .of (hcall c v hP) hcover
    exact ⟨c, hc, hs', meaning.trans hv, ⟨hP, covered⟩, by simpa using covered⟩

private theorem Remembers.counted {s : State} (h : E.Remembers s a) :
    E.Remembers { s with work := s.work.countEvaluation } a :=
  h.later (.refl a) rfl rfl h.count h.calls

private theorem readNode_cell (hr : (E.program.node id).isReference = false) :
    access.readNode E.program id cells =
      access.read (.cell (.of (.node id (CellEnv.restrict E.program id cells)))) := by
  unfold CellAccess.readNode CellAccess.handle CellAccess.handleWithin
  cases hn : E.program.node id <;> first | rfl | simp [hn, Node.isReference] at hr

/-- What a pass remembers for a node is what computing the node would give. -/
private theorem Sim.remembered {fuel : Nat} (hr : (E.program.node id).isReference = false)
    (hm : E.Matches a env cells id)
    (hparts : ∀ b env cells, ∀ c ∈ (E.program.node id).children, E.Matches b env cells c →
      E.Evaluates b (Pass.eval E.program E.library E.model fuel) env cells c) :
    E.Evaluates a (Pass.eval E.program E.library E.model (fuel + 1)) env cells id := by
  rw [Evaluates, readNode_cell hr]
  intro s b hl hs
  have hin : (Origin.of (.node id (CellEnv.restrict E.program id cells))).In E.domain :=
    in_node (hm.within.restrict E.program id)
  have computed := Sim.cell hin (by simp) (Sim.step hr hm.restrict hparts) fun _ _ h => h.2
  rw [eval_run]
  split
  · cases hf : s.memo.find? ⟨id, bindingsRead E.program id env⟩ with
    | some v =>
      obtain ⟨cells', hs', hst, hd, hv, hc⟩ := hs.memo id _ v hf
      have same := hst.restrict_eq (hm.stands.later hl) hs' hm.sorted
      rw [same] at hv hc
      exact ⟨b, .refl b, hs, (run_read_cell _ _).trans hv, hd, by simpa using hc⟩
    | none =>
      rcases hrun : (Pass.step E.program E.model (Pass.invoke E.library) Pass.number
        (Pass.eval E.program E.library E.model fuel) id env).run
          { s with work := s.work.countEvaluation } with ⟨r, t⟩
      have follows := computed _ b hl hs.counted
      rw [hrun] at follows
      cases r with
      | error e => exact follows
      | ok v =>
        obtain ⟨c, hc, hs', hv, ⟨⟨hd, -⟩, hcover⟩, hreads⟩ := follows
        refine ⟨c, hc, hs'.memoize hm.sorted (hm.stands.later (hl.trans hc)) hd ?_ hcover, hv, hd,
          hreads⟩
        rwa [run_read_cell] at hv
  · exact (computed.mono fun _ _ h => h.1.1) _ b hl hs.counted

/-- Every evaluation of a pass gives the meaning of its node. -/
theorem eval_sim {fuel : Nat} (hf : id < fuel) (hm : E.Matches a env cells id) :
    E.Sim a (Within E.domain) (Pass.eval E.program E.library E.model fuel id env)
      (access.readNode E.program id cells) := by
  induction fuel generalizing id env cells a with
  | zero => cases hf
  | succ fuel ih =>
    have hparts (b : Log) (env : Env) (cells : CellEnv Origin) (c : NodeId)
        (hc : c ∈ (E.program.node id).children) (hm : E.Matches b env cells c) :
        E.Evaluates b (Pass.eval E.program E.library E.model fuel) env cells c :=
      ih (Nat.lt_of_lt_of_le (E.lawful.child_lt id c hc) (Nat.le_of_lt_succ hf)) hm
    cases hr : (E.program.node id).isReference with
    | false => exact Sim.remembered hr hm hparts
    | true =>
      have plain : ((E.program.node id).hoist || (E.program.node id).isCall) = false := by
        cases hn : E.program.node id <;> first | rfl | simp [hn, Node.isReference] at hr
      have noBinding : (E.program.node id).isIterate = false := by
        cases hn : E.program.node id <;> first | rfl | simp [hn, Node.isReference] at hr
      intro s b hl hs
      rw [eval_run, plain]
      refine Sim.reference hr hm (fun c hc => ?_) _ b hl hs.counted
      exact hparts a env cells c hc (hm.part fun l h => E.lawful.free_part noBinding hc h)

/-! ### Outputs -/

/-- An output has no bindings around it, so it is its own origin. -/
private theorem Sim.output {o : String × NodeId} (ho : o ∈ E.program.outputs) :
    E.Sim a (Within E.domain) (Pass.eval E.program E.library E.model (o.2 + 1) o.2 [])
      (access.pull (.of (.node o.2 []))) := by
  have hm : E.Matches a [] [] o.2 := by
    refine ⟨List.Pairwise.nil, by simp [CellEnv.Within], fun l hl => ?_⟩
    rw [E.lawful.output_free o ho] at hl
    cases hl
  have follows := eval_sim (Nat.lt_succ_self o.2) hm
  cases hr : (E.program.node o.2).isReference with
  | false =>
    rw [readNode_cell hr] at follows
    exact follows
  | true =>
    have notCall : (E.program.node o.2).isCall = false := by
      cases hn : E.program.node o.2 <;> first | rfl | simp [hn, Node.isReference] at hr
    have plan : E.plan (.of (.node o.2 [])) = access.readNode E.program o.2 [] :=
      CellAccess.evalNode_reference _ _ hr _
    rw [← plan] at follows
    refine (Sim.cell (in_node (by simp [CellEnv.Within])) (by simp) follows ?_).mono
      fun _ _ h => h.1
    simp [isCall, notCall]

private abbrev outputsRun (E : Setting) : Except EvalError (List Value) × State :=
  (E.program.outputs.mapM fun o =>
    Pass.eval E.program E.library E.model (o.2 + 1) o.2 []).run .start

private theorem run_eq : Pass.run E.program E.library E.model =
    (E.outputsRun.1, E.outputsRun.2.work) := rfl

private theorem outputs_follows : E.Follows ⟨[], []⟩ (Within fun vs => ∀ v ∈ vs, E.domain v)
    (outputs E.program) E.outputsRun :=
  have sim : E.Sim ⟨[], []⟩ (Within fun vs => ∀ v ∈ vs, E.domain v) (E.program.outputs.mapM fun o =>
      Pass.eval E.program E.library E.model (o.2 + 1) o.2 []) (outputs E.program) :=
    (E.correspondence ⟨[], []⟩).mapM fun _ ho => Sim.output ho
  sim .start ⟨[], []⟩ (.refl _) remembers_start

variable (E)

/-- A pass gives the meanings of the outputs, or some output has none. -/
theorem run_ok_iff (values : List Value) : (Pass.run E.program E.library E.model).1 = .ok values ↔
    (outputs E.program).run E.meaning = .ok values := by
  have follows := outputs_follows (E := E)
  rw [run_eq]
  generalize E.outputsRun = r at follows ⊢
  obtain ⟨result, t⟩ := r
  cases result with
  | error e =>
    obtain ⟨e', he⟩ := follows
    simp [he]
  | ok vs =>
    obtain ⟨-, -, -, hv, -⟩ := follows
    rw [hv]

/-- A pass that succeeds makes all calls that the meanings of the outputs need. -/
theorem run_covers {values : List Value}
    (h : (Pass.run E.program E.library E.model).1 = .ok values) :
    ∃ called, called.length = (Pass.run E.program E.library E.model).2.calls.size ∧
      ∀ o ∈ (outputs E.program).reads E.meaning, E.Covered called o := by
  have follows := outputs_follows (E := E)
  rw [run_eq] at h ⊢
  generalize E.outputsRun = r at follows h ⊢
  obtain ⟨result, t⟩ := r
  cases h
  obtain ⟨log, -, hr, -, -, hcover⟩ := follows
  exact ⟨log.called, hr.calls.symm, hcover⟩

end Recalc.Pass.Setting
