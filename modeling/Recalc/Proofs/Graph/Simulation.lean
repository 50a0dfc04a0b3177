import Recalc.Proofs.Graph.Later

/-! Evaluation over cells follows evaluation over origins: it reads the cells of the same origins in
the same order, and gives the meaning or the same error. -/
namespace Recalc

/-- A recalculation at one revision of a history, with a class of origins that it may need, closed
under what is read for them. -/
structure Round where
  history : History
  revision : Revision
  needed : Origin → Prop
  needed_reads : ∀ o d, needed o →
    d ∈ (history.plan o).reads (history.meaning revision) → needed d

namespace Round
open Recalc.Graph
variable (K : Round)

/-- The meaning of an origin in this recalculation. -/
def now (o : Origin) : Except EvalError Value := K.history.meaning K.revision o

abbrev program : Program := K.history.program

abbrev library : Library := K.history.library

abbrev domain : Value → Prop := K.history.domain

def isCall (o : Origin) : Bool := o.isCall K.history.program

/-- The state of a recalculation. Cells read or computed are current, no cell was computed twice,
only needed ones were, and each call was made for one of them, except for some calls whose cells are
still to be filled. -/
structure Running (pending : Nat) (s : State) (origin : CellId → Origin) : Prop where
  valid : World.Valid K.history ⟨s.graph, origin⟩
  revision : s.graph.revision = K.revision
  model : s.graph.Current modelCell
  reads : ∀ id ∈ s.reads, s.graph.Live id ∧ s.graph.Current id
  computed : ∀ id ∈ s.computed, s.graph.Live id ∧ s.graph.Current id
  needed : ∀ id ∈ s.computed, K.needed (origin id)
  nodup : s.computed.Nodup
  calls : s.calls.size = (s.computed.filter fun id => K.isCall (origin id)).length + pending

variable {K} {α β γ δ : Type} {b pending : Nat} {s : State} {origin : CellId → Origin}

theorem Running.meaning (h : K.Running pending s origin) {id : CellId} (hl : s.graph.Live id)
    (hc : s.graph.Current id) : K.now (origin id) = .ok (s.graph.value id) := by
  rw [now, ← h.revision]
  exact h.valid.meaning hl hc

private theorem Running.value_mem (h : K.Running pending s origin) {id : CellId}
    (hl : s.graph.Live id)
    (hc : s.graph.Current id) : K.domain (s.graph.value id) :=
  K.history.meaning_mem (h.valid.fits id hl).origin_in (h.meaning hl hc)

/-- A valid later graph takes the place of the graph of a state. -/
theorem Running.later (h : K.Running pending s origin) {g : Graph} {origin' : CellId → Origin}
    (hl : World.Later b ⟨s.graph, origin⟩ ⟨g, origin'⟩) (hv : World.Valid K.history ⟨g, origin'⟩) :
    K.Running pending { s with graph := g } origin' where
  valid := hv
  revision := hl.revision.trans h.revision
  model := hl.current h.valid.indexed.live_model h.model
  reads id hid := ⟨hl.live id (h.reads id hid).1, hl.current (h.reads id hid).1 (h.reads id hid).2⟩
  computed id hid :=
    ⟨hl.live id (h.computed id hid).1, hl.current (h.computed id hid).1 (h.computed id hid).2⟩
  needed id hid := by
    have same : origin' id = origin id := hl.origin id (h.computed id hid).1
    exact same ▸ h.needed id hid
  nodup := h.nodup
  calls := by
    have same : (s.computed.filter fun id => K.isCall (origin' id)) =
        s.computed.filter fun id => K.isCall (origin id) :=
      List.filter_congr fun id hid => congrArg K.isCall (hl.origin id (h.computed id hid).1)
    rw [same]
    exact h.calls

/-! ### Following a reading -/

variable (K) in
/-- What following a reading from a state leads to. -/
def Follows (b pending : Nat) (R : World → α → β → Prop) (y : Reading β) (s : State)
    (origin : CellId → Origin) : Except EvalError α × State → Prop
  | (.ok a, t) => ∃ origin', World.Later b ⟨s.graph, origin⟩ ⟨t.graph, origin'⟩ ∧
      K.Running pending t origin' ∧
      t.reads.map origin' = (y.reads K.now).reverse ++ s.reads.map origin ∧
      ∃ c, y.run K.now = .ok c ∧ R ⟨t.graph, origin'⟩ a c
  | (.error e, t) => ∃ origin', World.Later b ⟨s.graph, origin⟩ ⟨t.graph, origin'⟩ ∧
      K.Running 0 t origin' ∧ y.run K.now = .error e

variable (K) in
/-- A computation on cells follows a reading in all states later than a given one, as far as what is
read is needed and light. -/
def Sim (b pending : Nat) (w : World) (R : World → α → β → Prop) (x : CellM α) (y : Reading β) :
    Prop :=
  ∀ s origin, World.Later b w ⟨s.graph, origin⟩ → K.Running 0 s origin →
    (∀ o ∈ y.reads K.now, K.needed o ∧ o.weight < b) → K.Follows b pending R y s origin (x.run s)

variable {w w' : World} {R : World → α → β → Prop} {S : World → γ → δ → Prop}

theorem Sim.later {x : CellM α} {y : Reading β} (h : K.Sim b pending w R x y)
    (hl : World.Later b w w') : K.Sim b pending w' R x y :=
  fun s origin hs => h s origin (hl.trans hs)

theorem Sim.mono {R' : World → α → β → Prop} {x : CellM α} {y : Reading β}
    (h : K.Sim b pending w R x y) (hR : ∀ w a c, R w a c → R' w a c) :
    K.Sim b pending w R' x y := by
  intro s origin hs hr hn
  have hf := h s origin hs hr hn
  rcases hrun : x.run s with ⟨r, t⟩
  rw [hrun] at hf
  cases r with
  | error e => exact hf
  | ok a =>
    obtain ⟨origin', hl, hr', hreads, c, hc, hR'⟩ := hf
    exact ⟨origin', hl, hr', hreads, c, hc, hR _ a c hR'⟩

theorem Sim.pure {a : α} {c : β}
    (h : ∀ w', World.Later b w w' → w'.Valid K.history → R w' a c) :
    K.Sim b 0 w R (pure a) (pure c) :=
  fun _ origin hs hr _ => ⟨origin, .refl b _, hr, rfl, c, rfl, h _ hs hr.valid⟩

theorem Sim.throw (e : EvalError) :
    K.Sim b pending w R (throw e : CellM α) (throw e : Reading β) :=
  fun _ origin _ hr _ => ⟨origin, .refl b _, hr, rfl⟩

theorem Sim.bind {x : CellM α} {y : Reading β} {f : α → CellM γ} {g : β → Reading δ}
    (hx : K.Sim b 0 w R x y)
    (hf : ∀ w' a c, World.Later b w w' → w'.Valid K.history → R w' a c →
      K.Sim b pending w' S (f a) (g c)) :
    K.Sim b pending w S (x >>= f) (y >>= g) := by
  intro s origin hs hr hn
  have first := hx s origin hs hr fun o ho => hn o (Reading.reads_subset_bind y g ho)
  rcases hrun : x.run s with ⟨r, t⟩
  rw [hrun] at first
  cases r with
  | error e =>
    obtain ⟨origin', hl, hr', he⟩ := first
    rw [run_bind_error hrun]
    refine ⟨origin', hl, hr', ?_⟩
    rw [Reading.run_bind, he]
    rfl
  | ok a =>
    obtain ⟨origin', hl, hr', hreads, c, hc, hR⟩ := first
    rw [Reading.reads_bind_of_ok hc] at hn
    have second := hf ⟨t.graph, origin'⟩ a c (hs.trans hl) hr'.valid hR t origin' (.refl b _) hr'
      fun o ho => hn o (List.mem_append_right _ ho)
    rw [run_bind_ok hrun]
    rcases hrun' : (f a).run t with ⟨r, u⟩
    rw [hrun'] at second
    cases r with
    | error e =>
      obtain ⟨origin'', hl', hr'', he⟩ := second
      refine ⟨origin'', hl.trans hl', hr'', ?_⟩
      rw [Reading.run_bind, hc]
      exact he
    | ok d =>
      obtain ⟨origin'', hl', hr'', hreads', d', hd, hS⟩ := second
      refine ⟨origin'', hl.trans hl', hr'', ?_, d', ?_, hS⟩
      · rw [hreads', hreads, Reading.reads_bind_of_ok hc]
        simp
      · rw [Reading.run_bind, hc]
        exact hd

/-- Both sides give the same value of a class. -/
def Same {α : Type} (P : α → Prop) (_ : World) (a c : α) : Prop := a = c ∧ P a

variable (K) in
/-- Following, at one state, as a relation between computations with the same results. -/
def correspondence (b : Nat) (w : World) : Correspondence CellM Reading where
  rel P x y := K.Sim b 0 w (Same P) x y
  pure h := Sim.pure fun _ _ _ => ⟨rfl, h⟩
  bind hx hf := hx.bind fun w' a c hl _ hR => by
    obtain ⟨rfl, ha⟩ := hR
    exact (hf a ha).later hl
  throw e := Sim.throw e

/-! ### Cells and handles -/

/-- A cell in use for its origin. -/
def CellOf (w : World) (id : CellId) (o : Origin) : Prop := w.graph.Live id ∧ o = w.origin id

variable (K) in
/-- A handle over cells in use for the one over their origins. -/
def HandleOf (w : World) (h : Handle CellId) (h' : Handle Origin) : Prop :=
  h.Within w.graph.Live K.domain ∧ h' = h.map w.origin

variable (K) in
/-- Bindings over cells in use for those over their origins. -/
def EnvOf (w : World) (env : CellEnv CellId) (env' : CellEnv Origin) : Prop :=
  env.Within w.graph.Live K.domain ∧ env' = env.map w.origin

theorem HandleOf.later {h : Handle CellId} {h' : Handle Origin} (hh : K.HandleOf w h h')
    (hl : World.Later b w w') : K.HandleOf w' h h' := by
  refine ⟨hh.1.mono hl.live fun _ h => h, hh.2.trans ?_⟩
  exact Handle.map_congr (hh.1.mono (fun i hi => (hl.origin i hi).symm) fun _ h => h)

theorem EnvOf.later {env : CellEnv CellId} {env' : CellEnv Origin} (he : K.EnvOf w env env')
    (hl : World.Later b w w') : K.EnvOf w' env env' := by
  refine ⟨he.1.mono hl.live fun _ h => h, he.2.trans ?_⟩
  exact CellEnv.map_congr (he.1.mono (fun i hi => (hl.origin i hi).symm) fun _ h => h)

private theorem Running.map_reads (hr : K.Running pending s origin) {g : Graph}
    {origin' : CellId → Origin} (hl : World.Later b ⟨s.graph, origin⟩ ⟨g, origin'⟩) :
    s.reads.map origin' = s.reads.map origin :=
  List.map_congr_left fun id hid => hl.origin id (hr.reads id hid).1

theorem Sim.intern (key : CellKey CellId) (hv : key.isVacant = false)
    (hw : key.Within w.graph.Live K.domain) :
    K.Sim b 0 w CellOf (internCell key) (Origin.access.intern (key.map w.origin)) := by
  intro s origin hs hr _
  have hw' : key.Within s.graph.Live K.domain := hw.mono hs.live fun _ h => h
  obtain ⟨origin', hvalid, hl, hlive, horigin⟩ := hr.valid.intern hv hw' b
  refine ⟨origin', hl, hr.later hl hvalid, hr.map_reads hl, _, rfl, hlive, ?_⟩
  refine Eq.trans (congrArg Origin.of ?_) horigin.symm
  exact CellKey.map_congr (hw.mono (fun i hi => (hs.origin i hi).symm) fun _ h => h)

variable (K) in
/-- What bringing a cell up to date leads to: the cell is current, or its origin has no meaning. -/
def Brings (s : State) (origin : CellId → Origin) (id : CellId) :
    Except EvalError Unit × State → Prop
  | (result, t) => ∃ origin', World.Later ((origin id).weight + 1) ⟨s.graph, origin⟩
      ⟨t.graph, origin'⟩ ∧ K.Running 0 t origin' ∧ t.reads = s.reads ∧
      match result with
      | .ok _ => t.graph.Current id
      | .error e => K.now (origin id) = .error e

variable (K) in
/-- A way to bring needed cells below some weight up to date. -/
def Verifies (b : Nat) (verify : CellId → CellM Unit) : Prop :=
  ∀ s origin id, K.Running 0 s origin → s.graph.Live id → K.needed (origin id) →
    (origin id).weight < b → K.Brings s origin id ((verify id).run s)

variable {verify : CellId → CellM Unit}

variable (K) in
/-- The cell just read is current, and its value is the one that was read. -/
def ReadFrom (id : CellId) (w : World) (a c : Value) : Prop :=
  Same K.domain w a c ∧ w.graph.Live id ∧ w.graph.Current id ∧ w.graph.value id = a

theorem Sim.pull (hv : K.Verifies b verify) {id : CellId} {o : Origin} (ho : CellOf w id o) :
    K.Sim b 0 w (K.ReadFrom id) (Graph.pull verify id) (Origin.access.pull o) := by
  intro s origin hs hr hn
  have hlive : s.graph.Live id := hs.live id ho.1
  obtain rfl : origin id = o := (hs.origin id ho.1).trans ho.2.symm
  obtain ⟨hneed, hlight⟩ := hn (origin id) (by simp [Origin.access, Reading.reads])
  have hbrings := hv s origin id hr hlive hneed hlight
  rcases hrun : (verify id).run s with ⟨r, t⟩
  rw [hrun] at hbrings
  obtain ⟨origin', hl, hr', hreads, hcase⟩ := hbrings
  have hl : World.Later b ⟨s.graph, origin⟩ ⟨t.graph, origin'⟩ := hl.mono hlight
  cases r with
  | error e =>
    refine pull_run_error hrun ▸ ⟨origin', hl, hr', ?_⟩
    simp only [Origin.access, Reading.run]
    rw [show K.now (origin id) = .error e from hcase]
    rfl
  | ok u =>
    have hlive' : t.graph.Live id := hl.live id hlive
    have horigin : origin' id = origin id := hl.origin id hlive
    have hm : K.now (origin id) = .ok (t.graph.value id) := horigin ▸ hr'.meaning hlive' hcase
    refine pull_run_ok hrun ▸ ⟨origin', hl, { hr' with reads := ?_ }, ?_, t.graph.value id, ?_,
      ⟨rfl, hr'.value_mem hlive' hcase⟩, hlive', hcase, rfl⟩
    · exact List.forall_mem_cons.mpr ⟨⟨hlive', hcase⟩, hr'.reads⟩
    · have hsame : t.reads.map origin' = s.reads.map origin := hreads ▸ hr.map_reads hl
      simp only [Origin.access, Reading.reads, List.map_cons, hsame, horigin, hm]
      rfl
    · simp only [Origin.access, Reading.run, hm]
      rfl

private theorem Sim.read (hv : K.Verifies b verify) {h : Handle CellId} {h' : Handle Origin}
    (hh : K.HandleOf w h h') :
    K.Sim b 0 w (Same K.domain) ((access verify).read h) (Origin.access.read h') := by
  obtain ⟨hw, rfl⟩ := hh
  cases h with
  | const v => exact Sim.pure fun _ _ _ => ⟨rfl, hw⟩
  | cell id => exact (Sim.pull hv ⟨hw, rfl⟩).mono fun _ _ _ h => h.1

theorem Sim.ofExcept (r : Except EvalError α) {f : α → β}
    (h : ∀ w', World.Later b w w' → ∀ a, r = .ok a → R w' a (f a)) :
    K.Sim b 0 w R (MonadExcept.ofExcept r) (MonadExcept.ofExcept (r.map f)) := by
  cases r with
  | error e => exact Sim.throw e
  | ok a => exact Sim.pure fun w' hl _ => h w' hl a rfl

/-! ### Nodes -/

private theorem Sim.lookup {env : CellEnv CellId} {env' : CellEnv Origin} (he : K.EnvOf w env env')
    (l : LambdaId) :
    K.Sim b 0 w (fun w a c => a.Within w.graph.Live K.domain ∧ c = a.map w.origin)
      (MonadExcept.ofExcept (CellEnv.lookup env l))
      (MonadExcept.ofExcept (CellEnv.lookup env' l)) := by
  rw [he.2, CellEnv.lookup_map]
  refine Sim.ofExcept _ fun w' hl a ha => ?_
  obtain ⟨hw, hmap⟩ := he.later hl
  refine ⟨hw.lookup ha, ?_⟩
  have := congrArg (CellEnv.lookup · l) (he.2.symm.trans hmap)
  simpa [CellEnv.lookup_map, ha, Except.map] using this

private theorem Sim.context {env : CellEnv CellId} {env' : CellEnv Origin} (he : K.EnvOf w env env')
    (l : LambdaId) :
    K.Sim b 0 w K.HandleOf (MonadExcept.ofExcept (CellEnv.context env l))
      (MonadExcept.ofExcept (CellEnv.context env' l)) := by
  rw [he.2, CellEnv.context_map]
  exact Sim.ofExcept _ fun w' hl a ha => HandleOf.later ⟨he.1.context ha, rfl⟩ hl

private theorem Sim.handleWithin (hv : K.Verifies b verify) (fuel : Nat) (id : NodeId)
    {env : CellEnv CellId} {env' : CellEnv Origin} (he : K.EnvOf w env env') :
    K.Sim b 0 w K.HandleOf ((access verify).handleWithin K.program fuel id env)
      (Origin.access.handleWithin K.program fuel id env') := by
  induction fuel generalizing id w env env' with
  | zero => exact Sim.throw _
  | succ fuel ih =>
    have node : K.Sim b 0 w K.HandleOf
        (do return .cell (← (access verify).intern (.node id (CellEnv.restrict K.program id env))))
        (do
          let cell ← Origin.access.intern (.node id (CellEnv.restrict K.program id env'))
          return .cell cell) := by
      rw [he.2, CellEnv.restrict_map]
      refine Sim.bind (Sim.intern (.node id (CellEnv.restrict K.program id env)) rfl
        (he.1.restrict K.program id)) fun w' c o _ _ hc => ?_
      obtain ⟨hlive, rfl⟩ := hc
      exact Sim.pure fun w'' hl _ => HandleOf.later ⟨hlive, rfl⟩ hl
    unfold CellAccess.handleWithin
    cases hn : K.program.node id with
    | literal v => exact Sim.pure fun _ _ _ => ⟨K.history.closed.literal id v hn, rfl⟩
    | root =>
      exact Sim.pure fun w' _ hvalid =>
        ⟨hvalid.indexed.live_model, congrArg Handle.cell hvalid.grounded.origin_model.symm⟩
    | val l =>
      refine Sim.bind (Sim.lookup he l) fun w' a c _ _ hac => ?_
      obtain ⟨hw, rfl⟩ := hac
      exact Sim.pure fun w'' hl _ => HandleOf.later ⟨hw.val, rfl⟩ hl
    | key l =>
      refine Sim.bind (Sim.lookup he l) fun w' a c _ _ hac => ?_
      obtain ⟨hw, rfl⟩ := hac
      exact Sim.pure fun _ _ _ => ⟨hw.key, rfl⟩
    | context l => exact Sim.context he l
    | get o k =>
      refine Sim.bind (ih o he) fun w₁ object object' hl₁ _ ho => ?_
      refine Sim.bind (ih k (he.later hl₁)) fun w₂ key key' hl₂ _ hk => ?_
      refine Sim.bind (Sim.read hv hk) fun w₃ v v' hl₃ _ hvv => ?_
      obtain ⟨rfl, hvd⟩ := hvv
      obtain ⟨hw, rfl⟩ := (ho.later hl₂).later hl₃
      cases object with
      | cell source =>
        refine Sim.bind (Sim.intern (.slot source v) rfl ⟨hw, hvd⟩) fun w₄ c o _ _ hc => ?_
        obtain ⟨hlive, rfl⟩ := hc
        exact Sim.pure fun w'' hl _ => HandleOf.later ⟨hlive, rfl⟩ hl
      | const a =>
        refine Sim.bind ((K.correspondence b w₃).ofExcept (a.get v) fun c hc =>
          K.history.closed.get a v c hw hc) fun w₄ c c' _ _ hc => ?_
        obtain ⟨rfl, hcd⟩ := hc
        exact Sim.pure fun _ _ _ => ⟨hcd, rfl⟩
    | _ => exact node

private theorem Sim.readNode (hv : K.Verifies b verify) (id : NodeId) {env : CellEnv CellId}
    {env' : CellEnv Origin} (he : K.EnvOf w env env') :
    K.Sim b 0 w (Same K.domain) ((access verify).readNode K.program id env)
      (Origin.access.readNode K.program id env') :=
  (Sim.handleWithin hv (id + 1) id he).bind fun _ _ _ _ _ hh => Sim.read hv hh

variable (K) in
/-- An optional handle over cells in use for the one over their origins. -/
def ContextOf (w : World) (ctx : Option (Handle CellId)) (ctx' : Option (Handle Origin)) : Prop :=
  (∀ h, ctx = some h → h.Within w.graph.Live K.domain) ∧ ctx' = ctx.map (Handle.map w.origin)

theorem ContextOf.later {ctx : Option (Handle CellId)} {ctx' : Option (Handle Origin)}
    (hc : K.ContextOf w ctx ctx') (hl : World.Later b w w') : K.ContextOf w' ctx ctx' := by
  obtain ⟨hw, rfl⟩ := hc
  cases ctx with
  | none => exact ⟨by simp, rfl⟩
  | some h =>
    obtain ⟨hw', hmap⟩ := HandleOf.later ⟨hw h rfl, rfl⟩ hl
    refine ⟨?_, congrArg some hmap⟩
    rintro _ ⟨⟩
    exact hw'

private theorem Sim.contextHandle (hv : K.Verifies b verify) (ctx : Option NodeId)
    {env : CellEnv CellId}
    {env' : CellEnv Origin} (he : K.EnvOf w env env') :
    K.Sim b 0 w K.ContextOf ((access verify).contextHandle K.program env ctx)
      (Origin.access.contextHandle K.program env' ctx) := by
  cases ctx with
  | none => exact Sim.pure fun _ _ _ => ⟨by simp, rfl⟩
  | some c =>
    refine Sim.bind (Sim.handleWithin hv (c + 1) c he) fun w₁ h h' hl₁ _ hh => ?_
    refine Sim.bind (Sim.read hv hh) fun w₂ _ _ hl₂ _ _ => ?_
    refine Sim.pure fun w₃ hl₃ _ => ?_
    obtain ⟨hw, hmap⟩ := (hh.later hl₂).later hl₃
    refine ⟨?_, congrArg some hmap⟩
    rintro _ ⟨⟩
    exact hw

private theorem Sim.elementHandle {source : Handle CellId} {source' : Handle Origin}
    (hs : K.HandleOf w source source') {key element : Value} (hk : K.domain key)
    (he : K.domain element) :
    K.Sim b 0 w K.HandleOf ((access verify).elementHandle source key element)
      (Origin.access.elementHandle source' key element) := by
  obtain ⟨hw, rfl⟩ := hs
  cases source with
  | const v => exact Sim.pure fun _ _ _ => ⟨he, rfl⟩
  | cell id =>
    refine Sim.bind (Sim.intern (.slot id key) rfl ⟨hw, hk⟩) fun w' c o _ _ hc => ?_
    obtain ⟨hlive, rfl⟩ := hc
    exact Sim.pure fun w'' hl _ => HandleOf.later ⟨hlive, rfl⟩ hl

theorem EnvOf.bind {env : CellEnv CellId} {env' : CellEnv Origin} (he : K.EnvOf w env env')
    (l : LambdaId) {val : Handle CellId} {val' : Handle Origin} (hv : K.HandleOf w val val')
    {key : Value} (hk : K.domain key) {ctx : Option (Handle CellId)}
    {ctx' : Option (Handle Origin)} (hc : K.ContextOf w ctx ctx') :
    K.EnvOf w (CellEnv.bind env l ⟨val, key, ctx⟩) (CellEnv.bind env' l ⟨val', key, ctx'⟩) := by
  obtain ⟨hw, rfl⟩ := he
  obtain ⟨hwv, rfl⟩ := hv
  obtain ⟨hwc, rfl⟩ := hc
  exact ⟨hw.bind ⟨hwv, hk, hwc⟩, CellEnv.bind_map w.origin l ⟨val, key, ctx⟩ env⟩

private theorem Sim.invoke (function : String)
    {args : List Value} (ha : ∀ a ∈ args, K.domain a) :
    K.Sim b 1 w (Same K.domain) (Graph.invoke K.library function args)
      (Origin.invoke K.library function args) := by
  intro s origin hs hr _
  cases hcall : K.library.call function args with
  | error e =>
    have hrun : (Graph.invoke K.library function args).run s = (.error e, s) := by
      simp only [Graph.invoke, hcall]
      rfl
    refine hrun ▸ ⟨origin, .refl b _, hr, ?_⟩
    rw [Origin.invoke, Reading.run_ofExcept, hcall]
  | ok v =>
    have hrun : (Graph.invoke K.library function args).run s =
        (.ok v, { s with calls := s.calls.push ⟨function, args⟩ }) := by
      simp only [Graph.invoke, hcall]
      rfl
    refine hrun ▸ ⟨origin, .refl b _, { hr with calls := ?_ }, ?_, v, ?_, rfl, ?_⟩
    · simpa using hr.calls
    · rw [Origin.invoke, Reading.reads_ofExcept]
      rfl
    · rw [Origin.invoke, Reading.run_ofExcept, hcall]
    · exact K.history.closed.call function args v ha hcall

private theorem Sim.iterate (hv : K.Verifies b verify) {id : NodeId} {verb : CollectionVerb}
    {source body : NodeId} {lambda : LambdaId} {ctx : Option NodeId}
    (hn : K.program.node id = .iterate verb source lambda body ctx) {env : CellEnv CellId}
    {env' : CellEnv Origin} (he : K.EnvOf w env env') :
    K.Sim b 0 w (Same K.domain) ((access verify).evalNode K.program (Graph.invoke K.library) id env)
      (Origin.access.evalNode K.program (Origin.invoke K.library) id env') := by
  rw [CellAccess.evalNode_iterate _ _ hn, CellAccess.evalNode_iterate _ _ hn]
  refine Sim.bind (Sim.handleWithin hv (source + 1) source he) fun w₁ h h' hl₁ _ hh => ?_
  refine Sim.bind (Sim.read hv hh) fun w₂ elements elements' hl₂ _ hs => ?_
  obtain ⟨rfl, hd⟩ := hs
  refine Sim.bind (Sim.contextHandle hv ctx ((he.later hl₁).later hl₂)) fun w₃ c c' hl₃ _ hc => ?_
  refine (K.correspondence b w₃).iterate K.history.closed.toClosedClass hd
    fun key element hk hv' _ => ?_
  refine Sim.bind (Sim.elementHandle ((hh.later hl₂).later hl₃) hk hv')
    fun w₄ val val' hl₄ _ hval => ?_
  exact Sim.readNode hv body
    (((((he.later hl₁).later hl₂).later hl₃).later hl₄).bind lambda hval hk (hc.later hl₄))

/-- Evaluating a node over cells follows evaluating it over their origins; a call node makes one
call. -/
theorem Sim.evalNode (hv : K.Verifies b verify) (id : NodeId) {env : CellEnv CellId}
    {env' : CellEnv Origin} (he : K.EnvOf w env env') :
    K.Sim b (if (K.program.node id).isCall then 1 else 0) w (Same K.domain)
      ((access verify).evalNode K.program (Graph.invoke K.library) id env)
      (Origin.access.evalNode K.program (Origin.invoke K.library) id env') := by
  have part (c : NodeId) : K.Sim b 0 w (Same K.domain) ((access verify).readNode K.program c env)
      (Origin.access.readNode K.program c env') := Sim.readNode hv c he
  cases hr : (K.program.node id).isReference with
  | true =>
    have hc : (K.program.node id).isCall = false := by
      cases hn : K.program.node id <;> simp_all [Node.isReference, Node.isCall]
    rw [CellAccess.evalNode_reference _ _ hr, CellAccess.evalNode_reference _ _ hr, hc]
    exact part id
  | false =>
    cases hi : (K.program.node id).isIterate with
    | true =>
      cases hn : K.program.node id with
      | iterate verb source lambda body ctx => exact Sim.iterate hv hn he
      | _ => simp [hn, Node.isIterate] at hi
    | false =>
      rw [CellAccess.evalNode_combine _ _ hr hi, CellAccess.evalNode_combine _ _ hr hi]
      cases hc : (K.program.node id).isCall with
      | false =>
        refine (K.correspondence b w).combine K.history.closed.toVerbClass (fun c _ => part c) ?_
        simp [hc]
      | true =>
        cases hn : K.program.node id with
        | call function args =>
          refine Sim.bind ((K.correspondence b w).mapM fun c _ => part c)
            fun w' vs vs' _ _ hvs => ?_
          obtain ⟨rfl, hvd⟩ := hvs
          exact Sim.invoke function hvd
        | _ => simp [hn, Node.isCall] at hc

end Round

end Recalc
