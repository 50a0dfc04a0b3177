import Recalc.Proofs.Graph.Renewal
import Recalc.Proofs.Graph.Stems
import Recalc.Proofs.Origin.Course

/-! The steps of a computation on cells, in order: cells that it interns, library calls that it
makes and cells that it brings up to date to read them. The cells that it reads are those of the
origins that a computation on origins reads, with whatever values they have at the time. -/
namespace Recalc

private theorem Reading.Meets.of_bind {α β : Type} {D : Value → Prop} {P : Origin → Prop}
    {S : β → Prop}
    {x : Reading α} {f : α → Reading β} (h : (x >>= f).Meets D P S) :
    x.Meets D P fun a => (f a).Meets D P S := by
  induction x with
  | done r =>
    rintro a rfl
    exact h
  | read o next ih => exact ⟨h.1, fun v hv => ih v (h.2 v hv)⟩

namespace Linkage
open Recalc.Graph
open Round (Same CellOf)
variable (L : Linkage) (b : Nat)

/-- A cell below some weight that stems from an origin, in a state in which it can be brought up to
date. -/
structure Visits (s : State) (id : CellId) (o : Origin) : Prop where
  running : ∃ origin, L.Running b s origin
  stems : s.graph.Stems id o
  light : o.weight < b

/-- Reading of origins, played on cells from a state to a result and a state. The values read are
those of the cells when they have been brought up to date. The result of success is related to that
of the reading, in a world later than a given one. -/
inductive Plays (verify : CellId → CellM Unit) (loud : Prop) {α β : Type} (w : World)
    (R : World → α → β → Prop) : Reading β → State → Except EvalError α × State → Prop
  | done {s : State} {origin : CellId → Origin} {a : α} {c : β} :
      World.Later b w ⟨s.graph, origin⟩ → L.Running b s origin → R ⟨s.graph, origin⟩ a c →
      Plays verify loud w R (.done (.ok c)) s (.ok a, s)
  | fail {s : State} {e : EvalError} : (∃ origin, L.Running b s origin) →
      Plays verify loud w R (.done (.error e)) s (.error e, s)
  | intern {y : Reading β} {s : State} {out : Except EvalError α × State}
      (key : CellKey CellId) : (∃ origin, L.Running b s origin) →
      Plays verify loud w R y { s with graph := (s.graph.intern key).2 } out →
      Plays verify loud w R y s out
  | call {y : Reading β} {s : State} {out : Except EvalError α × State} (c : Call) : loud →
      Plays verify loud w R y { s with calls := s.calls.push c } out →
      Plays verify loud w R y s out
  | stop {o : Origin} {next : Value → Reading β} {s t : State} {id : CellId} {e : EvalError} :
      L.Visits b s id o → (verify id).run s = (.error e, t) →
      Plays verify loud w R (.read o next) s (.error e, t)
  | read {o : Origin} {next : Value → Reading β} {s t : State} {id : CellId}
      {out : Except EvalError α × State} : L.Visits b s id o → (verify id).run s = (.ok (), t) →
      Plays verify loud w R (next (t.graph.value id)) { t with reads := id :: t.reads } out →
      Plays verify loud w R (.read o next) s out

variable {L b} {verify : CellId → CellM Unit} {loud : Prop} {α β γ δ : Type} {w w' : World}
  {R : World → α → β → Prop} {S : World → γ → δ → Prop}

theorem Plays.later {y : Reading β} {s : State} {out : Except EvalError α × State}
    (h : L.Plays b verify loud w' R y s out) (hl : World.Later b w w') :
    L.Plays b verify loud w R y s out := by
  induction h with
  | done later running hR => exact .done (hl.trans later) running hR
  | fail running => exact .fail running
  | intern key running _ ih => exact .intern key running ih
  | call c hc _ ih => exact .call c hc ih
  | stop visits run => exact .stop visits run
  | read visits run _ ih => exact .read visits run ih

theorem Plays.mono {R' : World → α → β → Prop} {y : Reading β} {s : State}
    {out : Except EvalError α × State} (h : L.Plays b verify loud w R y s out)
    (hR : ∀ w a c, R w a c → R' w a c) : L.Plays b verify loud w R' y s out := by
  induction h with
  | done later running hr => exact .done later running (hR _ _ _ hr)
  | fail running => exact .fail running
  | intern key running _ ih => exact .intern key running ih
  | call c hc _ ih => exact .call c hc ih
  | stop visits run => exact .stop visits run
  | read visits run _ ih => exact .read visits run ih

/-- All reads are of origins below some weight. -/
abbrev Lighter (b : Nat) (y : Reading β) : Prop :=
  y.Meets (fun _ => True) (fun o => o.weight < b) fun _ => True

theorem Plays.bind {y : Reading β} {s : State} {out : Except EvalError α × State}
    {f : α → CellM γ} {g : β → Reading δ} (h : L.Plays b verify loud w R y s out)
    (hm : y.Meets (fun _ => True) (fun o => o.weight < b) fun c => Lighter b (g c))
    (hf : ∀ t origin a c, World.Later b w ⟨t.graph, origin⟩ → L.Running b t origin →
      R ⟨t.graph, origin⟩ a c → Lighter b (g c) → L.Plays b verify loud w S (g c) t ((f a).run t)) :
    L.Plays b verify loud w S (y >>= g) s (match out with
      | (.ok a, t) => (f a).run t
      | (.error e, t) => (.error e, t)) := by
  induction h with
  | done later running hR => exact hf _ _ _ _ later running hR (hm _ rfl)
  | fail running => exact .fail running
  | intern key running _ ih => exact .intern key running (ih hm)
  | call c hc _ ih => exact .call c hc (ih hm)
  | stop visits run => exact .stop visits run
  | read visits run _ ih => exact .read visits run (ih (hm.2 _ trivial))

/-- Whatever a computation comes to, cells that are current stay as they are. -/
theorem Plays.sustains {y : Reading β} {s : State} {out : Except EvalError α × State}
    (hv : L.Verifies b verify) (h : L.Plays b verify loud w R y s out) :
    s.graph.Sustains out.2.graph ∧ ∃ origin, L.Running b out.2 origin := by
  have brought {s : State} {id : CellId} {o : Origin} (visits : L.Visits b s id o) :
      s.graph.Sustains ((verify id).run s).2.graph ∧
        ∃ origin, L.Running b ((verify id).run s).2 origin := by
    obtain ⟨origin, running⟩ := visits.running
    have same : origin id = o := running.layout.origin_eq visits.stems
    obtain ⟨origin', later, running', -⟩ := hv b s origin id running visits.stems.live
      (same ▸ visits.light)
    exact ⟨later.sustains, origin', running'⟩
  induction h with
  | done _ running _ => exact ⟨.refl _, _, running⟩
  | fail running => exact ⟨.refl _, running⟩
  | intern key running _ ih =>
    obtain ⟨origin, running⟩ := running
    exact ⟨(running.layout.indexed.sustains_intern key).trans ih.1, ih.2⟩
  | call _ _ _ ih => exact ih
  | stop visits run =>
    have after := brought visits
    rw [run] at after
    exact after
  | read visits run _ ih =>
    have after := brought visits
    rw [run] at after
    exact ⟨after.1.trans ih.1, ih.2⟩

variable (L b verify loud) in
/-- A computation on cells plays a reading in all states later than a given one, as far as what is
read is light. -/
def Enacts (w : World) (R : World → α → β → Prop) (x : CellM α) (y : Reading β) : Prop :=
  ∀ s origin, World.Later b w ⟨s.graph, origin⟩ → L.Running b s origin → Lighter b y →
    L.Plays b verify loud ⟨s.graph, origin⟩ R y s (x.run s)

namespace Enacts
variable {x : CellM α} {y : Reading β}

theorem later (h : L.Enacts b verify loud w R x y) (hl : World.Later b w w') :
    L.Enacts b verify loud w' R x y :=
  fun s origin hs => h s origin (hl.trans hs)

theorem pure {a : α} {c : β}
    (h : ∀ w', World.Later b w w' → w'.Layout L.program → R w' a c) :
    L.Enacts b verify loud w R (pure a) (pure c) :=
  fun _ _ hs running _ => .done (.refl b _) running (h _ hs running.layout)

theorem throw (e : EvalError) : L.Enacts b verify loud w R (throw e : CellM α) (throw e) :=
  fun _ origin _ running _ => .fail ⟨origin, running⟩

theorem bind {f : α → CellM γ} {g : β → Reading δ} (hx : L.Enacts b verify loud w R x y)
    (hf : ∀ w' a c, World.Later b w w' → w'.Layout L.program → R w' a c →
      L.Enacts b verify loud w' S (f a) (g c)) :
    L.Enacts b verify loud w S (x >>= f) (y >>= g) := by
  intro s origin hs running light
  have parts := Reading.Meets.of_bind light
  have first := hx s origin hs running (parts.mono (fun _ h => h) fun _ _ => trivial)
  have played := first.bind parts fun t origin' a c later running' hR light' =>
    (hf _ a c (hs.trans later) running'.layout hR t origin' (.refl b _) running' light').later later
  have run : (x >>= f).run s = match x.run s with
      | (.ok a, t) => (f a).run t
      | (.error e, t) => (.error e, t) := by
    rcases hrun : x.run s with ⟨r | a, t⟩
    · exact run_bind_error hrun
    · exact run_bind_ok hrun
  rw [run]
  exact played

theorem mono {R' : World → α → β → Prop} (h : L.Enacts b verify loud w R x y)
    (hR : ∀ w a c, R w a c → R' w a c) : L.Enacts b verify loud w R' x y :=
  fun s origin hs running light => (h s origin hs running light).mono hR

end Enacts

variable (L b verify loud) in
/-- Playing, at one world, as a relation between computations with the same results. -/
def enactment (w : World) : Correspondence CellM Reading where
  rel P x y := L.Enacts b verify loud w (Same P) x y
  pure h := Enacts.pure fun _ _ _ => ⟨rfl, h⟩
  bind hx hf := hx.bind fun w' a c hl _ hR => by
    obtain ⟨rfl, ha⟩ := hR
    exact (hf a ha).later hl
  throw e := Enacts.throw e

/-! ### Cells and handles -/

/-- A handle over cells in use for the one over their origins. -/
def HandleFrom (w : World) (h : Handle CellId) (h' : Handle Origin) : Prop :=
  h.Within w.graph.Live (fun _ => True) ∧ h' = h.map w.origin

variable (L) in
/-- Bindings for a node over cells in use, for those over their origins. -/
structure EnvFrom (w : World) (id : NodeId) (env : CellEnv CellId) (env' : CellEnv Origin) :
    Prop where
  within : env.Within w.graph.Live fun _ => True
  serves : env.Serves L.program id
  eq : env' = env.map w.origin

/-- An optional handle over cells in use for the one over their origins. -/
def ContextFrom (w : World) (ctx : Option (Handle CellId)) (ctx' : Option (Handle Origin)) : Prop :=
  (∀ h, ctx = some h → h.Within w.graph.Live fun _ => True) ∧ ctx' = ctx.map (Handle.map w.origin)

theorem HandleFrom.later {h : Handle CellId} {h' : Handle Origin} (hh : HandleFrom w h h')
    (hl : World.Later b w w') : HandleFrom w' h h' := by
  refine ⟨hh.1.mono hl.live fun _ h => h, hh.2.trans ?_⟩
  exact Handle.map_congr (hh.1.mono (fun i hi => (hl.origin i hi).symm) fun _ h => h)

theorem ContextFrom.later {ctx : Option (Handle CellId)} {ctx' : Option (Handle Origin)}
    (hc : ContextFrom w ctx ctx') (hl : World.Later b w w') : ContextFrom w' ctx ctx' := by
  obtain ⟨hw, rfl⟩ := hc
  cases ctx with
  | none => exact ⟨by simp, rfl⟩
  | some h =>
    obtain ⟨hw', hmap⟩ := HandleFrom.later ⟨hw h rfl, rfl⟩ hl
    refine ⟨?_, congrArg some hmap⟩
    rintro _ ⟨⟩
    exact hw'

section
variable {id c : NodeId} {env : CellEnv CellId} {env' : CellEnv Origin}

theorem EnvFrom.later (he : L.EnvFrom w id env env') (hl : World.Later b w w') :
    L.EnvFrom w' id env env' := by
  refine ⟨he.within.mono hl.live fun _ h => h, he.serves, he.eq.trans ?_⟩
  exact CellEnv.map_congr (he.within.mono (fun i hi => (hl.origin i hi).symm) fun _ h => h)

private theorem EnvFrom.part (he : L.EnvFrom w id env env')
    (hi : (L.program.node id).isIterate = false)
    (hc : c ∈ (L.program.node id).children) : L.EnvFrom w c env env' :=
  ⟨he.within, he.serves.part L.linked hi hc, he.eq⟩

variable {verb : CollectionVerb} {source body : NodeId} {lambda : LambdaId} {ctx : Option NodeId}

private theorem EnvFrom.outer (he : L.EnvFrom w id env env')
    (hn : L.program.node id = .iterate verb source lambda body ctx)
    (hc : c ∈ source :: ctx.toList) : L.EnvFrom w c env env' :=
  ⟨he.within, he.serves.outer L.linked hn hc, he.eq⟩

/-- The bindings in the body of an iteration. -/
theorem EnvFrom.inner (he : L.EnvFrom w id env env')
    (hn : L.program.node id = .iterate verb source lambda body ctx) {val : Handle CellId}
    {val' : Handle Origin} (hv : HandleFrom w val val') (key : Value)
    {context : Option (Handle CellId)} {context' : Option (Handle Origin)}
    (hc : ContextFrom w context context') (hs : context.isSome = ctx.isSome) :
    L.EnvFrom w body (CellEnv.bind env lambda ⟨val, key, context⟩)
      (CellEnv.bind env' lambda ⟨val', key, context'⟩) := by
  obtain ⟨within, serves, rfl⟩ := he
  obtain ⟨hwv, rfl⟩ := hv
  obtain ⟨hwc, rfl⟩ := hc
  exact ⟨within.bind ⟨hwv, trivial, hwc⟩, serves.inner L.linked hn hs,
    CellEnv.bind_map w.origin lambda ⟨val, key, context⟩ env⟩

end

namespace Enacts

theorem intern {key : CellKey CellId} (hu : key.isVacant = false)
    (hr : ∀ d ∈ key.references, w.graph.Live d)
    (he : ∀ m env, key = .node m env → CellEnv.Exact L.program m env) :
    L.Enacts b verify loud w CellOf (internCell key)
      (Origin.canonical.intern (key.map w.origin)) := by
  intro s origin hs running _
  obtain ⟨origin', layout, hl, live, same⟩ :=
    running.layout.intern ⟨hu, fun d hd => hs.live d (hr d hd), he⟩ b
  refine .intern key ⟨origin, running⟩ (.done hl (running.later hl layout rfl) ⟨live, ?_⟩)
  refine Eq.trans ?_ same.symm
  change Origin.of (key.map w.origin).canon = .of (key.canon.map origin)
  rw [CellKey.canon_map]
  refine congrArg Origin.of (CellKey.map_congr (CellKey.within_references ?_))
  rw [CellKey.references_canon]
  exact fun d hd => (hs.origin d (hr d hd)).symm

/-- The cell of a key, as a handle. -/
theorem internHandle {key : CellKey CellId} (hu : key.isVacant = false)
    (hr : ∀ d ∈ key.references, w.graph.Live d)
    (he : ∀ m env, key = .node m env → CellEnv.Exact L.program m env) :
    L.Enacts b verify loud w HandleFrom (do return .cell (← internCell key))
      (do return .cell (← Origin.canonical.intern (key.map w.origin))) := by
  refine (intern hu hr he).bind fun w' id o _ _ hc => ?_
  obtain ⟨live, rfl⟩ := hc
  exact pure fun w'' hl _ => HandleFrom.later ⟨live, rfl⟩ hl

private theorem slot {source : CellId} (hl : w.graph.Live source) (key : Value) :
    L.Enacts b verify loud w HandleFrom (do return .cell (← internCell (.slot source key)))
      (do return .cell (← Origin.canonical.intern (.slot (w.origin source) key))) := by
  apply internHandle rfl
  · exact fun d hd => List.mem_singleton.mp hd ▸ hl
  · rintro m env ⟨⟩

theorem ofExcept (r : Except EvalError α) {f : α → β}
    (h : ∀ w', World.Later b w w' → ∀ a, r = .ok a → R w' a (f a)) :
    L.Enacts b verify loud w R (MonadExcept.ofExcept r) (MonadExcept.ofExcept (r.map f)) := by
  cases r with
  | error e => exact throw e
  | ok a => exact pure fun w' hl _ => h w' hl a rfl

/-- The cell just read is current, and its value is the one that was read. -/
def Read (id : CellId) (w : World) (a c : Value) : Prop :=
  a = c ∧ w.graph.Live id ∧ w.graph.Current id ∧ w.graph.value id = a

section
variable (hv : L.Verifies b verify)
include hv

private theorem pull {id : CellId} {o : Origin} (ho : CellOf w id o) :
    L.Enacts b verify loud w (Read id) (Graph.pull verify id) (Origin.canonical.pull o) := by
  intro s origin hs running light
  have live : s.graph.Live id := hs.live id ho.1
  obtain rfl : origin id = o := (hs.origin id ho.1).trans ho.2.symm
  have visits : L.Visits b s id (origin id) :=
    ⟨⟨origin, running⟩, running.layout.stems live, light.1⟩
  obtain ⟨origin', brought, running', -, ends⟩ := hv b s origin id running live light.1
  have later : World.Later b ⟨s.graph, origin⟩ ⟨_, origin'⟩ := brought.mono light.1
  rcases hrun : (verify id).run s with ⟨r, t⟩
  rw [hrun] at later running' ends
  cases r with
  | error e =>
    rw [pull_run_error hrun]
    exact .stop visits hrun
  | ok u =>
    have live' : t.graph.Live id := later.live id live
    rw [pull_run_ok hrun]
    refine .read visits hrun (.done later ⟨running'.layout, running'.model, ?_⟩
      ⟨rfl, live', ends, rfl⟩)
    refine List.forall_mem_cons.mpr ⟨⟨live', ends, ?_⟩, running'.reads⟩
    rw [show origin' id = origin id from later.origin id live]
    exact light.1

private theorem read {h : Handle CellId} {h' : Handle Origin} (hh : HandleFrom w h h') :
    L.Enacts b verify loud w (Same fun _ => True) ((access verify).read h)
      (Origin.canonical.read h') := by
  obtain ⟨hw, rfl⟩ := hh
  cases h with
  | const v => exact pure fun _ _ _ => ⟨rfl, trivial⟩
  | cell id => exact (pull hv ⟨hw, rfl⟩).mono fun _ _ _ h => ⟨h.1, trivial⟩

/-! ### Nodes -/

variable {env : CellEnv CellId} {env' : CellEnv Origin} {id : NodeId}

omit hv in
private theorem lookup (he : L.EnvFrom w id env env') (l : LambdaId) :
    L.Enacts b verify loud w
      (fun w a c => a.Within w.graph.Live (fun _ => True) ∧ c = a.map w.origin)
      (MonadExcept.ofExcept (CellEnv.lookup env l))
      (MonadExcept.ofExcept (CellEnv.lookup env' l)) := by
  rw [he.eq, CellEnv.lookup_map]
  refine ofExcept _ fun w' hl a ha => ?_
  have later := he.later hl
  refine ⟨later.within.lookup ha, ?_⟩
  have := congrArg (CellEnv.lookup · l) (he.eq.symm.trans later.eq)
  simpa [CellEnv.lookup_map, ha, Except.map] using this

omit hv in
private theorem context (he : L.EnvFrom w id env env') (l : LambdaId) :
    L.Enacts b verify loud w HandleFrom (MonadExcept.ofExcept (CellEnv.context env l))
      (MonadExcept.ofExcept (CellEnv.context env' l)) := by
  rw [he.eq, CellEnv.context_map]
  exact ofExcept _ fun w' hl a ha => HandleFrom.later ⟨he.within.context ha, rfl⟩ hl

private theorem handleWithin {fuel : Nat} (hf : id < fuel) (he : L.EnvFrom w id env env') :
    L.Enacts b verify loud w HandleFrom ((access verify).handleWithin L.program fuel id env)
      (Origin.canonical.handleWithin L.program fuel id env') := by
  induction fuel generalizing id w with
  | zero => cases hf
  | succ fuel ih =>
    have node : L.Enacts b verify loud w HandleFrom
        (do return .cell (← internCell (.node id (CellEnv.restrict L.program id env))))
        (do return .cell (← Origin.canonical.intern
          (.node id (CellEnv.restrict L.program id env')))) := by
      rw [he.eq, CellEnv.restrict_map]
      have within : (CellKey.node id (CellEnv.restrict L.program id env)).Within w.graph.Live _ :=
        he.within.restrict L.program id
      apply internHandle rfl (CellKey.within_iff.mp within).1
      rintro m _ ⟨⟩
      exact he.serves.exact_restrict
    unfold CellAccess.handleWithin
    cases hn : L.program.node id with
    | literal v => exact pure fun _ _ _ => ⟨trivial, rfl⟩
    | root =>
      refine pure fun w' _ layout => ⟨layout.indexed.live_model, ?_⟩
      exact congrArg Handle.cell (layout.origin_eq layout.indexed.stems_model).symm
    | val l =>
      refine (lookup he l).bind fun w' a c _ _ hac => ?_
      obtain ⟨hw, rfl⟩ := hac
      exact pure fun w'' hl _ => HandleFrom.later ⟨hw.val, rfl⟩ hl
    | key l =>
      refine (lookup he l).bind fun w' a c _ _ hac => ?_
      obtain ⟨hw, rfl⟩ := hac
      exact pure fun _ _ _ => ⟨trivial, rfl⟩
    | context l => exact context he l
    | get o k =>
      have hi : (L.program.node id).isIterate = false := by rw [hn]; rfl
      have mo : o ∈ (L.program.node id).children := by simp [hn, Node.children]
      have mk : k ∈ (L.program.node id).children := by simp [hn, Node.children]
      have lo := L.linked.lawful.child_lt id o mo
      have lk := L.linked.lawful.child_lt id k mk
      refine (ih (Nat.lt_of_lt_of_le lo (Nat.le_of_lt_succ hf)) (he.part hi mo)).bind
        fun w₁ object object' l₁ _ ho => ?_
      refine (ih (Nat.lt_of_lt_of_le lk (Nat.le_of_lt_succ hf)) ((he.part hi mk).later l₁)).bind
        fun w₂ key key' l₂ _ hk => ?_
      refine (read hv hk).bind fun w₃ v v' l₃ _ hvv => ?_
      obtain ⟨rfl, -⟩ := hvv
      obtain ⟨hw, rfl⟩ := (ho.later l₂).later l₃
      cases object with
      | cell source => exact slot hw v
      | const a =>
        refine ((L.enactment b verify loud w₃).ofExcept (a.get v) (P := fun _ => True)
          fun _ _ => trivial).bind fun w₄ x x' _ _ hx => ?_
        obtain ⟨rfl, -⟩ := hx
        exact pure fun _ _ _ => ⟨trivial, rfl⟩
    | _ => exact node

theorem readNode (he : L.EnvFrom w id env env') :
    L.Enacts b verify loud w (Same fun _ => True) ((access verify).readNode L.program id env)
      (Origin.canonical.readNode L.program id env') :=
  (handleWithin hv (Nat.lt_succ_self id) he).bind fun _ _ _ _ _ hh => read hv hh

private theorem contextHandle {ctx : Option NodeId} (he : ∀ c ∈ ctx, L.EnvFrom w c env env') :
    L.Enacts b verify loud w (fun w c c' => ContextFrom w c c' ∧ c.isSome = ctx.isSome)
      ((access verify).contextHandle L.program env ctx)
      (Origin.canonical.contextHandle L.program env' ctx) := by
  cases ctx with
  | none => exact pure fun _ _ _ => ⟨⟨by simp, rfl⟩, rfl⟩
  | some c =>
    refine (handleWithin hv (Nat.lt_succ_self c) (he c rfl)).bind fun w₁ h h' l₁ _ hh => ?_
    refine (read hv hh).bind fun w₂ _ _ l₂ _ _ => ?_
    refine pure fun w₃ l₃ _ => ⟨?_, rfl⟩
    obtain ⟨hw, hmap⟩ := (hh.later l₂).later l₃
    refine ⟨?_, congrArg some hmap⟩
    rintro _ ⟨⟩
    exact hw

omit hv in
private theorem elementHandle {source : Handle CellId} {source' : Handle Origin}
    (hs : HandleFrom w source source') (key element : Value) :
    L.Enacts b verify loud w HandleFrom ((access verify).elementHandle source key element)
      (Origin.canonical.elementHandle source' key element) := by
  obtain ⟨hw, rfl⟩ := hs
  cases source with
  | const v => exact pure fun _ _ _ => ⟨trivial, rfl⟩
  | cell id => exact slot hw key

private theorem iterate {verb : CollectionVerb} {source body : NodeId} {lambda : LambdaId}
    {ctx : Option NodeId} (hn : L.program.node id = .iterate verb source lambda body ctx)
    (he : L.EnvFrom w id env env') :
    L.Enacts b verify loud w (Same fun _ => True)
      ((access verify).evalNode L.program (Graph.invoke L.library) id env)
      (Origin.canonical.evalNode L.program (Origin.invoke L.library) id env') := by
  rw [CellAccess.evalNode_iterate _ _ hn, CellAccess.evalNode_iterate _ _ hn]
  refine (handleWithin hv (Nat.lt_succ_self source) (he.outer hn List.mem_cons_self)).bind
    fun w₁ h h' l₁ _ hh => ?_
  refine (read hv hh).bind fun w₂ elements elements' l₂ _ hs => ?_
  obtain ⟨rfl, -⟩ := hs
  have context : L.Enacts b verify loud w₂ _ ((access verify).contextHandle L.program env ctx)
      (Origin.canonical.contextHandle L.program env' ctx) :=
    contextHandle hv fun c hc => ((he.outer hn (List.mem_cons_of_mem _
      (Option.mem_toList.mpr hc))).later l₁).later l₂
  refine context.bind fun w₃ c c' l₃ _ hc => ?_
  apply (L.enactment b verify loud w₃).iterate_entries (verbClass_any L.program) trivial
  intro _ _ e _
  refine (elementHandle ((hh.later l₂).later l₃) e.1 e.2).bind fun w₄ val val' l₄ _ hval => ?_
  exact readNode hv (((((he.later l₁).later l₂).later l₃).later l₄).inner hn hval e.1
    (hc.1.later l₄) hc.2)

omit hv in
private theorem invoke (hq : loud) (function : String) (args : List Value) :
    L.Enacts b verify loud w (Same fun _ => True) (Graph.invoke L.library function args)
      (Origin.invoke L.library function args) := by
  intro s origin hs running _
  cases hc : L.library.call function args with
  | error e =>
    rw [Graph.invoke, Origin.invoke, hc]
    exact .fail ⟨origin, running⟩
  | ok v =>
    rw [Graph.invoke, Origin.invoke, hc]
    refine .call ⟨function, args⟩ hq (.done (.refl b _) ?_ ⟨rfl, trivial⟩)
    exact ⟨running.layout, running.model, running.reads⟩

/-- Evaluating a node over cells plays evaluating it over their origins. -/
theorem evalNode (hq : loud) (he : L.EnvFrom w id env env') :
    L.Enacts b verify loud w (Same fun _ => True)
      ((access verify).evalNode L.program (Graph.invoke L.library) id env)
      (Origin.canonical.evalNode L.program (Origin.invoke L.library) id env') := by
  cases hr : (L.program.node id).isReference with
  | true =>
    rw [CellAccess.evalNode_reference _ _ hr, CellAccess.evalNode_reference _ _ hr]
    exact readNode hv he
  | false =>
    cases hi : (L.program.node id).isIterate with
    | false =>
      rw [CellAccess.evalNode_combine _ _ hr hi, CellAccess.evalNode_combine _ _ hr hi]
      apply (L.enactment b verify loud w).combine (verbClass_any L.program)
      · exact fun c hc => readNode hv (he.part hi hc)
      · exact fun _ f args _ => invoke hq f args
    | true =>
      cases hn : L.program.node id with
      | iterate verb source lambda body ctx => exact iterate hv hn he
      | _ => simp [hn, Node.isIterate] at hi

/-- Computing a cell plays the course of its key. -/
theorem compute (hq : loud) (layout : w.Layout L.program) {cell : CellId}
    (hl : w.graph.Live cell) (hm : (w.graph.cell cell).key.isModel = false) :
    L.Enacts b verify loud w (Same fun _ => True)
      (Graph.compute L.program L.library verify (w.graph.cell cell).key)
      (Origin.course L.program L.library ((w.graph.cell cell).key.map w.origin)) := by
  have placed := layout.placed cell hl
  have references := placed.references
  cases hk : (w.graph.cell cell).key with
  | model => simp [hk, CellKey.isModel] at hm
  | vacant => simp [Live, hk, CellKey.isVacant] at hl
  | slot source key =>
    rw [hk] at references
    refine (pull hv ⟨references source List.mem_cons_self, rfl⟩).bind fun w' v v' _ _ hR => ?_
    obtain ⟨rfl, live, current, value⟩ := hR
    intro s origin hs running light
    have same : (s.graph.cell source).access.val key = v.get key := by
      rw [(s.graph.cell source).access.property, hs.kept source live (.inl current), ← value]
      rfl
    have run : (do MonadExcept.ofExcept (((← get).graph.cell source).access.val key)
        : CellM Value).run s = (MonadExcept.ofExcept (v.get key) : CellM Value).run s := by
      rw [← same]
      rfl
    rw [run]
    exact (L.enactment b verify loud w').ofExcept (v.get key) (fun _ _ => trivial) s origin hs
      running light
  | node n env =>
    rw [hk] at references
    have within : (CellKey.node n env).Within w.graph.Live fun _ => True :=
      CellKey.within_references references
    exact evalNode hv hq ⟨within, (placed.exact n env hk).toServes, rfl⟩

end

end Enacts

end Linkage

end Recalc
