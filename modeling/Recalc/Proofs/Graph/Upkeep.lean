import Recalc.Proofs.Graph.Layout

/-! Evaluation over cells keeps the layout of a graph, whatever values it meets and whether it
succeeds or fails. It finds every binding that it looks for, and reads only cells that are lighter
than the one that it computes. -/
namespace Recalc

/-- The cell of a key has a key that is equal to it. -/
theorem Graph.key_intern {g : Graph} (h : g.Indexed) (key : CellKey CellId) :
    (((g.intern key).2.cell (g.intern key).1).key == key) = true := by
  rcases Graph.intern_cases h key with ⟨id, hf, he⟩ | ⟨id, g', he, ha⟩
  · rw [he]
    exact (h.found key id hf).2
  · rw [he, ha.cell_eq, if_pos rfl]
    exact BEq.rfl

namespace World
variable {w w' : World} {b m n : Nat} {id : CellId}

/-- A cell in use of bounded weight. -/
def Below (w : World) (n : Nat) (id : CellId) : Prop :=
  w.graph.Live id ∧ (w.origin id).weight ≤ n

theorem Below.mono (h : w.Below m id) (hn : m ≤ n) : w.Below n id := ⟨h.1, Nat.le_trans h.2 hn⟩

theorem Below.later (h : w.Below n id) (hl : Later b w w') : w'.Below n id := by
  refine ⟨hl.live id h.1, ?_⟩
  rw [hl.origin id h.1]
  exact h.2

/-- A handle over cells of bounded weight. -/
abbrev HandleBelow (w : World) (n : Nat) (h : Handle CellId) : Prop :=
  h.Within (w.Below n) fun _ => True

theorem HandleBelow.mono {h : Handle CellId} (hh : w.HandleBelow m h) (hn : m ≤ n) :
    w.HandleBelow n h := Handle.Within.mono (fun _ hi => hi.mono hn) (fun _ hv => hv) hh

theorem HandleBelow.later {h : Handle CellId} (hh : w.HandleBelow n h) (hl : Later b w w') :
    w'.HandleBelow n h := Handle.Within.mono (fun _ hi => hi.later hl) (fun _ hv => hv) hh

/-- Bindings over cells of bounded weight that have all that a node reads. -/
structure EnvBelow (p : Program) (w : World) (n : Nat) (id : NodeId) (env : CellEnv CellId) :
    Prop where
  within : env.Within (w.Below n) fun _ => True
  serves : env.Serves p id

variable {p : Program} {node c : NodeId} {env : CellEnv CellId}

theorem EnvBelow.mono (h : w.EnvBelow p m node env) (hn : m ≤ n) : w.EnvBelow p n node env :=
  ⟨h.within.mono (fun _ hi => hi.mono hn) fun _ hv => hv, h.serves⟩

theorem EnvBelow.later (h : w.EnvBelow p n node env) (hl : Later b w w') :
    w'.EnvBelow p n node env :=
  ⟨h.within.mono (fun _ hi => hi.later hl) fun _ hv => hv, h.serves⟩

private theorem EnvBelow.part (h : w.EnvBelow p n node env) (hp : p.Linked)
    (hi : (p.node node).isIterate = false) (hc : c ∈ (p.node node).children) :
    w.EnvBelow p n c env :=
  ⟨h.within, h.serves.part hp hi hc⟩

section
variable {verb : CollectionVerb} {source body : NodeId} {lambda : LambdaId} {ctx : Option NodeId}

private theorem EnvBelow.outer (h : w.EnvBelow p n node env) (hp : p.Linked)
    (hn : p.node node = .iterate verb source lambda body ctx) (hc : c ∈ source :: ctx.toList) :
    w.EnvBelow p n c env :=
  ⟨h.within, h.serves.outer hp hn hc⟩

/-- The bindings in the body of an iteration. -/
theorem EnvBelow.inner (h : w.EnvBelow p n node env) (hp : p.Linked)
    (hn : p.node node = .iterate verb source lambda body ctx) {val : Handle CellId} {key : Value}
    {context : Option (Handle CellId)} (hv : w.HandleBelow n val)
    (hc : ∀ h, context = some h → w.HandleBelow n h) (hs : context.isSome = ctx.isSome) :
    w.EnvBelow p n body (CellEnv.bind env lambda ⟨val, key, context⟩) :=
  ⟨h.within.bind ⟨hv, trivial, hc⟩, h.serves.inner hp hn hs⟩

end

end World

namespace Linkage
open Recalc.Graph
variable (L : Linkage)

/-- A state of a recalculation: the graph is laid out, the document is current, and so are the cells
read for the current computation, all of them below some weight. -/
structure Running (b : Nat) (s : State) (origin : CellId → Origin) : Prop where
  layout : World.Layout L.program ⟨s.graph, origin⟩
  model : s.graph.Current modelCell
  reads : ∀ d ∈ s.reads, s.graph.Live d ∧ s.graph.Current d ∧ (origin d).weight < b

variable {L} {α β : Type} {b c : Nat} {s : State} {origin : CellId → Origin}

/-- A later graph takes the place of the graph of a state. -/
theorem Running.later (h : L.Running b s origin) {t : State} {origin' : CellId → Origin}
    (hl : World.Later c ⟨s.graph, origin⟩ ⟨t.graph, origin'⟩)
    (hw : World.Layout L.program ⟨t.graph, origin'⟩) (hr : t.reads = s.reads) :
    L.Running b t origin' where
  layout := hw
  model := hl.current h.layout.indexed.live_model h.model
  reads d hd := by
    obtain ⟨live, current, light⟩ := h.reads d (hr ▸ hd)
    refine ⟨hl.live d live, hl.current live current, ?_⟩
    rw [show origin' d = origin d from hl.origin d live]
    exact light

variable (L) in
/-- A result with a property, or a failure for a reason of the linkage. -/
def Ends (R : α → Prop) : Except EvalError α → Prop
  | .ok a => R a
  | .error e => L.fails e

variable (L) in
/-- What a computation leads to from a state. -/
def Leads (b : Nat) (R : World → α → Prop) (s : State) (origin : CellId → Origin)
    (r : Except EvalError α × State) : Prop :=
  ∃ origin', World.Later b ⟨s.graph, origin⟩ ⟨r.2.graph, origin'⟩ ∧ L.Running b r.2 origin' ∧
    L.Ends (R ⟨r.2.graph, origin'⟩) r.1

variable (L) in
/-- A computation keeps the layout in all states later than a given one, and its result has a
property. -/
def Keeps (b : Nat) (w : World) (R : World → α → Prop) (x : CellM α) : Prop :=
  ∀ s origin, World.Later b w ⟨s.graph, origin⟩ → L.Running b s origin →
    L.Leads b R s origin (x.run s)

variable {w w' : World} {R : World → α → Prop} {S : World → β → Prop}

theorem Keeps.later {x : CellM α} (h : L.Keeps b w R x) (hl : World.Later b w w') :
    L.Keeps b w' R x :=
  fun s origin hs => h s origin (hl.trans hs)

theorem Keeps.mono {R' : World → α → Prop} {x : CellM α} (h : L.Keeps b w R x)
    (hR : ∀ w a, R w a → R' w a) : L.Keeps b w R' x := by
  intro s origin hs hr
  obtain ⟨origin', hl, hr', he⟩ := h s origin hs hr
  refine ⟨origin', hl, hr', ?_⟩
  rcases hx : (x.run s).1 with e | a
  · rw [hx] at he
    exact he
  · rw [hx] at he
    exact hR _ a he

theorem Keeps.pure {a : α} (h : ∀ w', World.Later b w w' → R w' a) :
    L.Keeps b w R (pure a) :=
  fun _ origin hs hr => ⟨origin, .refl b _, hr, h _ hs⟩

theorem Keeps.throw {e : EvalError} (h : L.fails e) : L.Keeps b w R (throw e : CellM α) :=
  fun _ origin _ hr => ⟨origin, .refl b _, hr, h⟩

theorem Keeps.bind {x : CellM α} {f : α → CellM β} (hx : L.Keeps b w R x)
    (hf : ∀ w' a, World.Later b w w' → R w' a → L.Keeps b w' S (f a)) :
    L.Keeps b w S (x >>= f) := by
  intro s origin hs hr
  obtain ⟨origin', hl, hr', he⟩ := hx s origin hs hr
  rcases hrun : x.run s with ⟨r, t⟩
  rw [hrun] at hl hr' he
  cases r with
  | error e =>
    rw [run_bind_error hrun]
    exact ⟨origin', hl, hr', he⟩
  | ok a =>
    rw [run_bind_ok hrun]
    obtain ⟨origin'', hl', hr'', he'⟩ := hf _ a (hs.trans hl) he t origin' (.refl b _) hr'
    exact ⟨origin'', hl.trans hl', hr'', he'⟩

variable (L) in
/-- Keeping the layout, as a condition on computations with a property of their results. -/
def contract (b : Nat) (w : World) : Contract CellM where
  fails := L.fails
  values := L.values
  holds P x := L.Keeps b w (fun _ => P) x
  pure h := Keeps.pure fun _ _ => h
  bind hx hf := hx.bind fun _ a hl ha => (hf a ha).later hl
  throw h := Keeps.throw h

theorem keeps_ofExcept {P : α → Prop} {r : Except EvalError α} (hv : AboutValues r)
    (h : ∀ a, r = .ok a → P a) : L.Keeps b w (fun _ => P) (MonadExcept.ofExcept r) :=
  (L.contract b w).ofExcept hv h

/-! ### Cells -/

theorem keeps_intern {key : CellKey CellId} {n k : Nat} (hu : key.isVacant = false)
    (hr : ∀ d ∈ key.references, w.Below n d)
    (he : ∀ m env, key = .node m env → CellEnv.Exact L.program m env)
    (hk : ∀ f, Origin.height (key.canon.map f) ≤ k) :
    L.Keeps b w (fun w' id => w'.Below (n + k) id ∧ ((w'.graph.cell id).key == key) = true)
      (internCell key) := by
  intro s origin hs running
  have below (d : CellId) (hd : d ∈ key.references) : World.Below ⟨s.graph, origin⟩ n d :=
    (hr d hd).later hs
  obtain ⟨origin', layout, hl, live, same⟩ :=
    running.layout.intern ⟨hu, fun d hd => (below d hd).1, he⟩ b
  refine ⟨origin', hl, running.later hl layout rfl, ⟨live, ?_⟩,
    Graph.key_intern running.layout.indexed key⟩
  have light := World.weight_originOf_le fun d hd => (below d hd).2
  have height := hk origin
  rw [← same] at light
  exact Nat.le_trans light (Nat.add_le_add_left height n)

private theorem keeps_slot {source : CellId} {key : Value} {n : Nat} (h : w.Below n source) :
    L.Keeps b w (fun w' id => w'.Below (n + 1) id) (internCell (.slot source key)) := by
  refine (keeps_intern rfl ?_ ?_ ?_).mono fun _ _ h => h.1
  · intro d hd
    exact List.mem_singleton.mp hd ▸ h
  · rintro m env ⟨⟩
  · exact fun _ => Nat.le_refl 1

private theorem keeps_node {id : NodeId} {env : CellEnv CellId} {n : Nat}
    (h : w.EnvBelow L.program n id env) :
    L.Keeps b w (fun w' cell => w'.Below (n + Nat.pow 4 id) cell)
      (internCell (.node id (CellEnv.restrict L.program id env))) := by
  have within : (CellKey.node id (CellEnv.restrict L.program id env)).Within (w.Below n)
      fun _ => True := h.within.restrict L.program id
  refine (keeps_intern rfl ?_ ?_ ?_).mono fun _ _ h => h.1
  · exact (CellKey.within_iff.mp within).1
  · rintro m env' ⟨⟩
    exact h.serves.exact_restrict
  · exact fun _ => Nat.le_refl _

variable (L) in
/-- What bringing a cell up to date leads to. -/
def Brings (b : Nat) (s : State) (origin : CellId → Origin) (id : CellId)
    (r : Except EvalError Unit × State) : Prop :=
  ∃ origin', World.Later ((origin id).weight + 1) ⟨s.graph, origin⟩ ⟨r.2.graph, origin'⟩ ∧
    L.Running b r.2 origin' ∧ r.2.reads = s.reads ∧ L.Ends (fun _ => r.2.graph.Current id) r.1

variable (L) in
/-- A way to bring cells below some weight up to date. -/
def Verifies (c : Nat) (verify : CellId → CellM Unit) : Prop :=
  ∀ b s origin id, L.Running b s origin → s.graph.Live id → (origin id).weight < c →
    L.Brings b s origin id ((verify id).run s)

variable (L) in
/-- A way to bring cells below some weight up to date, in all states later than a given one. -/
def VerifiesAfter (w : World) (c : Nat) (verify : CellId → CellM Unit) : Prop :=
  ∀ b s origin id, World.Later c w ⟨s.graph, origin⟩ → L.Running b s origin → s.graph.Live id →
    (origin id).weight < c → L.Brings b s origin id ((verify id).run s)

variable {verify : CellId → CellM Unit}

theorem Verifies.after (h : L.Verifies c verify) (w : World) : L.VerifiesAfter w c verify :=
  fun k s origin id _ hr hl hw => h k s origin id hr hl hw

theorem VerifiesAfter.later (h : L.VerifiesAfter w c verify) (hl : World.Later c w w') :
    L.VerifiesAfter w' c verify :=
  fun k s origin id hs hr => h k s origin id (hl.trans hs) hr

theorem VerifiesAfter.mono (h : L.VerifiesAfter w c verify) (hb : b ≤ c) :
    L.VerifiesAfter w b verify :=
  fun k s origin id hs hr hl hw =>
    h k s origin id (hs.mono hb) hr hl (Nat.lt_of_lt_of_le hw hb)

theorem keeps_pull (hv : L.VerifiesAfter w b verify) {id : CellId} {n : Nat} (h : w.Below n id)
    (hn : n < b) : L.Keeps b w
      (fun w' v => w'.graph.Live id ∧ w'.graph.Current id ∧ w'.graph.value id = v)
      (pull verify id) := by
  intro s origin hs running
  have below : World.Below ⟨s.graph, origin⟩ n id := h.later hs
  have light : (origin id).weight < b := Nat.lt_of_le_of_lt below.2 hn
  obtain ⟨origin', hl, running', hreads, he⟩ := hv b s origin id hs running below.1 light
  rcases hrun : (verify id).run s with ⟨r, t⟩
  rw [hrun] at hl running' hreads he
  have later : World.Later b ⟨s.graph, origin⟩ ⟨t.graph, origin'⟩ := hl.mono light
  cases r with
  | error e =>
    rw [pull_run_error hrun]
    exact ⟨origin', later, running', he⟩
  | ok u =>
    have live : t.graph.Live id := later.live id below.1
    rw [pull_run_ok hrun]
    refine ⟨origin', later, ⟨running'.layout, running'.model, ?_⟩, live, he, rfl⟩
    refine List.forall_mem_cons.mpr ⟨⟨live, he, ?_⟩, running'.reads⟩
    rw [show origin' id = origin id from later.origin id below.1]
    exact light

private theorem keeps_read (hv : L.VerifiesAfter w b verify) {h : Handle CellId} {n : Nat}
    (hh : w.HandleBelow n h) (hn : n < b) :
    L.Keeps b w (fun _ _ => True) ((access verify).read h) := by
  cases h with
  | const v => exact Keeps.pure fun _ _ => trivial
  | cell id => exact (keeps_pull hv hh hn).mono fun _ _ _ => trivial

/-! ### Nodes -/

section Nodes
variable (hv : L.VerifiesAfter w b verify)
include hv

private theorem keeps_handleWithin {n k : Nat} {env : CellEnv CellId} {fuel : Nat} {id : NodeId}
    (hf : id < fuel) (he : w.EnvBelow L.program n id env)
    (hk : n + Nat.pow 4 id ≤ k + Origin.slack (L.program.node id)) (hb : k < b) :
    L.Keeps b w (fun w' h => w'.HandleBelow k h)
      ((access verify).handleWithin L.program fuel id env) := by
  induction fuel generalizing id w k with
  | zero => cases hf
  | succ fuel ih =>
    have hpos := Origin.pow_pos id
    have bound {kind : ReferenceKind} {l : LambdaId}
        (hn : (L.program.node id).reference? = some (kind, l)) :=
      L.linked.covers_reference he.serves.covers hn
    have up {h : Handle CellId} (hr : (L.program.node id).isReference)
        (hw : w.HandleBelow n h) {w' : World} (hl : World.Later b w w') : w'.HandleBelow k h := by
      simp only [Origin.slack, hr, if_true] at hk
      exact (hw.later hl).mono (by omega)
    have cell (hr : (L.program.node id).isReference = false) : L.Keeps b w
        (fun w' h => w'.HandleBelow k h)
        (do return .cell (← internCell (.node id (CellEnv.restrict L.program id env)))) := by
      simp only [Origin.slack, hr] at hk
      refine (keeps_node he).bind fun w' cell _ below => ?_
      exact Keeps.pure fun w'' hl => (below.later hl).mono hk
    unfold CellAccess.handleWithin
    cases hn : L.program.node id with
    | literal v => exact Keeps.pure fun _ _ => trivial
    | root =>
      intro s origin hs running
      have live := running.layout.indexed.live_model
      refine ⟨origin, .refl b _, running, live, ?_⟩
      have same : origin modelCell = _ := (running.layout.placed _ live).origin_eq
      simp only [running.layout.indexed.model] at same
      change (origin modelCell).weight ≤ k
      rw [same]
      exact Nat.le_trans (World.weight_model _) (Nat.zero_le k)
    | val l =>
      obtain ⟨c, ⟨found, hl, -⟩, -⟩ := bound (by rw [hn]; rfl)
      simp only [hl]
      exact Keeps.pure fun w' hlater =>
        up (by rw [hn]; rfl) (he.within.lookup hl).val hlater
    | key l =>
      obtain ⟨c, ⟨found, hl, -⟩, -⟩ := bound (by rw [hn]; rfl)
      simp only [hl]
      exact Keeps.pure fun _ _ => trivial
    | context l =>
      obtain ⟨c, ⟨found, hl, hc⟩, hx⟩ := bound (by rw [hn]; rfl)
      obtain ⟨h, hh⟩ := Option.isSome_iff_exists.mp (hc.trans (hx rfl))
      have context : CellEnv.context env l = .ok h := by
        simp [CellEnv.context, hl, hh, bind, Except.bind, pure, Except.pure]
      simp only [context]
      exact Keeps.pure fun w' hlater =>
        up (by rw [hn]; rfl) (he.within.context context) hlater
    | get o k' =>
      have hi : (L.program.node id).isIterate = false := by rw [hn]; rfl
      have mo : o ∈ (L.program.node id).children := by simp [hn, Node.children]
      have mk : k' ∈ (L.program.node id).children := by simp [hn, Node.children]
      have lo := L.linked.lawful.child_lt id o mo
      have lk := L.linked.lawful.child_lt id k' mk
      have so := Origin.pow_step lo
      have sk := Origin.pow_step lk
      have po := Origin.pow_pos o
      have pk := Origin.pow_pos k'
      simp only [Origin.slack, hn, Node.isReference, if_true] at hk
      have object := ih (k := n + Nat.pow 4 o) hv (Nat.lt_of_lt_of_le lo (Nat.le_of_lt_succ hf))
        (he.part L.linked hi mo) (Nat.le_add_right _ _) (by omega)
      refine object.bind fun w₁ object l₁ below => ?_
      have key := ih (k := n + Nat.pow 4 k') (hv.later l₁)
        (Nat.lt_of_lt_of_le lk (Nat.le_of_lt_succ hf)) ((he.part L.linked hi mk).later l₁)
        (Nat.le_add_right _ _) (by omega)
      refine key.bind fun w₂ key l₂ belowKey => ?_
      refine (keeps_read (hv.later (l₁.trans l₂)) belowKey (by omega)).bind fun w₃ v l₃ _ => ?_
      cases object with
      | cell source =>
        have below : w₃.Below (n + Nat.pow 4 o) source := (below.later l₂).later l₃
        refine (keeps_slot below).bind fun w₄ slot _ belowSlot => ?_
        exact Keeps.pure fun w₅ l₅ => (belowSlot.later l₅).mono (by omega)
      | const u =>
        refine (keeps_ofExcept (P := fun _ => True) (u.aboutValues_get v) fun _ _ => trivial).bind
          fun w₄ x _ _ => ?_
        exact Keeps.pure fun _ _ => trivial
    | _ => exact cell (by rw [hn]; rfl)

private theorem keeps_readNode {n k : Nat} {env : CellEnv CellId} {id : NodeId}
    (he : w.EnvBelow L.program n id env)
    (hk : n + Nat.pow 4 id ≤ k + Origin.slack (L.program.node id)) (hb : k < b) :
    L.Keeps b w (fun _ _ => True) ((access verify).readNode L.program id env) :=
  (keeps_handleWithin hv (Nat.lt_succ_self id) he hk hb).bind fun _ _ hl below =>
    keeps_read (hv.later hl) below hb

private theorem keeps_contextHandle {n k : Nat} {env : CellEnv CellId} {ctx : Option NodeId}
    (he : ∀ c ∈ ctx, w.EnvBelow L.program n c env) (hk : ∀ c ∈ ctx, n + Nat.pow 4 c ≤ k)
    (hb : k < b) :
    L.Keeps b w (fun w' context => context.isSome = ctx.isSome ∧
      ∀ h, context = some h → w'.HandleBelow k h)
      ((access verify).contextHandle L.program env ctx) := by
  cases ctx with
  | none =>
    refine Keeps.pure fun _ _ => ⟨rfl, ?_⟩
    rintro h ⟨⟩
  | some c =>
    have fits : n + Nat.pow 4 c ≤ k + Origin.slack (L.program.node c) :=
      Nat.le_trans (hk c rfl) (Nat.le_add_right _ _)
    refine (keeps_handleWithin hv (Nat.lt_succ_self c) (he c rfl) fits hb).bind
      fun w₁ h l₁ below => ?_
    refine (keeps_read (hv.later l₁) below hb).bind fun w₂ _ l₂ _ => ?_
    refine Keeps.pure fun w₃ l₃ => ⟨rfl, ?_⟩
    rintro _ ⟨⟩
    exact (below.later l₂).later l₃

private theorem keeps_iterate {n : Nat} {env : CellEnv CellId} {id : NodeId} {verb : CollectionVerb}
    {source body : NodeId} {lambda : LambdaId} {ctx : Option NodeId}
    (hn : L.program.node id = .iterate verb source lambda body ctx)
    (he : w.EnvBelow L.program n id env) (hb : n + Nat.pow 4 id ≤ b) :
    L.Keeps b w (fun _ _ => True)
      ((access verify).evalNode L.program (invoke L.library) id env) := by
  have child {c : NodeId} (hc : c ∈ (L.program.node id).children) : n + 4 * Nat.pow 4 c ≤ b :=
    Nat.le_trans (Nat.add_le_add_left (Origin.pow_step (L.linked.lawful.child_lt id c hc)) n) hb
  have hsource := child (c := source) (by simp [hn, Node.children])
  have hbody := child (c := body) (by simp [hn, Node.children])
  have psource := Origin.pow_pos source
  have pbody := Origin.pow_pos body
  -- Source and context fit into a quarter of the room, so a slot and the body still fit.
  obtain ⟨k, hk, hkb⟩ : ∃ k, (∀ c ∈ source :: ctx.toList, n + Nat.pow 4 c ≤ k) ∧
      k + 1 + Nat.pow 4 body < b := by
    refine ⟨n + (b - n) / 4, fun c hc => ?_, by omega⟩
    have := child (c := c) (by rw [hn]; exact List.mem_append_left _ hc)
    omega
  have fits : n + Nat.pow 4 source ≤ k + Origin.slack (L.program.node source) :=
    Nat.le_trans (hk source List.mem_cons_self) (Nat.le_add_right _ _)
  have hnk := hk source List.mem_cons_self
  rw [CellAccess.evalNode_iterate _ _ hn]
  refine (keeps_handleWithin hv (Nat.lt_succ_self source)
    (he.outer L.linked hn List.mem_cons_self) fits (by omega)).bind fun w₁ object l₁ below => ?_
  refine (keeps_read (hv.later l₁) below (by omega)).bind fun w₂ elements l₂ _ => ?_
  have context : L.Keeps b w₂ _ ((access verify).contextHandle L.program env ctx) :=
    keeps_contextHandle (hv.later (l₁.trans l₂)) (k := k) (fun c hc => ((he.outer L.linked hn
      (List.mem_cons_of_mem _ (Option.mem_toList.mpr hc))).later l₁).later l₂)
      (fun c hc => hk c (List.mem_cons_of_mem _ (Option.mem_toList.mpr hc))) (by omega)
  refine context.bind fun w₃ context l₃ hcontext => ?_
  apply (L.contract b w₃).iterate
  intro key element
  have hobject : w₃.HandleBelow k object := (World.HandleBelow.later below l₂).later l₃
  have hval : L.Keeps b w₃ (fun w' h => w'.HandleBelow (k + 1) h)
      ((access verify).elementHandle object key element) := by
    cases object with
    | cell o =>
      refine (keeps_slot hobject).bind fun w' slot _ belowSlot => ?_
      exact Keeps.pure fun w'' l => belowSlot.later l
    | const v => exact Keeps.pure fun _ _ => trivial
  refine hval.bind fun w₄ val l₄ belowVal => ?_
  have henv : w₄.EnvBelow L.program (k + 1) id env :=
    ((((he.later l₁).later l₂).later l₃).later l₄).mono (by omega)
  have hv₄ := hv.later (l₁.trans (l₂.trans (l₃.trans l₄)))
  refine keeps_readNode hv₄ (henv.inner L.linked hn belowVal (fun h hh => ?_) hcontext.1)
    (k := k + 1 + Nat.pow 4 body) (Nat.le_add_right _ _) hkb
  exact (((hcontext.2 h hh).later l₄)).mono (Nat.le_succ k)

omit hv in
private theorem keeps_invoke {function : String} (hf : function ∈ L.program.functions)
    (args : List Value) : L.Keeps b w (fun _ _ => True) (invoke L.library function args) := by
  cases hc : L.library.call function args with
  | error e =>
    rw [invoke, hc]
    exact Keeps.throw (L.call function hf args e hc)
  | ok v =>
    intro s origin hs running
    rw [invoke, hc]
    change L.Leads b _ s origin (.ok v, { s with calls := s.calls.push ⟨function, args⟩ })
    exact ⟨origin, .refl b _, ⟨running.layout, running.model, running.reads⟩, trivial⟩

/-- Evaluation of a node reads cells below its own weight. -/
theorem keeps_evalNode {n : Nat} {env : CellEnv CellId} {id : NodeId}
    (he : w.EnvBelow L.program n id env) (hb : n + Nat.pow 4 id ≤ b) :
    L.Keeps b w (fun _ _ => True)
      ((access verify).evalNode L.program (invoke L.library) id env) := by
  have hpos := Origin.pow_pos id
  cases hr : (L.program.node id).isReference with
  | true =>
    rw [CellAccess.evalNode_reference _ _ hr]
    refine keeps_readNode hv he (k := n + Nat.pow 4 id - 1) ?_ (by omega)
    simp only [Origin.slack, hr, if_true]
    omega
  | false =>
    cases hi : (L.program.node id).isIterate with
    | false =>
      rw [CellAccess.evalNode_combine _ _ hr hi]
      refine (L.contract b w).combine (fun c hc => ?_) fun function ids hn args => ?_
      · have := Origin.pow_step (L.linked.lawful.child_lt id c hc)
        have := Origin.pow_pos c
        exact keeps_readNode hv (he.part L.linked hi hc) (k := n + Nat.pow 4 c)
          (Nat.le_add_right _ _) (by omega)
      · exact keeps_invoke (L.linked.call id function ids hn) args
    | true =>
      cases hn : L.program.node id with
      | iterate verb source lambda body ctx => exact keeps_iterate hv hn he hb
      | _ => simp [hn, Node.isIterate] at hi

end Nodes

end Linkage

end Recalc
