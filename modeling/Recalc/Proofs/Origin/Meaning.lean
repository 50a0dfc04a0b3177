import Recalc.Proofs.Origin.Reading
import Recalc.Proofs.Program.Table

/-! What an origin means over a document: the value that evaluating its key gives when every origin
read on the way has its own meaning. The reads for an origin are of smaller weight, so this is well
defined, and the meaning solves its own equation. -/
namespace Recalc

/-- Whether a node's value is that of a cell or constant which is already there. -/
def Node.isReference : Node → Bool
  | root => true
  | literal _ => true
  | val _ => true
  | key _ => true
  | context _ => true
  | get _ _ => true
  | _ => false

def Node.isIterate : Node → Bool
  | iterate _ _ _ _ _ => true
  | _ => false

namespace CellAccess
variable {m : Type → Type} [Monad m] [MonadExceptOf EvalError m] {ι : Type}
variable (cells : CellAccess m ι) {p : Program} (invoke : String → List Value → m Value)

theorem evalNode_reference {id : NodeId} (h : (p.node id).isReference) (env : CellEnv ι) :
    cells.evalNode p invoke id env = cells.readNode p id env := by
  unfold evalNode
  cases hn : p.node id <;> first | rfl | simp [hn, Node.isReference] at h

theorem evalNode_combine {id : NodeId} (hr : (p.node id).isReference = false)
    (hi : (p.node id).isIterate = false) (env : CellEnv ι) : cells.evalNode p invoke id env =
      (p.node id).combine (fun c => cells.readNode p c env) invoke := by
  unfold evalNode
  cases hn : p.node id <;> first | rfl | simp [hn, Node.isReference, Node.isIterate] at hr hi

theorem evalNode_iterate {id : NodeId} {verb : CollectionVerb} {source body : NodeId}
    {lambda : LambdaId} {ctx : Option NodeId}
    (h : p.node id = .iterate verb source lambda body ctx) (env : CellEnv ι) :
    cells.evalNode p invoke id env = (do
      let source ← cells.handle p source env
      let elements ← cells.read source
      let ctx ← cells.contextHandle p env ctx
      verb.iterate elements fun key element => do
        let val ← cells.elementHandle source key element
        cells.readNode p body (CellEnv.bind env lambda ⟨val, key, ctx⟩)) := by
  unfold evalNode
  rw [h]

end CellAccess

namespace Origin

/-- Origins as names of cells: each is the name of its own key, and reading one is noted. -/
def access : CellAccess Reading Origin where
  model := .of .model
  intern key := pure (.of key)
  pull o := .read o pure

@[simp]
theorem run_read_cell (q : Origin → Except EvalError Value) (o : Origin) :
    (access.read (.cell o)).run q = q o := by
  change (q o >>= fun v => .ok v) = q o
  cases q o <;> rfl

@[simp]
theorem reads_read_cell (q : Origin → Except EvalError Value) (o : Origin) :
    (access.read (.cell o)).reads q = [o] := by
  simp only [CellAccess.read, access, Reading.reads]
  cases q o <;> rfl

/-- Whatever follows the reading of a node's handle fails with it. -/
theorem run_handle_error {p : Program} {q : Origin → Except EvalError Value} {id : NodeId}
    {env : CellEnv Origin} {e : EvalError} (h : (access.readNode p id env).run q = .error e)
    {α : Type} (g : Handle Origin → Value → Reading α) :
    (do
      let h ← access.handle p id env
      let v ← access.read h
      g h v : Reading α).run q = .error e := by
  cases hh : (access.handle p id env).run q with
  | error e' =>
    rw [CellAccess.readNode, Reading.run_bind_of_error hh] at h
    cases h
    exact Reading.run_bind_of_error hh
  | ok handle =>
    rw [CellAccess.readNode, Reading.run_bind_of_ok hh] at h
    rw [Reading.run_bind_of_ok hh]
    exact Reading.run_bind_of_error h

def invoke (lib : Library) (function : String) (args : List Value) : Reading Value :=
  MonadExcept.ofExcept (lib.call function args)

/-- How the value of an origin is computed from the values of others. -/
def plan (p : Program) (lib : Library) : Origin → Reading Value
  | .of (.slot source key) => .read source fun v => MonadExcept.ofExcept (v.get key)
  | .of (.node id env) => access.evalNode p (invoke lib) id env
  | .of .model => pure .null
  | .of .vacant => pure .null

/-- Whether the value of an origin is the result of a library call. -/
def isCall (p : Program) : Origin → Bool
  | .of (.node id _) => (p.node id).isCall
  | _ => false

/-- The outputs of a program, read in order. -/
def outputs (p : Program) : Reading (List Value) :=
  p.outputs.mapM fun o => access.pull (.of (.node o.2 []))

def meaningWithin (p : Program) (lib : Library) (model : Value) :
    Nat → Origin → Except EvalError Value
  | 0, _ => .error .tooDeep
  | _ + 1, .of .model => .ok model
  | fuel + 1, o => (plan p lib o).run (meaningWithin p lib model fuel)

/-- The value of an origin over a document. -/
def meaning (p : Program) (lib : Library) (model : Value) (o : Origin) : Except EvalError Value :=
  meaningWithin p lib model (o.weight + 1) o

/-! ### Classes of reads -/

/-- Origins as names of cells, with a way to name keys. Reading one is noted. -/
def accessBy (name : CellKey Origin → Origin) : CellAccess Reading Origin where
  model := .of .model
  intern key := pure (name key)
  pull o := .read o pure

theorem pow_step {a b : Nat} (h : a < b) : 4 * Nat.pow 4 a ≤ Nat.pow 4 b := by
  have := Nat.pow_le_pow_right (n := 4) (by decide) (Nat.succ_le_of_lt h)
  rw [Nat.pow_succ] at this
  rw [Nat.mul_comm]
  exact this

theorem pow_pos (a : Nat) : 0 < Nat.pow 4 a := Nat.pow_pos (by decide)

/-- Reading a handle reads its cell. -/
theorem read_meets {name : CellKey Origin → Origin} {P : Origin → Prop} {D : Value → Prop}
    {h : Handle Origin} (hw : h.Within P D) : ((accessBy name).read h).Meets D P D := by
  cases h with
  | cell o => exact ⟨hw, fun v hv => Reading.Meets.pure hv⟩
  | const v => exact Reading.Meets.pure hw

/-- Grades of origins for a class of nodes: the names of keys over origins of some grade have a
grade that is higher by as much as reads for the key can go deeper. -/
structure Grading (p : Program) (D : Value → Prop) where
  name : CellKey Origin → Origin
  nodes : NodeId → Prop
  grade : Nat → Origin → Prop
  child : ∀ {id c}, nodes id → c ∈ (p.node id).children → nodes c
  mono : ∀ {m n o}, grade m o → m ≤ n → grade n o
  model : ∀ {id} (n : Nat), nodes id → p.node id = .root → grade n (.of .model)
  slot : ∀ {n o key}, grade n o → D key → grade (n + 1) (name (.slot o key))
  node : ∀ {n id env}, nodes id → CellEnv.Within (grade n) D env →
    grade (n + Nat.pow 4 id) (name (.node id env))

/-- References are lighter than their nodes, since they have no cells of their own. -/
def slack (node : Node) : Nat := if node.isReference then 1 else 0

namespace Grading
variable {p : Program} {lib : Library} {D : Value → Prop} (G : Grading p D)

private theorem wider {m n : Nat} {h : Handle Origin} (hw : h.Within (G.grade m) D) (hn : m ≤ n) :
    h.Within (G.grade n) D := hw.mono (fun _ ho => G.mono ho hn) fun _ hv => hv

variable (hl : p.Lawful) (hd : ReadClass p lib D)
include hl hd

private theorem handleWithin_meets {n : Nat} {env : CellEnv Origin} (he : env.Within (G.grade n) D)
    (fuel : Nat) {id : NodeId} (hi : G.nodes id) {b : Nat}
    (hb : n + Nat.pow 4 id ≤ b + slack (p.node id)) :
    ((accessBy G.name).handleWithin p fuel id env).Meets D (G.grade b)
      (Handle.Within (G.grade b) D) := by
  induction fuel generalizing id b with
  | zero => exact Reading.Meets.throw _
  | succ fuel ih =>
    have hpos := pow_pos id
    have up (hr : (p.node id).isReference) {h : Handle Origin} (hw : h.Within (G.grade n) D) :
        h.Within (G.grade b) D := by
      simp only [slack, hr, if_true] at hb
      exact G.wider hw (by omega)
    have node (hr : (p.node id).isReference = false) :
        (do return .cell (← (accessBy G.name).intern (.node id (CellEnv.restrict p id env)))
          : Reading (Handle Origin)).Meets D (G.grade b) (Handle.Within (G.grade b) D) := by
      simp only [slack, hr] at hb
      exact Reading.Meets.pure (G.mono (G.node hi (he.restrict p id)) hb)
    unfold CellAccess.handleWithin
    cases hn : p.node id with
    | literal v => exact Reading.Meets.pure (hd.literal id v hn)
    | root => exact Reading.Meets.pure (G.model b hi hn)
    | val l =>
      refine Reading.Meets.bind (Reading.Meets.ofExcept fun c hc => he.lookup hc) fun c hc => ?_
      exact Reading.Meets.pure (up (by simp [hn, Node.isReference]) hc.val)
    | key l =>
      refine Reading.Meets.bind (Reading.Meets.ofExcept fun c hc => he.lookup hc) fun c hc => ?_
      exact Reading.Meets.pure hc.key
    | context l =>
      exact Reading.Meets.ofExcept fun h hc =>
        up (by simp [hn, Node.isReference]) (he.context hc)
    | get o k =>
      have mo : o ∈ (p.node id).children := by simp [hn, Node.children]
      have mk : k ∈ (p.node id).children := by simp [hn, Node.children]
      have ho := pow_step (hl.child_lt id o mo)
      have hk := pow_step (hl.child_lt id k mk)
      have hpo := pow_pos o
      have hpk := pow_pos k
      simp only [slack, hn, Node.isReference, if_true] at hb
      have hob := ih (G.child hi mo) (b := n + Nat.pow 4 o) (by omega)
      have hkb := ih (G.child hi mk) (b := n + Nat.pow 4 k) (by omega)
      refine Reading.Meets.bind (hob.mono (fun _ h => G.mono h (by omega)) fun _ h => h)
        fun object hobject => ?_
      refine Reading.Meets.bind (hkb.mono (fun _ h => G.mono h (by omega)) fun _ h => h)
        fun key hkey => ?_
      refine Reading.Meets.bind ((read_meets hkey).mono (fun _ h => G.mono h (by omega))
        fun _ h => h) fun v hv => ?_
      cases object with
      | cell source => exact Reading.Meets.pure (G.mono (G.slot hobject hv) (by omega))
      | const w =>
        refine Reading.Meets.bind (Reading.Meets.ofExcept fun a ha => hd.get w v a hobject ha)
          fun a ha => ?_
        exact Reading.Meets.pure ha
    | _ => exact node (by simp [hn, Node.isReference])

theorem readNode_meets {n : Nat} {env : CellEnv Origin} (he : env.Within (G.grade n) D)
    {id : NodeId} (hi : G.nodes id) {b : Nat} (hb : n + Nat.pow 4 id ≤ b + slack (p.node id)) :
    ((accessBy G.name).readNode p id env).Meets D (G.grade b) D :=
  (G.handleWithin_meets hl hd he (id + 1) hi hb).bind fun _ hh => read_meets hh

private theorem contextHandle_meets {n : Nat} {env : CellEnv Origin} (he : env.Within (G.grade n) D)
    {ctx : Option NodeId} (hi : ∀ c ∈ ctx, G.nodes c) {b : Nat}
    (hb : ∀ c ∈ ctx, n + Nat.pow 4 c ≤ b) :
    ((accessBy G.name).contextHandle p env ctx).Meets D (G.grade b)
      (fun ctx => ∀ h, ctx = some h → h.Within (G.grade b) D) := by
  cases ctx with
  | none => exact Reading.Meets.pure fun h hh => nomatch hh
  | some c =>
    have hc : n + Nat.pow 4 c ≤ b + slack (p.node c) :=
      Nat.le_trans (hb c rfl) (Nat.le_add_right _ _)
    refine (G.handleWithin_meets hl hd he (c + 1) (hi c rfl) hc).bind fun h hh => ?_
    refine (read_meets hh).bind fun _ _ => Reading.Meets.pure ?_
    rintro _ ⟨⟩
    exact hh

private theorem iterate_meets {n : Nat} {env : CellEnv Origin} (he : env.Within (G.grade n) D)
    {id : NodeId} (hi : G.nodes id) {verb : CollectionVerb} {source body : NodeId}
    {lambda : LambdaId} {ctx : Option NodeId}
    (hn : p.node id = .iterate verb source lambda body ctx) {b : Nat}
    (hb : n + Nat.pow 4 id ≤ b + 1) :
    ((accessBy G.name).evalNode p (invoke lib) id env).Meets D (G.grade b) D := by
  have fits {c : NodeId} (hc : c ∈ (p.node id).children) : n + 4 * Nat.pow 4 c ≤ b + 1 :=
    Nat.le_trans (Nat.add_le_add_left (pow_step (hl.child_lt id c hc)) n) hb
  have ms : source ∈ (p.node id).children := by simp [hn, Node.children]
  have mb : body ∈ (p.node id).children := by simp [hn, Node.children]
  have mc {c : NodeId} (hc : c ∈ ctx) : c ∈ (p.node id).children := by
    rw [hn]
    exact List.mem_append_left _ (List.mem_cons_of_mem _ (Option.mem_toList.mpr hc))
  have hs := fits ms
  have hbody := fits mb
  have hps := pow_pos source
  -- Source and context fit into a quarter of the room, so a slot and the body still fit.
  obtain ⟨k, hk, hkb⟩ : ∃ k, (∀ c ∈ source :: ctx.toList, n + Nat.pow 4 c ≤ k) ∧
      k + 1 + Nat.pow 4 body ≤ b := by
    refine ⟨n + (b + 1 - n) / 4, fun c hc => ?_, by omega⟩
    have := fits (c := c) (by rw [hn]; exact List.mem_append_left _ hc)
    omega
  have up {Q : Handle Origin → Prop} {x : Reading (Handle Origin)}
      (hx : x.Meets D (G.grade k) Q) : x.Meets D (G.grade b) Q :=
    hx.mono (fun _ h => G.mono h (by omega)) fun _ h => h
  rw [CellAccess.evalNode_iterate _ _ hn]
  refine Reading.Meets.bind (up (G.handleWithin_meets hl hd he (source + 1) (G.child hi ms) ?_))
    fun object hobject => ?_
  · exact Nat.le_trans (hk source List.mem_cons_self) (Nat.le_add_right _ _)
  refine Reading.Meets.bind (read_meets (G.wider hobject (by omega))) fun elements helements => ?_
  refine Reading.Meets.bind ((G.contextHandle_meets hl hd he (fun c hc => G.child hi (mc hc))
    fun c hc => hk c (List.mem_cons_of_mem _ (Option.mem_toList.mpr hc))).mono
      (fun _ h => G.mono h (by omega)) fun _ h => h) fun context hcontext => ?_
  have element (key element : Value) (hkey : D key) (hv : D element) :
      ((accessBy G.name).elementHandle object key element).Meets D (G.grade b)
        (Handle.Within (G.grade (k + 1)) D) := by
    cases object with
    | cell o => exact Reading.Meets.pure (G.slot hobject hkey)
    | const v => exact Reading.Meets.pure hv
  have related : (Reading.meets D (G.grade b)).rel D (verb.iterate elements fun key element => do
      let val ← (accessBy G.name).elementHandle object key element
      (accessBy G.name).readNode p body (CellEnv.bind env lambda ⟨val, key, context⟩))
      (verb.iterate elements fun _ _ => .ok .null) := by
    apply (Reading.meets D (G.grade b)).iterate_entries hd.toVerbClass helements
    intro es hes e hm
    have hkey := hd.keys verb elements es helements hes e hm
    refine (element e.1 e.2 hkey (hd.entries verb elements es helements hes e hm)).bind
      fun val hval => ?_
    refine G.readNode_meets hl hd (n := k + 1) ?_ (G.child hi mb) (by omega)
    refine CellEnv.Within.bind (he.mono (fun _ h => G.mono h ?_) fun _ h => h)
      ⟨hval, hkey, fun h hh => G.wider (hcontext h hh) (by omega)⟩
    have := hk source List.mem_cons_self
    omega
  exact related

theorem evalNode_meets {n : Nat} {env : CellEnv Origin} (he : env.Within (G.grade n) D)
    {id : NodeId} (hi : G.nodes id) {b : Nat} (hb : n + Nat.pow 4 id ≤ b + 1) :
    ((accessBy G.name).evalNode p (invoke lib) id env).Meets D (G.grade b) D := by
  cases hr : (p.node id).isReference with
  | true =>
    rw [CellAccess.evalNode_reference _ _ hr]
    exact G.readNode_meets hl hd he hi (by simpa [slack, hr] using hb)
  | false =>
    cases hit : (p.node id).isIterate with
    | false =>
      have related : (Reading.meets D (G.grade b)).rel D
          ((p.node id).combine (fun c => (accessBy G.name).readNode p c env) (invoke lib))
          ((p.node id).combine (fun _ => .ok .null) lib.call) := by
        apply (Reading.meets D (G.grade b)).combine hd.toVerbClass
        · intro c hc
          have := pow_step (hl.child_lt id c hc)
          have := pow_pos c
          exact G.readNode_meets hl hd he (G.child hi hc) (by omega)
        · exact fun _ f args ha => Reading.Meets.ofExcept fun v hv => hd.call f args v ha hv
      rw [CellAccess.evalNode_combine _ _ hr hit]
      exact related
    | true =>
      cases hn : p.node id with
      | iterate verb source lambda body ctx => exact G.iterate_meets hl hd he hi hn hb
      | _ => simp [hn, Node.isIterate] at hit

end Grading

/-! ### Weights of reads -/

/-- An origin over constants of a class, of bounded weight. -/
def Light (D : Value → Prop) (n : Nat) (o : Origin) : Prop := o.In D ∧ o.weight ≤ n

theorem Light.mono {D : Value → Prop} {m n : Nat} {o : Origin} (h : o.Light D m) (hn : m ≤ n) :
    o.Light D n := ⟨h.1, Nat.le_trans h.2 hn⟩

theorem weight_model : weight (.of .model) = 0 := by
  have : weight (.of .model) ≤ 0 + height .model := weight_le.mpr (by simp [CellKey.references])
  simp only [height] at this
  omega

theorem light_node {D : Value → Prop} {n : Nat} {env : CellEnv Origin}
    (he : env.Within (Light D n) D) (id : NodeId) :
    (Origin.of (.node id env)).Light D (n + Nat.pow 4 id) :=
  have hk : (CellKey.node id env).Within (Light D n) D := he
  ⟨in_of.mpr (hk.mono (fun _ h => h.1) fun _ h => h),
    weight_le.mpr fun o ho => ((CellKey.within_iff.mp hk).1 o ho).2⟩

/-- Origins over constants of a class, by weight. -/
def lightness (p : Program) (D : Value → Prop) : Grading p D where
  name := .of
  nodes _ := True
  grade := Light D
  child _ _ := trivial
  mono := Light.mono
  model n _ _ := ⟨in_of.mpr trivial, by simp [weight_model]⟩
  slot hs hk := ⟨in_of.mpr ⟨hs.1, hk⟩, weight_le.mpr fun _ ho => List.mem_singleton.mp ho ▸ hs.2⟩
  node _ he := light_node he _

section
variable {p : Program} {lib : Library} {D : Value → Prop} (hl : p.Lawful) (hd : Domain p lib D)
include hl hd

/-- The reads for an origin are lighter than it, and stay within the class. -/
theorem plan_meets {o : Origin} (ho : o.In D) :
    (plan p lib o).Meets D (fun r => r.In D ∧ r.weight < o.weight) D := by
  obtain ⟨key⟩ := o
  cases key with
  | model => exact Reading.Meets.pure hd.null
  | vacant => exact Reading.Meets.pure hd.null
  | slot source key =>
    obtain ⟨hs, -⟩ := in_of.mp ho
    refine ⟨⟨hs, ?_⟩, fun v hv => Reading.Meets.ofExcept fun w hw => hd.get v key w hv hw⟩
    exact weight_of_reference (.slot source key) List.mem_cons_self
  | node id env =>
    obtain ⟨n, hn, hr⟩ := exists_weight (.node id env)
    have he : (CellKey.node id env).Within (Light D n) D := by
      refine CellKey.within_iff.mpr ⟨fun o hm => ⟨?_, hr o hm⟩, ?_⟩
      · exact (CellKey.within_iff.mp (in_of.mp ho)).1 o hm
      · exact (CellKey.within_iff.mp (in_of.mp ho)).2
    have hpos := pow_pos id
    simp only [height] at hn
    refine ((lightness p D).evalNode_meets hl hd.toReadClass he trivial
      (b := n + Nat.pow 4 id - 1) (by omega)).mono (fun r hr => ⟨hr.1, ?_⟩) fun _ h => h
    have := hr.2
    omega

/-! ### The equation of meanings -/

omit hl hd in
private theorem meaningWithin_succ {model : Value} {o : Origin} (ho : o ≠ .of .model) (n : Nat) :
    meaningWithin p lib model (n + 1) o = (plan p lib o).run (meaningWithin p lib model n) := by
  obtain ⟨key⟩ := o
  cases key with
  | model => exact absurd rfl ho
  | _ => rfl

omit hl hd in
theorem meaning_model (model : Value) : meaning p lib model (.of .model) = .ok model := rfl

variable {model : Value} (hm : D model)
include hm

private theorem meaningWithin_mem (n : Nat) {o : Origin} (ho : o.In D) {v : Value}
    (h : meaningWithin p lib model n o = .ok v) : D v := by
  induction n generalizing o v with
  | zero => cases h
  | succ n ih =>
    by_cases hne : o = .of .model
    · subst hne
      cases h
      exact hm
    · rw [meaningWithin_succ hne] at h
      exact ((plan_meets hl hd ho).run fun r hr v hv => ih hr.1 hv).2 v h

/-- Reads have smaller weights, so fuel above the weight makes no difference. -/
private theorem meaningWithin_eq {n k : Nat} {o : Origin} (ho : o.In D) (hn : o.weight < n)
    (hk : o.weight < k) : meaningWithin p lib model n o = meaningWithin p lib model k o := by
  induction n generalizing k o with
  | zero => cases hn
  | succ n ih =>
    obtain ⟨k, rfl⟩ : ∃ j, k = j + 1 := ⟨k - 1, by omega⟩
    by_cases hne : o = .of .model
    · subst hne
      rfl
    · rw [meaningWithin_succ hne, meaningWithin_succ hne]
      have hr := ((plan_meets hl hd ho).run fun r hr v hv =>
        meaningWithin_mem hl hd hm k hr.1 hv).1
      refine (Reading.congr fun r hmem => ?_).1
      obtain ⟨hin, hlt⟩ := hr r hmem
      exact ih hin (by omega) (by omega)

theorem meaning_mem {o : Origin} (ho : o.In D) {v : Value} (h : meaning p lib model o = .ok v) :
    D v := meaningWithin_mem hl hd hm _ ho h

/-- Handles over origins of the class are of the class. -/
theorem handle_mem {env : CellEnv Origin} (he : env.Within (In D) D) {id : NodeId}
    {h : Handle Origin} (hr : (access.handle p id env).run (meaning p lib model) = .ok h) :
    h.Within (In D) D := by
  have hk : (CellKey.node id env).Within (In D) D := he
  obtain ⟨n, -, hw⟩ := exists_weight (.node id env)
  have light : (CellKey.node id env).Within (Light D n) D :=
    CellKey.within_iff.mpr ⟨fun o ho => ⟨(CellKey.within_iff.mp hk).1 o ho, hw o ho⟩,
      (CellKey.within_iff.mp hk).2⟩
  have meets : (access.handle p id env).Meets D (Light D (n + Nat.pow 4 id))
      (Handle.Within (Light D (n + Nat.pow 4 id)) D) :=
    (lightness p D).handleWithin_meets hl hd.toReadClass light (id + 1) trivial
      (Nat.le_add_right _ _)
  exact ((meets.run fun _ ho _ hv => meaning_mem hl hd hm ho.1 hv).2 h hr).mono
    (fun _ ho => ho.1) fun _ hv => hv

theorem read_mem {h : Handle Origin} (hw : h.Within (In D) D) {v : Value}
    (hr : (access.read h).run (meaning p lib model) = .ok v) : D v :=
  have meets : ((accessBy .of).read h).Meets D (In D) D := read_meets hw
  (meets.run fun _ ho _ hv => meaning_mem hl hd hm ho hv).2 v hr

theorem contextHandle_mem {env : CellEnv Origin} (he : env.Within (In D) D) {ctx : Option NodeId}
    {h : Handle Origin}
    (hr : (access.contextHandle p env ctx).run (meaning p lib model) = .ok (some h)) :
    h.Within (In D) D := by
  cases ctx with
  | none => cases hr
  | some c =>
    obtain ⟨h', hh, hr⟩ := Reading.run_bind_ok.mp hr
    obtain ⟨v, -, hr⟩ := Reading.run_bind_ok.mp hr
    cases hr
    exact handle_mem hl hd hm he hh

/-- The reads for an origin, when origins have their meanings. -/
theorem mem_reads_plan {o r : Origin} (ho : o.In D)
    (h : r ∈ (plan p lib o).reads (meaning p lib model)) : r.In D ∧ r.weight < o.weight :=
  ((plan_meets hl hd ho).run fun _ hr _ hv => meaning_mem hl hd hm hr.1 hv).1 r h

/-- The meaning of an origin comes from the meanings of the origins that it reads. -/
theorem meaning_eq {o : Origin} (ho : o.In D) (hne : o ≠ .of .model) :
    meaning p lib model o = (plan p lib o).run (meaning p lib model) := by
  rw [meaning, meaningWithin_succ hne]
  refine (Reading.congr fun r hr => ?_).1
  obtain ⟨hin, hlt⟩ := mem_reads_plan hl hd hm ho hr
  exact meaningWithin_eq hl hd hm hin hlt (Nat.lt_succ_self _)

end

end Origin

end Recalc
