import Recalc.Proofs.Graph.Descent
import Recalc.Proofs.Pass.Judged
import Recalc.Proofs.Value.Keys

/-! Graphs with what their cells stand for: judged values, as evaluation without a graph gives them.
Keys of cells are compared by equality of values, so a program has to tell apart the constants that
can turn up as an element or a context of one of its functions. -/
namespace Recalc

/-! ### Constants -/

/-- Where a constant can turn up: as the value of a node, or as the element or the context of a
function. -/
inductive Place where
  | node (id : NodeId)
  | element (lambda : LambdaId)
  | context (lambda : LambdaId)

namespace Program

/-- The constants that can turn up at a place: literals and what access to them gives, and keys of
elements. -/
inductive Constant (p : Program) : Place → Value → Prop
  | literal {id : NodeId} {v : Value} (h : p.node id = .literal v) : Constant p (.node id) v
  | key {id : NodeId} {l : LambdaId} {v : Value} (h : p.node id = .key l) (hv : v.IsKey) :
    Constant p (.node id) v
  | part {id object key : NodeId} {u k v : Value} (h : p.node id = .get object key)
    (ho : Constant p (.node object) u) (hv : u.get k = .ok v) : Constant p (.node id) v
  | val {id : NodeId} {l : LambdaId} {v : Value} (h : p.node id = .val l)
    (hv : Constant p (.element l) v) : Constant p (.node id) v
  | context {id : NodeId} {l : LambdaId} {v : Value} (h : p.node id = .context l)
    (hv : Constant p (.context l) v) : Constant p (.node id) v
  | element {id source body : NodeId} {verb : CollectionVerb} {l : LambdaId} {ctx : Option NodeId}
    {u k v : Value} (h : p.node id = .iterate verb source l body ctx)
    (hs : Constant p (.node source) u) (hv : u.get k = .ok v) : Constant p (.element l) v
  | around {id source body ctx : NodeId} {verb : CollectionVerb} {l : LambdaId} {v : Value}
    (h : p.node id = .iterate verb source l body (some ctx)) (hc : Constant p (.node ctx) v) :
    Constant p (.context l) v

/-- Constants that can turn up as the element of one function are identical if they are equal, and
so are those that can turn up as its context. -/
structure Discerns (p : Program) : Prop where
  element : ∀ l u v, p.Constant (.element l) u → p.Constant (.element l) v → (u == v) = true → u = v
  context : ∀ l u v, p.Constant (.context l) u → p.Constant (.context l) v → (u == v) = true → u = v

/-- What holds of the doubles in the literals of a program holds of those in its constants. -/
theorem Constant.tame {p : Program} {ok : Double → Prop}
    (h : ∀ id v, p.node id = .literal v → v.Tame ok) {place : Place} {v : Value}
    (hv : p.Constant place v) : v.Tame ok := by
  induction hv with
  | literal hn => exact h _ _ hn
  | @key _ _ v _ hk =>
    cases v with
    | int n => trivial
    | str s => trivial
    | _ => exact hk.elim
  | part _ _ hg ih => exact Value.tame_get ih hg
  | val _ _ ih => exact ih
  | context _ _ ih => exact ih
  | element _ _ hg ih => exact Value.tame_get ih hg
  | around _ _ ih => exact ih

/-- Without doubles that denote integers in its literals a program tells its constants apart. -/
theorem discerns_of_tame {p : Program} {ok : Double → Prop}
    (hok : ∀ x, ok x → (Value.float x).canon = .float x)
    (h : ∀ id v, p.node id = .literal v → v.Tame ok) : p.Discerns := by
  have same {place : Place} {u v : Value} (hu : p.Constant place u) (hv : p.Constant place v)
      (he : (u == v) = true) : u = v := by
    rw [Value.beq_iff, Value.canon_of_tame hok u (hu.tame h),
      Value.canon_of_tame hok v (hv.tame h)] at he
    exact he
  exact ⟨fun _ _ _ => same, fun _ _ _ => same⟩

end Program

/-! ### Cells and what they stand for -/

/-- A graph with what its cells stand for. -/
structure Trial where
  graph : Graph
  judged : CellId → Judged Value

namespace Trial

/-- What a handle stands for. -/
def sense (w : Trial) : Handle CellId → Judged Value
  | .cell id => w.judged id
  | .const v => pure v

/-- Some cell that has no value yet stands for a failure. -/
def Pending (w : Trial) (e : EvalError) : Prop :=
  ∃ id, w.graph.Live id ∧ (w.graph.cell id).value = none ∧ (w.judged id).result = .error e

/-- No failure has come in. -/
def Calm (w w' : Trial) : Prop := ∀ e, w'.Pending e → w.Pending e

theorem Calm.refl (w : Trial) : w.Calm w := fun _ h => h

theorem Calm.trans {w w' w'' : Trial} (h : w.Calm w') (k : w'.Calm w'') : w.Calm w'' :=
  fun e he => h e (k e he)

/-- A later state: cells in use stay in use, stand for what they stood for, and lose no value. -/
structure Onward (w w' : Trial) : Prop where
  live : ∀ id, w.graph.Live id → w'.graph.Live id
  judged : ∀ id, w.graph.Live id → w'.judged id = w.judged id
  filled : ∀ id, w.graph.Live id → (w.graph.cell id).value.isSome → (w'.graph.cell id).value.isSome

theorem Onward.refl (w : Trial) : w.Onward w := ⟨fun _ h => h, fun _ _ => rfl, fun _ _ h => h⟩

theorem Onward.trans {w w' w'' : Trial} (h : w.Onward w') (k : w'.Onward w'') : w.Onward w'' where
  live id hl := k.live id (h.live id hl)
  judged id hl := (k.judged id (h.live id hl)).trans (h.judged id hl)
  filled id hl hv := k.filled id (h.live id hl) (h.filled id hl hv)

/-- A failure is too deep, or the judged value is a failure too, and a fair one is the same or that
of a cell which had no value before. -/
def Errs {α : Type} (w : Trial) (y : Judged α) (e : EvalError) : Prop :=
  e = .tooDeep ∨ ∃ e', y.result = .error e' ∧ (y.fair = true → e = e' ∨ w.Pending e)

/-- A handle is over cells in use or a constant of a place, and stands for a value. -/
structure Stands (p : Program) (w : Trial) (place : Place) (h : Handle CellId) (v : Value) :
    Prop where
  known : h.Within w.graph.Live (p.Constant place)
  result : (w.sense h).result = .ok v
  ordered : v.Ordered

/-- A binding of cells stands for one of values. -/
structure Binds (p : Program) (w : Trial) (l : LambdaId) (b : CellBinding CellId)
    (c : Expr.Local) : Prop where
  lambda : c.lambda = l
  val : w.Stands p (.element l) b.val c.val
  key : b.key = c.key
  isKey : b.key.IsKey
  context : Option.Rel (w.Stands p (.context l)) b.context c.context

/-- Bindings of cells that have all that a node reads, and stand for bindings of values. -/
structure Means (p : Program) (w : Trial) (id : NodeId) (env : CellEnv CellId) (e : Pass.Env) :
    Prop where
  serves : env.Serves p id
  binds : ∀ l ∈ p.free id, ∀ b, CellEnv.lookup env l = .ok b →
    ∃ c, Expr.find e.locals l = .ok c ∧ w.Binds p l b c

variable {p : Program} {w w' : Trial} {id c : NodeId} {env env' : CellEnv CellId} {e e' : Pass.Env}

theorem sense_onward (hw : w.Onward w') {h : Handle CellId} {D : Value → Prop}
    (hh : h.Within w.graph.Live D) : w'.sense h = w.sense h := by
  cases h with
  | cell id => exact hw.judged id hh
  | const v => rfl

theorem Stands.onward {place : Place} {h : Handle CellId} {v : Value} (hs : w.Stands p place h v)
    (hw : w.Onward w') : w'.Stands p place h v :=
  ⟨hs.known.mono hw.live fun _ hv => hv, (sense_onward hw hs.known).symm ▸ hs.result, hs.ordered⟩

theorem Binds.onward {l : LambdaId} {b : CellBinding CellId} {c : Expr.Local}
    (hb : w.Binds p l b c) (hw : w.Onward w') : w'.Binds p l b c := by
  refine ⟨hb.lambda, hb.val.onward hw, hb.key, hb.isKey, ?_⟩
  have rel := hb.context
  generalize b.context = x, c.context = y at rel ⊢
  cases rel with
  | none => exact .none
  | some hs => exact .some (hs.onward hw)

theorem Means.onward (h : w.Means p id env e) (hw : w.Onward w') : w'.Means p id env e := by
  refine ⟨h.serves, fun l hl b hb => ?_⟩
  obtain ⟨c, hc, binds⟩ := h.binds l hl b hb
  exact ⟨c, hc, binds.onward hw⟩

/-- A binding of cells stands for one binding of values only. -/
theorem Binds.unique {l : LambdaId} {b : CellBinding CellId} {c c' : Expr.Local}
    (h : w.Binds p l b c) (h' : w.Binds p l b c') : c = c' := by
  have value {place : Place} {h : Handle CellId} {u v : Value} (hu : w.Stands p place h u)
      (hv : w.Stands p place h v) : u = v := Except.ok.inj (hu.result.symm.trans hv.result)
  obtain ⟨lambda, val, key, context⟩ := c
  obtain ⟨lambda', val', key', context'⟩ := c'
  have contexts : context = context' := by
    have rel : Option.Rel _ b.context context := h.context
    have rel' : Option.Rel _ b.context context' := h'.context
    generalize b.context = x at rel rel'
    cases rel with
    | none =>
      cases rel' with
      | none => rfl
    | some hs =>
      cases rel' with
      | some hs' => rw [value hs hs']
  have values : val = val' := value h.val h'.val
  rw [contexts, values, show key = key' from h.key.symm.trans h'.key,
    show lambda = lambda' from h.lambda.trans h'.lambda.symm]

/-- Bindings of cells stand for bindings of values that are alike for the node. -/
theorem Means.alike (h : w.Means p id env e) (h' : w.Means p id env e') : Pass.Alike p id e e' := by
  intro l hl
  obtain ⟨k, ⟨b, hb, -⟩, -⟩ := h.serves.covers l hl
  obtain ⟨c, hc, binds⟩ := h.binds l hl b hb
  obtain ⟨c', hc', binds'⟩ := h'.binds l hl b hb
  rw [hc, hc', binds.unique binds']

theorem Means.restrict (h : w.Means p id env e) :
    w.Means p id (CellEnv.restrict p id env) e :=
  ⟨h.serves.exact_restrict.toServes, fun l hl b hb =>
    h.binds l hl b ((CellEnv.lookup_restrict hl).symm.trans hb)⟩

theorem Means.part (h : w.Means p id env e) (hp : p.Linked)
    (hi : (p.node id).isIterate = false) (hc : c ∈ (p.node id).children) : w.Means p c env e :=
  ⟨h.serves.part hp hi hc, fun l hl => h.binds l (hp.lawful.free_part hi hc hl)⟩

section
variable {verb : CollectionVerb} {source body : NodeId} {lambda : LambdaId} {ctx : Option NodeId}
  (hn : p.node id = .iterate verb source lambda body ctx)
include hn

theorem Means.outer (h : w.Means p id env e) (hp : p.Linked) (hc : c ∈ source :: ctx.toList) :
    w.Means p c env e :=
  ⟨h.serves.outer hp hn hc, fun l hl => h.binds l (hp.lawful.free_source hn hc hl)⟩

/-- The bindings in the body of an iteration. -/
theorem Means.inner (h : w.Means p id env e) (hp : p.Linked) {b : CellBinding CellId}
    {c : Pass.Binding} (hb : w.Binds p lambda b c.toLocal)
    (hs : b.context.isSome = ctx.isSome) :
    w.Means p body (CellEnv.bind env lambda b) (c :: e) := by
  have here : c.toLocal.lambda = lambda := hb.lambda
  refine ⟨h.serves.inner hp hn hs, fun l hl b' hb' => ?_⟩
  have found : Expr.find (Pass.Env.locals (c :: e)) l =
      if lambda = l then .ok c.toLocal else Expr.find e.locals l := by
    rw [← here]
    exact Pass.find_cons c.toLocal e.locals l
  rw [CellEnv.lookup_bind h.serves.sorted] at hb'
  by_cases hl' : l = lambda
  · subst hl'
    rw [if_pos rfl] at hb'
    subst hb'
    exact ⟨c.toLocal, found.trans (if_pos rfl), hb⟩
  · rw [if_neg hl'] at hb'
    obtain ⟨d, hd, binds⟩ := h.binds l (hp.lawful.free_body hn hl hl') b' hb'
    exact ⟨d, (found.trans (if_neg (Ne.symm hl'))).trans hd, binds⟩

end

/-- Bindings that stand for values are identical if they are equal. -/
theorem Binds.eq_of_canon (hp : p.Discerns) {l : LambdaId} {b b' : CellBinding CellId}
    {c c' : Expr.Local} (h : w.Binds p l b c) (h' : w.Binds p l b' c')
    (he : b.canon = b'.canon) : b = b' := by
  have handle {place : Place} (discerns : ∀ u v, p.Constant place u → p.Constant place v →
      (u == v) = true → u = v) {h h' : Handle CellId} (hh : h.Within w.graph.Live (p.Constant place))
      (hh' : h'.Within w.graph.Live (p.Constant place)) (he : h.canon = h'.canon) : h = h' := by
    cases h with
    | cell id =>
      cases h' with
      | cell id' => exact he
      | const v => cases he
    | const u =>
      cases h' with
      | cell id' => cases he
      | const v =>
        rw [discerns u v hh hh' ((Value.beq_iff u v).mpr (Handle.const.inj he))]
  obtain ⟨val, key, context⟩ := b
  obtain ⟨val', key', context'⟩ := b'
  simp only [CellBinding.canon, CellBinding.mk.injEq] at he
  have contexts : context = context' := by
    have rel : Option.Rel _ context c.context := h.context
    have rel' : Option.Rel _ context' c'.context := h'.context
    generalize c.context = x, c'.context = x' at rel rel'
    cases rel with
    | none =>
      cases rel' with
      | none => rfl
      | some hs' => simp at he
    | some hs =>
      cases rel' with
      | none => simp at he
      | some hs' => rw [handle (hp.context l) hs.known hs'.known (by simpa using he.2.2)]
  have vals : val = val' := handle (hp.element l) h.val.known h'.val.known he.1
  have keys : key = key' := h.isKey.canon_eq.symm.trans (he.2.1.trans h'.isKey.canon_eq)
  rw [contexts, vals, keys]

end Trial

/-- Bindings are identical if they are equal and each of them is told apart. -/
theorem CellEnv.eq_of_canon {ι : Type} {env env' : CellEnv ι} (h : env.canon = env'.canon)
    (same : ∀ x ∈ env, ∀ y ∈ env', x.1 = y.1 → x.2.canon = y.2.canon → x.2 = y.2) : env = env' := by
  induction env generalizing env' with
  | nil =>
    cases env' with
    | nil => rfl
    | cons y rest => cases h
  | cons x rest ih =>
    cases env' with
    | nil => cases h
    | cons y rest' =>
      simp only [canon, List.map_cons, List.cons.injEq, Prod.mk.injEq] at h
      obtain ⟨⟨lambda, binding⟩, tail⟩ := h
      rw [ih tail fun x hx y hy => same x (List.mem_cons_of_mem _ hx) y (List.mem_cons_of_mem _ hy)]
      congr 1
      exact Prod.ext lambda
        (same x List.mem_cons_self y List.mem_cons_self lambda binding)

end Recalc
