import Recalc.Expr.Meaning
import Recalc.Pass.Plain
import Recalc.Proofs.Pass.Run

/-! Evaluation with nothing remembered depends on little: on the bindings of the functions that a
node reads, but not on their numbers, nor on how much more depth there is than the node's position
needs. -/
namespace Recalc

section Congruence
variable {m : Type → Type} [Monad m] {read read' : NodeId → m Value}

theorem mapM_congr [LawfulMonad m] {α β : Type} {as : List α} {f g : α → m β}
    (h : ∀ a ∈ as, f a = g a) : as.mapM f = as.mapM g := by
  induction as with
  | nil => rfl
  | cons a rest ih =>
    rw [List.mapM_cons, List.mapM_cons, h a List.mem_cons_self,
      ih fun b hb => h b (List.mem_cons_of_mem _ hb)]

private theorem readWhile_congr {ids : List NodeId} (h : ∀ c ∈ ids, read c = read' c)
    (test : Value → Bool) (last : Value) :
    readWhile read test last ids = readWhile read' test last ids := by
  induction ids generalizing last with
  | nil => rfl
  | cons c rest ih =>
    simp only [readWhile, h c List.mem_cons_self, ih fun d hd => h d (List.mem_cons_of_mem _ hd)]

private theorem readFields_congr {fields : List (String × NodeId)}
    (h : ∀ c ∈ fields.map Prod.snd, read c = read' c) :
    readFields read fields = readFields read' fields := by
  induction fields with
  | nil => rfl
  | cons f rest ih =>
    simp only [readFields, h f.2 List.mem_cons_self, ih fun d hd => h d (List.mem_cons_of_mem _ hd)]

/-- The value of a node is decided by the values of its parts. -/
theorem Node.combine_congr [LawfulMonad m] [MonadExceptOf EvalError m] {n : Node}
    {invoke : String → List Value → m Value} (h : ∀ c ∈ n.children, read c = read' c) :
    n.combine read invoke = n.combine read' invoke := by
  cases n with
  | array ids | call function ids =>
    rw [combine, combine, mapM_congr (show ∀ c ∈ ids, read c = read' c from h)]
  | object fields =>
    rw [combine, combine,
      readFields_congr (show ∀ c ∈ fields.map Prod.snd, read c = read' c from h)]
  | and ids | or ids => exact readWhile_congr h _ _
  | unary verb a => simp only [combine, h a (by simp [children])]
  | binary verb a b => simp only [combine, h a (by simp [children]), h b (by simp [children])]
  | range a b c | ternary a b c =>
    simp only [combine, h a (by simp [children]), h b (by simp [children]),
      h c (by simp [children])]
  | _ => rfl

end Congruence

namespace Pass

/-- What a binding says about its function. -/
def Binding.toLocal (b : Binding) : Expr.Local := ⟨b.lambda, b.val, b.key, b.context⟩

def Env.locals (env : Env) : List Expr.Local := env.map Binding.toLocal

theorem find_locals (env : Env) (l : LambdaId) :
    Expr.find env.locals l = (Env.lookup env l).map Binding.toLocal := by
  have found : (env.locals.find? fun b => b.lambda = l) = (Env.find? env l).map Binding.toLocal :=
    List.find?_map
  rw [Expr.find, found, Env.lookup]
  cases Env.find? env l <;> rfl

theorem findContext_locals (env : Env) (l : LambdaId) :
    Expr.findContext env.locals l = Env.context env l := by
  rw [Expr.findContext, find_locals, Env.context]
  cases Env.lookup env l <;> rfl

theorem find_cons (b : Expr.Local) (env : List Expr.Local) (l : LambdaId) :
    Expr.find (b :: env) l = if b.lambda = l then .ok b else Expr.find env l := by
  rw [Expr.find, List.find?_cons]
  by_cases h : b.lambda = l <;> simp [h, Expr.find]

variable {p : Program} {lib : Library} {model : Value} {id : NodeId} {env env' : Env} {n : Nat}

/-! ### The value of a node, by its kind -/

theorem plain_root (h : p.node id = .root) : plain p lib model (n + 1) id env = .ok model := by
  rw [plain]
  simp only [step, h]
  rfl

theorem plain_literal {v : Value} (h : p.node id = .literal v) :
    plain p lib model (n + 1) id env = .ok v := by
  rw [plain]
  simp only [step, h]
  rfl

theorem plain_val {l : LambdaId} (h : p.node id = .val l) :
    plain p lib model (n + 1) id env = (Expr.find env.locals l).map Expr.Local.val := by
  rw [plain, find_locals]
  simp only [step, h]
  cases Env.lookup env l <;> rfl

theorem plain_key {l : LambdaId} (h : p.node id = .key l) :
    plain p lib model (n + 1) id env = (Expr.find env.locals l).map Expr.Local.key := by
  rw [plain, find_locals]
  simp only [step, h]
  cases Env.lookup env l <;> rfl

theorem plain_context {l : LambdaId} (h : p.node id = .context l) :
    plain p lib model (n + 1) id env = Expr.findContext env.locals l := by
  rw [plain, findContext_locals]
  simp only [step, h]
  cases Env.context env l <;> rfl

theorem plain_get {o k : NodeId} (h : p.node id = .get o k) :
    plain p lib model (n + 1) id env = (do
      let o ← plain p lib model n o env
      let k ← plain p lib model n k env
      o.get k) := by
  rw [plain]
  simp only [step, h]
  refine bind_congr fun o => bind_congr fun k => ?_
  cases o.get k <;> rfl

private theorem plain_iterate {verb : CollectionVerb} {source body : NodeId} {lambda : LambdaId}
    {ctx : Option NodeId} (h : p.node id = .iterate verb source lambda body ctx) :
    plain p lib model (n + 1) id env = (do
      let source ← plain p lib model n source env
      let ctx ← contextValue (fun c => plain p lib model n c env) ctx
      verb.iterate source fun key element =>
        plain p lib model n body (⟨lambda, element, key, ctx, 0⟩ :: env)) := by
  rw [plain]
  simp only [step, h]
  rfl

private theorem plain_combine (hr : (p.node id).isReference = false)
    (hi : (p.node id).isIterate = false) :
    plain p lib model (n + 1) id env =
      (p.node id).combine (fun c => plain p lib model n c env) lib.call := by
  rw [plain, step_combine hr hi]

/-! ### What the value of a node depends on -/

/-- Two environments bind the functions that a node reads alike. -/
def Alike (p : Program) (id : NodeId) (env env' : Env) : Prop :=
  ∀ l ∈ p.free id, Expr.find env.locals l = Expr.find env'.locals l

theorem Alike.bind {lambda : LambdaId} {body : NodeId} (h : Alike p id env env')
    (hf : ∀ l ∈ p.free body, l ≠ lambda → l ∈ p.free id) {b b' : Binding}
    (hb : b.toLocal = b'.toLocal) (hl : b.lambda = lambda) :
    Alike p body (b :: env) (b' :: env') := by
  intro l hm
  change Expr.find (b.toLocal :: env.locals) l = Expr.find (b'.toLocal :: env'.locals) l
  rw [find_cons, find_cons, ← hb]
  split
  · rfl
  · rename_i hne
    exact h l (hf l hm fun heq => hne (hl.trans heq.symm))

section
variable {m : Type → Type} [Monad m] [LawfulMonad m] [MonadExceptOf EvalError m]
  {invoke : String → List Value → m Value} {number number' : BindingKey → m BindingId}
  {eval eval' : NodeId → Env → m Value}

/-- The value of a node is decided by the bindings that it refers to, the values of its parts, and
what an iteration makes of the elements. -/
theorem step_congr (h : Alike p id env env') (hl : p.Lawful)
    (here : (p.node id).isIterate = false →
      ∀ c ∈ (p.node id).children, eval c env = eval' c env')
    (outside : ∀ verb source lambda body ctx, p.node id = .iterate verb source lambda body ctx →
      ∀ c ∈ source :: ctx.toList, eval c env = eval' c env')
    (inside : ∀ verb source lambda body ctx, p.node id = .iterate verb source lambda body ctx →
      ∀ element key (v : Option Value), v.isSome = ctx.isSome →
        (number ⟨id, bindingsRead p id env, key⟩ >>= fun n =>
            eval body (⟨lambda, element, key, v, n⟩ :: env)) =
          number' ⟨id, bindingsRead p id env', key⟩ >>= fun n =>
            eval' body (⟨lambda, element, key, v, n⟩ :: env')) :
    step p model invoke number eval id env = step p model invoke number' eval' id env' := by
  have bound {α : Type} {l : LambdaId} (hm : (p.node id).Needs p.free l) {f : Binding → m α}
      (g : Expr.Local → m α) (hf : ∀ b, f b = g b.toLocal) :
      (MonadExcept.ofExcept (Env.lookup env l) >>= f) =
        (MonadExcept.ofExcept (Env.lookup env' l) >>= f) := by
    have same := h l ((hl.mem_free id l).mpr hm)
    rw [find_locals, find_locals] at same
    cases hb : Env.lookup env l with
    | error e =>
      cases hb' : Env.lookup env' l with
      | error e' =>
        rw [hb, hb'] at same
        rw [Except.error.inj same]
      | ok b' => simp [hb, hb', Except.map] at same
    | ok b =>
      cases hb' : Env.lookup env' l with
      | error e' => simp [hb, hb', Except.map] at same
      | ok b' =>
        rw [hb, hb'] at same
        have local_eq : b.toLocal = b'.toLocal := Except.ok.inj same
        change (pure b >>= f) = (pure b' >>= f)
        rw [pure_bind, pure_bind, hf, hf, local_eq]
  cases hn : p.node id with
  | root | literal v => simp only [step, hn]
  | val l =>
    simp only [step, hn]
    exact bound (by simp [hn, Node.Needs]) (fun b => pure b.val) fun _ => rfl
  | key l =>
    simp only [step, hn]
    exact bound (by simp [hn, Node.Needs]) (fun b => pure b.key) fun _ => rfl
  | context l =>
    simp only [step, hn]
    rw [← findContext_locals, ← findContext_locals, Expr.findContext, Expr.findContext,
      h l ((hl.mem_free id l).mpr (by simp [hn, Node.Needs]))]
  | get o k =>
    have hi : (p.node id).isIterate = false := by simp [hn, Node.isIterate]
    simp only [step, hn]
    rw [here hi o (by simp [hn, Node.children])]
    simp only [here hi k (by simp [hn, Node.children])]
  | iterate verb source lambda body ctx =>
    have outside := outside verb source lambda body ctx hn
    have inside := inside verb source lambda body ctx hn
    simp only [step, hn]
    rw [outside source List.mem_cons_self]
    refine bind_congr fun s => ?_
    -- Whether a binding has a context is known from the iteration.
    cases ctx with
    | none =>
      simp only [contextValue, pure_bind]
      exact congrArg _ (funext₂ fun key element => inside element key none rfl)
    | some c =>
      simp only [contextValue, outside c (by simp), map_eq_pure_bind, bind_assoc, pure_bind]
      refine bind_congr fun v => ?_
      exact congrArg _ (funext₂ fun key element => inside element key (some v) rfl)
  | _ =>
    have hi : (p.node id).isIterate = false := by simp [hn, Node.isIterate]
    have hr : (p.node id).isReference = false := by simp [hn, Node.isReference]
    rw [step_combine hr hi, step_combine hr hi]
    exact Node.combine_congr (here hi)

/-- Bindings that a node reads decide its value, as far as they go without their numbers, together
with the values of its parts. -/
theorem step_congr_alike (hl : p.Lawful) (h : Alike p id env env')
    (parts : ∀ c ∈ (p.node id).children, ∀ e e', Alike p c e e' → eval c e = eval' c e') :
    step p model invoke (fun _ => pure 0) eval id env =
      step p model invoke (fun _ => pure 0) eval' id env' := by
  refine step_congr h hl (fun hi c hc => ?_) (fun verb source lambda body ctx hn c hc => ?_)
    fun verb source lambda body ctx hn element key v _ => ?_
  · exact parts c hc env env' fun l hm => h l (hl.free_part hi hc hm)
  · exact parts c (by rw [hn]; exact List.mem_append_left _ hc) env env'
      fun l hm => h l (hl.free_source hn hc hm)
  · rw [pure_bind, pure_bind]
    apply parts body (by simp [hn, Node.children])
    exact h.bind (fun l hm hne => hl.free_body hn hm hne) rfl rfl

end

/-- Bindings that a node reads decide its value, whatever depth beyond the node's position there
is. -/
theorem plain_congr (hl : p.Lawful) {k : Nat} (hn : id < n) (hk : id < k)
    (h : Alike p id env env') :
    plain p lib model n id env = plain p lib model k id env' := by
  induction n generalizing k id env env' with
  | zero => cases hn
  | succ n ih =>
    cases k with
    | zero => cases hk
    | succ k =>
      apply step_congr_alike hl h
      intro c hc e e' he
      have lt := hl.child_lt id c hc
      exact ih (Nat.lt_of_lt_of_le lt (Nat.le_of_lt_succ hn))
        (Nat.lt_of_lt_of_le lt (Nat.le_of_lt_succ hk)) he

/-! ### Values at the depth that a position needs -/

/-- The value of a node, computed anew. -/
def value (p : Program) (lib : Library) (model : Value) (id : NodeId) (env : Env) :
    Except EvalError Value := plain p lib model (id + 1) id env

variable (hl : p.Lawful)
include hl

theorem value_congr (h : Alike p id env env') :
    value p lib model id env = value p lib model id env' :=
  plain_congr hl (Nat.lt_succ_self id) (Nat.lt_succ_self id) h

private theorem plain_part {c : NodeId} (hc : c ∈ (p.node id).children) (env : Env) :
    plain p lib model id c env = value p lib model c env :=
  plain_congr hl (hl.child_lt id c hc) (Nat.lt_succ_self c) fun _ _ => rfl

theorem value_get {o k : NodeId} (h : p.node id = .get o k) : value p lib model id env = (do
    let o ← value p lib model o env
    let k ← value p lib model k env
    o.get k) := by
  rw [value, plain_get h, plain_part hl (by simp [h, Node.children]),
    plain_part hl (by simp [h, Node.children])]

theorem value_iterate {verb : CollectionVerb} {source body : NodeId} {lambda : LambdaId}
    {ctx : Option NodeId} (h : p.node id = .iterate verb source lambda body ctx) :
    value p lib model id env = (do
      let source ← value p lib model source env
      let ctx ← contextValue (fun c => value p lib model c env) ctx
      verb.iterate source fun key element =>
        value p lib model body (⟨lambda, element, key, ctx, 0⟩ :: env)) := by
  have context : contextValue (fun c => plain p lib model id c env) ctx =
      contextValue (fun c => value p lib model c env) ctx := by
    cases ctx with
    | none => rfl
    | some c => rw [contextValue, contextValue, plain_part hl (by simp [h, Node.children])]
  have inside (env : Env) : plain p lib model id body env = value p lib model body env :=
    plain_part hl (by simp [h, Node.children]) env
  rw [value, plain_iterate h, plain_part hl (by simp [h, Node.children]), context]
  simp only [inside]

theorem value_combine (hr : (p.node id).isReference = false) (hi : (p.node id).isIterate = false) :
    value p lib model id env =
      (p.node id).combine (fun c => value p lib model c env) lib.call := by
  rw [value, plain_combine hr hi]
  exact Node.combine_congr fun c hc => plain_part hl hc env

end Pass

end Recalc
