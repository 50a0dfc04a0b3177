import Recalc.Proofs.Program.Represents
import Recalc.Proofs.Value.Leaves

/-! Lowering an expression gives a node that represents it, in a table whose other nodes stay what
they are. It fails exactly if the expression lacks a context. -/
namespace Recalc

theorem Node.beq_self (n : Node) : (n == n) = true := by
  cases n with
  | root => rfl
  | literal v => exact BEq.refl v
  | array items | and items | or items => exact BEq.refl items
  | object fields => exact BEq.refl fields
  | val l | key l | context l => exact BEq.refl l
  | get | unary | call =>
    change (_ == _ && _ == _) = true
    simp
  | range | ternary | binary =>
    change (_ == _ && (_ == _ && _ == _)) = true
    simp
  | iterate =>
    change (_ == _ && (_ == _ && (_ == _ && (_ == _ && _ == _)))) = true
    simp

private theorem Node.readsOutside_congr {read read' : NodeId → List LambdaId} {l : LambdaId}
    {node : Node}
    (h : ∀ c ∈ node.children, read c = read' c) :
    node.ReadsOutside read l ↔ node.ReadsOutside read' l := by
  cases node with
  | val m | key m | context m => simp [Node.ReadsOutside, Node.children]
  | _ => exact Node.needs_congr h

private theorem Node.reads_congr {kind : ReferenceKind → Prop} {read read' : NodeId → List LambdaId}
    {l : LambdaId} {node : Node} (h : ∀ c ∈ node.children, read c = read' c) :
    node.Reads kind read l ↔ node.Reads kind read' l :=
  or_congr_right (Node.readsOutside_congr h)

theorem Node.needs_iff_reads {read : NodeId → List LambdaId} {l : LambdaId} {node : Node} :
    node.Needs read l ↔ node.Reads (fun _ => True) read l := by
  cases node <;> simp [Node.Needs, Node.Reads, Node.reference?, Node.ReadsOutside, Node.children,
    eq_comm]

namespace NodeTable

def node (t : NodeTable) (id : NodeId) : Node := (t.entry id).node

private theorem mem_contexts_iff {t : NodeTable} {l : LambdaId} {node : Node} :
    l ∈ t.contexts node ↔
    node.Reads (· = .context) (fun c => (t.entry c).contexts) l := by
  cases node <;> simp [contexts, Node.Reads, Node.reference?, mem_outside, Node.ReadsOutside,
    Node.children, eq_comm]

/-- A node of the table represents an expression, with equal values for constants. -/
abbrev Represents (t : NodeTable) (id : NodeId) (e : Expr) : Prop :=
  Recalc.Represents t.node (fun v w => (v == w) = true) id e

/-- A lawful table that lists the contexts that nodes read, with literals of a class, no two of them
equal. The node of a shared expression represents it. -/
structure Sound (D : Value → Prop) (t : NodeTable) : Prop where
  lawful : t.Lawful
  contexts : ∀ id l, l ∈ (t.entry id).contexts ↔
    (t.node id).Reads (· = .context) (fun c => (t.entry c).contexts) l
  literal : ∀ id v, t.node id = .literal v → D v
  unique : ∀ i j v w, t.node i = .literal v → t.node j = .literal w → (v == w) = true → v = w
  shared : ∀ label e id, t.shared.get? label = some (e, id) →
    t.Represents id e ∧ ¬ e.LacksContext

variable {D : Value → Prop} {t t' : NodeTable} {id : NodeId} {e : Expr}

theorem Extends.represents {rel : Value → Value → Prop} (he : t.Extends t') (ht : t.Lawful)
    (hid : id < t.entries.size) (h : Recalc.Represents t.node rel id e) :
    Recalc.Represents t'.node rel id e :=
  h.extend hid (fun i hi => congrArg Entry.node (he.entry_eq i hi)) ht.child_lt

theorem Sound.mem_free (hs : t.Sound D) (h : t.Represents id e) {l : LambdaId} :
    l ∈ (t.entry id).free ↔ e.Free (fun _ => True) l :=
  have law (id : NodeId) (l : LambdaId) : l ∈ (t.entry id).free ↔
      (t.node id).Reads (fun _ => True) (fun c => (t.entry c).free) l :=
    (hs.lawful.mem_free id l).trans Node.needs_iff_reads
  h.mem_read law

private theorem Sound.mem_contexts (hs : t.Sound D) (h : t.Represents id e) {l : LambdaId} :
    l ∈ (t.entry id).contexts ↔ e.Free (· = .context) l :=
  h.mem_read hs.contexts

theorem sound_empty : Sound D empty where
  lawful := lawful_empty
  contexts id l := by
    rw [node, entry_of_size_le (Nat.zero_le id)]
    simp [Node.Reads, Node.reference?, Node.ReadsOutside, Node.children, default,
      instInhabitedEntry.default, instInhabitedNode.default]
  literal id v h := by
    rw [node, entry_of_size_le (Nat.zero_le id)] at h
    cases h
  unique i j v w h := by
    rw [node, entry_of_size_le (Nat.zero_le i)] at h
    cases h
  shared label e id h := by simp [empty] at h

theorem Sound.mono {E : Value → Prop} (h : t.Sound D) (hDE : ∀ v, D v → E v) : t.Sound E :=
  ⟨h.lawful, h.contexts, fun id v hv => hDE v (h.literal id v hv), h.unique, h.shared⟩

theorem node_of_size_le (h : t.entries.size ≤ id) : t.node id = .root := by
  rw [node, entry_of_size_le h]
  rfl

theorem Lawful.child_lt_size (ht : t.Lawful) {c : NodeId} (hc : c ∈ (t.node id).children) :
    c < t.entries.size := by
  by_contra hsize
  have hid : t.entries.size ≤ id :=
    Nat.le_trans (Nat.not_lt.mp hsize) (Nat.le_of_lt (ht.child_lt id c hc))
  rw [node_of_size_le hid] at hc
  cases hc

theorem lt_size_of_literal {v : Value} (h : t.node id = .literal v) : id < t.entries.size := by
  by_contra hsize
  rw [node_of_size_le (Nat.not_lt.mp hsize)] at h
  cases h

/-! ### Interning -/

/-- The table with one more node. -/
def push (t : NodeTable) (n : Node) : NodeTable :=
  { t with entries := t.entries.push ⟨n, t.free n, t.contexts n⟩ }

variable {n : Node}

theorem entry_push (id : NodeId) : (t.push n).entry id =
    if id = t.entries.size then ⟨n, t.free n, t.contexts n⟩ else t.entry id := by
  simp only [push, entry, Array.getD_eq_getD_getElem?, Array.getElem?_push]
  split <;> rfl

theorem node_push (id : NodeId) :
    (t.push n).node id = if id = t.entries.size then n else t.node id := by
  rw [node, entry_push]
  split <;> rfl

variable (t n) in
/-- A node gets the place of an equal one, and a new place if there is none. -/
theorem intern_cases : (∃ id, t.intern n = (id, t) ∧ (t.node id == n) = true) ∨
    t.intern n = (t.entries.size, t.push n) ∧
      ∀ id < t.entries.size, (t.node id == n) = false := by
  have entry (id : NodeId) (hid : id < t.entries.size) : t.entry id = t.entries[id] := by
    rw [NodeTable.entry, Array.getD_eq_getD_getElem?, Array.getElem?_eq_getElem hid]
    rfl
  unfold NodeTable.intern
  split
  · rename_i id h
    obtain ⟨hid, hbeq, -⟩ := Array.findIdx?_eq_some_iff_getElem.mp h
    refine .inl ⟨id, rfl, ?_⟩
    rw [node, entry id hid]
    exact hbeq
  · rename_i h
    refine .inr ⟨rfl, fun id hid => ?_⟩
    rw [node, entry id hid]
    exact Array.findIdx?_eq_none_iff.mp h _ (Array.getElem_mem hid)

private theorem Sound.push (hs : t.Sound D) (hc : ∀ c ∈ n.children, c < t.entries.size)
    (hl : ∀ v, n = .literal v → D v) (new : ∀ id < t.entries.size, (t.node id == n) = false)
    (lawful : (t.push n).Lawful) (extend : t.Extends (t.push n)) : (t.push n).Sound D where
  lawful := lawful
  contexts id l := by
    have old : ∀ c < t.entries.size, (t.entry c).contexts = ((t.push n).entry c).contexts :=
      fun c hlt => (congrArg Entry.contexts (extend.entry_eq c hlt)).symm
    rw [entry_push, node_push]
    split
    · exact mem_contexts_iff.trans (Node.reads_congr fun c hm => old c (hc c hm))
    · refine (hs.contexts id l).trans (Node.reads_congr fun c hm => ?_)
      exact old c (hs.lawful.child_lt_size hm)
  literal id v h := by
    rw [node_push] at h
    split at h
    · exact hl v h
    · exact hs.literal id v h
  unique i j v w hi hj same := by
    have differs {k : NodeId} {x y : Value} (hk : t.node k = .literal x) (hn : n = .literal y) :
        (x == y) = false := by
      have differs := new k (lt_size_of_literal hk)
      rw [hk, hn] at differs
      exact differs
    rw [node_push] at hi hj
    split at hi <;> split at hj
    · exact Node.literal.inj (hi.symm.trans hj)
    · exact absurd (PartialEquivBEq.symm same) (by simp [differs hj hi])
    · exact absurd same (by simp [differs hi hj])
    · exact hs.unique i j v w hi hj same
  shared label e id h := by
    obtain ⟨represents, context⟩ := hs.shared label e id h
    exact ⟨extend.represents hs.lawful (hs.lawful.shared_lt label e id h) represents, context⟩

/-- The place of a node in the table has an equal node, and the table stays sound. -/
theorem Sound.intern (hs : t.Sound D) (hc : ∀ c ∈ n.children, c < t.entries.size)
    (hl : ∀ v, n = .literal v → D v) :
    (t.intern n).2.Sound D ∧ t.Extends (t.intern n).2 ∧
      (t.intern n).1 < (t.intern n).2.entries.size ∧
      ((t.intern n).2.node (t.intern n).1 = n ∨
        ∃ v w, (t.intern n).2.node (t.intern n).1 = .literal v ∧ n = .literal w ∧
          (v == w) = true) := by
  obtain ⟨lawful, extend, lt⟩ := intern_lawful hs.lawful hc
  refine ⟨?_, extend, lt, ?_⟩
  · rcases intern_cases t n with ⟨id, same, -⟩ | ⟨same, new⟩
    · rw [same]
      exact hs
    · rw [same] at lawful extend ⊢
      exact hs.push hc hl new lawful extend
  · rcases intern_cases t n with ⟨id, same, equal⟩ | ⟨same, -⟩
    · rw [same]
      exact Node.beq_cases equal
    · rw [same]
      exact .inl ((node_push _).trans (if_pos rfl))

private theorem node_intern (hn : ∀ v, n ≠ .literal v) :
    (t.intern n).2.node (t.intern n).1 = n := by
  rcases intern_cases t n with ⟨id, same, equal⟩ | ⟨same, -⟩
  · rw [same]
    rcases Node.beq_cases equal with node | ⟨-, v, -, literal, -⟩
    · exact node
    · exact absurd literal (hn v)
  · rw [same]
    exact (node_push _).trans (if_pos rfl)

/-! ### Constants -/

private theorem literals?_rel {rel : Value → Value → Prop} {ids : List NodeId} {es : List Expr}
    (h : List.Forall₂ (Recalc.Represents t.node rel) ids es) :
    Option.Rel (List.Forall₂ rel) (t.literals? ids) (es.mapM Expr.constant?) := by
  change Option.Rel _ (ids.mapM fun id => (t.node id).literal?) _
  induction h with
  | nil => exact .some .nil
  | @cons id e ids es first _ ih =>
    have here := first.literal?
    rw [List.mapM_cons, List.mapM_cons]
    generalize (t.node id).literal? = v, e.constant? = w at here ⊢
    cases here with
    | none => exact .none
    | some same =>
      generalize (ids.mapM fun id => (t.node id).literal?) = vs, es.mapM Expr.constant? = ws at ih ⊢
      cases ih with
      | none => exact .none
      | some rest => exact .some (.cons same rest)

end NodeTable

/-! ### Assembling a node from the nodes of its parts -/

/-- The node with the head of an expression and the given parts. -/
def Expr.withParts : Expr → List NodeId → Node
  | .val l, _ => .val l
  | .key l, _ => .key l
  | .context l, _ => .context l
  | .literal v, _ => .literal v
  | .array _, ids => .array ids
  | .object fields, ids => .object ((fields.map Prod.fst).zip ids)
  | .get _ _, [o, k] => .get o k
  | .iterate verb _ lambda _ none, [source, body] => .iterate verb source lambda body none
  | .iterate verb _ lambda _ (some _), [source, ctx, body] =>
    .iterate verb source lambda body (some ctx)
  | .unary verb _, [operand] => .unary verb operand
  | .range _ _ _, [stop, start, step] => .range stop start step
  | .ternary _ _ _, [condition, consequent, alternative] =>
    .ternary condition consequent alternative
  | .and _, ids => .and ids
  | .or _, ids => .or ids
  | .binary verb _ _, [left, right] => .binary verb left right
  | .call function _ _, ids => .call function ids
  | _, _ => .root

theorem Expr.withParts_agrees {e : Expr} {ids : List NodeId} (hl : ids.length = e.parts.length)
    (hv : ∀ v, e ≠ .literal v) (hs : ∀ label d, e ≠ .shared label d) :
    (e.withParts ids).Agrees e ∧ (e.withParts ids).children = ids := by
  cases e with
  | shared label d => exact absurd rfl (hs label d)
  | literal v => exact absurd rfl (hv v)
  | object fields =>
    have hf : (fields.map Prod.fst).length = ids.length := by simpa [parts] using hl.symm
    exact ⟨List.map_fst_zip (Nat.le_of_eq hf), List.map_snd_zip (Nat.le_of_eq hf.symm)⟩
  | get o k | binary verb left right =>
    obtain ⟨a, b, rfl⟩ := List.length_eq_two.mp hl
    simp [withParts, Node.Agrees, Node.children]
  | range stop start step | ternary condition consequent alternative =>
    obtain ⟨a, b, c, rfl⟩ := List.length_eq_three.mp hl
    simp [withParts, Node.Agrees, Node.children]
  | unary verb operand =>
    obtain ⟨a, rfl⟩ := List.length_eq_one_iff.mp hl
    simp [withParts, Node.Agrees, Node.children]
  | iterate verb source lambda body ctx =>
    cases ctx with
    | none =>
      obtain ⟨a, b, rfl⟩ := List.length_eq_two.mp hl
      simp [withParts, Node.Agrees, Node.children]
    | some ctx =>
      obtain ⟨a, b, c, rfl⟩ := List.length_eq_three.mp hl
      simp [withParts, Node.Agrees, Node.children]
  | root | val l | key l | context l =>
    rw [List.length_eq_zero_iff.mp hl]
    simp [withParts, Node.Agrees, Node.children]
  | _ => simp [withParts, Node.Agrees, Node.children]

namespace Lowering

/-- What is done before the parts of an expression. -/
def prepare : Expr → LowerM Unit
  | .call function _ _ => addFunction function
  | _ => return ()

/-- The node of an expression, by the nodes of its parts. -/
def assemble (output : String) (e : Expr) (ids : List NodeId) : LowerM NodeId :=
  match e with
  | .array _ => internArray ids
  | .object fields => internObject ((fields.map Prod.fst).zip ids)
  | .iterate _ _ lambda _ ctx => do
    if ctx.isNone && ((← get).entry (ids.getLastD 0)).contexts.contains lambda then
      throw (.missingContext output)
    intern (e.withParts ids)
  | _ => intern (e.withParts ids)

private theorem fieldExprs_eq (output : String) (fields : List (String × Expr)) :
    fieldExprs output fields = do
      let ids ← exprs output (fields.map Prod.snd)
      return (fields.map Prod.fst).zip ids := by
  induction fields with
  | nil => simp [fieldExprs, exprs]
  | cons f rest ih => simp [fieldExprs, exprs, ih]

theorem expr_eq {output : String} {e : Expr} (hs : ∀ label d, e ≠ .shared label d) :
    expr output e = prepare e >>= fun _ => exprs output e.parts >>= assemble output e := by
  cases e with
  | shared label d => exact absurd rfl (hs label d)
  | array items | and items | or items =>
    rw [expr]
    rfl
  | object fields =>
    rw [expr, fieldExprs_eq, bind_assoc]
    rfl
  | iterate verb source lambda body ctx =>
    cases ctx <;> simp [expr, optionExpr, prepare, exprs, assemble, Expr.parts, Expr.withParts,
      internIteration]
  | _ => simp [expr, prepare, exprs, assemble, Expr.parts, Expr.withParts]

/-! ### Lowering -/

variable {D : Value → Prop} {output : String} {t u v : NodeTable} {ids more : List NodeId}
  {es ds : List Expr} {e : Expr} {id : NodeId}

/-- A sound extension of a table has nodes that represent some expressions. -/
structure Lowered (D : Value → Prop) (t u : NodeTable) (ids : List NodeId) (es : List Expr) :
    Prop where
  sound : u.Sound D
  extend : t.Extends u
  nodes : List.Forall₂ (fun id e => id < u.entries.size ∧ u.Represents id e) ids es

theorem lowered_nil (ht : t.Sound D) : Lowered D t t [] [] := ⟨ht, .refl t, .nil⟩

theorem Lowered.represents (h : Lowered D t u ids es) : List.Forall₂ u.Represents ids es :=
  h.nodes.imp fun _ _ hn => hn.2

theorem Lowered.lt (h : Lowered D t u ids es) : ∀ id ∈ ids, id < u.entries.size :=
  ((List.forall₂_and_left _ _).mp h.nodes).1

private theorem Lowered.extend_nodes (h : Lowered D t u ids es) (he : u.Extends v) :
    List.Forall₂ (fun id e => id < v.entries.size ∧ v.Represents id e) ids es :=
  h.nodes.imp fun _ _ hn =>
    ⟨Nat.lt_of_lt_of_le hn.1 he.size_le, he.represents h.sound.lawful hn.1 hn.2⟩

theorem Lowered.append (h : Lowered D t u ids es) (k : Lowered D u v more ds) :
    Lowered D t v (ids ++ more) (es ++ ds) where
  sound := k.sound
  extend := h.extend.trans k.extend
  nodes := List.rel_append (h.extend_nodes k.extend) k.nodes

/-- Interning the head of an expression over the nodes of its parts. -/
theorem Lowered.head {n : Node} (h : Lowered D t u n.children e.parts)
    (varies : e.constant? = none) (agrees : n.Agrees e) :
    Lowered D t (u.intern n).2 [(u.intern n).1] [e] := by
  have literal := agrees.ne_literal
  obtain ⟨sound, extend, lt, -⟩ := h.sound.intern h.lt fun w hw => absurd hw (literal w)
  refine ⟨sound, h.extend.trans extend, .cons ⟨lt, .head varies ?_ ?_⟩ .nil⟩
  · rw [NodeTable.node_intern literal]
    exact agrees
  · rw [NodeTable.node_intern literal]
    exact (h.extend_nodes extend).imp fun _ _ hn => hn.2

/-- Interning the value of a constant. -/
theorem Lowered.constant {w w' : Value} (h : Lowered D t u ids es) (const : e.constant? = some w')
    (same : (w == w') = true) (hD : D w) :
    Lowered D t (u.intern (.literal w)).2 [(u.intern (.literal w)).1] [e] := by
  obtain ⟨sound, extend, lt, node⟩ := h.sound.intern (n := .literal w) (by simp [Node.children])
    (by rintro _ ⟨⟩; exact hD)
  refine ⟨sound, h.extend.trans extend, .cons ⟨lt, ?_⟩ .nil⟩
  rcases node with node | ⟨x, _, node, ⟨⟩, hx⟩
  · exact .constant const node same
  · exact .constant const node (PartialEquivBEq.trans hx same)

theorem bind_elim {α β : Type} {x : LowerM α} {f : α → LowerM β}
    {P : Except ScopeError (β × NodeTable) → Prop}
    (error : ∀ err, x t = .error err → P (.error err))
    (ok : ∀ a u, x t = .ok (a, u) → P (f a u)) : P ((x >>= f) t) := by
  change P (x t >>= fun (a, u) => f a u)
  cases hx : x t with
  | error err => exact error err hx
  | ok r => exact ok r.1 r.2 hx

/-- What lowering some expressions gives: nodes that represent them, or the error that one of them
lacks a context. -/
def Outcome {α : Type} (D : Value → Prop) (output : String) (t : NodeTable)
    (nodes : α → List NodeId) (es : List Expr) : Except ScopeError (α × NodeTable) → Prop
  | .ok (a, u) => Lowered D t u (nodes a) es ∧ ∀ e ∈ es, ¬ e.LacksContext
  | .error err => err = .missingContext output ∧ ∃ e ∈ es, e.LacksContext

theorem Outcome.lowered {α : Type} {nodes : α → List NodeId} {x : Except ScopeError (α × NodeTable)}
    {a : α} (h : Outcome D output t nodes es x) (run : x = .ok (a, u)) :
    Lowered D t u (nodes a) es := by
  rw [run] at h
  exact h.1

theorem Outcome.bind {α β : Type} {nodes : α → List NodeId} {nodes' : β → List NodeId}
    {x : LowerM α} {f : α → LowerM β} {s s' : NodeTable} (h : Outcome D output s nodes es (x t))
    (lacks : (∃ e ∈ es, e.LacksContext) → ∃ e ∈ ds, e.LacksContext)
    (next : ∀ a u, Lowered D s u (nodes a) es → (∀ e ∈ es, ¬ e.LacksContext) →
      Outcome D output s' nodes' ds (f a u)) : Outcome D output s' nodes' ds ((x >>= f) t) := by
  refine bind_elim (fun err hx => ?_) (fun a u hx => ?_)
  · rw [hx] at h
    exact ⟨h.1, lacks h.2⟩
  · rw [hx] at h
    exact next a u h.1 h.2

theorem exprs_outcome (h : ∀ e ∈ es, ∀ t, t.Sound D →
      Outcome D output t ([·]) [e] (expr output e t)) (ht : t.Sound D) :
    Outcome D output t (fun ids => ids) es (exprs output es t) := by
  induction es generalizing t with
  | nil => exact ⟨lowered_nil ht, by simp⟩
  | cons e rest ih =>
    rw [exprs]
    refine (h e List.mem_cons_self t ht).bind (by simp +contextual) fun id u lu hu => ?_
    have later := ih (fun d hd => h d (List.mem_cons_of_mem _ hd)) lu.sound
    refine later.bind (by simp +contextual) fun ids v lv hv => ⟨lu.append lv, ?_⟩
    exact List.forall_mem_append.mpr ⟨hu, hv⟩

/-! ### Containers -/

/-- A container of nodes: a constant if they all are. -/
def internContainer (make : List Value → Value) (container : Node) (ids : List NodeId) :
    LowerM NodeId := do
  match (← get).literals? ids with
  | some values => intern (.literal (make values))
  | none => intern container

theorem get_bind {α : Type} {f : NodeTable → LowerM α} :
    ((get : LowerM NodeTable) >>= f) t = f t t := rfl

theorem snd_intern {n : Node} (run : intern n t = .ok (id, u)) : u = (t.intern n).2 :=
  (congrArg Prod.snd (Except.ok.inj run)).symm

theorem internArray_eq : internArray ids = internContainer .arr (.array ids) ids := rfl

theorem internObject_eq (fields : List (String × NodeId)) : internObject fields =
    internContainer (fun vs => .obj (Fields.ofList ((fields.map Prod.fst).zip vs)))
      (.object fields) (fields.map Prod.snd) := rfl

private theorem literals?_class {ws : List Value} (ht : t.Sound D)
    (h : t.literals? ids = some ws) : ∀ w ∈ ws, D w := by
  induction ids generalizing ws with
  | nil =>
    cases h
    simp
  | cons id rest ih =>
    simp only [NodeTable.literals?, List.mapM_cons, Option.bind_eq_bind, Option.bind_eq_some_iff,
      Option.pure_def, Option.some.injEq] at h
    obtain ⟨w, hw, ws, hr, rfl⟩ := h
    refine List.forall_mem_cons.mpr ⟨?_, ih hr⟩
    cases hn : (t.entry id).node with
    | literal w' =>
      rw [hn] at hw
      cases hw
      exact ht.literal id w hn
    | _ =>
      rw [hn] at hw
      cases hw

private theorem internContainer_outcome {make : List Value → Value} {n : Node}
    (h : Lowered D t u ids es) (const : e.constant? = (es.mapM Expr.constant?).map make)
    (context : ∀ d ∈ [e], ¬ d.LacksContext)
    (head : e.constant? = none → Lowered D t (u.intern n).2 [(u.intern n).1] [e])
    (same : ∀ {vs ws}, List.Forall₂ (fun v w => (v == w) = true) vs ws →
      (make vs == make ws) = true) (hD : ∀ ws, (∀ w ∈ ws, D w) → D (make ws)) :
    Outcome D output t ([·]) [e] (internContainer make n ids u) := by
  have rel := NodeTable.literals?_rel h.represents
  rw [internContainer, get_bind]
  have known : ∀ ws, u.literals? ids = some ws → ∀ w ∈ ws, D w := fun _ => literals?_class h.sound
  generalize u.literals? ids = found, es.mapM Expr.constant? = values at rel const known ⊢
  cases rel with
  | none => exact ⟨head const, context⟩
  | @some vs ws equal => exact ⟨h.constant const (same equal) (hD vs (known vs rfl)), context⟩

private theorem rel_getLastD {R : NodeId → Expr → Prop} (other : NodeId)
    (h : List.Forall₂ R ids (es ++ [e])) : R (ids.getLastD other) e := by
  induction es generalizing ids other with
  | nil =>
    cases h with
    | cons first rest =>
      cases rest
      exact first
  | cons d ds ih =>
    cases h with
    | cons first rest =>
      rw [List.getLastD_cons]
      exact ih _ rest

/-- The nodes of its parts become the node of an expression, unless it is an iteration that lacks
its context. -/
theorem assemble_outcome (hD : Expr.ConstantClass D) (hs : ∀ label d, e ≠ .shared label d)
    (he : ∀ w ∈ e.literals, D w) (h : Lowered D t u ids e.parts)
    (parts : ∀ c ∈ e.parts, ¬ c.LacksContext) :
    Outcome D output t ([·]) [e] (assemble output e ids u) := by
  have head (varies : e.constant? = none) :
      Lowered D t (u.intern (e.withParts ids)).2 [(u.intern (e.withParts ids)).1] [e] := by
    have literal : ∀ v, e ≠ .literal v := by
      rintro v rfl
      cases varies
    obtain ⟨agrees, children⟩ := Expr.withParts_agrees h.nodes.length_eq literal hs
    refine Lowered.head ?_ varies agrees
    rw [children]
    exact h
  have context (hi : e.isIterate = false) : ∀ d ∈ [e], ¬ d.LacksContext := by
    simpa [Expr.lacksContext_iff hi] using parts
  cases e with
  | shared label d => exact absurd rfl (hs label d)
  | literal w => exact ⟨h.constant rfl ReflBEq.rfl (he w List.mem_cons_self), context rfl⟩
  | array items =>
    rw [assemble, internArray_eq]
    exact internContainer_outcome h (Expr.constant?_array items) (context rfl) head Value.beq_arr
      hD.array
  | object fields =>
    have length : (fields.map Prod.fst).length = ids.length := by
      simpa [Expr.parts] using h.nodes.length_eq.symm
    rw [assemble, internObject_eq, List.map_fst_zip (Nat.le_of_eq length),
      List.map_snd_zip (Nat.le_of_eq length.symm)]
    refine internContainer_outcome h (Expr.constant?_object fields) (context rfl) head
      (Value.beq_obj_ofList _) fun ws hw => hD.object _ fun f hf => hw f.2 (List.of_mem_zip hf).2
  | iterate verb source lambda body ctx =>
    have reads := h.sound.mem_contexts (l := lambda) (rel_getLastD 0 h.represents)
    have lacks : (∃ d ∈ [Expr.iterate verb source lambda body ctx], d.LacksContext) ↔
        ctx = none ∧ body.Free (· = .context) lambda := by
      simpa [Expr.lacksContext_iterate] using fun c hc hl => absurd hl (parts c hc)
    rw [← reads] at lacks
    rw [assemble, get_bind]
    split
    · rename_i missing
      exact ⟨rfl, lacks.mpr (by simpa using missing)⟩
    · rename_i present
      refine ⟨head rfl, fun d hd hl => present ?_⟩
      simpa using lacks.mp ⟨d, hd, hl⟩
  | _ => exact ⟨head rfl, context rfl⟩

/-! ### Shared expressions -/

theorem sharedNode?_eq_some {label : Nat} (h : t.sharedNode? label e = some id) :
    t.shared.get? label = some (e, id) := by
  obtain ⟨⟨known, n⟩, hk, hn⟩ := Option.bind_eq_some_iff.mp h
  simp only [Option.ite_none_right_eq_some, Option.some.injEq] at hn
  rw [hk, (Expr.exact_iff known e).mp hn.1, hn.2]

private theorem Lowered.share {label : Nat} (h : Lowered D t u [id] [e])
    (context : ¬ e.LacksContext) :
    Lowered D t { u with shared := u.shared.insert label (e, id) } [id] [.shared label e] := by
  obtain ⟨lt, represents⟩ := (List.forall₂_cons.mp h.nodes).1
  have old := h.sound.lawful
  refine ⟨⟨⟨old.child_lt, old.mem_free, ?_⟩, h.sound.contexts, h.sound.literal,
    h.sound.unique, ?_⟩,
    ⟨h.extend.size_le, h.extend.entry_eq⟩, .cons ⟨lt, .shared represents⟩ .nil⟩
  · intro other d n hs
    rw [Std.TreeMap.get?_eq_getElem?, Std.TreeMap.getElem?_insert] at hs
    split at hs
    · cases hs
      exact lt
    · exact old.shared_lt other d n hs
  · intro other d n hs
    rw [Std.TreeMap.get?_eq_getElem?, Std.TreeMap.getElem?_insert] at hs
    split at hs
    · cases hs
      exact ⟨represents, context⟩
    · exact h.sound.shared other d n hs

private theorem shared_outcome {label : Nat} (ht : t.Sound D)
    (inner : Outcome D output t ([·]) [e] (expr output e t)) :
    Outcome D output t ([·]) [.shared label e] (expr output (.shared label e) t) := by
  have lacks : (Expr.shared label e).LacksContext ↔ e.LacksContext := by
    simp [Expr.lacksContext_iff (e := .shared label e) rfl, Expr.parts]
  rw [expr, get_bind]
  cases hs : t.sharedNode? label e with
  | some id =>
    have known := sharedNode?_eq_some hs
    obtain ⟨represents, context⟩ := ht.shared label e id known
    refine ⟨⟨ht, .refl t, .cons ⟨ht.lawful.shared_lt label e id known, .shared represents⟩ .nil⟩, ?_⟩
    simpa [lacks] using context
  | none =>
    refine inner.bind (by simp [lacks]) fun id u lu hu => ?_
    have context : ¬ e.LacksContext := hu e List.mem_cons_self
    exact ⟨lu.share context, by simpa [lacks] using context⟩

theorem prepare_outcome (ht : t.Sound D) :
    Outcome D output t (fun _ => []) [] (prepare e t) := by
  cases e with
  | call function receiver args =>
    have old := ht.lawful
    exact ⟨⟨⟨⟨old.child_lt, old.mem_free, old.shared_lt⟩, ht.contexts, ht.literal, ht.unique,
      ht.shared⟩,
      ⟨Nat.le_refl _, fun _ _ => rfl⟩, .nil⟩, by simp⟩
  | _ => exact ⟨lowered_nil ht, by simp⟩

/-- Lowering an expression gives a node that represents it, unless it lacks a context. -/
theorem expr_outcome (hD : Expr.ConstantClass D) (he : ∀ w ∈ e.literals, D w) (ht : t.Sound D) :
    Outcome D output t ([·]) [e] (expr output e t) := by
  induction e using Expr.inductionOn generalizing t with
  | step e ih =>
    have parts : ∀ c ∈ e.parts, ∀ t, t.Sound D → Outcome D output t ([·]) [c] (expr output c t) :=
      fun c hc t ht => ih c hc (fun w hw => he w (Expr.literals_of_part hc hw)) ht
    by_cases hs : ∃ label d, e = .shared label d
    · obtain ⟨label, d, rfl⟩ := hs
      exact shared_outcome ht (parts d List.mem_cons_self t ht)
    · replace hs : ∀ label d, e ≠ .shared label d := by simpa using hs
      have lacks : (∃ c ∈ e.parts, c.LacksContext) → ∃ d ∈ [e], d.LacksContext := by
        rintro ⟨c, hc, hl⟩
        exact ⟨e, List.mem_cons_self, Expr.lacksContext_of_part hc hl⟩
      rw [expr_eq hs]
      refine (prepare_outcome ht).bind (by simp) fun _ u lu _ => ?_
      refine (exprs_outcome parts lu.sound).bind lacks fun ids v lv hv => ?_
      exact assemble_outcome hD hs he (lu.append lv) hv

end Lowering

end Recalc
