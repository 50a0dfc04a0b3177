import Recalc.Proofs.Expr.Folded
import Recalc.Proofs.Program.Lowering

/-! Sharing in the table of nodes. No two nodes are equal, every node stands for some expression,
and the functions that it reads are listed in order. So two expressions have one node exactly if
they are equal once their constants are folded. -/
namespace Recalc

/-! ### Nodes -/

namespace Node
variable {a b : Node}

theorem beq_symm (h : (a == b) = true) : (b == a) = true := by
  rcases beq_cases h with rfl | ⟨v, w, rfl, rfl, same⟩
  · exact h
  · have reverse : (w == v) = true := PartialEquivBEq.symm same
    exact reverse

/-- What is left of a node without its parts. -/
def head : Node → Head
  | root => .root
  | val l => .val l
  | key l => .key l
  | context l => .context l
  | literal v => .literal v
  | array _ => .array
  | object fields => .object (fields.map Prod.fst)
  | get _ _ => .get
  | iterate verb _ lambda _ ctx => .iterate verb lambda ctx.isSome
  | unary verb _ => .unary verb
  | range _ _ _ => .range
  | ternary _ _ _ => .ternary
  | and _ => .and
  | or _ => .or
  | binary verb _ _ => .binary verb
  | call function _ => .call function

private theorem Agrees.head_eq {n : Node} {e : Expr} (h : n.Agrees e) : n.head = e.head := by
  unfold Agrees at h
  split at h
  case h_6 => exact congrArg Head.object h
  case h_8 =>
    obtain ⟨rfl, rfl, same⟩ := h
    exact congrArg (Head.iterate _ _) same
  case h_16 => cases h
  all_goals
    cases h
    rfl

private theorem Agrees.isShared {n : Node} {e : Expr} (h : n.Agrees e) : e.isShared = false := by
  cases e with
  | shared label d => cases n <;> cases h
  | _ => rfl

private theorem Agrees.literal? {n : Node} {e : Expr} (h : n.Agrees e) : n.literal? = none := by
  cases n with
  | literal v => cases h
  | _ => rfl

/-- A node is its head with its parts. -/
theorem eq_of_head (h : a.head = b.head) (hc : a.children = b.children) : a = b := by
  have index : a.ctorIdx = b.ctorIdx := by
    cases a <;> cases b <;> first | rfl | cases h
  cases a <;> cases b <;> cases index
  case object fields fields' =>
    have names : fields.map Prod.fst = fields'.map Prod.fst := Head.object.inj h
    have whole : fields = (fields'.map Prod.fst).zip (fields'.map Prod.snd) :=
      List.zip_of_prod names hc
    rw [whole, ← List.zip_of_prod rfl rfl]
  case iterate ctx _ _ _ _ ctx' =>
    cases ctx <;> cases ctx' <;> simp_all [head, children]
  all_goals simp_all [head, children]

end Node

/-! ### What a node stands for -/

private theorem forall₂_join {α β γ : Type} {R : α → β → Prop} {S : α → γ → Prop} {T : β → γ → Prop}
    {as : List α} {bs : List β} {cs : List γ} (h : List.Forall₂ R as bs)
    (k : List.Forall₂ S as cs) (join : ∀ a b c, R a b → S a c → T b c) : List.Forall₂ T bs cs := by
  induction h generalizing cs with
  | nil =>
    cases k
    exact .nil
  | cons first _ ih =>
    cases k with
    | cons first' rest' => exact .cons (join _ _ _ first first') (ih rest')

private theorem eq_of_forall₂ {α β : Type} {S : β → β → Prop} {Q : α → β → Prop} {as bs : List α}
    {ds es : List β} (h : List.Forall₂ (fun a d => ∀ b e, Q b e → S d e → a = b) as ds)
    (same : List.Forall₂ S ds es) (k : List.Forall₂ Q bs es) : as = bs := by
  induction h generalizing bs es with
  | nil =>
    cases same
    cases k
    rfl
  | cons first _ ih =>
    cases same with
    | cons here later =>
      cases k with
      | cons first' rest' => rw [first _ _ first' here, ih later rest']

namespace Represents
variable {node : NodeId → Node} {rel : Value → Value → Prop} {id : NodeId} {d : Expr}

private theorem exists_constant {v : Value} (h : Represents node rel id d)
    (hn : node id = .literal v) :
    ∃ w, d.constant? = some w ∧ rel v w := by
  have same := h.literal?
  rw [hn] at same
  generalize d.constant? = found at same
  cases same with
  | some hw => exact ⟨_, rfl, hw⟩

/-- A node that is not a literal has the head and the parts of the expression inside of the
labels. -/
theorem exists_head (h : Represents node rel id d) (hn : (node id).literal? = none) :
    ∃ c : Expr, c.folded = d.folded ∧ c.constant? = none ∧ c.isShared = false ∧
      (node id).head = c.head ∧
      List.Forall₂ (Represents node rel) (node id).children c.parts := by
  induction d using Expr.inductionOn with
  | step d ih =>
    cases h with
    | constant const literal same =>
      rw [literal] at hn
      cases hn
    | @shared _ label e inner =>
      rw [Expr.folded_shared]
      exact ih e List.mem_cons_self inner
    | head varies agrees parts => exact ⟨d, rfl, varies, agrees.isShared, agrees.head_eq, parts⟩

end Represents

namespace NodeTable
variable {t : NodeTable} {i j : NodeId} {e d : Expr}

/-- What one node represents is equal once it is folded. -/
theorem folded_beq (h : t.Represents i e) (h' : t.Represents i d) :
    (e.folded == d.folded) = true := by
  refine h.induct (motive := fun i e => ∀ d, t.Represents i d → (e.folded == d.folded) = true)
    ?constant ?shared ?head d h'
  case constant =>
    intro i e v w const literal same d hd
    obtain ⟨w', const', same'⟩ := hd.exists_constant literal
    rw [Expr.folded_of_constant const, Expr.folded_of_constant const', Expr.beq_literal]
    exact PartialEquivBEq.trans (PartialEquivBEq.symm same) same'
  case shared =>
    intro i label e ih d hd
    rw [Expr.folded_shared]
    exact ih d hd
  case head =>
    intro i e varies agrees parts d hd
    obtain ⟨c, folded, varies', unlabeled, head, parts'⟩ := hd.exists_head agrees.literal?
    rw [← folded, Expr.folded_beq_iff varies agrees.isShared varies' unlabeled,
      ← agrees.head_eq, head]
    exact ⟨rfl, forall₂_join parts parts' fun k c d ih hd => ih d hd⟩

/-- No two nodes are equal. -/
def Distinct (t : NodeTable) : Prop :=
  ∀ i < t.entries.size, ∀ j < t.entries.size, (t.node i == t.node j) = true → i = j

/-- Expressions that are equal once they are folded have one node. -/
theorem Distinct.eq_of_folded (ht : t.Distinct) (law : t.Lawful) (hi : i < t.entries.size)
    (hj : j < t.entries.size) (h : t.Represents i e) (h' : t.Represents j d)
    (same : (e.folded == d.folded) = true) : i = j := by
  refine h.induct (motive := fun i e => i < t.entries.size → ∀ j d,
    j < t.entries.size ∧ t.Represents j d → (e.folded == d.folded) = true → i = j)
    ?constant ?shared ?head hi j d ⟨hj, h'⟩ same
  case constant =>
    intro i e v w const literal hv hi j d hd same
    obtain ⟨w', const', hw⟩ := Expr.constant_of_folded same const
    obtain ⟨v', literal', hv'⟩ := hd.2.exists_literal const'
    have values : (v == v') = true :=
      PartialEquivBEq.trans (PartialEquivBEq.trans hv hw) (PartialEquivBEq.symm hv')
    refine ht i hi j hd.1 ?_
    rw [literal, literal']
    exact values
  case shared =>
    intro i label e ih hi j d hd same
    rw [Expr.folded_shared] at same
    exact ih hi j d hd same
  case head =>
    intro i e varies agrees parts hi j d hd same
    have literal : (t.node j).literal? = none := by
      cases hn : t.node j with
      | literal v =>
        obtain ⟨w, hw, -⟩ := hd.2.exists_constant hn
        rw [Expr.varies_of_folded same varies] at hw
        cases hw
      | _ => rfl
    -- Both nodes have the head and, by induction, the nodes of the parts: they are equal nodes.
    obtain ⟨c, folded, varies', unlabeled, head, parts'⟩ := hd.2.exists_head literal
    rw [← folded, Expr.folded_beq_iff varies agrees.isShared varies' unlabeled] at same
    have heads : (t.node i).head = (t.node j).head := by
      rw [agrees.head_eq, same.1, head]
    have children : (t.node i).children = (t.node j).children := by
      refine eq_of_forall₂ (Q := fun l c => l < t.entries.size ∧ t.Represents l c) ?_ same.2
        ((forall₂_mem parts').imp fun l c hl => ?_)
      · exact (forall₂_mem parts).imp fun k c hk => hk.2.2 (law.child_lt_size hk.1)
      · exact ⟨law.child_lt_size hl.1, hl.2.2⟩
    refine ht i hi j hd.1 ?_
    rw [Node.eq_of_head heads children]
    exact Node.beq_self _

/-- In a table without equal nodes two expressions have one node exactly if they are equal once they
are folded. -/
theorem Distinct.eq_iff_folded (ht : t.Distinct) (law : t.Lawful) (hi : i < t.entries.size)
    (hj : j < t.entries.size) (h : t.Represents i e) (h' : t.Represents j d) :
    i = j ↔ (e.folded == d.folded) = true := by
  constructor
  · rintro rfl
    exact folded_beq h h'
  · exact ht.eq_of_folded law hi hj h h'

/-! ### Interning -/

/-- No two nodes are equal, every node stands for an expression, and the functions that it reads are
in order. -/
structure Shares (t : NodeTable) : Prop where
  distinct : t.Distinct
  stands : ∀ id < t.entries.size, ∃ e, t.Represents id e
  sorted : ∀ id, (t.entry id).free.Pairwise (· < ·)

private theorem shares_empty : Shares empty where
  distinct i hi := absurd hi (Nat.not_lt_zero i)
  stands id hid := absurd hid (Nat.not_lt_zero id)
  sorted id := by
    rw [entry_of_size_le (Nat.zero_le id)]
    exact .nil

end NodeTable

namespace LambdaSet
variable {l : LambdaId} {s : List LambdaId}

private theorem sorted_insert (h : s.Pairwise (· < ·)) : (insert l s).Pairwise (· < ·) := by
  induction s with
  | nil => exact List.pairwise_singleton _ _
  | cons m rest ih =>
    obtain ⟨above, rest'⟩ := List.pairwise_cons.mp h
    unfold insert
    split
    · rename_i hlt
      refine List.pairwise_cons.mpr ⟨List.forall_mem_cons.mpr ⟨hlt, fun k hk => ?_⟩, h⟩
      exact Nat.lt_trans hlt (above k hk)
    · split
      · exact h
      · rename_i hge hne
        refine List.pairwise_cons.mpr ⟨fun k hk => ?_, ih rest'⟩
        rcases mem_insert.mp hk with rfl | hk
        · exact Nat.lt_of_le_of_ne (Nat.not_lt.mp hge) (Ne.symm hne)
        · exact above k hk

private theorem sorted_union {a b : List LambdaId} (h : a.Pairwise (· < ·)) :
    (union a b).Pairwise (· < ·) := by
  unfold union
  induction b generalizing a with
  | nil => exact h
  | cons l rest ih => exact ih (sorted_insert h)

private theorem sorted_unions (sets : List (List LambdaId)) : (unions sets).Pairwise (· < ·) := by
  have fold (start : List LambdaId) (h : start.Pairwise (· < ·)) :
      (sets.foldl union start).Pairwise (· < ·) := by
    induction sets generalizing start with
    | nil => exact h
    | cons s rest ih => exact ih _ (sorted_union h)
  exact fold [] .nil

end LambdaSet

namespace NodeTable
variable {t : NodeTable} {n : Node} {e : Expr}

private theorem sorted_outside (t : NodeTable) (read : Entry → List LambdaId) (n : Node) :
    (t.outside read n).Pairwise (· < ·) := by
  unfold outside
  split
  · exact LambdaSet.sorted_union (LambdaSet.sorted_unions _)
  · exact LambdaSet.sorted_unions _

private theorem sorted_free (t : NodeTable) (n : Node) : (t.free n).Pairwise (· < ·) := by
  unfold free
  split
  · exact List.pairwise_singleton _ _
  · exact List.pairwise_singleton _ _
  · exact List.pairwise_singleton _ _
  · exact sorted_outside t _ n

private theorem extends_push (t : NodeTable) (n : Node) : t.Extends (t.push n) := by
  refine ⟨by simp [push], fun id hid => ?_⟩
  rw [entry_push, if_neg (Nat.ne_of_lt hid)]

/-- A node that stands for an expression can join a table. -/
theorem Shares.intern (ht : t.Shares) (law : t.Lawful)
    (he : (t.intern n).2.Represents (t.intern n).1 e) : (t.intern n).2.Shares := by
  rcases intern_cases t n with ⟨id, same, -⟩ | ⟨same, new⟩
  · rw [same]
    exact ht
  · rw [same] at he ⊢
    have size : (t.push n).entries.size = t.entries.size + 1 := by simp [push]
    refine ⟨fun i hi j hj equal => ?_, fun id hid => ?_, fun id => ?_⟩
    -- The new node differs from all nodes before it, whichever side it is on.
    · rw [size] at hi hj
      rw [node_push, node_push] at equal
      by_cases hi' : i = t.entries.size <;> by_cases hj' : j = t.entries.size
      · rw [hi', hj']
      · rw [if_pos hi', if_neg hj'] at equal
        have differs := new j (by omega)
        rw [Node.beq_symm equal] at differs
        cases differs
      · rw [if_neg hi', if_pos hj'] at equal
        have differs := new i (by omega)
        rw [equal] at differs
        cases differs
      · rw [if_neg hi', if_neg hj'] at equal
        exact ht.distinct i (by omega) j (by omega) equal
    · rw [size] at hid
      by_cases last : id = t.entries.size
      · subst last
        exact ⟨e, he⟩
      · have old : id < t.entries.size := by omega
        obtain ⟨d, hd⟩ := ht.stands id old
        exact ⟨d, (extends_push t n).represents law old hd⟩
    · rw [entry_push]
      split
      · exact sorted_free t n
      · exact ht.sorted id

/-- Only the nodes matter. -/
theorem Shares.congr {u : NodeTable} (ht : t.Shares) (same : u.entries = t.entries) :
    u.Shares := by
  have entry (id : NodeId) : u.entry id = t.entry id := by rw [NodeTable.entry, same]; rfl
  have node : u.node = t.node := funext fun id => congrArg Entry.node (entry id)
  refine ⟨?_, fun id hid => ?_, fun id => ?_⟩
  · rw [Distinct, node, same]
    exact ht.distinct
  · rw [same] at hid
    obtain ⟨e, he⟩ := ht.stands id hid
    refine ⟨e, ?_⟩
    change Recalc.Represents u.node _ id e
    rw [node]
    exact he
  · rw [entry]
    exact ht.sorted id

end NodeTable

/-! ### Lowering -/

namespace Lowering
open NodeTable

variable {output : String} {t u : NodeTable} {e : Expr} {id : NodeId} {ids : List NodeId}

private theorem internContainer_intern {make : List Value → Value} {n : Node}
    (h : internContainer make n ids t = .ok (id, u)) : ∃ n, t.intern n = (id, u) := by
  rw [internContainer, get_bind] at h
  cases hv : t.literals? ids with
  | none =>
    rw [hv] at h
    exact ⟨_, Except.ok.inj h⟩
  | some vs =>
    rw [hv] at h
    exact ⟨_, Except.ok.inj h⟩

/-- The node of an expression is one more node of the table. -/
theorem assemble_intern (h : assemble output e ids t = .ok (id, u)) :
    ∃ n, t.intern n = (id, u) := by
  cases e with
  | array items => exact internContainer_intern h
  | object fields =>
    rw [assemble, internObject_eq] at h
    exact internContainer_intern h
  | iterate verb source lambda body ctx =>
    rw [assemble, get_bind] at h
    split at h
    · cases h
    · exact ⟨_, Except.ok.inj h⟩
  | _ => exact ⟨_, Except.ok.inj h⟩

private theorem prepare_entries {a : Unit} (h : prepare e t = .ok (a, u)) :
    u.entries = t.entries := by
  cases e with
  | call function receiver args =>
    cases h
    rfl
  | _ =>
    cases h
    rfl

private theorem expr_lowered (ht : t.Sound fun _ => True) (h : expr output e t = .ok (id, u)) :
    Lowered (fun _ => True) t u [id] [e] :=
  (expr_outcome Expr.constantClass_true (by simp) ht).lowered h

private theorem exprs_lowered {es : List Expr} (ht : t.Sound fun _ => True)
    (h : exprs output es t = .ok (ids, u)) : Lowered (fun _ => True) t u ids es :=
  (exprs_outcome (fun _ _ _ ht => expr_outcome Expr.constantClass_true (by simp) ht) ht).lowered h

private theorem prepare_lowered {a : Unit} (ht : t.Sound fun _ => True)
    (h : prepare e t = .ok (a, u)) :
    Lowered (fun _ => True) t u [] [] :=
  Outcome.lowered (prepare_outcome (e := e) ht : Outcome _ "" t (fun _ => []) [] _) h

/-- Lowering keeps equal nodes one. -/
def KeepsSharing {α : Type} (x : LowerM α) : Prop :=
  ∀ t a u, t.Sound (fun _ => True) → t.Shares → x t = .ok (a, u) → u.Shares

private theorem exprs_keepsSharing {es : List Expr} (h : ∀ e ∈ es, KeepsSharing (expr output e)) :
    KeepsSharing (exprs output es) := by
  induction es with
  | nil =>
    intro t ids u _ hs run
    cases run
    exact hs
  | cons e rest ih =>
    intro t ids u ht hs run
    rw [exprs] at run
    obtain ⟨id, v, first, run⟩ := bind_eq_ok.mp run
    obtain ⟨more, w, later, run⟩ := bind_eq_ok.mp run
    obtain ⟨-, rfl⟩ := pure_eq_ok.mp run
    have here := h e List.mem_cons_self t id v ht hs first
    exact ih (fun d hd => h d (List.mem_cons_of_mem _ hd)) v more w (expr_lowered ht first).sound
      here later

private theorem expr_keepsSharing (e : Expr) : KeepsSharing (expr output e) := by
  induction e using Expr.inductionOn with
  | step e ih =>
    intro t id u ht hs run
    have lowered := expr_lowered ht run
    cases he : e.isShared with
    | true =>
      cases e with
      | shared label d =>
        rw [expr, get_bind] at run
        cases hk : t.sharedNode? label d with
        | some known =>
          rw [hk] at run
          cases run
          exact hs
        | none =>
          rw [hk] at run
          obtain ⟨inner, v, first, run⟩ := bind_eq_ok.mp run
          have kept := ih d List.mem_cons_self t inner v ht hs first
          cases run
          exact kept.congr rfl
      | _ => cases he
    | false =>
      have unlabeled : ∀ label d, e ≠ .shared label d := by
        rintro label d rfl
        cases he
      rw [expr_eq unlabeled] at run
      obtain ⟨_, v, prepared, run⟩ := bind_eq_ok.mp run
      obtain ⟨ids, w, parts, run⟩ := bind_eq_ok.mp run
      have shares := hs.congr (prepare_entries prepared)
      have sound := (prepare_lowered ht prepared).sound
      have kept := exprs_keepsSharing ih v ids w sound shares parts
      obtain ⟨n, interned⟩ := assemble_intern run
      have represents : (w.intern n).2.Represents (w.intern n).1 e := by
        rw [interned]
        exact (List.forall₂_cons.mp lowered.represents).1
      have joined := kept.intern (exprs_lowered sound parts).sound.lawful represents
      rw [interned] at joined
      exact joined

/-- Lowering expressions, each for its output, one after the other in one table. -/
def sequence (es : List (String × Expr)) : LowerM (List NodeId) :=
  es.mapM fun e => expr e.1 e.2

private theorem sequence_lowered {es : List (String × Expr)} (ht : t.Sound fun _ => True)
    (hs : t.Shares) (h : sequence es t = .ok (ids, u)) :
    Lowered (fun _ => True) t u ids (es.map Prod.snd) ∧ u.Shares := by
  induction es generalizing t ids with
  | nil =>
    cases h
    exact ⟨lowered_nil ht, hs⟩
  | cons e rest ih =>
    rw [sequence, List.mapM_cons] at h
    obtain ⟨id, v, first, h⟩ := bind_eq_ok.mp h
    obtain ⟨more, w, later, h⟩ := bind_eq_ok.mp h
    obtain ⟨rfl, rfl⟩ := pure_eq_ok.mp h
    have here := expr_lowered ht first
    obtain ⟨lowered, shares⟩ := ih here.sound (expr_keepsSharing e.2 t id v ht hs first) later
    exact ⟨here.append lowered, shares⟩

/-- After expressions were lowered into one table no two nodes are equal, and parts come before what
they are part of. Each node stands for an expression; the functions listed for it are in order, and
are those that the expression leaves unbound. Two of the expressions have the same node exactly if
they are equal once their constants are folded. -/
theorem sequence_shares {es : List (String × Expr)}
    (h : sequence es NodeTable.empty = .ok (ids, t)) :
    t.Distinct ∧
    (∀ i < t.entries.size, ∀ c ∈ (t.node i).children, c < i) ∧
    (∀ i < t.entries.size, (t.entry i).free.Pairwise (· < ·) ∧ (∃ e, t.Represents i e) ∧
      ∀ e, t.Represents i e → ∀ l, l ∈ (t.entry i).free ↔ e.Free (fun _ => True) l) ∧
    List.Forall₂ (fun e id => id < t.entries.size ∧ t.Represents id e.2) es ids ∧
    ∀ p ∈ es.zip ids, ∀ q ∈ es.zip ids,
      p.2 = q.2 ↔ (p.1.2.folded == q.1.2.folded) = true := by
  obtain ⟨lowered, shares⟩ := sequence_lowered sound_empty shares_empty h
  have law := lowered.sound.lawful
  have nodes := lowered.nodes.flip
  rw [List.forall₂_map_left_iff] at nodes
  refine ⟨shares.distinct, fun i _ => law.child_lt i, fun i hi => ?_, nodes, fun p hp q hq => ?_⟩
  · exact ⟨shares.sorted i, shares.stands i hi, fun e he l => lowered.sound.mem_free he⟩
  · obtain ⟨hi, he⟩ := List.forall₂_zip nodes hp
    obtain ⟨hj, hd⟩ := List.forall₂_zip nodes hq
    exact shares.distinct.eq_iff_folded law hi hj he hd

/-- An array of constants, the same array as a literal, and one that is not constant. -/
def arrays : List (String × Expr) :=
  [("members", .array [.literal (.int 1), .shared 0 (.literal (.int 2))]),
    ("whole", .literal (.arr [.int 1, .int 2])), ("varies", .array [.root, .literal (.int 2)])]

theorem sequence_arrays : ∃ t, sequence arrays NodeTable.empty = .ok ([2, 2, 4], t) ∧
    t.Distinct ∧ (∀ c ∈ (t.node 4).children, c < 4) ∧ (t.entry 4).free.Pairwise (· < ·) ∧
    ∀ p ∈ arrays.zip [2, 2, 4], ∀ q ∈ arrays.zip [2, 2, 4],
      p.2 = q.2 ↔ (p.1.2.folded == q.1.2.folded) = true := by
  have run : ∃ t, sequence arrays NodeTable.empty = .ok ([2, 2, 4], t) ∧ 4 < t.entries.size :=
    ⟨_, by with_unfolding_all rfl, by with_unfolding_all decide⟩
  obtain ⟨t, run, size⟩ := run
  obtain ⟨distinct, before, free, -, same⟩ := sequence_shares run
  exact ⟨t, run, distinct, before 4 size, (free 4 size).1, same⟩

end Lowering

end Recalc
