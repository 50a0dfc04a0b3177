import Recalc.Proofs.Expr.Renaming
import Recalc.Proofs.Program.Links

/-! Compiling a model with its functions renumbered. Both lowerings go through tables with the same
nodes at the same places, up to the numbers of functions, so they end alike. -/
namespace Recalc
variable {f : LambdaId → LambdaId}

/-- A set has the functions of another one, renumbered. -/
def LambdaSet.Renames (f : LambdaId → LambdaId) (s s' : List LambdaId) : Prop :=
  ∀ l, l ∈ s' ↔ l ∈ s.map f

private theorem LambdaSet.Renames.mem_iff {s s' : List LambdaId} (h : Renames f s s')
    (hf : Function.Injective f) (l : LambdaId) : f l ∈ s' ↔ l ∈ s :=
  (h (f l)).trans (List.mem_map_of_injective hf)

private theorem LambdaSet.renames_nil : Renames f [] [] := fun _ => Iff.rfl

private theorem LambdaSet.renames_singleton (l : LambdaId) : Renames f [l] [f l] := fun _ => Iff.rfl

private theorem LambdaSet.Renames.eq_nil_iff {s s' : List LambdaId} (h : Renames f s s') :
    s' = [] ↔ s = [] := by
  simp only [List.eq_nil_iff_forall_not_mem]
  constructor
  · intro none l hl
    exact none (f l) ((h (f l)).mpr (List.mem_map_of_mem hl))
  · intro none l hl
    obtain ⟨k, hk, -⟩ := List.mem_map.mp ((h l).mp hl)
    exact none k hk

/-! ### Nodes -/

namespace Node

/-- The node with its function renumbered, if it has one. -/
def rename (f : LambdaId → LambdaId) : Node → Node
  | val l => val (f l)
  | key l => key (f l)
  | context l => context (f l)
  | iterate verb source lambda body ctx => iterate verb source (f lambda) body ctx
  | node => node

private theorem rename_injective (hf : Function.Injective f) : Function.Injective (rename f) := by
  intro a b h
  cases a <;> cases b <;> simp_all [rename, hf.eq_iff]

@[simp]
theorem children_rename (n : Node) : (n.rename f).children = n.children := by cases n <;> rfl

@[simp]
theorem literal?_rename (n : Node) : (n.rename f).literal? = n.literal? := by cases n <;> rfl

private theorem beq_rename (hf : Function.Injective f) (a b : Node) :
    (a.rename f == b.rename f) = (a == b) := by
  rw [Bool.eq_iff_iff]
  constructor
  · intro h
    rcases beq_cases h with same | ⟨v, w, ha, hb, equal⟩
    · rw [rename_injective hf same]
      exact beq_self b
    · have literal {n : Node} {x : Value} (hn : n.rename f = .literal x) : n = .literal x :=
        rename_injective hf hn
      rw [literal ha, literal hb]
      exact equal
  · intro h
    rcases beq_cases h with same | ⟨v, w, rfl, rfl, equal⟩
    · rw [same]
      exact beq_self _
    · exact equal

/-- A renumbered node reads the renumbered functions. -/
theorem readsOutside_rename (hf : Function.Injective f) {read read' : NodeId → List LambdaId}
    (h : ∀ c, LambdaSet.Renames f (read c) (read' c)) (n : Node) (l : LambdaId) :
    (n.rename f).ReadsOutside read' l ↔ ∃ k, n.ReadsOutside read k ∧ f k = l := by
  have some_part (cs : List NodeId) :
      (∃ c ∈ cs, l ∈ read' c) ↔ ∃ k, (∃ c ∈ cs, k ∈ read c) ∧ f k = l := by
    constructor
    · rintro ⟨c, hc, hl⟩
      obtain ⟨k, hk, rfl⟩ := List.mem_map.mp ((h c l).mp hl)
      exact ⟨k, ⟨c, hc, hk⟩, rfl⟩
    · rintro ⟨k, ⟨c, hc, hk⟩, rfl⟩
      exact ⟨c, hc, ((h c).mem_iff hf k).mpr hk⟩
  cases n with
  | iterate verb source lambda body ctx =>
    simp only [rename, ReadsOutside, some_part, or_and_right, exists_or]
    refine or_congr_right ⟨?_, ?_⟩
    · rintro ⟨hl, hne⟩
      obtain ⟨k, hk, rfl⟩ := List.mem_map.mp ((h body l).mp hl)
      exact ⟨k, ⟨hk, fun same => hne (congrArg f same)⟩, rfl⟩
    · rintro ⟨k, ⟨hk, hne⟩, rfl⟩
      exact ⟨((h body).mem_iff hf k).mpr hk, fun same => hne (hf same)⟩
  | _ => exact some_part _

end Node

/-! ### Tables -/

/-- An entry lists the renumbered functions. -/
structure Entry.Renames (f : LambdaId → LambdaId) (e e' : Entry) : Prop where
  free : LambdaSet.Renames f e.free e'.free
  contexts : LambdaSet.Renames f e.contexts e'.contexts

namespace NodeTable

/-- A table has the nodes of another one, renumbered. -/
structure Renames (f : LambdaId → LambdaId) (t u : NodeTable) : Prop where
  nodes : u.entries.map Entry.node = t.entries.map fun e => e.node.rename f
  entry : ∀ id, (t.entry id).Renames f (u.entry id)
  functions : u.functions = t.functions
  shared : ∀ label, u.shared.get? label =
    (t.shared.get? label).map fun known => (known.1.rename f, known.2)

variable {t u : NodeTable}

private theorem renames_empty : Renames f empty empty where
  nodes := by simp [empty]
  entry id := by
    rw [entry_of_size_le (Nat.zero_le id)]
    exact ⟨LambdaSet.renames_nil, LambdaSet.renames_nil⟩
  functions := rfl
  shared label := by simp [empty]

private theorem Renames.size (h : t.Renames f u) : u.entries.size = t.entries.size := by
  simpa using congrArg Array.size h.nodes

private theorem Renames.node (h : t.Renames f u) (id : NodeId) :
    u.node id = (t.node id).rename f := by
  have there := congrArg (fun nodes => nodes[id]?) h.nodes
  simp only [Array.getElem?_map] at there
  simp only [NodeTable.node, NodeTable.entry, Array.getD_eq_getD_getElem?]
  cases ht : t.entries[id]? with
  | none =>
    rw [ht] at there
    rw [Option.map_eq_none_iff.mp there]
    rfl
  | some e =>
    rw [ht] at there
    obtain ⟨e', he', same⟩ := Option.map_eq_some_iff.mp there
    rw [he']
    exact same

private theorem Renames.literals? (h : t.Renames f u) (ids : List NodeId) :
    u.literals? ids = t.literals? ids := by
  unfold NodeTable.literals?
  congr 1
  funext id
  exact (congrArg Node.literal? (h.node id)).trans (Node.literal?_rename _)

variable (hf : Function.Injective f)
include hf

private theorem Renames.free (h : t.Renames f u) (n : Node) :
    LambdaSet.Renames f (t.free n) (u.free (n.rename f)) := by
  have outside :
      LambdaSet.Renames f (t.outside Entry.free n) (u.outside Entry.free (n.rename f)) := by
    intro l
    rw [mem_outside, Node.readsOutside_rename hf fun c => (h.entry c).free, List.mem_map]
    simp only [mem_outside]
  cases n with
  | val l | key l | context l => exact LambdaSet.renames_singleton l
  | _ => exact outside

private theorem Renames.contexts (h : t.Renames f u) (n : Node) :
    LambdaSet.Renames f (t.contexts n) (u.contexts (n.rename f)) := by
  have outside :
      LambdaSet.Renames f (t.outside Entry.contexts n) (u.outside Entry.contexts (n.rename f)) := by
    intro l
    rw [mem_outside, Node.readsOutside_rename hf fun c => (h.entry c).contexts, List.mem_map]
    simp only [mem_outside]
  cases n with
  | context l => exact LambdaSet.renames_singleton l
  | _ => exact outside

/-- A node gets the same place in both tables. -/
theorem Renames.intern (h : t.Renames f u) (n : Node) :
    (u.intern (n.rename f)).1 = (t.intern n).1 ∧
      (t.intern n).2.Renames f (u.intern (n.rename f)).2 := by
  have found : u.entries.findIdx? (fun e => e.node == n.rename f) =
      t.entries.findIdx? (fun e => e.node == n) := by
    have same := congrArg (Array.findIdx? (· == n.rename f)) h.nodes
    rw [Array.findIdx?_map, Array.findIdx?_map] at same
    refine same.trans ?_
    congr 1
    funext e
    exact Node.beq_rename hf e.node n
  unfold NodeTable.intern
  rw [found]
  split
  · exact ⟨rfl, h⟩
  · refine ⟨h.size, ⟨?_, fun id => ?_, h.functions, h.shared⟩⟩
    · simp [h.nodes]
    · change ((t.push n).entry id).Renames f ((u.push (n.rename f)).entry id)
      rw [entry_push, entry_push, h.size]
      split
      · exact ⟨h.free hf n, h.contexts hf n⟩
      · exact h.entry id

end NodeTable

/-! ### Lowering -/

namespace Lowering
variable {α β : Type}

/-- Two lowerings end alike: with one error, or with one result and tables that differ in the
numbers of functions. -/
inductive Ends (f : LambdaId → LambdaId) : Except ScopeError (α × NodeTable) →
    Except ScopeError (α × NodeTable) → Prop
  | error (e : ScopeError) : Ends f (.error e) (.error e)
  | ok (a : α) {t u : NodeTable} : t.Renames f u → Ends f (.ok (a, t)) (.ok (a, u))

/-- Two lowerings end alike from tables that differ in the numbers of functions. -/
def Twins (f : LambdaId → LambdaId) (x y : LowerM α) : Prop :=
  ∀ t u, t.Renames f u → Ends f (x t) (y u)

theorem Twins.pure (a : α) : Twins f (Pure.pure a) (Pure.pure a) := fun _ _ h => .ok a h

theorem Twins.bind {x y : LowerM α} {g k : α → LowerM β} (hx : Twins f x y)
    (hg : ∀ a, Twins f (g a) (k a)) : Twins f (x >>= g) (y >>= k) := by
  intro t u h
  have ends := hx t u h
  change Ends f (Except.bind (x t) fun r => g r.1 r.2) (Except.bind (y u) fun r => k r.1 r.2)
  generalize x t = r, y u = r' at ends ⊢
  cases ends with
  | error e => exact .error e
  | ok a h' => exact hg a _ _ h'

theorem Twins.get {g k : NodeTable → LowerM α} (h : ∀ t u, t.Renames f u → Ends f (g t t) (k u u)) :
    Twins f (get >>= g) (get >>= k) := h

variable (hf : Function.Injective f)
include hf

private theorem twins_intern (n : Node) : Twins f (intern n) (intern (n.rename f)) := by
  intro t u h
  obtain ⟨place, tables⟩ := h.intern hf n
  unfold intern
  rw [show u.intern (n.rename f) = ((t.intern n).1, (u.intern (n.rename f)).2) from
    Prod.ext place rfl]
  exact .ok _ tables

private theorem twins_internContainer (make : List Value → Value) (ids : List NodeId) {n : Node}
    (hn : n.rename f = n) : Twins f (internContainer make n ids) (internContainer make n ids) := by
  refine Twins.get fun t u h => ?_
  rw [h.literals? ids]
  cases t.literals? ids with
  | none =>
    have twins := twins_intern hf n
    rw [hn] at twins
    exact twins t u h
  | some values => exact twins_intern hf (.literal (make values)) t u h

omit hf in
private theorem withParts_rename (e : Expr) (ids : List NodeId) :
    (e.rename f).withParts ids = (e.withParts ids).rename f := by
  cases e with
  | iterate verb source lambda body ctx =>
    cases ctx <;> rcases ids with _ | ⟨a, _ | ⟨b, _ | ⟨c, _ | ⟨d, rest⟩⟩⟩⟩ <;> rfl
  | object fields => simp [Expr.rename, Expr.withParts, Node.rename, Function.comp_def]
  | _ => rcases ids with _ | ⟨a, _ | ⟨b, _ | ⟨c, _ | ⟨d, rest⟩⟩⟩⟩ <;> rfl

private theorem twins_assemble (output : String) (e : Expr) (ids : List NodeId) :
    Twins f (assemble output e ids) (assemble output (e.rename f) ids) := by
  have intern := twins_intern hf (e.withParts ids)
  rw [← withParts_rename] at intern
  cases e with
  | array items => exact twins_internContainer hf _ _ rfl
  | object fields =>
    simp only [Expr.rename, assemble, Expr.renameFields_eq, List.map_map, internObject_eq]
    exact twins_internContainer hf _ _ rfl
  | iterate verb source lambda body ctx =>
    refine Twins.get fun t u h => ?_
    have read : (u.entry (ids.getLastD 0)).contexts.contains (f lambda) =
        (t.entry (ids.getLastD 0)).contexts.contains lambda := by
      rw [Bool.eq_iff_iff, List.contains_iff_mem, List.contains_iff_mem]
      exact (h.entry _).contexts.mem_iff hf lambda
    simp only [Expr.renameOption_eq, Option.isNone_map, read]
    split
    · exact .error _
    · exact intern t u h
  | _ => exact intern

omit hf in
private theorem twins_prepare (e : Expr) : Twins f (prepare e) (prepare (e.rename f)) := by
  cases e with
  | call function receiver args =>
    intro t u h
    refine .ok () ⟨h.nodes, h.entry, ?_, h.shared⟩
    change Fields.insert function () u.functions = Fields.insert function () t.functions
    rw [h.functions]
  | _ => exact Twins.pure ()

omit hf in
private theorem twins_exprs (output : String) {es : List Expr}
    (h : ∀ e ∈ es, Twins f (expr output e) (expr output (e.rename f))) :
    Twins f (exprs output es) (exprs output (es.map (Expr.rename f))) := by
  induction es with
  | nil => exact Twins.pure []
  | cons e rest ih =>
    rw [List.map_cons, exprs, exprs]
    apply (h e List.mem_cons_self).bind
    intro id
    apply (ih fun d hd => h d (List.mem_cons_of_mem _ hd)).bind
    intro ids
    exact Twins.pure _

/-- An expression gets the same node in both tables. -/
theorem twins_expr (output : String) (e : Expr) :
    Twins f (expr output e) (expr output (e.rename f)) := by
  induction e using Expr.inductionOn with
  | step e ih =>
    by_cases hs : ∃ label d, e = .shared label d
    · obtain ⟨label, d, rfl⟩ := hs
      rw [Expr.rename, expr, expr]
      refine Twins.get fun t u h => ?_
      have known : u.sharedNode? label (d.rename f) = t.sharedNode? label d := by
        unfold NodeTable.sharedNode?
        rw [h.shared]
        cases t.shared.get? label with
        | none => rfl
        | some known =>
          have same : Expr.exact (known.1.rename f) (d.rename f) = Expr.exact known.1 d := by
            rw [Bool.eq_iff_iff, Expr.exact_iff, Expr.exact_iff]
            exact (Expr.rename_injective hf).eq_iff
          simp [same]
      rw [known]
      cases t.sharedNode? label d with
      | some id => exact .ok id h
      | none =>
        refine (ih d List.mem_cons_self).bind (fun id => ?_) t u h
        refine Twins.bind (fun t u h => .ok () ⟨h.nodes, h.entry, h.functions, ?_⟩) fun _ => .pure id
        intro other
        simp only [Std.TreeMap.get?_eq_getElem?, Std.TreeMap.getElem?_insert]
        split
        · rfl
        · exact h.shared other
    · have fresh : ∀ label d, e ≠ .shared label d := by simpa using hs
      have fresh' : ∀ label d, e.rename f ≠ .shared label d := by
        intro label d
        cases e with
        | shared label d => exact absurd rfl (fresh label d)
        | _ => simp [Expr.rename]
      rw [expr_eq fresh, expr_eq fresh', Expr.parts_rename]
      apply (twins_prepare e).bind
      intro _
      exact (twins_exprs output ih).bind fun ids => twins_assemble hf output e ids

end Lowering

/-! ### Programs -/

namespace Program
open Lowering

/-- A program is another one with its functions renumbered: it has the same nodes at the same places
up to the numbers of functions, and the same outputs, mutators and library functions. -/
structure Renames (f : LambdaId → LambdaId) (p q : Program) : Prop where
  backend : q.backend = p.backend
  nodes : q.entries.map Entry.node = p.entries.map fun e => e.node.rename f
  entry : ∀ id, (p.entry id).Renames f (q.entry id)
  outputs : q.outputs = p.outputs
  mutators : q.mutators = p.mutators
  functions : q.functions = p.functions

private theorem Renames.node {p q : Program} (h : p.Renames f q) (id : NodeId) :
    q.node id = (p.node id).rename f :=
  NodeTable.Renames.node (t := ⟨p.entries, [], .empty⟩) (u := ⟨q.entries, [], .empty⟩)
    ⟨h.nodes, h.entry, rfl, fun _ => by simp⟩ id

theorem Renames.size {p q : Program} (h : p.Renames f q) : q.entries.size = p.entries.size := by
  simpa using congrArg Array.size h.nodes

variable (hf : Function.Injective f)
include hf

private theorem twins_lowerOutput (name : String) (e : Expr) :
    Twins f (lowerOutput name e) (lowerOutput name (e.rename f)) := by
  apply (twins_expr hf name e).bind
  intro id
  refine Twins.get fun t u h => ?_
  have closed : (u.entry id).free ≠ [] ↔ (t.entry id).free ≠ [] :=
    not_congr (h.entry id).free.eq_nil_iff
  by_cases hc : (t.entry id).free ≠ []
  · rw [if_pos hc, if_pos (closed.mpr hc)]
    exact .error _
  · rw [if_neg hc, if_neg (mt closed.mp hc)]
    exact .ok id h

private theorem twins_lowerOutputs (definitions : List (String × Definition)) :
    Twins f (lowerOutputs definitions)
      (lowerOutputs (definitions.map (Prod.map id (Definition.rename f)))) := by
  induction definitions with
  | nil => exact Twins.pure []
  | cons first rest ih =>
    obtain ⟨name, d⟩ := first
    cases d with
    | output e =>
      apply (twins_lowerOutput hf name e).bind
      intro id
      exact ih.bind fun outputs => Twins.pure _
    | setter path => exact ih
    | splice path => exact ih

/-- Renumbering the functions of a model makes no difference for whether it compiles, and the
compiled programs differ in the numbers of functions alone. -/
theorem compile_rename (m : Model) (b : Backend) :
    (∃ e, compile m b = .error e ∧ compile (m.rename f) b = .error e) ∨
      ∃ p q, compile m b = .ok p ∧ compile (m.rename f) b = .ok q ∧ p.Renames f q := by
  have ends := twins_lowerOutputs hf m.definitions _ _ NodeTable.renames_empty
  have mutators : (m.rename f).definitions.filterMap
      (fun d => (mutatorOf? d.2).map (d.1, ·)) =
      m.definitions.filterMap (fun d => (mutatorOf? d.2).map (d.1, ·)) := by
    rw [Model.rename, List.filterMap_map]
    congr 1
    funext d
    obtain ⟨name, d⟩ := d
    cases d <;> rfl
  unfold compile
  change Ends f ((lowerOutputs m.definitions).run NodeTable.empty)
    ((lowerOutputs (m.rename f).definitions).run NodeTable.empty) at ends
  generalize (lowerOutputs m.definitions).run NodeTable.empty = r,
    (lowerOutputs (m.rename f).definitions).run NodeTable.empty = r' at ends
  cases ends with
  | error e => exact .inl ⟨e, rfl, rfl⟩
  | ok outputs h =>
    refine .inr ⟨_, _, rfl, rfl, rfl, h.nodes, h.entry, rfl, mutators, ?_⟩
    exact congrArg Fields.keys h.functions

end Program

/-- Two programs of which one is the other with its functions renumbered, with different numbers for
different functions. -/
structure Renaming where
  before : Program
  after : Program
  map : LambdaId → LambdaId
  injective : Function.Injective map
  linked : before.Linked
  renames : before.Renames map after

namespace Renaming
variable (N : Renaming)

theorem node (id : NodeId) : N.after.node id = (N.before.node id).rename N.map := N.renames.node id

theorem mem_free (id : NodeId) (l : LambdaId) : N.map l ∈ N.after.free id ↔ l ∈ N.before.free id :=
  (N.renames.entry id).free.mem_iff N.injective l

theorem exists_of_mem_free {id : NodeId} {l : LambdaId} (h : l ∈ N.after.free id) :
    ∃ k ∈ N.before.free id, N.map k = l :=
  List.mem_map.mp (((N.renames.entry id).free l).mp h)

end Renaming

end Recalc
