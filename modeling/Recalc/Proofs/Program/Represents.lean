import Mathlib.Data.List.Forall2
import Recalc.Proofs.Expr.Scope
import Recalc.Proofs.Program.Table

/-! What a node of a table stands for. A node represents an expression if it has the expression's
head and its parts represent the parts of the expression; the node of a constant is a literal with a
related value. What a node represents decides which functions it reads. -/
namespace Recalc

/-- Nodes are equal if they are the same, or literals with equal values. -/
theorem Node.beq_cases {a b : Node} (h : (a == b) = true) :
    a = b ∨ ∃ v w, a = .literal v ∧ b = .literal w ∧ (v == w) = true := by
  have index : a.ctorIdx = b.ctorIdx := by
    change instBEqNode.beq a b = true at h
    unfold instBEqNode.beq at h
    split at h
    · assumption
    · cases h
  cases a <;> cases b <;> cases index
  case root => exact .inl rfl
  case literal v w => exact .inr ⟨v, w, rfl, rfl, h⟩
  case array => exact .inl (congrArg Node.array (eq_of_beq h))
  case object => exact .inl (congrArg Node.object (eq_of_beq h))
  case val => exact .inl (congrArg Node.val (eq_of_beq h))
  case key => exact .inl (congrArg Node.key (eq_of_beq h))
  case context => exact .inl (congrArg Node.context (eq_of_beq h))
  case and => exact .inl (congrArg Node.and (eq_of_beq h))
  case or => exact .inl (congrArg Node.or (eq_of_beq h))
  case get | unary | call =>
    replace h : (_ == _ && _ == _) = true := h
    simp_all
  case range | ternary | binary =>
    replace h : (_ == _ && (_ == _ && _ == _)) = true := h
    simp_all
  case iterate =>
    replace h : (_ == _ && (_ == _ && (_ == _ && (_ == _ && _ == _)))) = true := h
    simp_all

/-- A node and an expression have the same head. -/
def Node.Agrees : Node → Expr → Prop
  | .root, .root => True
  | .val l, .val m => l = m
  | .key l, .key m => l = m
  | .context l, .context m => l = m
  | .array _, .array _ => True
  | .object fields, .object es => fields.map Prod.fst = es.map Prod.fst
  | .get _ _, .get _ _ => True
  | .iterate verb _ l _ ctx, .iterate verb' _ m _ ctx' =>
    verb = verb' ∧ l = m ∧ ctx.isSome = ctx'.isSome
  | .unary verb _, .unary verb' _ => verb = verb'
  | .range _ _ _, .range _ _ _ => True
  | .ternary _ _ _, .ternary _ _ _ => True
  | .and _, .and _ => True
  | .or _, .or _ => True
  | .binary verb _ _, .binary verb' _ _ => verb = verb'
  | .call f _, .call g _ _ => f = g
  | _, _ => False

/-- A node represents an expression, with a relation between the value of a literal and the value of
the constant that it stands for. -/
inductive Represents (node : NodeId → Node) (rel : Value → Value → Prop) : NodeId → Expr → Prop
  | constant {id : NodeId} {e : Expr} {v w : Value} (const : e.constant? = some w)
    (literal : node id = .literal v) (same : rel v w) : Represents node rel id e
  | shared {id : NodeId} {label : Nat} {e : Expr} (inner : Represents node rel id e) :
    Represents node rel id (.shared label e)
  | head {id : NodeId} {e : Expr} (varies : e.constant? = none) (agrees : (node id).Agrees e)
    (parts : List.Forall₂ (Represents node rel) (node id).children e.parts) :
    Represents node rel id e

/-- What a reference refers to. -/
def Node.reference? : Node → Option (ReferenceKind × LambdaId)
  | .val l => some (.val, l)
  | .key l => some (.key, l)
  | .context l => some (.context, l)
  | _ => none

/-- Whether a node reads a function from outside, itself by a reference of some kind, or by what its
parts read. -/
def Node.Reads (kind : ReferenceKind → Prop) (read : NodeId → List LambdaId) (l : LambdaId)
    (node : Node) : Prop :=
  (∃ k, node.reference? = some (k, l) ∧ kind k) ∨ node.ReadsOutside read l

private theorem Node.Agrees.reference?_eq {n : Node} {e : Expr} (h : n.Agrees e) :
    n.reference? = e.reference? := by
  cases n <;> cases e <;> first | exact h.elim | rfl | (cases h; rfl)

theorem Node.Agrees.ne_literal {n : Node} {e : Expr} (h : n.Agrees e) (v : Value) :
    n ≠ .literal v := by
  rintro rfl
  cases h

section Lists
variable {α β : Type} {as : List α} {bs : List β}

theorem forall₂_mem {R : α → β → Prop} (h : List.Forall₂ R as bs) :
    List.Forall₂ (fun a b => a ∈ as ∧ b ∈ bs ∧ R a b) as bs := by
  induction h with
  | nil => exact .nil
  | cons first _ ih =>
    refine .cons ⟨List.mem_cons_self, List.mem_cons_self, first⟩ (ih.imp fun a b hab => ?_)
    exact ⟨List.mem_cons_of_mem _ hab.1, List.mem_cons_of_mem _ hab.2.1, hab.2.2⟩

theorem forall₂_and {R S : α → β → Prop} (h : List.Forall₂ R as bs) (k : List.Forall₂ S as bs) :
    List.Forall₂ (fun a b => R a b ∧ S a b) as bs := by
  induction h with
  | nil => exact .nil
  | cons first _ ih =>
    cases k with
    | cons first' rest' => exact .cons ⟨first, first'⟩ (ih rest')

theorem exists_mem_congr {P : α → Prop} {Q : β → Prop}
    (h : List.Forall₂ (fun a b => P a ↔ Q b) as bs) : (∃ a ∈ as, P a) ↔ ∃ b ∈ bs, Q b := by
  induction h with
  | nil => simp
  | cons first _ ih => simp [first, ih]

/-- The parts of an iteration, related one by one: those outside the body, and the body. -/
theorem forall₂_iteration {R : α → β → Prop} {a x : α} {b y : β} {c : Option α} {d : Option β}
    (hs : c.isSome = d.isSome)
    (h : List.Forall₂ R (a :: c.toList ++ [x]) (b :: d.toList ++ [y])) :
    List.Forall₂ R (a :: c.toList) (b :: d.toList) ∧ R x y := by
  cases c <;> cases d <;> cases hs <;> simp_all

end Lists

namespace Represents
variable {node node' : NodeId → Node} {rel rel' : Value → Value → Prop} {id : NodeId} {e : Expr}

/-- Induction along the expression that a node represents. -/
theorem induct {motive : NodeId → Expr → Prop} (h : Represents node rel id e)
    (constant : ∀ id e v w, e.constant? = some w → node id = .literal v → rel v w → motive id e)
    (shared : ∀ id label e, motive id e → motive id (.shared label e))
    (head : ∀ id e, e.constant? = none → (node id).Agrees e →
      List.Forall₂ motive (node id).children e.parts → motive id e) : motive id e := by
  induction e using Expr.inductionOn generalizing id with
  | step e ih =>
    cases h with
    | constant const literal same => exact constant id e _ _ const literal same
    | shared inner => exact shared id _ _ (ih _ List.mem_cons_self inner)
    | head varies agrees parts =>
      exact head id e varies agrees ((forall₂_mem parts).imp fun c d h => ih d h.2.1 h.2.2)

/-- A node goes on to represent an expression if it and the nodes before it stay. -/
theorem extend {n : Nat} (h : Represents node rel id e) (hid : id < n)
    (same : ∀ i < n, node' i = node i) (before : ∀ i, ∀ c ∈ (node i).children, c < i) :
    Represents node' rel id e := by
  refine h.induct (motive := fun id e => id < n → Represents node' rel id e)
    ?constant ?shared ?head hid
  case constant =>
    intro id e v w const literal hrel hid
    exact .constant const ((same id hid).trans literal) hrel
  case shared =>
    intro id label e ih hid
    exact .shared (ih hid)
  case head =>
    intro id e varies agrees parts hid
    rw [← same id hid] at agrees
    refine .head varies agrees ?_
    rw [same id hid]
    exact (forall₂_mem parts).imp fun c d h => h.2.2 (Nat.lt_trans (before id c h.1) hid)

/-- A finer relation between values holds where it follows for the literals of the table and the
constants of the expression. -/
theorem refine_rel {D E : Value → Prop} (h : Represents node rel id e)
    (hE : Expr.ConstantClass E) (literals : ∀ v ∈ e.literals, E v)
    (nodes : ∀ id v, node id = .literal v → D v)
    (finer : ∀ v w, D v → E w → rel v w → rel' v w) : Represents node rel' id e := by
  refine h.induct (motive := fun id e => (∀ v ∈ e.literals, E v) → Represents node rel' id e)
    ?constant ?shared ?head literals
  case constant =>
    intro id e v w const literal hrel he
    exact .constant const literal (finer v w (nodes id v literal) (hE.constant const he) hrel)
  case shared =>
    intro id label e ih he
    exact .shared (ih fun v hv => he v (Expr.literals_of_part List.mem_cons_self hv))
  case head =>
    intro id e varies agrees parts he
    refine .head varies agrees ((forall₂_mem parts).imp fun c d h => h.2.2 fun v hv => ?_)
    exact he v (Expr.literals_of_part h.2.1 hv)

/-- A node is a literal exactly if it represents a constant. -/
theorem literal? (h : Represents node rel id e) :
    Option.Rel rel (node id).literal? e.constant? := by
  refine h.induct (motive := fun id e => Option.Rel rel (node id).literal? e.constant?)
    ?constant ?shared ?head
  case constant =>
    intro id e v w const literal same
    rw [const, literal]
    exact .some same
  case shared =>
    intro id label e ih
    exact ih
  case head =>
    intro id e varies agrees parts
    rw [varies]
    cases hn : node id with
    | literal v =>
      rw [hn] at agrees
      cases agrees
    | _ => exact .none

theorem exists_literal {w : Value} (h : Represents node rel id e) (hw : e.constant? = some w) :
    ∃ v, node id = .literal v ∧ rel v w := by
  have same := h.literal?
  rw [hw] at same
  cases hn : node id with
  | literal v =>
    rw [hn] at same
    cases same with
    | some hv => exact ⟨v, rfl, hv⟩
  | _ =>
    rw [hn] at same
    cases same

/-! ### What a node reads -/

variable {kind : ReferenceKind → Prop} {read : NodeId → List LambdaId} {l : LambdaId}

private theorem reads_of_agrees {n : Node} (agrees : n.Agrees e)
    (parts : List.Forall₂ (fun c d => l ∈ read c ↔ d.Free kind l) n.children e.parts) :
    n.Reads kind read l ↔ e.Free kind l := by
  cases hi : e.isIterate with
  | true =>
    cases e with
    | iterate verb source lambda body ctx =>
      cases n with
      | iterate verb' source' lambda' body' ctx' =>
        obtain ⟨-, rfl, hs⟩ := agrees
        obtain ⟨outer, inner⟩ := forall₂_iteration hs parts
        rw [Expr.free_iterate, ← inner, ← exists_mem_congr outer]
        simp [Node.Reads, Node.reference?, Node.ReadsOutside]
      | _ => cases agrees
    | _ => cases hi
  | false =>
    rw [Expr.free_iff hi, ← exists_mem_congr parts, Node.Reads, agrees.reference?_eq]
    cases n with
    | iterate verb source lambda body ctx =>
      cases e with
      | iterate => cases hi
      | _ => cases agrees
    | _ => rfl

/-- A node reads the functions that the expression it represents leaves unbound. -/
theorem mem_read (h : Represents node rel id e)
    (law : ∀ id l, l ∈ read id ↔ (node id).Reads kind read l) : l ∈ read id ↔ e.Free kind l := by
  refine h.induct (motive := fun id e => l ∈ read id ↔ e.Free kind l) ?constant ?shared ?head
  case constant =>
    intro id e v w const literal hrel
    rw [law, literal]
    simp [Node.Reads, Node.reference?, Node.ReadsOutside, Node.children, Expr.Free,
      Expr.occurrences_of_constant const]
  case shared =>
    intro id label e ih
    rw [ih]
    simp [Expr.free_iff (e := .shared label e) rfl, Expr.reference?, Expr.parts]
  case head =>
    intro id e varies agrees parts
    rw [law]
    exact reads_of_agrees agrees parts

end Represents

end Recalc
