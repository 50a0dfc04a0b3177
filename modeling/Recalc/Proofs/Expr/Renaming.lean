import Mathlib.Logic.Function.Basic
import Recalc.Model.Basic
import Recalc.Proofs.Expr.Parts

/-! Functions under other numbers: all binders and references of an expression are renumbered
alike. -/
namespace Recalc

namespace Expr
variable {f g : LambdaId → LambdaId}

mutual

/-- The expression with its functions renumbered. -/
def rename (f : LambdaId → LambdaId) : Expr → Expr
  | root => root
  | val l => val (f l)
  | key l => key (f l)
  | context l => context (f l)
  | literal v => literal v
  | array items => array (renameItems f items)
  | object fields => object (renameFields f fields)
  | get o k => get (rename f o) (rename f k)
  | iterate verb source lambda body ctx =>
    iterate verb (rename f source) (f lambda) (rename f body) (renameOption f ctx)
  | unary verb operand => unary verb (rename f operand)
  | range stop start step => range (rename f stop) (rename f start) (rename f step)
  | ternary condition consequent alternative =>
    ternary (rename f condition) (rename f consequent) (rename f alternative)
  | and items => and (renameItems f items)
  | or items => or (renameItems f items)
  | binary verb left right => binary verb (rename f left) (rename f right)
  | call function receiver args => call function (rename f receiver) (renameItems f args)
  | shared label e => shared label (rename f e)

def renameItems (f : LambdaId → LambdaId) : List Expr → List Expr
  | [] => []
  | e :: rest => rename f e :: renameItems f rest

def renameFields (f : LambdaId → LambdaId) : List (String × Expr) → List (String × Expr)
  | [] => []
  | (k, e) :: rest => (k, rename f e) :: renameFields f rest

def renameOption (f : LambdaId → LambdaId) : Option Expr → Option Expr
  | none => none
  | some e => some (rename f e)

end

@[simp]
theorem renameItems_eq (es : List Expr) : renameItems f es = es.map (rename f) := by
  induction es with
  | nil => rfl
  | cons e rest ih => rw [renameItems, ih, List.map_cons]

@[simp]
theorem renameFields_eq (fields : List (String × Expr)) :
    renameFields f fields = fields.map (Prod.map id (rename f)) := by
  induction fields with
  | nil => rfl
  | cons e rest ih => rw [renameFields, ih, List.map_cons, Prod.map, id]

@[simp]
theorem renameOption_eq (e : Option Expr) : renameOption f e = e.map (rename f) := by
  cases e <;> rfl

theorem parts_rename (e : Expr) : (e.rename f).parts = e.parts.map (rename f) := by
  cases e with
  | object fields => simp [rename, parts, Function.comp_def]
  | iterate verb source lambda body ctx => cases ctx <;> simp [rename, parts]
  | _ => simp [rename, parts]

private theorem map_eq_self {α : Type} {h : α → α} {as : List α} (hs : ∀ a ∈ as, h a = a) :
    as.map h = as :=
  (List.map_congr_left hs).trans (List.map_id as)

/-- Renumbering back gives the expression. -/
theorem rename_leftInverse (h : Function.LeftInverse g f) :
    Function.LeftInverse (rename g) (rename f) := by
  intro e
  induction e using inductionOn with
  | step e ih =>
    cases e with
    | array items | and items | or items =>
      simpa [rename, parts, Function.comp_def] using map_eq_self ih
    | object fields =>
      have fixed : ∀ p ∈ fields, Prod.map id (rename g) (Prod.map id (rename f) p) = p := by
        intro p hp
        exact Prod.ext rfl (ih p.2 (List.mem_map_of_mem hp))
      simpa [rename, Function.comp_def] using map_eq_self fixed
    | call function receiver args =>
      obtain ⟨first, others⟩ := List.forall_mem_cons.mp ih
      simpa [rename, first, Function.comp_def] using map_eq_self others
    | iterate verb source lambda body ctx =>
      cases ctx <;> simp_all [rename, parts, h lambda]
    | val l | key l | context l => simp [rename, h l]
    | root | literal v => rfl
    | _ => simp_all [rename, parts]

theorem rename_injective (hf : Function.Injective f) : Function.Injective (rename f) :=
  (rename_leftInverse (Function.leftInverse_invFun hf)).injective

end Expr

/-! ### Models -/

def Definition.rename (f : LambdaId → LambdaId) : Definition → Definition
  | output e => output (e.rename f)
  | setter path => setter path
  | splice path => splice path

/-- The model with all functions of its outputs renumbered. -/
def Model.rename (f : LambdaId → LambdaId) (m : Model) : Model :=
  ⟨m.definitions.map (Prod.map id (Definition.rename f)), Fields.sorted_mapValues m.sorted⟩

end Recalc
