import Recalc.Expr.Basic
import Recalc.Value.Exact

/-! Exact sameness of expressions, which two occurrences of one expression in memory have at no
cost. -/
namespace Recalc.Expr

mutual

theorem alike_iff : (a b : Expr) → (alike Value.exact a b = true ↔ a = b)
  | root, b => by cases b <;> simp [alike]
  | val _, b => by cases b <;> simp [alike]
  | key _, b => by cases b <;> simp [alike]
  | context _, b => by cases b <;> simp [alike]
  | literal _, b => by cases b <;> simp [alike, Value.exact_iff]
  | array as, b => by cases b <;> simp [alike, alikeItems_iff as]
  | object as, b => by cases b <;> simp [alike, alikeFields_iff as]
  | get o k, b => by cases b <;> simp [alike, alike_iff o, alike_iff k]
  | iterate _ a _ x c, b => by
    cases b <;> simp [alike, alike_iff a, alike_iff x, alikeOption_iff c, and_assoc]
  | unary _ a, b => by cases b <;> simp [alike, alike_iff a]
  | range x y z, b => by
    cases b <;> simp [alike, alike_iff x, alike_iff y, alike_iff z, and_assoc]
  | ternary x y z, b => by
    cases b <;> simp [alike, alike_iff x, alike_iff y, alike_iff z, and_assoc]
  | and as, b => by cases b <;> simp [alike, alikeItems_iff as]
  | or as, b => by cases b <;> simp [alike, alikeItems_iff as]
  | binary _ x y, b => by cases b <;> simp [alike, alike_iff x, alike_iff y, and_assoc]
  | call _ x as, b => by cases b <;> simp [alike, alike_iff x, alikeItems_iff as, and_assoc]
  | shared _ x, b => by cases b <;> simp [alike, alike_iff x]

theorem alikeItems_iff : (as bs : List Expr) → (alikeItems Value.exact as bs = true ↔ as = bs)
  | [], bs => by cases bs <;> simp [alikeItems]
  | a :: as, bs => by cases bs <;> simp [alikeItems, alike_iff a, alikeItems_iff as]

theorem alikeFields_iff : (as bs : List (String × Expr)) →
    (alikeFields Value.exact as bs = true ↔ as = bs)
  | [], bs => by cases bs <;> simp [alikeFields]
  | (_, _) :: _, [] => by simp [alikeFields]
  | (_, a) :: as, (_, b) :: bs => by simp [alikeFields, alike_iff a, alikeFields_iff as]

theorem alikeOption_iff : (a b : Option Expr) → (alikeOption Value.exact a b = true ↔ a = b)
  | none, b => by cases b <;> simp [alikeOption]
  | some a, b => by cases b <;> simp [alikeOption, alike_iff a]

end

theorem alike_self (e : Expr) : alike Value.exact e e = true := (alike_iff e e).mpr rfl

/-- Whether two expressions are the same in all parts. -/
def exact (a b : Expr) : Bool :=
  (Verdict.unlessShared alike_self a b fun _ => ⟨alike Value.exact a b, rfl⟩).val

theorem exact_iff (a b : Expr) : exact a b = true ↔ a = b := alike_iff a b

end Recalc.Expr
