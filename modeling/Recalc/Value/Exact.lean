import Recalc.Value.Basic

/-! Exact sameness of values, which tells an integer from the double that denotes it, and one zero
from the other. -/
namespace Recalc.Value

mutual

def exact : Value → Value → Bool
  | null, null => true
  | bool a, bool b => a = b
  | int a, int b => a = b
  | float a, float b => a = b
  | str a, str b => a = b
  | arr as, arr bs => exactItems as bs
  | obj as, obj bs => exactFields as bs
  | _, _ => false

def exactItems : List Value → List Value → Bool
  | [], [] => true
  | a :: as, b :: bs => exact a b && exactItems as bs
  | _, _ => false

def exactFields : List (String × Value) → List (String × Value) → Bool
  | [], [] => true
  | (k, a) :: as, (l, b) :: bs => k = l && exact a b && exactFields as bs
  | _, _ => false

end

mutual

theorem exact_iff : (a b : Value) → (exact a b = true ↔ a = b)
  | null, b => by cases b <;> simp [exact]
  | bool _, b => by cases b <;> simp [exact]
  | int _, b => by cases b <;> simp [exact]
  | float _, b => by cases b <;> simp [exact]
  | str _, b => by cases b <;> simp [exact]
  | arr as, b => by cases b <;> simp [exact, exactItems_iff as]
  | obj as, b => by cases b <;> simp [exact, exactFields_iff as]

theorem exactItems_iff : (as bs : List Value) → (exactItems as bs = true ↔ as = bs)
  | [], bs => by cases bs <;> simp [exactItems]
  | a :: as, bs => by cases bs <;> simp [exactItems, exact_iff a, exactItems_iff as]

theorem exactFields_iff : (as bs : List (String × Value)) → (exactFields as bs = true ↔ as = bs)
  | [], bs => by cases bs <;> simp [exactFields]
  | (_, _) :: _, [] => by simp [exactFields]
  | (_, a) :: as, (_, b) :: bs => by simp [exactFields, exact_iff a, exactFields_iff as]

end

end Recalc.Value
