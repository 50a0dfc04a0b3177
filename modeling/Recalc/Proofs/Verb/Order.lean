import Recalc.Proofs.Number.Rounding
import Recalc.Verb.Binary

/-! How numbers are compared. Equality is exact, while an integer is rounded before it is ordered
with a double. The two disagree on an integer and the double next to it. -/
namespace Recalc

namespace Double

private theorem same_comm (x y : Double) : same x y = same y x := by
  rw [Bool.eq_iff_iff]
  simp only [same, Bool.and_eq_true, Bool.or_eq_true, decide_eq_true_eq]
  constructor <;> rintro ⟨h, k⟩ <;> exact ⟨h.symm, k.imp h.symm.trans Eq.symm⟩

private theorem compare?_numbers {x y : Double} (hx : isNaN x = false) (hy : isNaN y = false) :
    ∃ o, compare? x y = some o ∧ (o = .eq ↔ same x y = true) := by
  refine ⟨compare (position x) (position y), by simp [compare?, hx, hy], ?_⟩
  rw [compare_eq_iff_eq]
  simp [same, hx, hy]

end Double

namespace Value
open Double (same ofInt)

/-- A 64-bit integer, or a double other than a NaN. -/
def isNumber : Value → Bool
  | int n => Word.fits n
  | float x => !Double.isNaN x
  | _ => false

/-- One is an integer, and the other is not this integer but the double that it is rounded to. -/
def Rounds : Value → Value → Prop
  | int n, float x | float x, int n => same (ofInt n) x = true ∧ Double.toInt? x ≠ some n
  | _, _ => False

/-- The numbers at a double are the integer that it is and those rounded to it. -/
theorem same_ofInt_iff {x : Double} {n : Int} (fits : Word.fits n = true) :
    same (ofInt n) x = true ↔ wholeFloat? x = some n ∨
      same (ofInt n) x = true ∧ Double.toInt? x ≠ some n := by
  have whole : wholeFloat? x = some n ↔ Double.toInt? x = some n := by
    simp [wholeFloat?, Option.filter_eq_some_iff, fits]
  rw [whole]
  constructor
  · intro h
    by_cases exactly : Double.toInt? x = some n
    · exact .inl exactly
    · exact .inr ⟨h, exactly⟩
  · rintro (exactly | ⟨h, -⟩)
    · exact Double.same_ofInt exactly
    · exact h

private theorem Rounds.not_beq {a b : Value} (h : Rounds a b) : (a == b) = false := by
  have unequal {n : Int} {x : Double} (other : Double.toInt? x ≠ some n) :
      wholeFloat? x ≠ some n := fun h => other (Option.filter_eq_some_iff.mp h).1
  rw [beq_eq]
  unfold Rounds at h
  split at h
  case h_1 n x => simpa [beq] using unequal h.2
  case h_2 x n => simpa [beq] using unequal h.2
  case h_3 => exact h.elim

/-- An integer that is rounded to another number is beyond those that are all doubles. -/
theorem Rounds.large {a b : Value} (h : Rounds a b) :
    ∃ n, (a = int n ∨ b = int n) ∧ 2 ^ 53 < n.natAbs := by
  have beyond {n : Int} {x : Double} (near : same (ofInt n) x = true)
      (other : Double.toInt? x ≠ some n) : 2 ^ 53 < n.natAbs := by
    refine Nat.lt_of_not_le fun small => other ?_
    rw [← Double.toInt?_eq_of_same near, Double.toInt?_ofInt small]
  unfold Rounds at h
  split at h
  case h_1 n x => exact ⟨n, .inl rfl, beyond h.1 h.2⟩
  case h_2 x n => exact ⟨n, .inr rfl, beyond h.1 h.2⟩
  case h_3 => exact h.elim

end Value

namespace BinaryVerb

/-- Numbers are always ordered, and they are level if they are equal or one is rounded to the
other. -/
theorem order_numbers {a b : Value} (ha : a.isNumber = true) (hb : b.isNumber = true) :
    ∃ o, (∀ verb, order verb a b = .ok (some o)) ∧
      (o = .eq ↔ (a == b) = true ∨ a.Rounds b) := by
  have number {x : Double} (h : (Value.float x).isNumber = true) : Double.isNaN x = false := by
    simpa [Value.isNumber] using h
  cases a with
  | int m =>
    cases b with
    | int n => exact ⟨compare m n, fun _ => rfl, by simp [Value.beq_eq, Value.beq, Value.Rounds]⟩
    | float y =>
      obtain ⟨o, compared, level⟩ := Double.compare?_numbers (Double.isNaN_ofInt m) (number hb)
      refine ⟨o, fun verb => by simp only [order, Value.toFloat?, compared], ?_⟩
      rw [level, Value.same_ofInt_iff ha]
      simp [Value.beq_eq, Value.beq, Value.Rounds]
    | _ => cases hb
  | float x =>
    cases b with
    | int n =>
      obtain ⟨o, compared, level⟩ := Double.compare?_numbers (number ha) (Double.isNaN_ofInt n)
      refine ⟨o, fun verb => by simp only [order, Value.toFloat?, compared], ?_⟩
      rw [level, Double.same_comm, Value.same_ofInt_iff hb]
      simp [Value.beq_eq, Value.beq, Value.Rounds]
    | float y =>
      obtain ⟨o, compared, level⟩ := Double.compare?_numbers (number ha) (number hb)
      refine ⟨o, fun verb => by simp only [order, Value.toFloat?, compared], ?_⟩
      rw [level]
      simp [Value.beq_eq, Value.beq, Value.Rounds]
    | _ => cases hb
  | _ => cases ha

/-- Ordering agrees with equality on two numbers exactly if neither is rounded to the other. If one
is, then none of less, equal and greater holds, and yet both weak comparisons do. -/
theorem order_agrees (a b : Value) (ha : a.isNumber = true) (hb : b.isNumber = true) :
    ∃ lt eq gt lte gte : Bool,
      apply .lt a b = .ok (.bool lt) ∧ apply .eq a b = .ok (.bool eq) ∧
      apply .gt a b = .ok (.bool gt) ∧ apply .lte a b = .ok (.bool lte) ∧
      apply .gte a b = .ok (.bool gte) ∧
      (¬ a.Rounds b →
        [lt, eq, gt].count true = 1 ∧ gte = (gt || eq) ∧ lte = (lt || eq)) ∧
      (a.Rounds b → lt = false ∧ eq = false ∧ gt = false ∧ lte = true ∧ gte = true ∧
        ∃ n, (a = .int n ∨ b = .int n) ∧ 2 ^ 53 < n.natAbs) := by
  obtain ⟨o, ordered, level⟩ := order_numbers ha hb
  have compared (verb : BinaryVerb) :
      verb.comparison a b = .ok (.bool (verb.satisfied (some o))) := by
    rw [comparison, ordered]
    rfl
  refine ⟨_, a == b, _, _, _, compared .lt, rfl, compared .gt, compared .lte, compared .gte,
    fun separate => ?_, fun rounds => ?_⟩
  · have equal : (a == b) = decide (o = .eq) := by
      rw [Bool.eq_iff_iff, decide_eq_true_eq, level]
      simp [separate]
    rw [equal]
    cases o <;> decide
  · obtain rfl : o = .eq := level.mpr (.inr rounds)
    exact ⟨rfl, rounds.not_beq, rfl, rfl, rfl, rounds.large⟩

/-- The first integer that no double denotes, between two that are denoted. -/
def gap : Value := .int 9007199254740993

def belowGap : Value := .float (Double.ofInt 9007199254740992)

def aboveGap : Value := .float (Double.ofInt 9007199254740994)

theorem order_agrees_above_gap :
    gap.isNumber = true ∧ aboveGap.isNumber = true ∧ ¬ gap.Rounds aboveGap ∧
      ∃ lt eq gt lte gte : Bool,
        apply .lt gap aboveGap = .ok (.bool lt) ∧ apply .eq gap aboveGap = .ok (.bool eq) ∧
        apply .gt gap aboveGap = .ok (.bool gt) ∧ apply .lte gap aboveGap = .ok (.bool lte) ∧
        apply .gte gap aboveGap = .ok (.bool gte) ∧
        [lt, eq, gt].count true = 1 ∧ gte = (gt || eq) ∧ lte = (lt || eq) := by
  have integer : gap.isNumber = true := by decide
  have double : aboveGap.isNumber = true := by decide +kernel
  have separate : ¬ gap.Rounds aboveGap := by
    rintro ⟨near, -⟩
    revert near
    decide +kernel
  obtain ⟨lt, eq, gt, lte, gte, hlt, heq, hgt, hlte, hgte, agrees, -⟩ :=
    order_agrees gap aboveGap integer double
  exact ⟨integer, double, separate, lt, eq, gt, lte, gte, hlt, heq, hgt, hlte, hgte,
    agrees separate⟩

/-- An integer is rounded to the double below it, and none of less, equal and greater holds. -/
theorem unordered_below_gap :
    gap.isNumber = true ∧ belowGap.isNumber = true ∧
      apply .lt gap belowGap = .ok (.bool false) ∧ apply .eq gap belowGap = .ok (.bool false) ∧
      apply .gt gap belowGap = .ok (.bool false) ∧ apply .lte gap belowGap = .ok (.bool true) ∧
      apply .gte gap belowGap = .ok (.bool true) :=
  ⟨by decide, by decide +kernel, rfl, rfl, rfl, rfl, rfl⟩

end BinaryVerb

end Recalc
