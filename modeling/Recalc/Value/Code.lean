import Recalc.Table
import Recalc.Value.Equality

/-! Codes of values, by which tables keep them. A container's code shows only its size. -/
namespace Recalc

namespace Double

theorem toInt?_of_zero {x : Double} (h : magnitude x = 0) : toInt? x = some 0 := by
  have hf : isFinite x = true := by simp [isFinite, h, infinityMagnitude]
  have hm : significand x = 0 := by simp [significand, h, leadingBit]
  simp [toInt?, natural?, hf, hm]

theorem isFinite_of_isNaN {x : Double} (h : isNaN x = true) : isFinite x = false := by
  simp only [isNaN, decide_eq_true_eq] at h
  simp only [isFinite, decide_eq_false_iff_not]
  omega

theorem magnitude_eq_of_position {x y : Double} (h : position x = position y) :
    magnitude x = magnitude y := by
  simp only [position] at h
  split at h <;> split at h <;> omega

/-- Doubles that are equal as numbers are one whole number, or none. -/
theorem toInt?_eq_of_same {x y : Double} (h : same x y = true) : toInt? x = toInt? y := by
  simp only [same, Bool.and_eq_true, Bool.or_eq_true, decide_eq_true_eq] at h
  obtain ⟨hn, h | h⟩ := h
  · simp [toInt?, isFinite_of_isNaN h, isFinite_of_isNaN (hn ▸ h)]
  · have hm := magnitude_eq_of_position h
    by_cases hs : isNegative x = isNegative y
    · simp [toInt?, natural?, isFinite, significand, exponent, hm, hs]
    · have h0 : magnitude y = 0 := by
        cases hx : isNegative x <;> cases hy : isNegative y
        · exact absurd (hx.trans hy.symm) hs
        · rw [position, position, hx, hy, hm, if_neg (by decide), if_pos rfl] at h
          omega
        · rw [position, position, hx, hy, hm, if_pos rfl, if_neg (by decide)] at h
          omega
        · exact absurd (hx.trans hy.symm) hs
      rw [toInt?_of_zero (hm.trans h0), toInt?_of_zero h0]

end Double

namespace Value

def intCode (n : Int) : Nat := if n < 0 then mixCode 3 n.natAbs else mixCode 2 n.natAbs

def textCode (s : String) : Nat := s.toList.foldl (fun h c => mixCode h c.toNat) 4

def code : Value → Nat
  | null => 0
  | bool b => if b then 2 else 1
  | int n => intCode n
  | float x => (wholeFloat? x).elim 3 intCode
  | str s => textCode s
  | arr items => mixCode 5 items.length
  | obj fields => mixCode 6 fields.length

theorem length_eq_of_beqItems : (as bs : List Value) → beqItems as bs = true →
    as.length = bs.length
  | [], [], _ => rfl
  | _ :: as, _ :: bs, h => by
    simp only [beqItems, Bool.and_eq_true] at h
    simp [length_eq_of_beqItems as bs h.2]

theorem length_eq_of_beqFields : (as bs : List (String × Value)) → beqFields as bs = true →
    as.length = bs.length
  | [], [], _ => rfl
  | (_, _) :: as, (_, _) :: bs, h => by
    simp only [beqFields, Bool.and_eq_true] at h
    simp [length_eq_of_beqFields as bs h.2]

theorem code_eq_of_beq (a b : Value) (h : (a == b) = true) : code a = code b := by
  rw [beq_eq] at h
  cases a <;> cases b <;> simp_all [beq, code]
  · rw [wholeFloat?, wholeFloat?, Double.toInt?_eq_of_same h]
  · rw [length_eq_of_beqItems _ _ h]
  · rw [length_eq_of_beqFields _ _ h]

instance : Coded Value := ⟨code, code_eq_of_beq⟩

end Value

end Recalc
