import Recalc.Proofs.Number.Rounding
import Recalc.Verb.Binary
import Recalc.Verb.Range

/-! Integers of 64 bits in arithmetic and in ranges. A result is the exact one or a double, and a
range holds exactly the terms before its end; nothing wraps around. -/
namespace Recalc

namespace Word
variable {n : Int}

private theorem fits_iff : fits n = true ↔ least ≤ n ∧ n ≤ greatest := by
  simp only [fits, Bool.and_eq_true, decide_eq_true_eq]

private theorem wrap_of_fits (h : fits n = true) : wrap n = n := by
  rw [fits_iff] at h
  unfold least greatest at h
  exact Int64.toInt_ofInt_of_le (by omega) (by omega)

end Word

/-- A fraction without the part after its point. -/
def truncated (q : ℚ) : ℤ := if 0 ≤ q then ⌊q⌋ else ⌈q⌉

private theorem truncated_div_natCast (a : Int) (d : Nat) : truncated (a / d) = a.tdiv d := by
  unfold truncated
  rcases lt_or_ge a 0 with negative | positive
  · rcases Nat.eq_zero_or_pos d with rfl | divisor
    · simp
    · have below : ¬ (0 : ℚ) ≤ a / d := by
        rw [not_le]
        exact div_neg_of_neg_of_pos (by exact_mod_cast negative) (by exact_mod_cast divisor)
      rw [if_neg below, Rat.ceil_intCast_div_natCast, ← Int.tdiv_eq_ediv_of_nonneg (by omega),
        Int.neg_tdiv, Int.neg_neg]
  · have above : (0 : ℚ) ≤ a / d := div_nonneg (by exact_mod_cast positive) (Nat.cast_nonneg d)
    rw [if_pos above, Rat.floor_intCast_div_natCast, Int.tdiv_eq_ediv_of_nonneg positive]

/-- Truncated division of integers truncates the fraction. -/
theorem truncated_div (a b : Int) : truncated (a / b) = a.tdiv b := by
  obtain ⟨d, rfl | rfl⟩ := Int.eq_nat_or_neg b
  · exact truncated_div_natCast a d
  · have moved : (a : ℚ) / ((-d : Int) : ℚ) = ((-a : Int) : ℚ) / d := by
      push_cast
      rw [div_neg, neg_div]
    rw [moved, truncated_div_natCast, Int.neg_tdiv, Int.tdiv_neg]

/-! ### Arithmetic -/

namespace BinaryVerb
variable {verb : BinaryVerb} {a b n : Int}

/-- The verbs that compute. -/
def arithmeticVerbs : List BinaryVerb := [.plus, .minus, .mult, .div, .mod]

/-- What a verb stands for on two integers where the result is one: division leaves no remainder,
and a remainder is left by the truncated quotient. -/
def Exactly (verb : BinaryVerb) (a b n : Int) : Prop :=
  match verb with
  | .plus => n = a + b
  | .minus => n = a - b
  | .mult => n = a * b
  | .div => b ≠ 0 ∧ a = b * n
  | .mod => b ≠ 0 ∧ a = b * truncated (a / b) + n
  | _ => False

private theorem bounded_eq_some {m : Int} : bounded m = some n ↔ n = m ∧ Word.fits n = true := by
  unfold bounded
  split
  · rename_i fits
    rw [Option.some.injEq, eq_comm]
    refine (and_iff_left_of_imp ?_).symm
    rintro rfl
    exact fits
  · rename_i beyond
    simp only [reduceCtorEq, false_iff]
    rintro ⟨rfl, fits⟩
    exact beyond fits

private theorem fits_tmod (h : Word.fits a = true) : Word.fits (a.tmod b) = true := by
  rw [Word.fits_iff] at *
  have smaller : (a.tmod b).natAbs ≤ a.natAbs := by
    rw [Int.natAbs_tmod]
    exact Nat.mod_le _ _
  unfold Word.least Word.greatest at *
  rcases Int.le_total 0 a with positive | negative
  · have := Int.tmod_nonneg b positive
    omega
  · have := Int.tmod_nonneg b (Int.neg_nonneg.mpr negative)
    rw [Int.neg_tmod] at this
    omega

private theorem exactResult?_div (nonzero : b ≠ 0) :
    exactResult? .div a b = some n ↔ Exactly .div a b n ∧ Word.fits n = true := by
  have parts := Int.mul_tdiv_add_tmod a b
  simp only [exactResult?, Exactly, nonzero, ne_eq, not_false_eq_true, true_and]
  constructor
  · intro h
    split at h
    · rename_i whole
      obtain ⟨rfl, fits⟩ := bounded_eq_some.mp h
      exact ⟨by omega, fits⟩
    · cases h
  · rintro ⟨rfl, fits⟩
    rw [if_pos (Int.mul_tmod_right b n), Int.mul_tdiv_cancel_left n nonzero]
    exact bounded_eq_some.mpr ⟨rfl, fits⟩

private theorem exactResult?_mod (nonzero : b ≠ 0) (h : Word.fits a = true) :
    exactResult? .mod a b = some n ↔ Exactly .mod a b n ∧ Word.fits n = true := by
  have parts := Int.mul_tdiv_add_tmod a b
  simp only [exactResult?, Exactly, nonzero, ne_eq, not_false_eq_true, true_and, truncated_div,
    Option.some.injEq]
  constructor
  · rintro rfl
    exact ⟨parts.symm, fits_tmod h⟩
  · rintro ⟨whole, -⟩
    omega

/-- An exact result is given exactly if there is one that 64 bits hold. -/
theorem exactResult?_eq_some (hv : verb ∈ arithmeticVerbs) (h : Word.fits a = true)
    (nonzero : verb.divides = true → b ≠ 0) :
    verb.exactResult? a b = some n ↔ verb.Exactly a b n ∧ Word.fits n = true := by
  simp only [arithmeticVerbs, List.mem_cons, List.not_mem_nil, or_false] at hv
  rcases hv with rfl | rfl | rfl | rfl | rfl
  · exact bounded_eq_some
  · exact bounded_eq_some
  · exact bounded_eq_some
  · exact exactResult?_div (nonzero rfl)
  · exact exactResult?_mod (nonzero rfl) h

private theorem divides_iff : verb.divides = true ↔ verb = .div ∨ verb = .mod := by
  cases verb <;> simp [divides]

private theorem apply_eq_integers (hv : verb ∈ arithmeticVerbs) :
    verb.apply (.int a) (.int b) = verb.integers a b := by
  simp only [arithmeticVerbs, List.mem_cons, List.not_mem_nil, or_false] at hv
  rcases hv with rfl | rfl | rfl | rfl | rfl <;> rfl

/-- Two integers give the exact result exactly if 64 bits hold it, which they always do for a
remainder. Only a division by zero fails, and all else is a double. -/
theorem apply_integers (hv : verb ∈ arithmeticVerbs) (h : Word.fits a = true) :
    (verb.apply (.int a) (.int b) = .error .divisionByZero ↔
      (verb = .div ∨ verb = .mod) ∧ b = 0) ∧
    (∀ n, verb.apply (.int a) (.int b) = .ok (.int n) ↔
      verb.Exactly a b n ∧ Word.fits n = true) ∧
    (verb = .mod → b ≠ 0 → ∃ r, verb.apply (.int a) (.int b) = .ok (.int r)) ∧
    (¬ ((verb = .div ∨ verb = .mod) ∧ b = 0) → (¬ ∃ n, verb.Exactly a b n ∧ Word.fits n = true) →
      verb.apply (.int a) (.int b) =
        .ok (.float (verb.floatResult (Double.ofInt a) (Double.ofInt b)))) := by
  rw [apply_eq_integers hv, integers]
  simp only [Bool.and_eq_true, decide_eq_true_eq, divides_iff]
  by_cases zero : (verb = .div ∨ verb = .mod) ∧ b = 0
  · obtain ⟨rfl | rfl, rfl⟩ := zero <;> simp [Exactly]
  · have given (n : Int) :
        verb.exactResult? a b = some n ↔ verb.Exactly a b n ∧ Word.fits n = true :=
      exactResult?_eq_some hv h fun divides hb => zero ⟨divides_iff.mp divides, hb⟩
    rw [if_neg zero]
    refine ⟨?_, fun n => ?_, fun remainder _ => ?_, fun _ none => ?_⟩
    · cases verb.exactResult? a b <;> simp [zero]
    · rw [← given n]
      cases verb.exactResult? a b <;> simp
    · subst remainder
      exact ⟨a.tmod b, rfl⟩
    · cases result : verb.exactResult? a b with
      | none => rfl
      | some n => exact absurd ⟨n, (given n).mp result⟩ none

/-- The least integer divided by -1 is the one quotient without a remainder that is too large, while
its remainder is zero. -/
theorem apply_integers_least :
    Word.fits Word.least = true ∧ (¬ ∃ n, Exactly .div Word.least (-1) n ∧ Word.fits n = true) ∧
      apply .div (.int Word.least) (.int (-1)) =
        .ok (.float (floatResult .div (Double.ofInt Word.least) (Double.ofInt (-1)))) ∧
      apply .mod (.int Word.least) (.int (-1)) = .ok (.int 0) := by
  have fits : Word.fits Word.least = true := by decide
  have large : ¬ ∃ n, Exactly .div Word.least (-1) n ∧ Word.fits n = true := by
    rintro ⟨n, ⟨-, quotient⟩, fits⟩
    rw [Word.fits_iff] at fits
    unfold Word.least Word.greatest at *
    omega
  have exactly : Exactly .mod Word.least (-1) 0 := by
    refine ⟨by decide, ?_⟩
    rw [truncated_div]
    decide
  obtain ⟨-, -, -, double⟩ := @apply_integers .div Word.least (-1) (by decide) fits
  obtain ⟨-, remainder, -⟩ := @apply_integers .mod Word.least (-1) (by decide) fits
  exact ⟨fits, large, double (by decide) large, (remainder 0).mpr ⟨exactly, by decide⟩⟩

end BinaryVerb

/-! ### Ranges -/

namespace Range
variable {stop start step : Int} {i : Nat}

/-- Strictly before an end in the direction of a step. -/
def Before (stop step x : Int) : Prop := if 0 < step then x < stop else stop < x

private theorem lt_roundedUp {a d : Nat} (ha : 0 < a) (hd : 0 < d) :
    i < (a + d - 1) / d ↔ i * d < a := by
  rw [Nat.lt_iff_add_one_le, Nat.le_div_iff_mul_le hd, Nat.succ_mul]
  omega

private theorem lt_count_iff (nonzero : step ≠ 0) : i < count stop start step ↔
    (0 < stop - start ↔ 0 < step) ∧ stop - start ≠ 0 ∧ i * step.natAbs < (stop - start).natAbs := by
  unfold count
  dsimp only
  split
  · rename_i ahead
    rw [decide_eq_decide] at ahead
    rw [lt_roundedUp (by omega) (by omega)]
    simp only [ahead.1, ahead.2, true_and, ne_eq, not_false_eq_true]
  · rename_i behind
    rw [decide_eq_decide] at behind
    simp only [Nat.not_lt_zero, false_iff]
    rintro ⟨direction, apart, -⟩
    exact behind ⟨direction, apart⟩

/-- The terms before the end are the first ones, as many as are counted. -/
theorem before_iff (nonzero : step ≠ 0) :
    Before stop step (start + i * step) ↔ i < count stop start step := by
  rw [lt_count_iff nonzero, Before]
  rcases Int.lt_or_gt_of_ne nonzero with down | up
  · obtain ⟨d, distance⟩ := Int.eq_ofNat_of_zero_le (Int.neg_nonneg.mpr (Int.le_of_lt down))
    obtain rfl : step = -d := by omega
    rw [if_neg (by omega), Int.mul_neg, ← Int.natCast_mul, Int.natAbs_neg, Int.natAbs_natCast]
    omega
  · obtain ⟨d, rfl⟩ := Int.eq_ofNat_of_zero_le (Int.le_of_lt up)
    rw [if_pos up, ← Int.natCast_mul, Int.natAbs_natCast]
    omega

/-- A term before the end lies between the start and the end, so 64 bits hold it. -/
theorem fits_of_before (h₁ : Word.fits stop = true) (h₂ : Word.fits start = true)
    (before : Before stop step (start + i * step)) : Word.fits (start + i * step) = true := by
  rw [Word.fits_iff] at *
  unfold Before at before
  split at before
  · rename_i up
    have : 0 ≤ (i : Int) * step := Int.mul_nonneg (Int.natCast_nonneg i) (Int.le_of_lt up)
    omega
  · rename_i down
    have : (i : Int) * step ≤ 0 :=
      Int.mul_nonpos_of_nonneg_of_nonpos (Int.natCast_nonneg i) (Int.not_lt.mp down)
    omega

private theorem count_le (h₁ : Word.fits stop = true) (h₂ : Word.fits start = true)
    (nonzero : step ≠ 0) :
    count stop start step ≤ 2 ^ 64 := by
  rw [Word.fits_iff] at h₁ h₂
  unfold Word.least Word.greatest at *
  refine Nat.le_of_not_lt fun more => ?_
  obtain ⟨-, -, bound⟩ := (lt_count_iff nonzero).mp more
  have : 2 ^ 64 * 1 ≤ 2 ^ 64 * step.natAbs := Nat.mul_le_mul_left _ (by omega)
  omega

/-- As a double, a count is above the limit exactly if it is. -/
theorem length_ofNat {n : Nat} (h : n < 2 ^ 128) : length (Double.ofNat n) =
    if rangeLimit < n then .error (.argument (.length (Double.ofNat n))) else .ok n := by
  have above : Double.compare? (Double.ofNat n) (Double.ofNat rangeLimit) = some .gt ↔
      rangeLimit < n := by
    rw [Double.compare?_ofNat_eq_gt h (by decide)]
    constructor
    · intro greater
      refine Nat.lt_of_not_le fun within => ?_
      exact Nat.not_lt.mpr (Double.magnitude_ofNat_mono within) greater
    · intro beyond
      have next : Double.magnitude (Double.ofNat rangeLimit) <
          Double.magnitude (Double.ofNat (rangeLimit + 1)) := by decide +kernel
      exact Nat.lt_of_lt_of_le next (Double.magnitude_ofNat_mono beyond)
  unfold length
  simp only [Double.isFinite_ofNat h, above, Bool.not_true, Bool.false_or, decide_eq_true_eq]
  split
  · rfl
  · rename_i within
    have small : n ≤ 2 ^ 53 := Nat.le_trans (Nat.not_lt.mp within) (by decide)
    rw [Double.toInt?_ofNat small]
    rfl

/-- No element is changed when it is cut to 64 bits. -/
theorem ofInts_eq (h₁ : Word.fits stop = true) (h₂ : Word.fits start = true) (nonzero : step ≠ 0) :
    ofInts stop start step =
      if rangeLimit < count stop start step then
        .error (.argument (.length (Double.ofNat (count stop start step))))
      else .ok (.arr ((List.range (count stop start step)).map fun (i : Nat) =>
        .int (start + i * step))) := by
  have uncut : (List.range (count stop start step)).map
      (fun (i : Nat) => Value.int (Word.wrap (start + i * step))) =
        (List.range (count stop start step)).map fun (i : Nat) => .int (start + i * step) := by
    refine List.map_congr_left fun i counted => ?_
    have before := (before_iff nonzero).mpr (List.mem_range.mp counted)
    rw [Word.wrap_of_fits (fits_of_before h₁ h₂ before)]
  have small : count stop start step < 2 ^ 128 :=
    Nat.lt_of_le_of_lt (count_le h₁ h₂ nonzero) (by decide)
  rw [ofInts, if_neg nonzero, length_ofNat small]
  split
  · rfl
  · exact congrArg (fun items => Except.ok (Value.arr items)) uncut

private theorem encard_before (nonzero : step ≠ 0) :
    {i : Nat | Before stop step (start + i * step)}.encard = count stop start step := by
  have first : {i : Nat | Before stop step (start + i * step)} =
      Finset.range (count stop start step) := by
    ext i
    simp [before_iff nonzero]
  rw [first, Set.encard_coe_eq_coe_finsetCard, Finset.card_range]

private theorem fits_of_toInt? {v : WellFormedValue} {n : Int} (h : v.val.toInt? = some n) :
    Word.fits n = true := by
  obtain ⟨v, wellFormed⟩ := v
  cases v with
  | int m =>
    cases h
    exact wellFormed
  | float x => exact (Option.filter_eq_some_iff.mp h).2
  | _ => cases h

/-- A range over whole numbers fails exactly if its step is zero or if more terms than the limit lie
before its end. Otherwise its elements are the terms before the end, in order. -/
theorem apply_terms {stop start : WellFormedValue} {step : Value} {e s d : Int}
    (hstop : stop.val.toInt? = some e) (hstart : start.val.toInt? = some s)
    (hstep : step.toInt? = some d) :
    ((∃ fault, apply stop start step = .error (.argument fault)) ↔
      d = 0 ∨ 2 ^ 24 < {i : Nat | Before e d (s + i * d)}.encard) ∧
    (¬ (d = 0 ∨ 2 ^ 24 < {i : Nat | Before e d (s + i * d)}.encard) →
      ∃ n : Nat, (∀ i : Nat, Before e d (s + i * d) ↔ i < n) ∧
        (∀ i : Nat, i < n → Word.fits (s + i * d) = true) ∧
        apply stop start step =
          .ok (.arr ((List.range n).map fun (i : Nat) => .int (s + i * d)))) := by
  have h₁ := fits_of_toInt? hstop
  have h₂ := fits_of_toInt? hstart
  have applied : apply stop start step = ofInts e s d := by
    rw [apply, hstop, hstart, hstep]
  rw [applied]
  by_cases zero : d = 0
  · subst zero
    simp [ofInts]
  have counted : (2 ^ 24 : ℕ∞) < {i : Nat | Before e d (s + i * d)}.encard ↔
      rangeLimit < count e s d := by
    rw [encard_before zero]
    exact (Nat.cast_lt : ((rangeLimit : Nat) : ℕ∞) < _ ↔ _)
  rw [ofInts_eq h₁ h₂ zero, counted]
  simp only [zero, false_or]
  split
  · rename_i beyond
    simp [beyond]
  · rename_i within
    refine ⟨by simp [within], fun _ => ⟨count e s d, fun i => before_iff zero, ?_, rfl⟩⟩
    exact fun i counted => fits_of_before h₁ h₂ ((before_iff zero).mpr counted)

/-- From the greatest integer down to the least one by a step that is a double. One more term would
be below all 64-bit integers. -/
theorem apply_terms_downward :
    (Value.float (Double.ofInt (-4611686018427387904))).toInt? = some (-4611686018427387904) ∧
      apply (.int Word.least) (.int Word.greatest)
          (.float (Double.ofInt (-4611686018427387904))) =
        .ok (.arr [.int 9223372036854775807, .int 4611686018427387903, .int (-1),
          .int (-4611686018427387905)]) := by
  have whole : (Value.float (Double.ofInt (-4611686018427387904))).toInt? =
      some (-4611686018427387904) := by decide +kernel
  have few : ¬ ((-4611686018427387904 : Int) = 0 ∨ 2 ^ 24 <
      {i : Nat | Before Word.least (-4611686018427387904)
        (Word.greatest + i * -4611686018427387904)}.encard) := by
    rw [encard_before (by decide)]
    decide
  have least : Word.fits Word.least = true := by decide
  have greatest : Word.fits Word.greatest = true := by decide
  have ends := @apply_terms ⟨.int Word.least, least⟩ ⟨.int Word.greatest, greatest⟩ _ _ _ _
    rfl rfl whole
  obtain ⟨n, before, -, result⟩ := ends.2 few
  obtain rfl : n = 4 := by
    have fourth : 3 < n := (before 3).mp (by simp [Before, Word.least, Word.greatest])
    have fifth : ¬ 4 < n := mt (before 4).mpr (by simp [Before, Word.least, Word.greatest])
    omega
  exact ⟨whole, result⟩

end Range

end Recalc
