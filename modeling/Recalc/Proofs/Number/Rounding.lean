import Mathlib
import Recalc.Proofs.Value.Canonical

/-! Rounding of integers to doubles. An integer that a double denotes is rounded to that double,
small integers are all denoted, and rounding keeps the order. -/
namespace Recalc.Double

/-! ### Doubles from bits -/

section Signed
variable {negative : Bool} {bits : Nat}

private theorem toNat_signed (h : bits ≤ infinityMagnitude) :
    (signed negative bits).bits.toNat = if negative then bits + signBit else bits := by
  unfold infinityMagnitude at h
  refine UInt64.toNat_ofNat_of_lt' ?_
  unfold signBit UInt64.size
  split <;> omega

private theorem magnitude_signed (h : bits ≤ infinityMagnitude) :
    magnitude (signed negative bits) = bits := by
  rw [magnitude, toNat_signed h]
  unfold infinityMagnitude at h
  unfold signBit
  split <;> omega

private theorem isNegative_signed (h : bits ≤ infinityMagnitude) :
    isNegative (signed negative bits) = negative := by
  rw [isNegative, toNat_signed h]
  unfold infinityMagnitude at h
  unfold signBit
  cases negative <;> simp
  omega

private theorem isNaN_signed (h : bits ≤ infinityMagnitude) :
    isNaN (signed negative bits) = false := by
  rw [isNaN, magnitude_signed h, decide_eq_false (Nat.not_lt.mpr h)]

/-- A double is made of its sign and its magnitude. -/
theorem signed_magnitude {x : Double} (h : magnitude x ≤ infinityMagnitude) :
    signed (isNegative x) (magnitude x) = x := by
  apply ext_bits
  rw [toNat_signed h]
  have := x.bits.toNat_lt
  unfold isNegative magnitude signBit
  simp only [decide_eq_true_eq]
  split <;> omega

theorem isNaN_ofInt (n : Int) : isNaN (ofInt n) = false := by
  unfold ofInt round
  split
  · exact isNaN_signed (Nat.zero_le _)
  · exact isNaN_signed (Nat.min_le_right _ _)

end Signed

/-! ### Numbers that are denoted -/

private theorem divEven_mul {n d : Nat} (h : 0 < d) : divEven (n * d) d = n := by
  simp only [divEven, Nat.mul_mod_left, Nat.mul_div_cancel _ h]
  rw [if_neg]
  omega

section Scaled
variable {m s : Nat}

/-! A number m is denoted if it has s for its 53 digits, which is to say m * 2 ^ 52 = s * 2 ^ l where
l is the logarithm of m. -/

private theorem scaled_bounds (nonzero : m ≠ 0) (scaled : s * 2 ^ m.log2 = m * 2 ^ 52) :
    leadingBit ≤ s ∧ s < 2 * leadingBit := by
  have positive := Nat.two_pow_pos m.log2
  have low := Nat.log2_self_le nonzero
  have high : m < 2 ^ m.log2 * 2 := Nat.lt_log2_self
  unfold leadingBit
  constructor
  · apply Nat.le_of_mul_le_mul_right _ positive
    rw [scaled]
    omega
  · apply Nat.lt_of_mul_lt_mul_right
    rw [scaled]
    omega

private theorem whole_of_scaled {d : Nat} (scaled : s * 2 ^ m.log2 = m * 2 ^ 52)
    (length : m.log2 = 52 + d) : s * Nat.pow 2 d = m := by
  apply Nat.eq_of_mul_eq_mul_right (Nat.two_pow_pos 52)
  rw [← scaled, length, Nat.add_comm, Nat.pow_add, Nat.mul_assoc]
  rfl

private theorem digits_of_scaled {d : Nat} (scaled : s * 2 ^ m.log2 = m * 2 ^ 52)
    (length : 52 = m.log2 + d) : m * Nat.pow 2 d = s := by
  apply Nat.eq_of_mul_eq_mul_right (Nat.two_pow_pos m.log2)
  rw [scaled, length, Nat.add_comm, Nat.pow_add, Nat.mul_assoc]
  rfl

/-- Rounding keeps the digits of a number that has at most 53. -/
theorem round_of_scaled {negative : Bool} (nonzero : m ≠ 0)
    (scaled : s * 2 ^ m.log2 = m * 2 ^ 52) : round negative m 0 =
      signed negative (min ((m.log2 + 1022) * leadingBit + s) infinityMagnitude) := by
  have power : max ((m.log2 : Int) + 0 - 52) (-1074) = m.log2 - 52 := by omega
  have biased : ((m.log2 : Int) - 52 + 1074).toNat = m.log2 + 1022 := by omega
  simp only [round, if_neg nonzero, power, biased]
  rcases Nat.lt_or_ge 52 m.log2 with large | small
  · obtain ⟨d, length⟩ := Nat.exists_eq_add_of_le (Nat.le_of_lt large)
    have shift : ((m.log2 : Int) - 52 - 0).toNat = d := by omega
    have rounded : divEven m (Nat.pow 2 d) = s := by
      rw [← whole_of_scaled scaled length]
      exact divEven_mul (Nat.two_pow_pos d)
    rw [if_neg (by omega), shift, rounded]
  · obtain ⟨d, length⟩ := Nat.exists_eq_add_of_le small
    have shift : (0 - ((m.log2 : Int) - 52)).toNat = d := by omega
    rw [if_pos (by omega), shift, digits_of_scaled scaled length]

private theorem natural?_of_scaled {x : Double} (nonzero : m ≠ 0)
    (scaled : s * 2 ^ m.log2 = m * 2 ^ 52)
    (bits : magnitude x = (m.log2 + 1022) * leadingBit + s) : natural? x = some m := by
  obtain ⟨low, high⟩ := scaled_bounds nonzero scaled
  have normal : ¬ magnitude x < leadingBit := by
    unfold leadingBit at *
    omega
  have quotient : magnitude x / leadingBit = m.log2 + 1023 := by
    unfold leadingBit at *
    omega
  have digits : magnitude x % leadingBit + leadingBit = s := by
    unfold leadingBit at *
    omega
  simp only [natural?, significand, exponent, if_neg normal, quotient, digits]
  rcases Nat.lt_or_ge m.log2 52 with small | large
  · obtain ⟨d, length⟩ := Nat.exists_eq_add_of_le (Nat.le_of_lt small)
    have shift : (-(((m.log2 + 1023 : Nat) : Int) - 1075)).toNat = d := by omega
    rw [if_neg (by omega), shift, ← digits_of_scaled scaled length, if_pos (Nat.mul_mod_left _ _)]
    exact congrArg some (Nat.mul_div_cancel _ (Nat.two_pow_pos d))
  · obtain ⟨d, length⟩ := Nat.exists_eq_add_of_le large
    have shift : (((m.log2 + 1023 : Nat) : Int) - 1075).toNat = d := by omega
    rw [if_pos (by omega), shift, whole_of_scaled scaled length]

/-- Digits at any scale are the digits of the number, and the scale follows from its logarithm. -/
private theorem scaled_of_digits {e p : Nat} (nonzero : m ≠ 0) (low : 2 ^ 52 ≤ s)
    (high : s < 2 ^ 53) (h : s * 2 ^ e = m * 2 ^ p) :
    52 + e = m.log2 + p ∧ s * 2 ^ m.log2 = m * 2 ^ 52 := by
  have above : 2 ^ (52 + e) < 2 ^ (m.log2 + 1 + p) := calc
    2 ^ (52 + e) ≤ s * 2 ^ e := by
      rw [Nat.pow_add]
      exact Nat.mul_le_mul_right _ low
    _ = m * 2 ^ p := h
    _ < 2 ^ (m.log2 + 1 + p) := by
      rw [Nat.pow_add]
      exact Nat.mul_lt_mul_of_pos_right Nat.lt_log2_self (Nat.two_pow_pos _)
  have below : 2 ^ (m.log2 + p) < 2 ^ (53 + e) := calc
    2 ^ (m.log2 + p) ≤ m * 2 ^ p := by
      rw [Nat.pow_add]
      exact Nat.mul_le_mul_right _ (Nat.log2_self_le nonzero)
    _ = s * 2 ^ e := h.symm
    _ < 2 ^ (53 + e) := by
      rw [Nat.pow_add]
      exact Nat.mul_lt_mul_of_pos_right high (Nat.two_pow_pos _)
  have length : 52 + e = m.log2 + p := by
    have := (Nat.pow_lt_pow_iff_right Nat.one_lt_two).mp above
    have := (Nat.pow_lt_pow_iff_right Nat.one_lt_two).mp below
    omega
  refine ⟨length, Nat.eq_of_mul_eq_mul_right (Nat.two_pow_pos p) ?_⟩
  calc s * 2 ^ m.log2 * 2 ^ p = s * 2 ^ (52 + e) := by rw [Nat.mul_assoc, ← Nat.pow_add, length]
    _ = s * 2 ^ e * 2 ^ 52 := by rw [Nat.add_comm, Nat.pow_add, Nat.mul_assoc]
    _ = m * 2 ^ 52 * 2 ^ p := by rw [h, Nat.mul_right_comm]

private theorem exists_scaled (nonzero : m ≠ 0) (h : m ≤ 2 ^ 53) :
    ∃ s, s * 2 ^ m.log2 = m * 2 ^ 52 := by
  rcases Nat.lt_or_ge m.log2 53 with small | large
  · obtain ⟨d, length⟩ := Nat.exists_eq_add_of_le (Nat.le_of_lt_succ small)
    exact ⟨m * 2 ^ d, by rw [Nat.mul_assoc, ← Nat.pow_add, Nat.add_comm, ← length]⟩
  · obtain rfl := Nat.le_antisymm h ((Nat.le_log2 nonzero).mp large)
    exact ⟨2 ^ 52, by rw [Nat.log2_two_pow, Nat.mul_comm]⟩

end Scaled

/-! ### Integers as doubles -/

private theorem magnitude_lt_of_toInt? {x : Double} {n : Int} (h : toInt? x = some n) :
    magnitude x < infinityMagnitude := by
  unfold toInt? at h
  split at h
  case isTrue finite => simpa [isFinite] using finite
  case isFalse => cases h

/-- A whole double other than zero is what its number is rounded to. -/
theorem ofInt_of_toInt? {x : Double} {n : Int} (h : toInt? x = some n) (nonzero : n ≠ 0) :
    ofInt n = x := by
  obtain ⟨k, number, ⟨-, rfl⟩ | ⟨normal, scaled⟩⟩ := toInt?_cases h
  · exact absurd (by simpa using number) nonzero
  have positive : k ≠ 0 := by
    rintro rfl
    exact nonzero (by simpa using number)
  have low : leadingBit ≤ magnitude x % leadingBit + leadingBit := Nat.le_add_left _ _
  have high : magnitude x % leadingBit + leadingBit < leadingBit + leadingBit :=
    Nat.add_lt_add_right (Nat.mod_lt _ (by decide)) _
  obtain ⟨length, digits⟩ := scaled_of_digits positive low high scaled
  have bits : (k.log2 + 1022) * leadingBit + (magnitude x % leadingBit + leadingBit) =
      magnitude x := by
    have biased : magnitude x / leadingBit = k.log2 + 1022 + 1 := by omega
    have divided := Nat.div_add_mod (magnitude x) leadingBit
    rw [biased, Nat.mul_comm, Nat.succ_mul] at divided
    omega
  have sign : decide (n < 0) = isNegative x := by
    cases hs : isNegative x <;> simp [hs] at number ⊢ <;> omega
  have absolute : n.natAbs = k := by split at number <;> omega
  have finite := Nat.le_of_lt (magnitude_lt_of_toInt? h)
  rw [ofInt, absolute, round_of_scaled positive digits, bits, Nat.min_eq_left finite, sign,
    signed_magnitude finite]

private theorem toInt?_ofInt_zero : toInt? (ofInt 0) = some 0 :=
  toInt?_of_zero (magnitude_signed (Nat.zero_le _))

private theorem position_ofInt {x : Double} {n : Int} (h : toInt? x = some n) :
    position (ofInt n) = position x := by
  by_cases zero : n = 0
  · subst zero
    exact position_eq_of_toInt? toInt?_ofInt_zero h
  · rw [ofInt_of_toInt? h zero]

theorem same_ofInt {x : Double} {n : Int} (h : toInt? x = some n) : same (ofInt n) x = true := by
  simp [same, isNaN_ofInt, not_isNaN_of_toInt? h, position_ofInt h]

/-- Up to the last integer before the first gap, integers are doubles. -/
theorem toInt?_ofInt {n : Int} (h : n.natAbs ≤ 2 ^ 53) : toInt? (ofInt n) = some n := by
  by_cases zero : n = 0
  · subst zero
    exact toInt?_ofInt_zero
  have nonzero : n.natAbs ≠ 0 := by omega
  obtain ⟨s, scaled⟩ := exists_scaled nonzero h
  obtain ⟨-, high⟩ := scaled_bounds nonzero scaled
  have short : n.natAbs.log2 < 54 :=
    (Nat.log2_lt nonzero).mpr (Nat.lt_of_le_of_lt h (by decide))
  have finite : (n.natAbs.log2 + 1022) * leadingBit + s < infinityMagnitude := by
    unfold leadingBit infinityMagnitude at *
    omega
  have whole : ofInt n = signed (n < 0) ((n.natAbs.log2 + 1022) * leadingBit + s) := by
    rw [ofInt, round_of_scaled nonzero scaled, Nat.min_eq_left (Nat.le_of_lt finite)]
  have bits := @magnitude_signed (n < 0) _ (Nat.le_of_lt finite)
  have sign := @isNegative_signed (n < 0) _ (Nat.le_of_lt finite)
  rw [← whole] at bits sign
  rw [toInt?, isFinite, bits, decide_eq_true finite, if_pos rfl,
    natural?_of_scaled nonzero scaled bits, sign]
  simp only [Option.map_some, decide_eq_true_eq, Option.some.injEq]
  split <;> omega

/-! ### Order -/

private theorem divEven_mono {a b d : Nat} (h : a ≤ b) : divEven a d ≤ divEven b d := by
  have quotients : a / d ≤ b / d := Nat.div_le_div_right h
  unfold divEven
  rcases Nat.lt_or_eq_of_le quotients with less | same
  · dsimp only
    split <;> split <;> omega
  · have remainders : a % d ≤ b % d := by
      have first := Nat.div_add_mod a d
      have second := Nat.div_add_mod b d
      rw [same] at first
      omega
    dsimp only
    rw [same]
    split <;> split <;> omega

private theorem le_divEven (a d : Nat) : a / d ≤ divEven a d := by
  unfold divEven
  dsimp only
  split <;> omega

private theorem divEven_le (a d : Nat) : divEven a d ≤ a / d + 1 := by
  unfold divEven
  dsimp only
  split <;> omega

/-- The digits that a number other than zero is rounded to, 53 of them or the next power of two. -/
def digits (m : Nat) : Nat :=
  if m.log2 ≤ 52 then m * 2 ^ (52 - m.log2) else divEven m (2 ^ (m.log2 - 52))

private theorem digits_bounds {m : Nat} (nonzero : m ≠ 0) :
    leadingBit ≤ digits m ∧ digits m ≤ 2 * leadingBit := by
  have low := Nat.log2_self_le nonzero
  have high : m < 2 ^ (m.log2 + 1) := Nat.lt_log2_self
  have leading : leadingBit = 2 ^ 52 := rfl
  unfold digits
  rw [leading]
  split
  · rename_i short
    constructor
    · calc 2 ^ 52 = 2 ^ m.log2 * 2 ^ (52 - m.log2) := by rw [← Nat.pow_add]; congr 1; omega
        _ ≤ m * 2 ^ (52 - m.log2) := Nat.mul_le_mul_right _ low
    · calc m * 2 ^ (52 - m.log2) ≤ 2 ^ (m.log2 + 1) * 2 ^ (52 - m.log2) :=
            Nat.mul_le_mul_right _ (Nat.le_of_lt high)
        _ = 2 * 2 ^ 52 := by rw [← Nat.pow_add, ← Nat.pow_succ']; congr 1; omega
  · rename_i long
    have positive := Nat.two_pow_pos (m.log2 - 52)
    constructor
    · refine Nat.le_trans ((Nat.le_div_iff_mul_le positive).mpr ?_) (le_divEven _ _)
      calc 2 ^ 52 * 2 ^ (m.log2 - 52) = 2 ^ m.log2 := by rw [← Nat.pow_add]; congr 1; omega
        _ ≤ m := low
    · refine Nat.le_trans (divEven_le _ _) (Nat.succ_le_of_lt ?_)
      rw [Nat.div_lt_iff_lt_mul positive]
      calc m < 2 ^ (m.log2 + 1) := high
        _ = 2 * 2 ^ 52 * 2 ^ (m.log2 - 52) := by
          rw [← Nat.pow_succ', ← Nat.pow_add]; congr 1; omega

private theorem digits_mono {m n : Nat} (h : m ≤ n) (length : m.log2 = n.log2) :
    digits m ≤ digits n := by
  unfold digits
  rw [length]
  split
  · exact Nat.mul_le_mul_right _ h
  · exact divEven_mono h

private theorem ofNat_eq {m : Nat} (nonzero : m ≠ 0) : ofNat m =
    signed false (min ((m.log2 + 1022) * leadingBit + digits m) infinityMagnitude) := by
  have power : max ((m.log2 : Int) + 0 - 52) (-1074) = m.log2 - 52 := by omega
  have biased : ((m.log2 : Int) - 52 + 1074).toNat = m.log2 + 1022 := by omega
  have up : (0 - ((m.log2 : Int) - 52)).toNat = 52 - m.log2 := by omega
  have down : ((m.log2 : Int) - 52 - 0).toNat = m.log2 - 52 := by omega
  have short : (m.log2 : Int) - 52 ≤ 0 ↔ m.log2 ≤ 52 := by omega
  simp only [ofNat, round, if_neg nonzero, power, biased, up, down, short]
  rfl

private theorem magnitude_ofNat_zero : magnitude (ofNat 0) = 0 := magnitude_signed (Nat.zero_le _)

private theorem magnitude_ofNat {m : Nat} (nonzero : m ≠ 0) : magnitude (ofNat m) =
    min ((m.log2 + 1022) * leadingBit + digits m) infinityMagnitude := by
  rw [ofNat_eq nonzero, magnitude_signed (Nat.min_le_right _ _)]

/-- Rounding keeps the order. -/
theorem magnitude_ofNat_mono {m n : Nat} (h : m ≤ n) :
    magnitude (ofNat m) ≤ magnitude (ofNat n) := by
  by_cases zero : m = 0
  · rw [zero, magnitude_ofNat_zero]
    exact Nat.zero_le _
  have nonzero : n ≠ 0 := by omega
  rw [magnitude_ofNat zero, magnitude_ofNat nonzero]
  refine Nat.le_min.mpr ⟨Nat.le_trans (Nat.min_le_left _ _) ?_, Nat.min_le_right _ _⟩
  have lengths : m.log2 ≤ n.log2 :=
    (Nat.le_log2 nonzero).mpr (Nat.le_trans (Nat.log2_self_le zero) h)
  rcases Nat.lt_or_eq_of_le lengths with less | same
  · have upper := (digits_bounds zero).2
    have lower := (digits_bounds nonzero).1
    unfold leadingBit at *
    omega
  · rw [same]
    exact Nat.add_le_add_left (digits_mono h same) _

private theorem position_ofNat (n : Nat) : position (ofNat n) = magnitude (ofNat n) := by
  have sign : isNegative (ofNat n) = false := by
    by_cases zero : n = 0
    · subst zero
      exact isNegative_signed (Nat.zero_le _)
    · rw [ofNat_eq zero, isNegative_signed (Nat.min_le_right _ _)]
  rw [position, sign]
  rfl

/-- Every 128-bit number has a finite double. -/
theorem isFinite_ofNat {n : Nat} (h : n < 2 ^ 128) : isFinite (ofNat n) = true := by
  rw [isFinite, decide_eq_true_eq]
  by_cases zero : n = 0
  · rw [zero, magnitude_ofNat_zero]
    decide
  · have short : n.log2 < 128 := (Nat.log2_lt zero).mpr h
    have upper := (digits_bounds zero).2
    rw [magnitude_ofNat zero]
    refine Nat.lt_of_le_of_lt (Nat.min_le_left _ _) ?_
    unfold leadingBit infinityMagnitude at *
    omega

theorem compare?_ofNat_eq_gt {m n : Nat} (hm : m < 2 ^ 128) (hn : n < 2 ^ 128) :
    compare? (ofNat m) (ofNat n) = some .gt ↔ magnitude (ofNat n) < magnitude (ofNat m) := by
  have number {k : Nat} (h : k < 2 ^ 128) : isNaN (ofNat k) = false := by
    have finite := isFinite_ofNat h
    rw [isFinite, decide_eq_true_eq] at finite
    rw [isNaN, decide_eq_false (by omega)]
  rw [compare?, number hm, number hn, if_neg (by decide), position_ofNat, position_ofNat,
    Option.some.injEq, compare_gt_iff_gt]
  exact Int.ofNat_lt

theorem toInt?_ofNat {n : Nat} (h : n ≤ 2 ^ 53) : toInt? (ofNat n) = some (n : Int) := by
  have same : ofNat n = ofInt n := by
    rw [ofNat, ofInt, Int.natAbs_natCast, decide_eq_false (by omega)]
  rw [same, toInt?_ofInt (by simpa using h)]

end Recalc.Double
