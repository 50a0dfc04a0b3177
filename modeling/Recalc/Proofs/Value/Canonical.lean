import Mathlib.Algebra.Group.Nat.Defs
import Mathlib.Tactic.Common
import Recalc.Value.Code

/-! Canonical forms of values: a double that denotes a 64-bit integer becomes that integer, and
every NaN becomes one NaN. Two values are equal exactly when their canonical forms are the same, so
equality of values is an equivalence. -/
namespace Recalc

namespace Double

private theorem mul_pow_add (m q b : Nat) : m * 2 ^ (q + b) = m * Nat.pow 2 q * 2 ^ b := by
  rw [Nat.pow_add, ← Nat.mul_assoc, Nat.pow_eq]

private theorem scaled_magnitude {x : Double} {k : Nat} (hx : leadingBit ≤ magnitude x)
    (h : natural? x = some k) :
    (magnitude x % leadingBit + leadingBit) * 2 ^ (magnitude x / leadingBit) = k * 2 ^ 1075 := by
  have hs : ¬ magnitude x < leadingBit := by omega
  simp only [natural?, significand, exponent, hs, if_false] at h
  generalize magnitude x % leadingBit + leadingBit = m at h ⊢
  generalize magnitude x / leadingBit = e at h ⊢
  split at h
  · obtain ⟨q, rfl⟩ : ∃ q, e = q + 1075 := ⟨e - 1075, by omega⟩
    have hq : (((q + 1075 : Nat) : Int) - 1075).toNat = q := by omega
    rw [hq] at h
    obtain rfl := Option.some.inj h
    exact mul_pow_add m q 1075
  · split at h
    · rename_i hneg hdvd
      obtain ⟨q, hq⟩ : ∃ q, 1075 = q + e := ⟨1075 - e, by omega⟩
      have ht : (-((e : Int) - 1075)).toNat = q := by omega
      rw [ht] at h hdvd
      obtain rfl := Option.some.inj h
      have hd : m / Nat.pow 2 q * 2 ^ q = m := Nat.div_mul_cancel (Nat.dvd_of_mod_eq_zero hdvd)
      rw [hq, Nat.pow_add, ← Nat.mul_assoc, hd]
    · cases h

private theorem below_pow {a q : Nat} (ha : a < leadingBit) (hq : 52 ≤ q) : a < Nat.pow 2 q :=
  Nat.lt_of_lt_of_le ha (Nat.pow_le_pow_right Nat.two_pos hq : 2 ^ 52 ≤ 2 ^ q)

private theorem small_whole {x : Double} {k : Nat} (hx : magnitude x < leadingBit)
    (h : natural? x = some k) : magnitude x = 0 ∧ k = 0 := by
  simp only [natural?, significand, exponent, hx, if_true] at h
  rw [if_neg (by decide)] at h
  have hlt := below_pow hx (show 52 ≤ (-(-1074 : Int)).toNat by decide)
  rw [Nat.mod_eq_of_lt hlt, Nat.div_eq_of_lt hlt] at h
  split at h
  · exact ⟨by assumption, (Option.some.inj h).symm⟩
  · cases h

/-- A finite double that is a whole number is zero, or has that number as its scaled significand. -/
theorem toInt?_cases {x : Double} {n : Int} (h : toInt? x = some n) :
    ∃ k : Nat, n = (if isNegative x then -(k : Int) else k) ∧
      (magnitude x = 0 ∧ k = 0 ∨ leadingBit ≤ magnitude x ∧
        (magnitude x % leadingBit + leadingBit) * 2 ^ (magnitude x / leadingBit) =
          k * 2 ^ 1075) := by
  unfold toInt? at h
  split at h
  · obtain ⟨k, hk, rfl⟩ := Option.map_eq_some_iff.mp h
    refine ⟨k, rfl, ?_⟩
    by_cases hs : magnitude x < leadingBit
    · exact Or.inl (small_whole hs hk)
    · exact Or.inr ⟨by omega, scaled_magnitude (by omega) hk⟩
  · cases h

private theorem scaled_pos (a : Nat) : 0 < (a % leadingBit + leadingBit) * 2 ^ (a / leadingBit) :=
  Nat.mul_pos (Nat.add_pos_right _ (by decide)) (Nat.two_pow_pos _)

private theorem scaled_inj {a b : Nat} (h : (a % leadingBit + leadingBit) * 2 ^ (a / leadingBit) =
    (b % leadingBit + leadingBit) * 2 ^ (b / leadingBit)) (hle : a / leadingBit ≤ b / leadingBit) :
    a = b := by
  obtain ⟨d, hd⟩ : ∃ d, b / leadingBit = d + a / leadingBit := ⟨_, (Nat.sub_add_cancel hle).symm⟩
  rw [hd, Nat.pow_add, ← Nat.mul_assoc] at h
  have hm := Nat.eq_of_mul_eq_mul_right (Nat.two_pow_pos _) h
  have ha : a % leadingBit < leadingBit := Nat.mod_lt _ (by decide)
  cases d with
  | zero =>
    have := Nat.div_add_mod a leadingBit
    have := Nat.div_add_mod b leadingBit
    rw [Nat.zero_add] at hd
    rw [Nat.pow_zero, Nat.mul_one] at hm
    rw [hd] at *
    omega
  | succ d =>
    -- a larger exponent would push the significand over its upper bound
    have hp : 2 ≤ 2 ^ (d + 1) := by
      have := Nat.two_pow_pos d
      omega
    have := Nat.mul_le_mul (Nat.le_add_left leadingBit (b % leadingBit)) hp
    omega

/-- A whole number is denoted by one double, signs of zero aside. -/
theorem position_eq_of_toInt? {x y : Double} {n : Int} (hx : toInt? x = some n)
    (hy : toInt? y = some n) : position x = position y := by
  obtain ⟨k, hk, cx⟩ := toInt?_cases hx
  obtain ⟨l, hl, cy⟩ := toInt?_cases hy
  have hkl : k = l := by split at hk <;> split at hl <;> omega
  subst hkl
  have hmag : magnitude x = magnitude y := by
    have hx0 := scaled_pos (magnitude x)
    have hy0 := scaled_pos (magnitude y)
    rcases cx with ⟨hx, hk⟩ | ⟨-, hx⟩ <;> rcases cy with ⟨hy, hk⟩ | ⟨-, hy⟩
    · omega
    · rw [hk] at hy
      omega
    · rw [hk] at hx
      omega
    · rcases Nat.le_total (magnitude x / leadingBit) (magnitude y / leadingBit) with h | h
      · exact scaled_inj (hx.trans hy.symm) h
      · exact (scaled_inj (hy.trans hx.symm) h).symm
  have hsign : magnitude x = 0 ∨ isNegative x = isNegative y := by
    rcases cx with ⟨hx, -⟩ | ⟨-, hx⟩
    · exact Or.inl hx
    · right
      have hpos : k ≠ 0 := by
        rintro rfl
        have := scaled_pos (magnitude x)
        omega
      cases hnx : isNegative x <;> cases hny : isNegative y <;> simp [hnx, hny] at hk hl ⊢ <;> omega
  unfold position
  rcases hsign with h | h
  · rw [h, ← hmag, h]
    simp
  · rw [h, hmag]

theorem ext_bits {x y : Double} (h : x.bits.toNat = y.bits.toNat) : x = y :=
  congrArg ofBits (UInt64.toNat_inj.mp h)

/-- Numbers of one position that are not zero are one double. -/
theorem eq_of_position {x y : Double} (h : position x = position y) (h0 : magnitude x ≠ 0) :
    x = y := by
  have hm := magnitude_eq_of_position h
  have hx := x.bits.toNat_lt
  have hy := y.bits.toNat_lt
  apply ext_bits
  have hsign : isNegative x = isNegative y := by
    unfold position at h
    cases hnx : isNegative x <;> cases hny : isNegative y <;> simp [hnx, hny] at h ⊢ <;> omega
  simp only [isNegative, decide_eq_decide] at hsign
  simp only [magnitude, signBit] at hm hsign
  omega

theorem not_isNaN_of_toInt? {x : Double} {n : Int} (h : toInt? x = some n) : isNaN x = false := by
  cases hx : isNaN x with
  | false => rfl
  | true => simp [toInt?, isFinite_of_isNaN hx] at h

end Double

namespace Value
open Double (isNaN nan same position magnitude)

mutual

/-- A value with every double that denotes a 64-bit integer replaced by it, and one NaN. -/
def canon : Value → Value
  | float x => if isNaN x then float nan else (wholeFloat? x).elim (float x) int
  | arr items => arr (canonItems items)
  | obj fields => obj (canonFields fields)
  | v => v

def canonItems : List Value → List Value
  | [] => []
  | v :: rest => canon v :: canonItems rest

def canonFields : List (String × Value) → List (String × Value)
  | [] => []
  | (k, v) :: rest => (k, canon v) :: canonFields rest

end

private theorem toInt?_of_wholeFloat? {x : Double} {n : Int} (h : wholeFloat? x = some n) :
    Double.toInt? x = some n := (Option.filter_eq_some_iff.mp h).1

private theorem canon_float_int {x : Double} {n : Int} :
    canon (float x) = int n ↔ wholeFloat? x = some n := by
  unfold canon
  split
  · rename_i hx
    constructor
    · intro h
      cases h
    · intro h
      rw [Double.not_isNaN_of_toInt? (toInt?_of_wholeFloat? h)] at hx
      cases hx
  · cases h : wholeFloat? x <;> simp

private theorem canon_float_float {x y : Double} :
    canon (float x) = canon (float y) ↔ same x y = true := by
  constructor
  · intro h
    cases hx : wholeFloat? x with
    | some n =>
      have hy := canon_float_int.mp (h ▸ canon_float_int.mpr hx)
      have hx := toInt?_of_wholeFloat? hx
      have hy := toInt?_of_wholeFloat? hy
      simp [same, Double.not_isNaN_of_toInt? hx, Double.not_isNaN_of_toInt? hy,
        Double.position_eq_of_toInt? hx hy]
    | none =>
      cases hy : wholeFloat? y with
      | some n => rw [canon_float_int.mp (h.trans (canon_float_int.mpr hy))] at hx; cases hx
      | none =>
        have hn : isNaN nan = true := by decide
        simp only [canon, hx, hy, Option.elim_none] at h
        split at h <;> split at h <;> cases h <;> simp_all [same]
  · intro h
    have ht := Double.toInt?_eq_of_same h
    simp only [same, Bool.and_eq_true, Bool.or_eq_true, decide_eq_true_eq] at h
    obtain ⟨hn, h | h⟩ := h
    · simp [canon, h, hn ▸ h]
    · have hw : wholeFloat? x = wholeFloat? y := by rw [wholeFloat?, wholeFloat?, ht]
      by_cases h0 : magnitude x = 0
      · have hx : wholeFloat? x = some 0 := by simp [wholeFloat?, Double.toInt?_of_zero h0]; decide
        rw [canon_float_int.mpr hx, canon_float_int.mpr (hw ▸ hx)]
      · rw [Double.eq_of_position h h0]

theorem canon_float_cases (x : Double) :
    (∃ n, canon (float x) = int n) ∨ ∃ y, canon (float x) = float y := by
  unfold canon
  split
  · exact Or.inr ⟨nan, rfl⟩
  · cases wholeFloat? x with
    | none => exact Or.inr ⟨x, rfl⟩
    | some n => exact Or.inl ⟨n, rfl⟩

mutual

/-- Values are equal exactly when their canonical forms are the same. -/
theorem beq_iff_canon (a b : Value) : beq a b = true ↔ canon a = canon b := by
  match a, b with
  | float x, float y => exact canon_float_float.symm
  | int m, float y =>
    rw [beq, decide_eq_true_eq, ← canon_float_int]
    exact eq_comm
  | float x, int n =>
    rw [beq, decide_eq_true_eq, ← canon_float_int]
    rfl
  | arr as, arr bs =>
    rw [beq, canon, canon, arr.injEq]
    exact beqItems_iff_canon as bs
  | obj as, obj bs =>
    rw [beq, canon, canon, obj.injEq]
    exact beqFields_iff_canon as bs
  | float x, null | float x, bool _ | float x, str _ | float x, arr _ | float x, obj _ =>
    rcases canon_float_cases x with ⟨_, h⟩ | ⟨_, h⟩ <;> rw [h] <;> simp [beq, canon]
  | null, float x | bool _, float x | str _, float x | arr _, float x | obj _, float x =>
    rcases canon_float_cases x with ⟨_, h⟩ | ⟨_, h⟩ <;> rw [h] <;> simp [beq, canon]
  | null, null | bool _, bool _ | int _, int _ | str _, str _ => simp [beq, canon]
  | null, bool _ | null, int _ | null, str _ | null, arr _ | null, obj _ => simp [beq, canon]
  | bool _, null | bool _, int _ | bool _, str _ | bool _, arr _ | bool _, obj _ =>
    simp [beq, canon]
  | int _, null | int _, bool _ | int _, str _ | int _, arr _ | int _, obj _ => simp [beq, canon]
  | str _, null | str _, bool _ | str _, int _ | str _, arr _ | str _, obj _ => simp [beq, canon]
  | arr _, null | arr _, bool _ | arr _, int _ | arr _, str _ | arr _, obj _ => simp [beq, canon]
  | obj _, null | obj _, bool _ | obj _, int _ | obj _, str _ | obj _, arr _ => simp [beq, canon]

theorem beqItems_iff_canon : (as bs : List Value) →
    (beqItems as bs = true ↔ canonItems as = canonItems bs)
  | [], bs => by cases bs <;> simp [beqItems, canonItems]
  | a :: as, [] => by simp [beqItems, canonItems]
  | a :: as, b :: bs => by
    simp [beqItems, canonItems, beq_iff_canon a b, beqItems_iff_canon as bs]

theorem beqFields_iff_canon : (as bs : List (String × Value)) →
    (beqFields as bs = true ↔ canonFields as = canonFields bs)
  | [], bs => by cases bs <;> simp [beqFields, canonFields]
  | (k, a) :: as, [] => by simp [beqFields, canonFields]
  | (k, a) :: as, (l, b) :: bs => by
    simp [beqFields, canonFields, beq_iff_canon a b, beqFields_iff_canon as bs]

end

theorem beq_iff (a b : Value) : (a == b) = true ↔ canon a = canon b := by
  rw [beq_eq, beq_iff_canon]

instance : EquivBEq Value where
  rfl := by
    intro a
    rw [beq_iff]
  symm := by
    intro a b h
    rw [beq_iff] at h ⊢
    exact h.symm
  trans := by
    intro a b c h k
    rw [beq_iff] at h k ⊢
    exact h.trans k

end Value

end Recalc
