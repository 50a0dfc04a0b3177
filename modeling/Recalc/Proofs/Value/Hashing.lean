import Recalc.Proofs.Graph.Index
import Recalc.Proofs.Number.Rounding
import Recalc.Proofs.Pass.Run
import Recalc.Proofs.Program.Sharing
import Recalc.Proofs.Value.Keys

/-! Equality of values in hash functions and in tables. Doubles are taken by all their bits, of
which those of NaNs and of zeros are equal. Equal values feed the same writes to a hash function,
and equal keys have one place in every table. -/
namespace Recalc

namespace Double
variable {x : Double} {a b : UInt64} {n : Int}

/-! ### Doubles by their bits -/

/-- The bits of a NaN: all ones in the exponent and a digit that is not zero. -/
def nanBits (b : UInt64) : Bool := infinityMagnitude < b.toNat % signBit

/-- The bits of a zero, sign aside. -/
def zeroBits (b : UInt64) : Bool := b.toNat % signBit = 0

/-- Numeric equality of doubles by their bits, by which a NaN also equals every NaN. -/
def SameBits (a b : UInt64) : Prop :=
  a = b ∨ nanBits a = true ∧ nanBits b = true ∨ zeroBits a = true ∧ zeroBits b = true

private theorem same_ofBits : same (ofBits a) (ofBits b) = true ↔ SameBits a b := by
  have position_zero {c : UInt64} (h : zeroBits c = true) : position (ofBits c) = 0 := by
    have null : magnitude (ofBits c) = 0 := of_decide_eq_true h
    simp [position, null]
  have number_zero {c : UInt64} (h : zeroBits c = true) : isNaN (ofBits c) = false := by
    have null : magnitude (ofBits c) = 0 := of_decide_eq_true h
    rw [isNaN, null]
    rfl
  simp only [same, Bool.and_eq_true, Bool.or_eq_true, decide_eq_true_eq]
  constructor
  · rintro ⟨alike, nan | positions⟩
    · exact .inr (.inl ⟨nan, alike.symm.trans nan⟩)
    · by_cases null : magnitude (ofBits a) = 0
      · have null' := (magnitude_eq_of_position positions).symm.trans null
        exact .inr (.inr ⟨decide_eq_true null, decide_eq_true null'⟩)
      · exact .inl (congrArg bits (eq_of_position positions null))
  · rintro (rfl | ⟨ha, hb⟩ | ⟨ha, hb⟩)
    · exact ⟨rfl, .inr rfl⟩
    · exact ⟨Eq.trans ha hb.symm, .inl ha⟩
    · exact ⟨(number_zero ha).trans (number_zero hb).symm,
        .inr ((position_zero ha).trans (position_zero hb).symm)⟩

/-! ### Doubles as fractions -/

/-- The number that a finite double is. -/
def rational (x : Double) : ℚ := (if isNegative x then -1 else 1) * (significand x * 2 ^ exponent x)

private theorem natural?_eq_some {k : Nat} :
    natural? x = some k ↔ (significand x : ℚ) * 2 ^ exponent x = k := by
  unfold natural?
  generalize significand x = m, exponent x = e
  split
  · rename_i whole
    obtain ⟨q, rfl⟩ := Int.eq_ofNat_of_zero_le whole
    rw [Option.some.injEq, zpow_natCast, Int.toNat_natCast, Nat.pow_eq]
    norm_cast
  · rename_i fraction
    obtain ⟨q, hq⟩ := Int.eq_ofNat_of_zero_le (by omega : 0 ≤ -e)
    obtain rfl : e = -q := by omega
    have power : (2 : ℚ) ^ q ≠ 0 := pow_ne_zero q two_ne_zero
    rw [neg_neg, Int.toNat_natCast, zpow_neg, zpow_natCast, mul_inv_eq_iff_eq_mul₀ power,
      Nat.pow_eq]
    norm_cast
    split
    · rename_i divides
      rw [Option.some.injEq, Nat.div_eq_iff_eq_mul_left (Nat.two_pow_pos q)
        (Nat.dvd_of_mod_eq_zero divides)]
    · rename_i remainder
      refine iff_of_false (by simp) fun product => remainder ?_
      rw [product, Nat.mul_mod_left]

/-- A finite double is the whole number that it equals as a fraction. -/
theorem toInt?_eq_some : toInt? x = some n ↔ isFinite x = true ∧ rational x = n := by
  unfold toInt? rational
  have positive : (0 : ℚ) ≤ significand x * 2 ^ exponent x := by positivity
  cases isFinite x with
  | false => simp
  | true =>
    simp only [if_true, true_and, Option.map_eq_some_iff, natural?_eq_some]
    generalize (significand x : ℚ) * 2 ^ exponent x = m at positive
    have counted (i : Int) : (∃ k : Nat, m = k ∧ (k : Int) = i) ↔ m = i := by
      constructor
      · rintro ⟨k, rfl, rfl⟩
        rfl
      · rintro rfl
        obtain ⟨k, rfl⟩ := Int.eq_ofNat_of_zero_le (by exact_mod_cast positive : 0 ≤ i)
        exact ⟨k, rfl, rfl⟩
    cases isNegative x with
    | false => simpa using counted n
    | true =>
      rw [if_pos rfl, neg_one_mul, neg_eq_iff_eq_neg, ← Int.cast_neg, ← counted (-n)]
      exact exists_congr fun k => and_congr_right fun _ => neg_eq_iff_eq_neg

end Double

/-! ### Writes -/

namespace Value

mutual

/-- The writes of a value are those of its canonical form. -/
theorem hashWrites_canon : (v : Value) → v.canon.hashWrites = v.hashWrites
  | null | bool _ | int _ | str _ => rfl
  | float x => by
    have number : Double.isNaN Double.nan = true := by decide
    rcases canon_float x with ⟨h, same⟩ | ⟨n, h, same⟩ | same
    · simp only [same, hashWrites, numberWrites, toInt?, wholeFloat?_of_isNaN h,
        wholeFloat?_of_isNaN number, h, number, if_true]
    · simp only [same, hashWrites, numberWrites, toInt?, h]
    · rw [same]
  | arr items => by
    obtain ⟨length, writes⟩ := itemWrites_canon items
    rw [canon, hashWrites, hashWrites, length, writes]
  | obj fields => by
    obtain ⟨length, writes⟩ := fieldWrites_canon fields
    rw [canon, hashWrites, hashWrites, length, writes]

theorem itemWrites_canon : (items : List Value) →
    (canonItems items).length = items.length ∧ itemWrites (canonItems items) = itemWrites items
  | [] => ⟨rfl, rfl⟩
  | v :: rest => by
    obtain ⟨length, writes⟩ := itemWrites_canon rest
    simp only [canonItems, itemWrites, List.length_cons, length, writes, hashWrites_canon v,
      and_self]

theorem fieldWrites_canon : (fields : List (String × Value)) →
    (canonFields fields).length = fields.length ∧
      fieldWrites (canonFields fields) = fieldWrites fields
  | [] => ⟨rfl, rfl⟩
  | (k, v) :: rest => by
    obtain ⟨length, writes⟩ := fieldWrites_canon rest
    simp only [canonFields, fieldWrites, List.length_cons, length, writes, hashWrites_canon v,
      and_self]

end

private theorem hashWrites_eq_of_beq {a b : Value} (h : (a == b) = true) :
    a.hashWrites = b.hashWrites := by
  rw [← hashWrites_canon a, (beq_iff a b).mp h, hashWrites_canon b]

private theorem int_beq_float {n : Int} {x : Double} : (int n == float x) = true ↔
    Word.fits n = true ∧ Double.isFinite x = true ∧ Double.rational x = n := by
  rw [beq_eq, beq, decide_eq_true_eq, wholeFloat?, Option.filter_eq_some_iff, Double.toInt?_eq_some]
  exact and_comm

end Value

/-! ### Tables -/

instance : EquivBEq Node where
  rfl := Node.beq_self _
  symm := Node.beq_symm
  trans {a b c} h k := by
    rcases Node.beq_cases h with rfl | ⟨u, v, rfl, rfl, same⟩
    · exact k
    · rcases Node.beq_cases k with rfl | ⟨v', w, first, rfl, same'⟩
      · exact h
      · cases first
        exact (BEq.trans same same' : (u == w) = true)

/-- An equal node has the place of the first one, also if that is new. -/
theorem NodeTable.intern_of_beq (t : NodeTable) {a b : Node} (h : (a == b) = true) :
    (t.intern b).1 = (t.intern a).1 ∧ (t.intern a).2.intern b = t.intern a := by
  have same : (fun e : Entry => e.node == b) = fun e => e.node == a :=
    funext fun e => (BEq.congr_right h).symm
  unfold intern
  rw [same]
  cases found : t.entries.findIdx? (fun e => e.node == a) with
  | some id => simp only [found, and_self]
  | none => simp [Array.findIdx?_push, found]

/-- An equal key has the cell of the first one, also if that is new. -/
theorem Graph.intern_of_beq (g : Graph) {a b : CellKey CellId} (h : (a == b) = true) :
    (g.intern b).1 = (g.intern a).1 ∧ (g.intern a).2.intern b = g.intern a := by
  have same : g.find? b = g.find? a := (Table.find?_congr g.index h).symm
  unfold intern
  rw [same]
  cases found : g.find? a with
  | some id => simp only [same, found, and_self]
  | none =>
    cases free : g.free with
    | nil => simp [find?, Table.find?_insert, h]
    | cons id rest => simp [find?, Table.find?_insert, h]

private theorem Pass.BindingKey.beq_iff {a b : Pass.BindingKey} : (a == b) = true ↔
    a.iteration = b.iteration ∧ a.outer = b.outer ∧ (a.key == b.key) = true := by
  change (decide _ && decide _ && _) = true ↔ _
  simp only [Bool.and_eq_true, decide_eq_true_eq, and_assoc]

instance : EquivBEq Pass.BindingKey where
  rfl := Pass.BindingKey.beq_iff.mpr ⟨rfl, rfl, BEq.rfl⟩
  symm h := by
    obtain ⟨iteration, outer, key⟩ := Pass.BindingKey.beq_iff.mp h
    exact Pass.BindingKey.beq_iff.mpr ⟨iteration.symm, outer.symm, BEq.symm key⟩
  trans h k := by
    obtain ⟨iteration, outer, key⟩ := Pass.BindingKey.beq_iff.mp h
    obtain ⟨iteration', outer', key'⟩ := Pass.BindingKey.beq_iff.mp k
    exact Pass.BindingKey.beq_iff.mpr
      ⟨iteration.trans iteration', outer.trans outer', BEq.trans key key'⟩

/-- An equal key has the number of the first one, also if that is new. -/
theorem Pass.number_of_beq (s : Pass.State) {a b : Pass.BindingKey} (h : (a == b) = true) :
    ((number b).run s).1 = ((number a).run s).1 ∧
      (number b).run ((number a).run s).2 = (number a).run s := by
  have same : s.numbers.find? b = s.numbers.find? a := (Table.find?_congr s.numbers h).symm
  rw [number_run a, number_run b s, same]
  cases found : s.numbers.find? a with
  | some n => exact ⟨rfl, by rw [number_run, same, found]⟩
  | none =>
    -- The new tables differ, so the numbers are compared without them.
    have fresh : (Except.ok s.count : Except EvalError BindingId) = .ok s.count := rfl
    exact ⟨fresh, by rw [number_run, Table.find?_insert, if_pos h]⟩

/-- Equality of values is an equivalence, on doubles by all their bits and between integers and
doubles. Equal values feed the same writes to a hash function, and equal keys share their place
among the nodes, the cells and the numbered bindings. -/
theorem Value.equality_laws :
    (∀ a : Value, (a == a) = true) ∧
    (∀ a b : Value, (a == b) = true → (b == a) = true) ∧
    (∀ a b c : Value, (a == b) = true → (b == c) = true → (a == c) = true) ∧
    (∀ a b : Value, (a == b) = true → a.hashWrites = b.hashWrites) ∧
    (∀ x y : UInt64, (float (.ofBits x) == float (.ofBits y)) = true ↔ Double.SameBits x y) ∧
    (∀ (n : Int) (x : UInt64), (int n == float (.ofBits x)) = true ↔ Word.fits n = true ∧
      Double.isFinite (.ofBits x) = true ∧ Double.rational (.ofBits x) = n) ∧
    (∀ (t : NodeTable) (a b : Node), (a == b) = true →
      (t.intern b).1 = (t.intern a).1 ∧ (t.intern a).2.intern b = t.intern a) ∧
    (∀ (g : Graph) (a b : CellKey CellId), (a == b) = true →
      (g.intern b).1 = (g.intern a).1 ∧ (g.intern a).2.intern b = g.intern a) ∧
    ∀ (s : Pass.State) (a b : Pass.BindingKey), (a == b) = true →
      ((Pass.number b).run s).1 = ((Pass.number a).run s).1 ∧
        (Pass.number b).run ((Pass.number a).run s).2 = (Pass.number a).run s := by
  refine ⟨fun _ => BEq.rfl, fun _ _ => BEq.symm, fun _ _ _ => BEq.trans,
    fun _ _ => hashWrites_eq_of_beq, fun x y => ?_, fun _ _ => int_beq_float,
    fun t _ _ => t.intern_of_beq, fun g _ _ => g.intern_of_beq, fun s _ _ => Pass.number_of_beq s⟩
  rw [beq_eq, beq]
  exact Double.same_ofBits

/-- The integer zero equals both zeros among the doubles. Two NaNs that differ in sign and digits
are equal and write alike. -/
theorem Value.equality_laws_zeros :
    (arr [int 0] == arr [float (.ofBits 0x8000000000000000)]) = true ∧
      float (.ofBits 0x7ff0000000000001) ≠ float (.ofBits 0xfff8000000000000) ∧
      (float (.ofBits 0x7ff0000000000001) == float (.ofBits 0xfff8000000000000)) = true ∧
      (float (.ofBits 0x7ff0000000000001)).hashWrites =
        (float (.ofBits 0xfff8000000000000)).hashWrites ∧
      (arr [int 0]).hashWrites = (arr [float (.ofBits 0x8000000000000000)]).hashWrites ∧
      (NodeTable.empty.intern (.literal (int 0))).2.intern
          (.literal (float (.ofBits 0x8000000000000000))) =
        NodeTable.empty.intern (.literal (int 0)) ∧
      (Graph.empty.intern (.slot 0 (int 0))).2.intern
          (.slot 0 (float (.ofBits 0x8000000000000000))) =
        Graph.empty.intern (.slot 0 (int 0)) ∧
      (Pass.number ⟨0, [], float (.ofBits 0x8000000000000000)⟩).run
          ((Pass.number ⟨0, [], int 0⟩).run .start).2 =
        (Pass.number ⟨0, [], int 0⟩).run .start := by
  obtain ⟨-, symm, trans, hashing, doubles, -, nodes, cells, numbers⟩ := Value.equality_laws
  have first : (arr [int 0] == arr [float (.ofBits 0)]) = true := by decide +kernel
  have second : (arr [float (.ofBits 0x8000000000000000)] == arr [float (.ofBits 0)]) = true := by
    decide +kernel
  have zeros := trans _ _ _ first (symm _ _ second)
  have zero : (int 0 == float (.ofBits 0x8000000000000000)) = true := by decide +kernel
  have node := nodes .empty (.literal (int 0)) (.literal (float (.ofBits 0x8000000000000000))) zero
  have cell := cells .empty (.slot 0 (int 0)) (.slot 0 (float (.ofBits 0x8000000000000000)))
    (by decide +kernel)
  have binding := numbers .start ⟨0, [], int 0⟩ ⟨0, [], float (.ofBits 0x8000000000000000)⟩
    (by decide +kernel)
  have nans := (doubles 0x7ff0000000000001 0xfff8000000000000).mpr (.inr (.inl (by decide)))
  have distinct : float (.ofBits 0x7ff0000000000001) ≠ float (.ofBits 0xfff8000000000000) := by
    simp
  exact ⟨zeros, distinct, nans, hashing _ _ nans, hashing _ _ zeros, node.2, cell.2, binding.2⟩

end Recalc
