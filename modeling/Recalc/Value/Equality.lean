import Recalc.Value.Basic
import Recalc.Verdict

/-! Equality of values, by which an integer equals the double that denotes it and a NaN equals
itself, and hashing in step with it. -/
namespace Recalc.Value

mutual

/-- Numeric equality of numbers, and equality part by part of containers. -/
def beq : Value → Value → Bool
  | null, null => true
  | bool a, bool b => a = b
  | int a, int b => a = b
  | float a, float b => Double.same a b
  | int a, float b => wholeFloat? b = some a
  | float a, int b => wholeFloat? a = some b
  | str a, str b => a = b
  | arr as, arr bs => beqItems as bs
  | obj as, obj bs => beqFields as bs
  | _, _ => false

def beqItems : List Value → List Value → Bool
  | [], [] => true
  | a :: as, b :: bs => beq a b && beqItems as bs
  | _, _ => false

def beqFields : List (String × Value) → List (String × Value) → Bool
  | [], [] => true
  | (k, a) :: as, (l, b) :: bs => k = l && beq a b && beqFields as bs
  | _, _ => false

end

mutual

theorem beq_self : (v : Value) → beq v v = true
  | null => rfl
  | bool _ => by simp [beq]
  | int _ => by simp [beq]
  | float _ => by simp [beq, Double.same]
  | str _ => by simp [beq]
  | arr items => by simp [beq, beqItems_self items]
  | obj fields => by simp [beq, beqFields_self fields]

theorem beqItems_self : (items : List Value) → beqItems items items = true
  | [] => rfl
  | v :: rest => by simp [beqItems, beq_self v, beqItems_self rest]

theorem beqFields_self : (fields : List (String × Value)) → beqFields fields fields = true
  | [] => rfl
  | (_, v) :: rest => by simp [beqFields, beq_self v, beqFields_self rest]

end

/-! ### Shared parts -/

mutual

/-- Equality of values that looks into no part which both values hold. -/
def beqShared : (a b : Value) → Verdict (beq a b)
  | arr as, arr bs =>
    let r := Verdict.unlessShared beqItems_self as bs fun _ => beqSharedItems as bs
    ⟨r.val, by rw [r.property, beq]⟩
  | obj as, obj bs =>
    let r := Verdict.unlessShared beqFields_self as bs fun _ => beqSharedFields as bs
    ⟨r.val, by rw [r.property, beq]⟩
  | a, b => ⟨beq a b, rfl⟩

def beqSharedItems : (as bs : List Value) → Verdict (beqItems as bs)
  | a :: as, b :: bs =>
    let r := (Verdict.unlessShared beq_self a b fun _ => beqShared a b).and
      fun _ => beqSharedItems as bs
    ⟨r.val, by rw [r.property, beqItems]⟩
  | as, bs => ⟨beqItems as bs, rfl⟩

def beqSharedFields : (as bs : List (String × Value)) → Verdict (beqFields as bs)
  | (k, a) :: as, (l, b) :: bs =>
    let key : Verdict (k = l) := ⟨k = l, rfl⟩
    let r := (key.and fun _ => Verdict.unlessShared beq_self a b fun _ => beqShared a b).and
      fun _ => beqSharedFields as bs
    ⟨r.val, by rw [r.property, beqFields]⟩
  | as, bs => ⟨beqFields as bs, rfl⟩

end

instance : BEq Value := ⟨fun a b => (Verdict.unlessShared beq_self a b fun _ => beqShared a b).val⟩

theorem beq_eq (a b : Value) : (a == b) = beq a b :=
  (Verdict.unlessShared beq_self a b fun _ => beqShared a b).property

/-- What a value feeds to a hash function. -/
inductive HashWrite where
  | tag (n : UInt8)
  | integer (n : Int)
  | bits (n : UInt64)
  | text (s : String)
  | length (n : Nat)
  deriving DecidableEq, Hashable

/-- A number is written as the integer it denotes, or else by its bits; every NaN writes alike. -/
def numberWrites (v : Value) : List HashWrite :=
  match v.toInt?, v with
  | some n, _ => [.integer n]
  | none, float x => [.bits (if Double.isNaN x then UInt64.ofNat 0xffffffffffffffff else x.bits)]
  | none, _ => []

mutual

/-- The writes of a value, in order. -/
def hashWrites : Value → List HashWrite
  | null => [.tag 0]
  | bool b => [.tag 1, .tag (if b then 1 else 0)]
  | int n => .tag 2 :: numberWrites (int n)
  | float x => .tag 2 :: numberWrites (float x)
  | str s => [.tag 3, .text s]
  | arr items => .tag 4 :: .length items.length :: itemWrites items
  | obj fields => .tag 5 :: .length fields.length :: fieldWrites fields

def itemWrites : List Value → List HashWrite
  | [] => []
  | v :: rest => hashWrites v ++ itemWrites rest

def fieldWrites : List (String × Value) → List HashWrite
  | [] => []
  | (k, v) :: rest => .text k :: hashWrites v ++ fieldWrites rest

end

instance : Hashable Value := ⟨fun v => hash v.hashWrites⟩

end Recalc.Value
