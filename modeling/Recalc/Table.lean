import Std.Data.TreeMap

/-! Tables whose keys have an equality of their own. Equal keys have one code, and a key is compared
only with the keys of its code. -/
namespace Recalc

/-- Keys with codes. -/
class Coded (κ : Type) [BEq κ] where
  code : κ → Nat
  code_eq : ∀ a b : κ, (a == b) = true → code a = code b

/-- Continues a code with that of a further part. -/
def mixCode (a b : Nat) : Nat := (a * 65599 + b) % 2147483647

/-- Entries by the codes of their keys, the last added first. -/
structure Table (κ α : Type) where
  buckets : Std.TreeMap Nat (List (κ × α))

namespace Table
variable {κ α : Type}

def empty : Table κ α := ⟨.empty⟩

variable [BEq κ] [Coded κ]

/-- The entries with the code of a key. -/
def bucket (t : Table κ α) (key : κ) : List (κ × α) := t.buckets.getD (Coded.code key) []

def find? (t : Table κ α) (key : κ) : Option α :=
  ((t.bucket key).find? fun e => e.1 == key).map Prod.snd

/-- Adds an entry, which counts before any other of an equal key. -/
def insert (t : Table κ α) (key : κ) (value : α) : Table κ α :=
  ⟨t.buckets.insert (Coded.code key) ((key, value) :: t.bucket key)⟩

/-- Removes the entries of all keys equal to a key. -/
def erase (t : Table κ α) (key : κ) : Table κ α :=
  ⟨t.buckets.insert (Coded.code key) ((t.bucket key).filter fun e => !(e.1 == key))⟩

theorem find?_empty (key : κ) : (empty : Table κ α).find? key = none := by
  simp [find?, bucket, empty]

theorem bucket_insert (t : Table κ α) (key other : κ) (value : α) :
    (t.insert key value).bucket other =
      if Coded.code key = Coded.code other then (key, value) :: t.bucket key
      else t.bucket other := by
  simp [bucket, insert, Std.TreeMap.getD_insert]

theorem find?_insert (t : Table κ α) (key other : κ) (value : α) :
    (t.insert key value).find? other = if key == other then some value else t.find? other := by
  unfold find?
  rw [bucket_insert]
  by_cases h : (key == other) = true
  · simp [h, Coded.code_eq key other h]
  · by_cases hc : Coded.code key = Coded.code other
    · simp [h, hc, bucket]
    · simp [h, hc]

end Table

end Recalc
