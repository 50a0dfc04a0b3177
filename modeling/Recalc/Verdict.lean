/-! Truth values that are computed in a shorter way than they are defined. A value or an expression
can hold one part in many places, and its tree is then exponentially larger than what is kept in
memory. Comparing takes two parts that are one in memory as equal, without looking inside. -/
namespace Recalc

/-- A truth value, computed in another way. -/
abbrev Verdict (b : Bool) := { r : Bool // r = b }

namespace Verdict

/-- The second is computed only if the first is true. -/
@[inline]
def and {a b : Bool} (first : Verdict a) (second : Unit → Verdict b) : Verdict (a && b) :=
  ⟨first.val && (second ()).val, by rw [first.property, (second ()).property]⟩

/-- Computes a reflexive relation of two things unless they are one in memory. -/
@[inline]
def unlessShared {α : Type} {rel : α → α → Bool} (refl : ∀ a, rel a a = true) (a b : α)
    (verdict : Unit → Verdict (rel a b)) : Verdict (rel a b) :=
  ⟨withPtrEq a b (fun _ => (verdict ()).val) fun h => by rw [(verdict ()).property, h, refl],
    (verdict ()).property⟩

end Verdict

end Recalc
