/-! Signed 64-bit integers as whole numbers: their range, their text, and wrapping into the
range. -/
namespace Recalc.Word

/-- How many patterns 64 bits have. -/
def capacity : Nat := 0x10000000000000000

/-- The least signed 64-bit integer. -/
def least : Int := -0x8000000000000000

/-- The greatest signed 64-bit integer. -/
def greatest : Int := 0x7fffffffffffffff

/-- Whether a whole number is a signed 64-bit integer. -/
def fits (n : Int) : Bool := least ≤ n && n ≤ greatest

/-- The signed 64-bit integer with the same low 64 bits. -/
def wrap (n : Int) : Int := (Int64.ofInt n).toInt

def natural? (cs : List Char) : Option Nat :=
  if cs ≠ [] ∧ cs.all Char.isDigit then
    some (cs.foldl (fun n c => n * 10 + (c.toNat - '0'.toNat)) 0)
  else none

/-- The integer that a text denotes: an optional sign, then digits and nothing else. -/
def ofText? (s : String) : Option Int :=
  let n : Option Int := match s.toList with
    | '-' :: rest => (natural? rest).map fun n => -(n : Int)
    | '+' :: rest => (natural? rest).map Int.ofNat
    | cs => (natural? cs).map Int.ofNat
  n.filter fits

end Recalc.Word
