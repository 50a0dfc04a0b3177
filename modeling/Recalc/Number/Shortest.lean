import Recalc.Number.Double

/-! The fewest decimal digits that read back as a given double, and of those the nearest. -/
namespace Recalc

/-- The decimal number digits * 10 ^ scale. -/
structure DecimalDigits where
  digits : Nat
  scale : Int
  deriving DecidableEq, Repr

namespace Shortest
open Double

/-- A positive double as value * 2 ^ shift, between the ends of the interval of reals that round
to it. The ends belong to the interval when the significand is even. -/
structure Interval where
  low : Nat
  value : Nat
  high : Nat
  shift : Int
  closed : Bool

def interval (x : Double) : Interval :=
  let m := significand x
  let q := exponent x
  let narrow := m = Double.leadingBit ∧ -1074 < q
  { low := if narrow then 4 * m - 1 else 4 * m - 2
    value := 4 * m
    high := 4 * m + 2
    shift := q - 2
    closed := m % 2 = 0 }

/-- How many powers of ten the fixed scale holds below one; the least double is above 10 ^ -324. -/
def smallest : Nat := 400

/-- The exponent of the first decimal digit. -/
def leadingExponent (i : Interval) : Int :=
  let n := i.value * Nat.pow 10 smallest
  let scaled :=
    if 0 ≤ i.shift then n * Nat.pow 2 i.shift.toNat else n / Nat.pow 2 (-i.shift).toNat
  ((Nat.toDigits 10 scaled).length : Int) - 1 - smallest

/-- The point of the grid of multiples of 10 ^ k nearest to the value, among the value's two
neighbours on the grid that lie in the interval. A tie goes to the even multiple. -/
def gridPoint? (i : Interval) (k : Int) : Option Nat :=
  let up := Nat.pow 2 i.shift.toNat * Nat.pow 10 (-k).toNat
  let down := Nat.pow 2 (-i.shift).toNat * Nat.pow 10 k.toNat
  let inside (c : Nat) : Bool :=
    if i.closed then i.low * up ≤ c * down && c * down ≤ i.high * up
    else i.low * up < c * down && c * down < i.high * up
  let below := i.value * up / down
  let above := below + 1
  match inside below, inside above with
  | true, false => some below
  | false, true => some above
  | false, false => none
  | true, true =>
    let left := i.value * up - below * down
    let right := above * down - i.value * up
    if left < right ∨ left = right ∧ below % 2 = 0 then some below else some above

/-- Tries the given number of grids, the coarsest first, from the grid 10 ^ k on. -/
def search (i : Interval) : Nat → Int → DecimalDigits
  | 0, k =>
    let n := i.value * Nat.pow 2 i.shift.toNat * Nat.pow 10 (-k).toNat
    ⟨n / (Nat.pow 2 (-i.shift).toNat * Nat.pow 10 k.toNat), k⟩
  | more + 1, k =>
    match gridPoint? i k with
    | some c => ⟨c, k⟩
    | none => search i more (k - 1)

/-- Moves trailing zeros from the digits to the scale. -/
def trim : Nat → DecimalDigits → DecimalDigits
  | 0, d => d
  | more + 1, d =>
    if d.digits ≠ 0 ∧ d.digits % 10 = 0 then trim more ⟨d.digits / 10, d.scale + 1⟩ else d

/-- The shortest decimal that reads back as the magnitude of a finite double other than zero.
Seventeen digits always suffice. -/
def digits (x : Double) : DecimalDigits :=
  let i := interval x
  trim 17 (search i 17 (leadingExponent i))

end Shortest

/-- How a number is laid out: which exponents of the first digit are written without an exponent,
and whether a whole number written so keeps a fraction. -/
structure NumberLayout where
  positional : Int → Bool
  fraction : Bool

namespace NumberLayout

def zeros (n : Int) : String := String.ofList (List.replicate n.toNat '0')

/-- Digits of a number whose first digit has exponent e, without an exponent. -/
def fixed (layout : NumberLayout) (digits : List Char) (e : Int) : String :=
  if e < 0 then "0." ++ zeros (-e - 1) ++ String.ofList digits
  else
    let whole := digits.take (e.toNat + 1)
    let rest := digits.drop (e.toNat + 1)
    let padded := String.ofList whole ++ zeros (e + 1 - whole.length)
    if rest = [] then (if layout.fraction then padded ++ ".0" else padded)
    else padded ++ "." ++ String.ofList rest

/-- Digits with a power of ten, whose sign is always written. -/
def scientific (digits : List Char) (e : Int) : String :=
  let head := String.ofList (digits.take 1)
  let rest := digits.drop 1
  let mantissa := if rest = [] then head else head ++ "." ++ String.ofList rest
  mantissa ++ (if e < 0 then "e-" else "e+") ++ toString e.natAbs

/-- The text of a finite double. -/
def write (layout : NumberLayout) (x : Double) : String :=
  let sign := if Double.isNegative x then "-" else ""
  if Double.isZero x then sign ++ layout.fixed ['0'] 0
  else
    let d := Shortest.digits x
    let digits := Nat.toDigits 10 d.digits
    let e := d.scale + digits.length - 1
    sign ++ (if layout.positional e then layout.fixed digits e else scientific digits e)

end NumberLayout

end Recalc
