import Recalc.Number.Double

/-! Decimal numbers with a coefficient below 2 ^ 96 and at most 28 places, as a decimal library
provides them where an integer meets a double. Every operation is partial: a result that does not fit
is no result. No theorem depends on the digits of a result. What is relied on is only that mixed
arithmetic gives a number, and integers only in range. -/
namespace Recalc

/-- The number coefficient / 10 ^ scale, with a sign. -/
structure Decimal where
  negative : Bool
  coefficient : Nat
  scale : Nat
  deriving DecidableEq, Repr

namespace Decimal

/-- Coefficients stay below this bound. -/
def capacity : Nat := 0x1000000000000000000000000

/-- The largest scale. -/
def maxScale : Nat := 28

def zero : Decimal := ⟨false, 0, 0⟩

def ofInt (n : Int) : Decimal := ⟨n < 0, n.natAbs, 0⟩

/-! ### Reading a double

A double m * 2 ^ q is m * 5 ^ (-q) * 10 ^ q. The steps move the powers of five into the coefficient
and drop low bits when it would leave its capacity, then bring the power of ten into range. -/

/-- A coefficient times a power of ten. -/
structure Draft where
  coefficient : Nat
  exponent : Int

/-- Multiplies by five the given number of times. -/
def multiplyFives : Nat → Draft → Draft
  | 0, d => d
  | n + 1, ⟨m, e⟩ =>
    if m % 2 = 0 then multiplyFives n ⟨m / 2, e + 1⟩
    else if 5 * m < capacity then multiplyFives n ⟨5 * m, e⟩
    else multiplyFives n ⟨m / 2, e + 1⟩

/-- Divides by five the given number of times, doubling first while there is room. -/
def divideFives : Nat → Draft → Option Draft
  | 0, d => some d
  | n + 1, ⟨m, e⟩ =>
    if m < 0x800000000000000000000000 then divideFives n ⟨2 * m, e - 1⟩
    else if (n + 1 : Int) < 2 * e then none
    else divideFives n ⟨m / 5, e⟩

/-- Writes out a positive power of ten. -/
def expand : Nat → Draft → Option Draft
  | 0, d => some d
  | n + 1, ⟨m, e⟩ => if 10 * m < capacity then expand n ⟨10 * m, e - 1⟩ else none

/-- Drops the given number of low digits, rounding each time half up. -/
def dropDigits : Nat → Draft → Draft
  | 0, d => d
  | n + 1, ⟨m, e⟩ =>
    if m / 10 = 0 then ⟨0, 0⟩
    else dropDigits n ⟨if 5 ≤ m % 10 then m / 10 + 1 else m / 10, e + 1⟩

/-- Drops low digits while the coefficient has more bits than a double keeps. -/
def dropNoise : Nat → Draft → Draft
  | 0, d => d
  | n + 1, ⟨m, e⟩ =>
    if m < Double.leadingBit then ⟨m, e⟩
    else dropNoise n ⟨if 5 ≤ m % 10 then m / 10 + 1 else m / 10, e + 1⟩

/-- Drops trailing zeros after the point. -/
def dropZeros : Nat → Draft → Draft
  | 0, d => d
  | n + 1, ⟨m, e⟩ => if m % 10 = 0 then dropZeros n ⟨m / 10, e + 1⟩ else ⟨m, e⟩

/-- The decimal for a finite double, about as many digits as the double is precise to. -/
def ofFloat? (x : Double) : Option Decimal :=
  if !Double.isFinite x then none
  else if Double.isZero x then some ⟨Double.isNegative x, 0, 0⟩
  else do
    let q := Double.exponent x
    let start : Draft := ⟨Double.significand x, q⟩
    let whole ← divideFives q.toNat (multiplyFives (-q).toNat start)
    let large ← expand whole.exponent.toNat whole
    let small := dropDigits (-28 - large.exponent).toNat large
    let precise := dropNoise (-small.exponent).toNat small
    let d := dropZeros (-precise.exponent).toNat precise
    return ⟨Double.isNegative x, d.coefficient, (-d.exponent).toNat⟩

/-! ### Arithmetic -/

/-- The first of the given number of candidates from k on that brings n / 10 ^ k, rounded half to
even, below the capacity. -/
def fitFrom (negative : Bool) (n scale : Nat) : Nat → Nat → Option Decimal
  | 0, _ => none
  | more + 1, k =>
    let c := Double.divEven n (Nat.pow 10 k)
    if c < capacity then some ⟨negative, c, scale - k⟩ else fitFrom negative n scale more (k + 1)

/-- n / 10 ^ scale with as few digits dropped as the bounds on coefficient and scale ask for. -/
def fit (negative : Bool) (n scale : Nat) : Option Decimal :=
  let k := scale - maxScale
  fitFrom negative n scale (scale + 1 - k) k

/-- The signed coefficient at a scale not below the number's own. -/
def atScale (a : Decimal) (scale : Nat) : Int :=
  let n : Int := (a.coefficient * Nat.pow 10 (scale - a.scale) : Nat)
  if a.negative then -n else n

def neg (a : Decimal) : Decimal := { a with negative := !a.negative }

def add (a b : Decimal) : Option Decimal :=
  if a.coefficient = 0 then some b
  else if b.coefficient = 0 then some a
  else
    let scale := max a.scale b.scale
    let sum := a.atScale scale + b.atScale scale
    fit (sum < 0) sum.natAbs scale

def sub (a b : Decimal) : Option Decimal :=
  if b.coefficient = 0 then (if a.coefficient = 0 then some b else some a) else add a b.neg

def mul (a b : Decimal) : Option Decimal :=
  if a.coefficient = 0 ∨ b.coefficient = 0 then some zero
  else fit (a.negative != b.negative) (a.coefficient * b.coefficient) (a.scale + b.scale)

/-- The remainder of truncated division. -/
def rem (a b : Decimal) : Option Decimal :=
  if b.coefficient = 0 then none
  else if a.coefficient = 0 then some zero
  else
    let scale := max a.scale b.scale
    let x := a.coefficient * Nat.pow 10 (scale - a.scale)
    let y := b.coefficient * Nat.pow 10 (scale - b.scale)
    if x = y then some zero
    else if x < y then some a
    else some ⟨a.negative, x % y, scale⟩

/-! ### Division -/

/-- A quotient under construction: the digits so far, the remainder, and whether digits were
added to an inexact quotient. -/
structure Quotient where
  digits : Nat
  remainder : Nat
  scale : Int
  inexact : Bool

/-- The largest k up to the limit for which q * 10 ^ k has capacity. -/
def headroom (q : Nat) : Nat → Nat
  | 0 => 0
  | k + 1 => if q * Nat.pow 10 (k + 1) < capacity then k + 1 else headroom q k

/-- Drops the last digit of a quotient past the capacity; sticky tells that more follows it. -/
def dropLast (q : Nat) (sticky : Bool) : Nat :=
  let d := q % 10
  if 5 < d ∨ d = 5 ∧ (sticky ∨ (q / 10) % 2 = 1) then q / 10 + 1 else q / 10

/-- Brings a quotient that outgrew the capacity back by one digit. -/
def overflow (s : Quotient) (sticky : Bool) : Option Quotient :=
  if s.digits < capacity then some s
  else if s.scale = 0 then none
  else some { s with digits := dropLast s.digits sticky, scale := s.scale - 1 }

/-- Rounds the last digit by the remainder, half to even. -/
def finish (divisor : Nat) (s : Quotient) : Option Quotient :=
  let r := 2 * s.remainder
  let up := divisor < r ∨ divisor = r ∧ s.digits % 2 = 1
  overflow { s with digits := if up then s.digits + 1 else s.digits } true

/-- Adds digits to a quotient until it is exact with a scale not below zero, or full. -/
def extend (divisor : Nat) : Nat → Quotient → Option Quotient
  | 0, s => some s
  | more + 1, s =>
    if s.remainder = 0 ∧ 0 ≤ s.scale then some s
    else
      let exact := s.remainder = 0
      let p : Nat := if exact then min 9 (-s.scale).toNat
        else if s.scale = (maxScale : Int) then 0
        else min (headroom s.digits 9) ((maxScale : Int) - s.scale).toNat
      let s := { s with inexact := s.inexact || !exact }
      if !exact ∧ s.scale ≠ (maxScale : Int) ∧ p < 9 ∧ (p : Int) + s.scale < 0 then none
      else if !exact ∧ p = 0 then finish divisor s
      else if capacity ≤ s.digits * Nat.pow 10 p then none
      else
        let r := s.remainder * Nat.pow 10 p
        let s := { s with
          digits := s.digits * Nat.pow 10 p + r / divisor
          remainder := r % divisor
          scale := s.scale + p }
        if capacity ≤ s.digits then overflow s (s.remainder ≠ 0) else extend divisor more s

/-- Divides the digits by 10 ^ k when their low bits and their digits allow it. -/
def shorten (bits k : Nat) (s : Quotient) : Quotient :=
  if s.digits % Nat.pow 2 bits = 0 ∧ (k : Int) ≤ s.scale ∧ s.digits % Nat.pow 10 k = 0 then
    { s with digits := s.digits / Nat.pow 10 k, scale := s.scale - k }
  else s

/-- Removes trailing zeros of an inexact quotient, in blocks of eight, four, two and one. Three
blocks of eight cover every scale. -/
def shortenAll (s : Quotient) : Quotient :=
  let eight := shorten 32 8 (shorten 32 8 (shorten 32 8 s))
  shorten 1 1 (shorten 2 2 (shorten 4 4 eight))

def div (a b : Decimal) : Option Decimal :=
  if b.coefficient = 0 then none
  else if a.coefficient = 0 then some zero
  else do
    let start : Quotient := {
      digits := a.coefficient / b.coefficient
      remainder := a.coefficient % b.coefficient
      scale := (a.scale : Int) - b.scale
      inexact := false }
    let s ← extend b.coefficient 64 start
    let s := if s.inexact then shortenAll s else s
    return ⟨a.negative != b.negative, s.digits, s.scale.toNat⟩

/-! ### Leaving decimals -/

/-- The whole number that a decimal is, if it is one. -/
def toInt? (a : Decimal) : Option Int :=
  if a.coefficient % Nat.pow 10 a.scale = 0 then
    let n : Int := (a.coefficient / Nat.pow 10 a.scale : Nat)
    some (if a.negative then -n else n)
  else none

def withSign (negative : Bool) (x : Double) : Double := if negative then -x else x

/-- The double for a decimal: the parts before and after the point are converted apart, and their
sum is rounded to the decimal's places. -/
def toFloat (a : Decimal) : Double :=
  if a.scale = 0 then
    (if a.coefficient = 0 then Double.ofNat 0 else withSign a.negative (Double.ofNat a.coefficient))
  else
    let unit := Double.ofNat (Nat.pow 10 a.scale)
    let whole := Double.ofNat (a.coefficient / Nat.pow 10 a.scale)
    let part := Double.ofNat (a.coefficient % Nat.pow 10 a.scale) / unit
    if Double.isZero part then withSign a.negative whole
    else withSign a.negative (Double.roundAway ((whole + part) * unit) / unit)

end Decimal

end Recalc
