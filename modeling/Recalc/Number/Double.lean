/-! IEEE 754 binary64 numbers by their bits: order, whole numbers, rounding of exact values to the
nearest double with ties to even, and arithmetic, which is exact up to that rounding. -/
namespace Recalc

/-- A double, by its 64 bits. Different bits are different doubles, also those of two NaNs. -/
structure Double where
  ofBits ::
  bits : UInt64
  deriving DecidableEq

namespace Double

/-- The highest of the 64 bits, which is set in negative numbers. -/
def signBit : Nat := 0x8000000000000000

/-- The bit above the 52 stored ones that a normal number's significand has. -/
def leadingBit : Nat := 0x10000000000000

/-- The bits below the sign, which order the numbers of one sign by magnitude. -/
def magnitude (x : Double) : Nat := x.bits.toNat % signBit

/-- The sign bit. -/
def isNegative (x : Double) : Bool := signBit ≤ x.bits.toNat

/-- The magnitude bits of infinity; a larger magnitude is a NaN. -/
def infinityMagnitude : Nat := 0x7ff0000000000000

def isNaN (x : Double) : Bool := infinityMagnitude < magnitude x

def isFinite (x : Double) : Bool := magnitude x < infinityMagnitude

/-- The position of a number in the order of doubles. Both zeros share a position. -/
def position (x : Double) : Int :=
  if isNegative x then -(magnitude x : Int) else magnitude x

def isZero (x : Double) : Bool := magnitude x = 0

/-- Numeric equality, by which a NaN also equals every NaN. -/
def same (x y : Double) : Bool :=
  isNaN x = isNaN y && (isNaN x || position x = position y)

/-- The order of two numbers, and nothing when one of them is a NaN. -/
def compare? (x y : Double) : Option Ordering :=
  if isNaN x || isNaN y then none else some (compare (position x) (position y))

/-- The whole number m of a finite double m * 2 ^ q, sign aside. -/
def significand (x : Double) : Nat :=
  if magnitude x < leadingBit then magnitude x else magnitude x % leadingBit + leadingBit

/-- The exponent q of a finite double m * 2 ^ q. -/
def exponent (x : Double) : Int :=
  if magnitude x < leadingBit then -1074 else (magnitude x / leadingBit : Nat) - 1075

def signed (negative : Bool) (bits : Nat) : Double :=
  .ofBits (UInt64.ofNat (if negative then bits + signBit else bits))

def infinity : Double := signed false infinityMagnitude

def nan : Double := signed false 0x7ff8000000000000

def negativeZero : Double := signed true 0

/-- n / d rounded to the nearest whole number, an exact half to the even neighbour. -/
def divEven (n d : Nat) : Nat :=
  let q := n / d
  let r := n % d
  if d < 2 * r ∨ d = 2 * r ∧ q % 2 = 1 then q + 1 else q

/-- The double nearest to m * 2 ^ e, ties to even, with the given sign. -/
def round (negative : Bool) (m : Nat) (e : Int) : Double :=
  if m = 0 then signed negative 0 else
    let q := max ((Nat.log2 m : Int) + e - 52) (-1074)
    let n := if q ≤ e then m * Nat.pow 2 (e - q).toNat else divEven m (Nat.pow 2 (q - e).toNat)
    signed negative (min ((q + 1074).toNat * leadingBit + n) infinityMagnitude)

def ofNat (n : Nat) : Double := round false n 0

def ofInt (n : Int) : Double := round (n < 0) n.natAbs 0

/-- The whole number that the magnitude of a finite double is, if it is one. -/
def natural? (x : Double) : Option Nat :=
  if 0 ≤ exponent x then some (significand x * Nat.pow 2 (exponent x).toNat)
  else if significand x % Nat.pow 2 (-exponent x).toNat = 0 then
    some (significand x / Nat.pow 2 (-exponent x).toNat)
  else none

/-- The whole number that a finite double is, if it is one. -/
def toInt? (x : Double) : Option Int :=
  if isFinite x then (natural? x).map fun (n : Nat) => if isNegative x then -(n : Int) else n
  else none

/-- The least whole double that is not below x. -/
def ceil (x : Double) : Double :=
  if isFinite x && exponent x < 0 then
    let unit := Nat.pow 2 (-exponent x).toNat
    let n := significand x / unit
    if isNegative x || significand x % unit = 0 then round (isNegative x) n 0
    else round false (n + 1) 0
  else x

/-- The nearest whole double, a half going away from zero. -/
def roundAway (x : Double) : Double :=
  if isFinite x && exponent x < 0 then
    let unit := Nat.pow 2 (-exponent x).toNat
    round (isNegative x) ((2 * significand x + unit) / (2 * unit)) 0
  else x

/-- The exact remainder of truncated division, which has the sign of x. -/
def rem (x y : Double) : Double :=
  if isFinite x && !isNaN y && !isZero y then
    if isFinite y then
      let q := min (exponent x) (exponent y)
      let m := significand x * Nat.pow 2 (exponent x - q).toNat
      let n := significand y * Nat.pow 2 (exponent y - q).toNat
      round (isNegative x) (m % n) q
    else x
  else nan

/-! ### Arithmetic

A result that is not a number is always the same NaN, whichever NaNs it comes from. -/

def neg (x : Double) : Double := signed (!isNegative x) (magnitude x)

/-- A finite double in units of 2 ^ q, where q is not above its exponent. -/
def units (x : Double) (q : Int) : Int :=
  let n : Int := (significand x * Nat.pow 2 (exponent x - q).toNat : Nat)
  if isNegative x then -n else n

/-- The sum. A zero is negative only if both terms are. -/
def add (x y : Double) : Double :=
  if isNaN x || isNaN y then nan
  else if isFinite x && isFinite y then
    let q := min (exponent x) (exponent y)
    let sum := units x q + units y q
    round (if sum = 0 then isNegative x && isNegative y else sum < 0) sum.natAbs q
  else if isFinite x then y
  else if isFinite y || isNegative x = isNegative y then x
  else nan

def sub (x y : Double) : Double := add x (neg y)

def mul (x y : Double) : Double :=
  let negative := isNegative x != isNegative y
  if isNaN x || isNaN y then nan
  else if isFinite x && isFinite y then
    round negative (significand x * significand y) (exponent x + exponent y)
  else if isZero x || isZero y then nan
  else signed negative infinityMagnitude

/-- How many digits a quotient of significands is given. With 116 it has more than a double keeps,
however small the dividend is. -/
def quotientDigits : Nat := 116

/-- The quotient. One more digit tells whether the division leaves a remainder, which is all that
rounding has to know of it. -/
def div (x y : Double) : Double :=
  let negative := isNegative x != isNegative y
  if isNaN x || isNaN y then nan
  else if isFinite x && isFinite y then
    if isZero y then (if isZero x then nan else signed negative infinityMagnitude)
    else
      let n := significand x * Nat.pow 2 quotientDigits
      let rest := if n % significand y = 0 then 0 else 1
      round negative (2 * (n / significand y) + rest)
        (exponent x - exponent y - (quotientDigits + 1 : Nat))
  else if isFinite x then signed negative 0
  else if isFinite y then signed negative infinityMagnitude
  else nan

instance : Neg Double := ⟨neg⟩

instance : Add Double := ⟨add⟩

instance : Sub Double := ⟨sub⟩

instance : Mul Double := ⟨mul⟩

instance : Div Double := ⟨div⟩

end Double

end Recalc
