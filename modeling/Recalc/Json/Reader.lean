import Recalc.Json.Basic

/-! Reading JSON text. The grammar is strict, containers nest at most 127 deep, and a number with a
fraction or an exponent is computed from a 64-bit significand and a power of ten. -/
namespace Recalc.Json

/-! ### Numbers -/

/-- Digits gathered into a significand, and how many were left out because it was full. -/
structure Gathered where
  significand : Nat
  dropped : Nat

def digitValue (c : Char) : Nat := c.toNat - '0'.toNat

/-- Reads digits into a 64-bit significand. From the first one that has no room, all are
dropped. -/
def gather : Nat → List Char → Gathered
  | m, [] => ⟨m, 0⟩
  | m, c :: rest =>
    let next := m * 10 + digitValue c
    if next < Word.capacity then gather next rest else ⟨m, rest.length + 1⟩

/-- Scales a double down by powers of ten, 308 at a time, then multiplies or divides by the last
power. The count bounds the number of large steps. -/
def scaleBy : Nat → Double → Int → Option Double
  | steps, x, e =>
    if e.natAbs ≤ 308 then
      let power := Double.ofNat (Nat.pow 10 e.natAbs)
      some (if 0 ≤ e then x * power else x / power)
    else if Double.isZero x then some x
    else if 0 < e then none
    else match steps with
      | 0 => some x
      | steps + 1 => scaleBy steps (x / Double.ofNat (Nat.pow 10 308)) (e + 308)

/-- The double significand * 10 ^ e with a sign, unless it is too large. -/
def scaled? (negative : Bool) (m : Nat) (e : Int) : Option JsonNumber := do
  let x ← scaleBy (e.natAbs / 308 + 1) (Double.ofNat m) e
  JsonNumber.ofFloat? (if negative then -x else x)

/-- The parts of a number's text: a sign, digits, a fraction, and an exponent with its sign. -/
structure Numeral where
  negative : Bool
  whole : List Char
  fraction : Option (List Char)
  exponent : Option (Bool × List Char)

/-- An integer without fraction and exponent. Those past 64 bits, and the negative zero, are
doubles. -/
def ofWhole? (negative : Bool) (g : Gathered) : Option JsonNumber :=
  if g.dropped ≠ 0 then scaled? negative g.significand g.dropped
  else if !negative then some (.int g.significand)
  else if g.significand = 0 ∨ Word.greatest + 1 < g.significand then
    JsonNumber.ofFloat? (-(Double.ofNat g.significand))
  else some (.int (-g.significand))

/-- An exponent past 32 bits makes any number but zero too large, or vanish. -/
def Numeral.value? (n : Numeral) : Option JsonNumber :=
  let whole := gather 0 n.whole
  match n.fraction, n.exponent with
  | none, none => ofWhole? n.negative whole
  | fraction, exponent =>
    let digits := fraction.getD []
    let part := gather whole.significand digits
    let base : Int := whole.dropped - (digits.length - part.dropped : Nat)
    match exponent with
    | none => scaled? n.negative part.significand base
    | some (negative, ds) =>
      let e := ds.foldl (fun e c => e * 10 + digitValue c) 0
      if e < 0x80000000 then
        scaled? n.negative part.significand (if negative then base - e else base + e)
      else if part.significand ≠ 0 ∧ !negative then none
      else JsonNumber.ofFloat? (if n.negative then -(Double.ofNat 0) else Double.ofNat 0)

/-- At least one digit, and what follows the digits. -/
def digits? (cs : List Char) : Option (List Char × List Char) :=
  let ds := cs.takeWhile Char.isDigit
  if ds = [] then none else some (ds, cs.dropWhile Char.isDigit)

def fraction? : List Char → Option (Option (List Char) × List Char)
  | '.' :: rest => (digits? rest).map fun (ds, rest) => (some ds, rest)
  | cs => some (none, cs)

def exponent? : List Char → Option (Option (Bool × List Char) × List Char)
  | c :: rest =>
    if c = 'e' ∨ c = 'E' then
      let (negative, rest) := match rest with
        | '+' :: rest => (false, rest)
        | '-' :: rest => (true, rest)
        | rest => (false, rest)
      (digits? rest).map fun (ds, rest) => (some (negative, ds), rest)
    else some (none, c :: rest)
  | [] => some (none, [])

/-- A number starts with a digit or a minus sign; only zero itself starts with a zero. -/
def number? (cs : List Char) : Option (JsonNumber × List Char) := do
  let (negative, cs) := match cs with
    | '-' :: rest => (true, rest)
    | cs => (false, cs)
  let (whole, cs) ← digits? cs
  if whole.head? = some '0' ∧ whole.length ≠ 1 then none
  let (fraction, cs) ← fraction? cs
  let (exponent, cs) ← exponent? cs
  let n ← Numeral.value? ⟨negative, whole, fraction, exponent⟩
  return (n, cs)

/-! ### Strings -/

def hexValue? (c : Char) : Option Nat :=
  if c.isDigit then some (c.toNat - '0'.toNat)
  else if 'a' ≤ c ∧ c ≤ 'f' then some (c.toNat - 'a'.toNat + 10)
  else if 'A' ≤ c ∧ c ≤ 'F' then some (c.toNat - 'A'.toNat + 10)
  else none

def unit? (a b c d : Char) : Option Nat := do
  return (((← hexValue? a) * 16 + (← hexValue? b)) * 16 + (← hexValue? c)) * 16 + (← hexValue? d)

/-- The character after a backslash, other than a numbered one. -/
def escaped? : Char → Option Char
  | '"' => some '"'
  | '\\' => some '\\'
  | '/' => some '/'
  | 'b' => some '\x08'
  | 'f' => some '\x0c'
  | 'n' => some '\n'
  | 'r' => some '\r'
  | 't' => some '\t'
  | _ => none

/-- The characters of a string up to its closing quote. The two halves of a character outside the
basic plane must stand together. -/
def chars? : List Char → Option (List Char × List Char)
  | [] => none
  | '"' :: rest => some ([], rest)
  | '\\' :: 'u' :: a :: b :: c :: d :: '\\' :: 'u' :: e :: f :: g :: h :: rest => do
    let high ← unit? a b c d
    if 0xd800 ≤ high ∧ high < 0xdc00 then
      let low ← unit? e f g h
      if 0xdc00 ≤ low ∧ low < 0xe000 then
        let (cs, rest) ← chars? rest
        return (Char.ofNat (0x10000 + (high - 0xd800) * 0x400 + (low - 0xdc00)) :: cs, rest)
      else none
    else if 0xdc00 ≤ high ∧ high < 0xe000 then none
    else
      let (cs, rest) ← chars? ('\\' :: 'u' :: e :: f :: g :: h :: rest)
      return (Char.ofNat high :: cs, rest)
  | '\\' :: 'u' :: a :: b :: c :: d :: rest => do
    let n ← unit? a b c d
    if 0xd800 ≤ n ∧ n < 0xe000 then none
    let (cs, rest) ← chars? rest
    return (Char.ofNat n :: cs, rest)
  | '\\' :: c :: rest => do
    let e ← escaped? c
    let (cs, rest) ← chars? rest
    return (e :: cs, rest)
  | c :: rest => do
    if c.toNat < 0x20 then none
    let (cs, rest) ← chars? rest
    return (c :: cs, rest)

/-! ### Documents -/

def isBlank (c : Char) : Bool := c = ' ' || c = '\t' || c = '\n' || c = '\r'

def skipBlanks (cs : List Char) : List Char := cs.dropWhile isBlank

mutual

/-- A document and what follows it, with the given number of nested containers left. At most two
calls are made for a character, which bounds the fuel. -/
def document? : Nat → Nat → List Char → Option (Json × List Char)
  | 0, _, _ => none
  | fuel + 1, depth, cs =>
    match skipBlanks cs with
    | 'n' :: 'u' :: 'l' :: 'l' :: rest => some (.null, rest)
    | 't' :: 'r' :: 'u' :: 'e' :: rest => some (.bool true, rest)
    | 'f' :: 'a' :: 'l' :: 's' :: 'e' :: rest => some (.bool false, rest)
    | '"' :: rest => (chars? rest).map fun (s, rest) => (.str (String.ofList s), rest)
    | '[' :: rest =>
      if depth = 0 then none
      else match skipBlanks rest with
        | ']' :: rest => some (.arr [], rest)
        | rest => (items? fuel (depth - 1) rest).map fun (items, rest) => (.arr items, rest)
    | '\x7b' :: rest =>
      if depth = 0 then none
      else match skipBlanks rest with
        | '\x7d' :: rest => some (.obj [], rest)
        | rest => (fields? fuel (depth - 1) rest).map fun (fields, rest) => (.obj fields, rest)
    | rest => (number? rest).map fun (n, rest) => (.num n, rest)

/-- One item or more, up to the closing bracket. -/
def items? : Nat → Nat → List Char → Option (List Json × List Char)
  | 0, _, _ => none
  | fuel + 1, depth, cs => do
    let (item, rest) ← document? fuel depth cs
    match skipBlanks rest with
    | ',' :: rest =>
      let (items, rest) ← items? fuel depth rest
      return (item :: items, rest)
    | ']' :: rest => return ([item], rest)
    | _ => none

/-- One field or more, up to the closing brace, in the order of the text. -/
def fields? : Nat → Nat → List Char → Option (List (String × Json) × List Char)
  | 0, _, _ => none
  | fuel + 1, depth, cs =>
    match skipBlanks cs with
    | '"' :: rest => do
      let (key, rest) ← chars? rest
      match skipBlanks rest with
      | ':' :: rest =>
        let (value, rest) ← document? fuel depth rest
        let field := (String.ofList key, value)
        match skipBlanks rest with
        | ',' :: rest =>
          let (fields, rest) ← fields? fuel depth rest
          return (field :: fields, rest)
        | '\x7d' :: rest => return ([field], rest)
        | _ => none
      | _ => none
    | _ => none

end

/-- How many containers may be open at once. -/
def maxDepth : Nat := 127

/-- The document that a text is, with fields in the order of the text and repeated ones kept. -/
def read? (text : String) : Option Json := do
  let cs := text.toList
  let (document, rest) ← document? (2 * cs.length + 1) maxDepth cs
  if skipBlanks rest = [] then some document else none

/-- The document that a text is. -/
def parse? (text : String) : Option Json := (read? text).map normalize

end Recalc.Json
