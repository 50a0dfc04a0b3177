import Recalc.Fields
import Recalc.Number.Shortest
import Recalc.Number.Word

/-! JSON documents and their compact text. -/
namespace Recalc

/-- A JSON number: an integer, or a double that is not an infinity or a NaN. -/
inductive JsonNumber where
  | int (n : Int)
  | float (x : Double) (finite : Double.isFinite x = true)

/-- A JSON document. The fields of an object are sorted by key unless said otherwise. -/
inductive Json where
  | null
  | bool (b : Bool)
  | num (n : JsonNumber)
  | str (s : String)
  | arr (items : List Json)
  | obj (fields : List (String × Json))
  deriving Inhabited

namespace JsonNumber

/-- The number for a double that has one. -/
def ofFloat? (x : Double) : Option JsonNumber :=
  if h : Double.isFinite x = true then some (.float x h) else none

/-- The signed 64-bit integer that a number is, if it is written as one. -/
def toInt64? : JsonNumber → Option Int
  | .int n => if Word.fits n then some n else none
  | .float _ _ => none

/-- The unsigned 64-bit integer that a number is, if it is written as one. -/
def toUInt64? : JsonNumber → Option Nat
  | .int n => if 0 ≤ n && n < Word.capacity then some n.toNat else none
  | .float _ _ => none

def toFloat : JsonNumber → Double
  | .int n => Double.ofInt n
  | .float x _ => x

/-- Doubles are positional from five places after the point up to sixteen digits before it, and
always show a fraction then. -/
def layout : NumberLayout := ⟨fun e => -5 ≤ e && e ≤ 15, true⟩

def text : JsonNumber → String
  | .int n => toString n
  | .float x _ => layout.write x

/-! ### What is relied on

A JSON library provides these numbers. Reading and writing of values, and reading of models, rely on
it for no more than that a double has a number exactly if it is finite, that a number is a 64-bit
integer exactly if it is written as one in range, and that a number made of a double gives it
back. -/

theorem ofFloat?_eq_some {x : Double} {n : JsonNumber} :
    ofFloat? x = some n ↔ ∃ finite, n = .float x finite := by
  unfold ofFloat?
  split
  · rename_i finite
    exact ⟨fun h => ⟨finite, (Option.some.inj h).symm⟩, fun ⟨_, h⟩ => congrArg some h.symm⟩
  · rename_i infinite
    exact ⟨nofun, fun ⟨finite, _⟩ => absurd finite infinite⟩

theorem ofFloat?_eq_none {x : Double} : ofFloat? x = none ↔ Double.isFinite x = false := by
  rw [← Bool.not_eq_true]
  unfold ofFloat?
  split
  · rename_i finite
    exact ⟨nofun, fun h => absurd finite h⟩
  · rename_i infinite
    exact ⟨fun _ => infinite, fun _ => rfl⟩

theorem toInt64?_eq_some {n : JsonNumber} {i : Int} :
    n.toInt64? = some i ↔ n = .int i ∧ Word.fits i = true := by
  cases n with
  | float x finite => simp [toInt64?]
  | int n =>
    rw [toInt64?, JsonNumber.int.injEq]
    split
    · rename_i fits
      rw [Option.some.injEq]
      exact ⟨fun h => ⟨h, h ▸ fits⟩, fun h => h.1⟩
    · rename_i large
      exact ⟨nofun, fun h => absurd (h.1 ▸ h.2) large⟩

theorem toUInt64?_eq_some {n : JsonNumber} {d : Nat} :
    n.toUInt64? = some d ↔ n = .int d ∧ d < Word.capacity := by
  cases n with
  | float x finite => simp [toUInt64?]
  | int n =>
    simp only [toUInt64?, JsonNumber.int.injEq, Bool.and_eq_true, decide_eq_true_eq]
    split
    · rename_i h
      rw [Option.some.injEq]
      omega
    · rename_i h
      constructor
      · intro none
        cases none
      · omega

theorem toFloat_float (x : Double) (finite : Double.isFinite x = true) :
    toFloat (.float x finite) = x := rfl

end JsonNumber

namespace Json

def hexDigit (n : Nat) : Char := (Nat.toDigits 16 n).headD '0'

/-- A character of a JSON string: only quotes, backslashes and controls are escaped. -/
def escape (c : Char) : List Char :=
  match c with
  | '"' => ['\\', '"']
  | '\\' => ['\\', '\\']
  | '\n' => ['\\', 'n']
  | '\r' => ['\\', 'r']
  | '\t' => ['\\', 't']
  | '\x08' => ['\\', 'b']
  | '\x0c' => ['\\', 'f']
  | c =>
    if c.toNat < 0x20 then ['\\', 'u', '0', '0', hexDigit (c.toNat / 16), hexDigit (c.toNat % 16)]
    else [c]

/-- The text of a string, in quotes. -/
def quote (s : String) : String :=
  "\"" ++ String.ofList (s.toList.flatMap escape) ++ "\""

mutual

/-- Compact text, with no blanks. -/
def render : Json → String
  | .null => "null"
  | .bool b => if b then "true" else "false"
  | .num n => n.text
  | .str s => quote s
  | .arr items => "[" ++ String.intercalate "," (renderItems items) ++ "]"
  | .obj fields => "\x7b" ++ String.intercalate "," (renderFields fields) ++ "\x7d"

def renderItems : List Json → List String
  | [] => []
  | j :: rest => render j :: renderItems rest

def renderFields : List (String × Json) → List String
  | [] => []
  | (k, j) :: rest => (quote k ++ ":" ++ render j) :: renderFields rest

end

mutual

/-- Sorts the fields of every object; of fields with one key the last counts. -/
def normalize : Json → Json
  | .arr items => .arr (normalizeItems items)
  | .obj fields => .obj (Fields.ofList (normalizeFields fields))
  | j => j

def normalizeItems : List Json → List Json
  | [] => []
  | j :: rest => normalize j :: normalizeItems rest

def normalizeFields : List (String × Json) → List (String × Json)
  | [] => []
  | (k, j) :: rest => (k, normalize j) :: normalizeFields rest

end

end Json

end Recalc
