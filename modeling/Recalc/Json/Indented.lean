import Recalc.Json.Basic

/-! JSON text over several lines, each level two spaces further in. -/
namespace Recalc.Json

def newline (depth : Nat) : String := "\n" ++ String.ofList (List.replicate (2 * depth) ' ')

/-- Items between brackets, one a line. Without items the brackets stand together. -/
def bracketed (depth : Nat) (first last : String) : List String → String
  | [] => first ++ last
  | items =>
    let inner := newline (depth + 1)
    first ++ inner ++ String.intercalate ("," ++ inner) items ++ newline depth ++ last

mutual

def renderIndented (depth : Nat) : Json → String
  | .arr items => bracketed depth "[" "]" (indentedItems (depth + 1) items)
  | .obj fields => bracketed depth "\x7b" "\x7d" (indentedFields (depth + 1) fields)
  | .null => render .null
  | .bool b => render (.bool b)
  | .num n => render (.num n)
  | .str s => render (.str s)

def indentedItems (depth : Nat) : List Json → List String
  | [] => []
  | j :: rest => renderIndented depth j :: indentedItems depth rest

def indentedFields (depth : Nat) : List (String × Json) → List String
  | [] => []
  | (k, j) :: rest => (quote k ++ ": " ++ renderIndented depth j) :: indentedFields depth rest

end

end Recalc.Json
