import Recalc.Expr.Basic
import Recalc.Text.Quoted
import Recalc.Value.Json

/-! The text of an expression: literals as JSON, verbs in parentheses with their operands in the
order of the flat form. -/
namespace Recalc.Expr

/-- A head and its operands in parentheses. -/
def form (head : String) (operands : List String) : String :=
  "(" ++ String.intercalate " " (head :: operands) ++ ")"

mutual

def text : Expr → String
  | root => "root"
  | val lambda => s!"val#{lambda}"
  | key lambda => s!"key#{lambda}"
  | context lambda => s!"context#{lambda}"
  | literal v => v.text
  | array items => "[" ++ String.intercalate ", " (itemTexts items) ++ "]"
  | object fields => "\x7b" ++ String.intercalate ", " (fieldTexts fields) ++ "\x7d"
  | get o k => form Token.get.name [text k, text o]
  | iterate verb source lambda body ctx =>
    form verb.token.name
      (form s!"func#{lambda}" [text body] :: text source :: contextTexts ctx)
  | unary verb operand => form verb.token.name [text operand]
  | range stop start step => form Token.range.name [text stop, text start, text step]
  | ternary condition consequent alternative =>
    form Token.ternary.name [text condition, text consequent, text alternative]
  | and items => form Token.and.name (itemTexts items)
  | or items => form Token.or.name (itemTexts items)
  | binary verb left right => form verb.token.name [text left, text right]
  | call function receiver args =>
    form Token.call.name (Value.text (.str function) :: text receiver :: itemTexts args)
  | shared _ e => text e

def itemTexts : List Expr → List String
  | [] => []
  | e :: rest => text e :: itemTexts rest

def fieldTexts : List (String × Expr) → List String
  | [] => []
  | (k, e) :: rest => (Quoted.text k ++ ": " ++ text e) :: fieldTexts rest

def contextTexts : Option Expr → List String
  | none => []
  | some e => [text e]

end

end Recalc.Expr
