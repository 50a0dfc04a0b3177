import Recalc.Expr.Text
import Recalc.Json.Basic

/-! Why a definition is refused, and the messages for it. -/
namespace Recalc

/-- An operand that its token cannot take. -/
inductive OperandFault where
  | notAModel
  | quoteCount
  | depth (n : JsonNumber)
  | setterArgument
  | functionName (found : Expr)

def OperandFault.message : OperandFault → String
  | .notAModel => "a model must be a JSON object"
  | .quoteCount => "$quote takes exactly one value"
  | .depth n => s!"depth must be a non-negative integer, got {n.text}"
  | .setterArgument => "setter arguments are only valid in setter paths"
  | .functionName found => s!"function name must be a string literal, got {found.text}"

/-- Why a definition is refused. The largest 64-bit depth has no place to look at. -/
inductive DefinitionError where
  | arity (token : Token) (expected : Arity) (found : Nat)
  | notAVerb (token : Token)
  | notChainable (token : Token)
  | internal (token : Token)
  | expectedFunction (token : Token)
  | unexpectedFunction (token : Token)
  | unknownVerb (name : String)
  | invalidOperand (token : Token) (fault : OperandFault)
  | unboundReference (token : Token)
  | depthOverflow (token : Token)
  | invalidSegment (segment : Json)

def DefinitionError.message : DefinitionError → String
  | .arity token expected found =>
    s!"`{token.name}` takes {expected.text} tokens, got {found}"
  | .notAVerb token => s!"`{token.name}` is a terminal reference and cannot be chained onto"
  | .notChainable token => s!"`{token.name}` is not a chain method"
  | .internal token => s!"`{token.name}` is internal and cannot be used in definitions"
  | .expectedFunction token => s!"`{token.name}` expects a function as its callback operand"
  | .unexpectedFunction token =>
    s!"a function is only valid as the callback of a collection verb, found in `{token.name}`"
  | .unknownVerb name => s!"unknown verb `{name}`"
  | .invalidOperand token fault => s!"invalid operand for `{token.name}`: {fault.message}"
  | .unboundReference token => s!"`{token.name}` is not bound by an enclosing function"
  | .depthOverflow token => s!"the depth of `{token.name}` is out of range"
  | .invalidSegment segment => s!"invalid setter path segment: {segment.render}"

end Recalc
