import Recalc.Verb.Token

/-! The three families of verbs that a token may name. -/
namespace Recalc

/-- Verbs on two operands. -/
inductive BinaryVerb where
  | eq
  | gt
  | lt
  | gte
  | lte
  | plus
  | minus
  | mult
  | div
  | mod
  deriving DecidableEq, Repr

/-- Verbs on one operand. -/
inductive UnaryVerb where
  | not
  | values
  | keys
  | assign
  | defaults
  | size
  deriving DecidableEq, Repr

/-- Verbs that call a function on each element of a container. -/
inductive CollectionVerb where
  | map
  | filter
  | any
  | keyBy
  | mapValues
  | mapKeys
  | groupBy
  | filterBy
  | anyValues
  deriving DecidableEq, Repr

def BinaryVerb.token : BinaryVerb → Token
  | .eq => .eq
  | .gt => .gt
  | .lt => .lt
  | .gte => .gte
  | .lte => .lte
  | .plus => .plus
  | .minus => .minus
  | .mult => .mult
  | .div => .div
  | .mod => .mod

def UnaryVerb.token : UnaryVerb → Token
  | .not => .not
  | .values => .values
  | .keys => .keys
  | .assign => .assign
  | .defaults => .defaults
  | .size => .size

def CollectionVerb.token : CollectionVerb → Token
  | .map => .map
  | .filter => .filter
  | .any => .any
  | .keyBy => .keyBy
  | .mapValues => .mapValues
  | .mapKeys => .mapKeys
  | .groupBy => .groupBy
  | .filterBy => .filterBy
  | .anyValues => .anyValues

def BinaryVerb.ofToken? : Token → Option BinaryVerb
  | .eq => some .eq
  | .gt => some .gt
  | .lt => some .lt
  | .gte => some .gte
  | .lte => some .lte
  | .plus => some .plus
  | .minus => some .minus
  | .mult => some .mult
  | .div => some .div
  | .mod => some .mod
  | _ => none

def UnaryVerb.ofToken? : Token → Option UnaryVerb
  | .not => some .not
  | .values => some .values
  | .keys => some .keys
  | .assign => some .assign
  | .defaults => some .defaults
  | .size => some .size
  | _ => none

def CollectionVerb.ofToken? : Token → Option CollectionVerb
  | .map => some .map
  | .filter => some .filter
  | .any => some .any
  | .keyBy => some .keyBy
  | .mapValues => some .mapValues
  | .mapKeys => some .mapKeys
  | .groupBy => some .groupBy
  | .filterBy => some .filterBy
  | .anyValues => some .anyValues
  | _ => none

end Recalc
