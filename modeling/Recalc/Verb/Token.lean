/-! The words of the model language and how each may be used. -/
namespace Recalc

/-- A verb or a reference, in the order of the table of words. -/
inductive Token where
  | and
  | or
  | not
  | ternary
  | get
  | root
  | mapValues
  | map
  | any
  | keyBy
  | filter
  | anyValues
  | filterBy
  | mapKeys
  | groupBy
  | values
  | keys
  | assign
  | defaults
  | range
  | size
  | context
  | func
  | val
  | key
  | arg0
  | arg1
  | topLevel
  | eq
  | gt
  | lt
  | gte
  | lte
  | plus
  | minus
  | mult
  | div
  | mod
  | call
  | wildcard
  deriving DecidableEq, Repr

/-- Bounds on the number of tokens of a flat form, its head included. -/
structure Arity where
  least : Nat
  most : Option Nat
  deriving DecidableEq, Repr

namespace Arity

def admits (a : Arity) (n : Nat) : Bool :=
  a.least ≤ n && match a.most with
    | some most => n ≤ most
    | none => true

def text (a : Arity) : String :=
  match a.most with
  | none => "at least " ++ toString a.least
  | some most =>
    if a.least = most then "exactly " ++ toString a.least
    else toString a.least ++ " to " ++ toString most

end Arity

/-- What the table of words says about a token. -/
structure TokenInfo where
  name : String
  arity : Arity
  /-- Where the receiver of a chained call stands in the flat form. -/
  receiver : Option Nat := none
  /-- A reference, which takes no operands. -/
  terminal : Bool := false
  /-- Not available as a chained call. -/
  unchained : Bool := false
  /-- Goes through the elements of a container. -/
  collection : Bool := false
  /-- Only for ordered sequences. -/
  sequence : Bool := false
  /-- Not available in definitions. -/
  internal : Bool := false
  /-- Worth computing once for all bindings it does not read. -/
  hoist : Bool := false

namespace TokenInfo

def chained (name : String) (receiver least : Nat) (most : Option Nat) : TokenInfo :=
  { name, arity := ⟨least, most⟩, receiver := some receiver }

def standalone (name : String) (least : Nat) : TokenInfo :=
  { name, arity := ⟨least, none⟩, unchained := true }

def reference (name : String) : TokenInfo :=
  { name, arity := ⟨1, some 1⟩, terminal := true, unchained := true }

def unary (name : String) : TokenInfo := chained name 1 2 (some 2)

def binary (name : String) : TokenInfo := chained name 1 3 (some 3)

def iteration (name : String) : TokenInfo :=
  { chained name 2 3 (some 4) with collection := true, hoist := true }

def ofToken : Token → TokenInfo
  | .and => standalone "and" 2
  | .or => standalone "or" 2
  | .not => unary "not"
  | .ternary => chained "ternary" 1 4 (some 4)
  | .get => chained "get" 2 3 (some 3)
  | .root => reference "root"
  | .mapValues => iteration "mapValues"
  | .map => { iteration "map" with sequence := true }
  | .any => { iteration "any" with sequence := true }
  | .keyBy => { iteration "keyBy" with sequence := true }
  | .filter => { iteration "filter" with sequence := true }
  | .anyValues => iteration "anyValues"
  | .filterBy => iteration "filterBy"
  | .mapKeys => iteration "mapKeys"
  | .groupBy => iteration "groupBy"
  | .values => { unary "values" with collection := true, hoist := true }
  | .keys => { unary "keys" with collection := true, hoist := true }
  | .assign => { unary "assign" with sequence := true }
  | .defaults => { unary "defaults" with sequence := true }
  | .range => chained "range" 1 2 (some 4)
  | .size => unary "size"
  | .context => reference "context"
  | .func => { standalone "func" 2 with internal := true }
  | .val => reference "val"
  | .key => reference "key"
  | .arg0 => reference "arg0"
  | .arg1 => reference "arg1"
  | .topLevel => { reference "topLevel" with internal := true }
  | .eq => binary "eq"
  | .gt => binary "gt"
  | .lt => binary "lt"
  | .gte => binary "gte"
  | .lte => binary "lte"
  | .plus => binary "plus"
  | .minus => binary "minus"
  | .mult => binary "mult"
  | .div => binary "div"
  | .mod => binary "mod"
  | .call => chained "call" 2 3 none
  | .wildcard => { reference "wildcard" with internal := true }

end TokenInfo

namespace Token

/-- Every token, in the order of the table. -/
def all : List Token :=
  [.and, .or, .not, .ternary, .get, .root, .mapValues, .map, .any, .keyBy, .filter, .anyValues,
    .filterBy, .mapKeys, .groupBy, .values, .keys, .assign, .defaults, .range, .size, .context,
    .func, .val, .key, .arg0, .arg1, .topLevel, .eq, .gt, .lt, .gte, .lte, .plus, .minus, .mult,
    .div, .mod, .call, .wildcard]

def info (t : Token) : TokenInfo := TokenInfo.ofToken t

def name (t : Token) : String := t.info.name

/-- The position of a token in the table. -/
def index (t : Token) : Nat := all.idxOf t

def ofName? (name : String) : Option Token := all.find? fun t => t.name = name

end Token

end Recalc
