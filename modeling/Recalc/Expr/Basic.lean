import Recalc.Value.Equality
import Recalc.Verb.Error

/-! Expressions over a document. Functions are numbered, and the references to an element, its key
and the context of a function carry the function's number. -/
namespace Recalc

/-- An expression. An iteration holds its function: a number, a body, and perhaps a context that is
evaluated outside of the function. A shared expression stands for the one inside; occurrences with
one label are compiled once. -/
inductive Expr where
  | root
  | val (lambda : LambdaId)
  | key (lambda : LambdaId)
  | context (lambda : LambdaId)
  | literal (v : Value)
  | array (items : List Expr)
  | object (fields : List (String × Expr))
  | get (object key : Expr)
  | iterate (verb : CollectionVerb) (source : Expr) (lambda : LambdaId) (body : Expr)
    (context : Option Expr)
  | unary (verb : UnaryVerb) (operand : Expr)
  | range (stop start step : Expr)
  | ternary (condition consequent alternative : Expr)
  | and (items : List Expr)
  | or (items : List Expr)
  | binary (verb : BinaryVerb) (left right : Expr)
  | call (function : String) (receiver : Expr) (args : List Expr)
  | shared (label : Nat) (e : Expr)
  deriving Inhabited

/-- A function as an operand of its own. -/
structure Lambda where
  id : LambdaId
  body : Expr
  context : Option Expr

namespace Expr

mutual

/-- The expression without the labels of shared parts. -/
def unlabel : Expr → Expr
  | root => root
  | val l => val l
  | key l => key l
  | context l => context l
  | literal v => literal v
  | array items => array (unlabelItems items)
  | object fields => object (unlabelFields fields)
  | get o k => get (unlabel o) (unlabel k)
  | iterate verb source lambda body ctx =>
    iterate verb (unlabel source) lambda (unlabel body) (unlabelOption ctx)
  | unary verb operand => unary verb (unlabel operand)
  | range stop start step => range (unlabel stop) (unlabel start) (unlabel step)
  | ternary condition consequent alternative =>
    ternary (unlabel condition) (unlabel consequent) (unlabel alternative)
  | and items => and (unlabelItems items)
  | or items => or (unlabelItems items)
  | binary verb left right => binary verb (unlabel left) (unlabel right)
  | call function receiver args => call function (unlabel receiver) (unlabelItems args)
  | shared _ e => unlabel e

def unlabelItems : List Expr → List Expr
  | [] => []
  | e :: rest => unlabel e :: unlabelItems rest

def unlabelFields : List (String × Expr) → List (String × Expr)
  | [] => []
  | (k, e) :: rest => (k, unlabel e) :: unlabelFields rest

def unlabelOption : Option Expr → Option Expr
  | none => none
  | some e => some (unlabel e)

end

section Alike
variable (rel : Value → Value → Bool)

mutual

/-- Sameness of expressions, labels included, with a given relation between literals. -/
def alike : Expr → Expr → Bool
  | root, root => true
  | val a, val b => a = b
  | key a, key b => a = b
  | context a, context b => a = b
  | literal a, literal b => rel a b
  | array as, array bs => alikeItems as bs
  | object as, object bs => alikeFields as bs
  | get a k, get b l => alike a b && alike k l
  | iterate v a l x c, iterate w b m y d =>
    v = w && alike a b && l = m && alike x y && alikeOption c d
  | unary v a, unary w b => v = w && alike a b
  | range a b c, range x y z => alike a x && alike b y && alike c z
  | ternary a b c, ternary x y z => alike a x && alike b y && alike c z
  | and as, and bs => alikeItems as bs
  | or as, or bs => alikeItems as bs
  | binary v a b, binary w x y => v = w && alike a x && alike b y
  | call f a as, call g b bs => f = g && alike a b && alikeItems as bs
  | shared l a, shared m b => l = m && alike a b
  | _, _ => false

def alikeItems : List Expr → List Expr → Bool
  | [], [] => true
  | a :: as, b :: bs => alike a b && alikeItems as bs
  | _, _ => false

def alikeFields : List (String × Expr) → List (String × Expr) → Bool
  | [], [] => true
  | (k, a) :: as, (l, b) :: bs => k = l && alike a b && alikeFields as bs
  | _, _ => false

def alikeOption : Option Expr → Option Expr → Bool
  | none, none => true
  | some a, some b => alike a b
  | _, _ => false

end

end Alike

/-- Expressions are equal if they are the same but for labels, with equality of values for
literals. -/
instance : BEq Expr := ⟨fun a b => alike (· == ·) a.unlabel b.unlabel⟩

/-- The token that heads the flat form of an expression. -/
def token? : Expr → Option Token
  | root => some .root
  | val _ => some .val
  | key _ => some .key
  | context _ => some .context
  | literal _ => none
  | array _ => none
  | object _ => none
  | get _ _ => some .get
  | iterate verb _ _ _ _ => some verb.token
  | unary verb _ => some verb.token
  | range _ _ _ => some .range
  | ternary _ _ _ => some .ternary
  | and _ => some .and
  | or _ => some .or
  | binary verb _ _ => some verb.token
  | call _ _ _ => some .call
  | shared _ e => token? e

end Expr

end Recalc
