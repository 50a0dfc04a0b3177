import Recalc.Expr.Flat
import Recalc.Proofs.Except

/-! Which flat forms are those of an expression, and of which one. The number of operands settles the
shape of their list, and the family of the token says where a function may stand among them. -/
namespace Recalc

namespace Operand

def isExpr : Operand → Bool
  | .expr _ => true
  | .func _ => false

@[simp]
theorem isExpr_expr (e : Expr) : (expr e).isExpr = true := rfl

@[simp]
theorem isExpr_func (lambda : Lambda) : (func lambda).isExpr = false := rfl

@[simp]
theorem toExpr_expr (token : Token) (e : Expr) : (expr e).toExpr token = .ok e := rfl

@[simp]
theorem toExpr_func (token : Token) (lambda : Lambda) :
    (func lambda).toExpr token = .error (.unexpectedFunction token) := rfl

private theorem exists_toExpr_ok {token : Token} {o : Operand} :
    (∃ e, o.toExpr token = .ok e) ↔ o.isExpr = true := by
  cases o <;> simp

end Operand

private theorem Arity.admits_between {least most n : Nat} :
    (Arity.mk least (some most)).admits n = true ↔ least ≤ n ∧ n ≤ most := by
  simp [admits]

theorem CollectionVerb.ofToken?_eq_some {token : Token} {verb : CollectionVerb} :
    ofToken? token = some verb ↔ token = verb.token := by
  constructor
  · intro h
    unfold ofToken? at h
    split at h <;> cases h <;> rfl
  · rintro rfl
    cases verb <;> rfl

private theorem UnaryVerb.ofToken?_eq_some {token : Token} {verb : UnaryVerb} :
    ofToken? token = some verb ↔ token = verb.token := by
  constructor
  · intro h
    unfold ofToken? at h
    split at h <;> cases h <;> rfl
  · rintro rfl
    cases verb <;> rfl

private theorem BinaryVerb.ofToken?_eq_some {token : Token} {verb : BinaryVerb} :
    ofToken? token = some verb ↔ token = verb.token := by
  constructor
  · intro h
    unfold ofToken? at h
    split at h <;> cases h <;> rfl
  · rintro rfl
    cases verb <;> rfl

/-- An expression that a call can have for the name of its function. -/
def Expr.NamesFunction (e : Expr) : Prop := ∃ name, functionName .call e = .ok name

/-- The kinds of operands that a token takes. A collection verb takes a function before expressions,
and other verbs take expressions alone, of which the first names the function of a call. Among the
references only the document is one outside of all functions. -/
def Token.Takes (token : Token) (operands : List Operand) : Prop :=
  if (CollectionVerb.ofToken? token).isSome then
    ∃ lambda rest, operands = .func lambda :: rest ∧ ∀ o ∈ rest, o.isExpr = true
  else
    (∀ o ∈ operands, o.isExpr = true) ∧ (token.info.terminal = true → token = .root) ∧
      (token = .call → ∃ e rest, operands = .expr e :: rest ∧ e.NamesFunction)

namespace Expr
variable {token : Token} {operands : List Operand}

theorem info_of_collection {verb : CollectionVerb}
    (h : CollectionVerb.ofToken? token = some verb) :
    token.info.arity = ⟨3, some 4⟩ ∧ token.info.internal = false := by
  unfold CollectionVerb.ofToken? at h
  split at h <;> cases h <;> exact ⟨rfl, rfl⟩

private theorem info_of_unary {verb : UnaryVerb} (h : UnaryVerb.ofToken? token = some verb) :
    token.info.arity = ⟨2, some 2⟩ ∧ token.info.terminal = false ∧ token ≠ .call := by
  unfold UnaryVerb.ofToken? at h
  split at h <;> cases h <;> exact ⟨rfl, rfl, by decide⟩

private theorem info_of_binary {verb : BinaryVerb} (h : BinaryVerb.ofToken? token = some verb) :
    token.info.arity = ⟨3, some 3⟩ ∧ token.info.terminal = false ∧ token ≠ .call := by
  unfold BinaryVerb.ofToken? at h
  split at h <;> cases h <;> exact ⟨rfl, rfl, by decide⟩

private theorem exists_assembleIteration {verb : CollectionVerb}
    (ht : token.info.arity = ⟨3, some 4⟩)
    (ha : token.info.arity.admits (operands.length + 1) = true) :
    (∃ e, assembleIteration token verb operands = .ok e) ↔
      ∃ lambda rest, operands = .func lambda :: rest ∧ ∀ o ∈ rest, o.isExpr = true := by
  rw [ht, Arity.admits_between] at ha
  have length : operands.length = 2 ∨ operands.length = 3 := by omega
  rcases length with length | length
  · obtain ⟨a, b, rfl⟩ := List.length_eq_two.mp length
    cases a <;> simp [assembleIteration, except_exists_map, Operand.exists_toExpr_ok]
  · obtain ⟨a, b, c, rfl⟩ := List.length_eq_three.mp length
    cases a <;>
      simp [assembleIteration, except_exists_bind, except_exists_map, Operand.exists_toExpr_ok]

private theorem exists_assembleOther (hc : CollectionVerb.ofToken? token = none)
    (hu : UnaryVerb.ofToken? token = none) (hb : BinaryVerb.ofToken? token = none)
    (hi : token.info.internal = false)
    (ha : token.info.arity.admits (operands.length + 1) = true) :
    (∃ e, assembleOther token operands = .ok e) ↔
      (∀ o ∈ operands, o.isExpr = true) ∧ (token.info.terminal = true → token = .root) ∧
        (token = .call → ∃ e rest, operands = .expr e :: rest ∧ e.NamesFunction) := by
  cases token with
  | root =>
    cases operands with
    | nil => simp [assembleOther]
    | cons a rest => cases ha
  | val | key | context | arg0 | arg1 =>
    simp [assembleOther, Token.info, TokenInfo.ofToken, TokenInfo.reference]
  | and | or =>
    simp [assembleOther, except_exists_map, except_exists_mapM, Operand.exists_toExpr_ok, Token.info,
      TokenInfo.ofToken, TokenInfo.standalone]
  | ternary =>
    rcases operands with _ | ⟨a, _ | ⟨b, _ | ⟨c, _ | ⟨d, rest⟩⟩⟩⟩
    case cons.cons.cons.nil =>
      simp [assembleOther, except_exists_bind, except_exists_map, Operand.exists_toExpr_ok,
        Token.info, TokenInfo.ofToken, TokenInfo.chained]
    all_goals cases ha
  | get =>
    rcases operands with _ | ⟨a, _ | ⟨b, _ | ⟨c, rest⟩⟩⟩
    case cons.cons.nil =>
      simp [assembleOther, except_exists_bind, except_exists_map, Operand.exists_toExpr_ok,
        Token.info, TokenInfo.ofToken, TokenInfo.chained]
    all_goals cases ha
  | range =>
    rcases operands with _ | ⟨a, _ | ⟨b, _ | ⟨c, _ | ⟨d, rest⟩⟩⟩⟩
    case nil | cons.cons.cons.cons => cases ha
    all_goals simp [assembleOther, except_exists_bind, except_exists_map, Operand.exists_toExpr_ok,
      Token.info, TokenInfo.ofToken, TokenInfo.chained]
  | call =>
    rcases operands with _ | ⟨a, _ | ⟨b, rest⟩⟩
    case nil | cons.nil => cases ha
    cases a with
    | func lambda => simp [assembleOther, except_exists_bind]
    | expr e =>
      simpa [assembleOther, except_exists_bind, except_exists_map, except_exists_mapM,
        Operand.exists_toExpr_ok, Token.info, TokenInfo.ofToken, TokenInfo.chained,
        NamesFunction] using and_comm
  | mapValues | map | any | keyBy | filter | anyValues | filterBy | mapKeys | groupBy => cases hc
  | not | values | keys | assign | defaults | size => cases hu
  | eq | gt | lt | gte | lte | plus | minus | mult | div | mod => cases hb
  | func | topLevel | wildcard => cases hi

/-- A flat form is that of an expression exactly if its token may be used, with so many operands,
and with operands of these kinds. -/
theorem exists_assemble_ok : (∃ e, assemble token operands = .ok e) ↔
    token.info.internal = false ∧ token.info.arity.admits (operands.length + 1) = true ∧
      token.Takes operands := by
  by_cases hi : token.info.internal = true
  · simp [assemble, hi]
  by_cases ha : token.info.arity.admits (operands.length + 1) = true
  · simp only [assemble, hi, ha, Bool.not_true, Bool.false_eq_true, if_false, Token.Takes, true_and]
    cases hc : CollectionVerb.ofToken? token with
    | some verb => exact exists_assembleIteration (info_of_collection hc).1 ha
    | none =>
      cases hu : UnaryVerb.ofToken? token with
      | some verb =>
        obtain ⟨arity, terminal, call⟩ := info_of_unary hu
        rw [arity, Arity.admits_between] at ha
        obtain ⟨a, rfl⟩ := List.length_eq_one_iff.mp (show operands.length = 1 by omega)
        simp [except_exists_map, Operand.exists_toExpr_ok, terminal, call]
      | none =>
        cases hb : BinaryVerb.ofToken? token with
        | some verb =>
          obtain ⟨arity, terminal, call⟩ := info_of_binary hb
          rw [arity, Arity.admits_between] at ha
          obtain ⟨a, b, rfl⟩ := List.length_eq_two.mp (show operands.length = 2 by omega)
          simp [except_exists_bind, except_exists_map, Operand.exists_toExpr_ok, terminal, call]
        | none => exact exists_assembleOther hc hu hb (by simpa using hi) ha
  · simp [assemble, hi, ha]

/-! ### What is assembled -/

private theorem exists_map_expr {os : List Operand} (h : ∀ o ∈ os, o.isExpr = true) :
    ∃ ds : List Expr, os = ds.map .expr := by
  induction os with
  | nil => exact ⟨[], rfl⟩
  | cons o rest ih =>
    obtain ⟨first, later⟩ := List.forall_mem_cons.mp h
    obtain ⟨ds, rfl⟩ := ih later
    cases o with
    | expr d => exact ⟨d :: ds, rfl⟩
    | func lambda => cases first

@[simp]
theorem mapM_toExpr (token : Token) (ds : List Expr) :
    (ds.map Operand.expr).mapM (·.toExpr token) = .ok ds := by
  induction ds with
  | nil => rfl
  | cons d rest ih =>
    rw [List.map_cons, List.mapM_cons, ih]
    rfl

section
variable {e : Expr}

/-- Which operands of a token make up which expression. -/
inductive Assembles : Token → List Operand → Expr → Prop
  | root : Assembles .root [] root
  | get (o k : Expr) : Assembles .get [.expr k, .expr o] (get o k)
  | iterate (verb : CollectionVerb) (lambda : Lambda) (source : Expr) :
      Assembles verb.token [.func lambda, .expr source]
        (iterate verb source lambda.id lambda.body lambda.context)
  | iterateWith (verb : CollectionVerb) (lambda : Lambda) (source ctx : Expr) :
      Assembles verb.token [.func lambda, .expr source, .expr ctx]
        (iterate verb source lambda.id lambda.body (some ctx))
  | unary (verb : UnaryVerb) (operand : Expr) :
      Assembles verb.token [.expr operand] (unary verb operand)
  | rangeTo (stop : Expr) :
      Assembles .range [.expr stop] (range stop (literal (.int 0)) (literal (.int 1)))
  | rangeFrom (stop start : Expr) :
      Assembles .range [.expr stop, .expr start] (range stop start (literal (.int 1)))
  | rangeBy (stop start step : Expr) :
      Assembles .range [.expr stop, .expr start, .expr step] (range stop start step)
  | ternary (condition consequent alternative : Expr) :
      Assembles .ternary [.expr condition, .expr consequent, .expr alternative]
        (ternary condition consequent alternative)
  | and {items : List Expr} : items ≠ [] → Assembles .and (items.map .expr) (and items)
  | or {items : List Expr} : items ≠ [] → Assembles .or (items.map .expr) (or items)
  | binary (verb : BinaryVerb) (left right : Expr) :
      Assembles verb.token [.expr left, .expr right] (binary verb left right)
  | call {name : Expr} {function : String} (receiver : Expr) (args : List Expr) :
      functionName .call name = .ok function →
      Assembles .call (.expr name :: .expr receiver :: args.map .expr)
        (call function receiver args)

private theorem assembles_of_assembleOther {ds : List Expr}
    (hc : CollectionVerb.ofToken? token = none) (hu : UnaryVerb.ofToken? token = none)
    (hb : BinaryVerb.ofToken? token = none)
    (arity : token.info.arity.admits (ds.length + 1) = true)
    (h : assembleOther token (ds.map .expr) = .ok e) : Assembles token (ds.map .expr) e := by
  cases token with
  | root =>
    cases h
    cases ds with
    | nil => exact .root
    | cons d rest => cases arity
  | and =>
    simp only [assembleOther, mapM_toExpr] at h
    cases h
    refine .and fun none => ?_
    subst none
    cases arity
  | or =>
    simp only [assembleOther, mapM_toExpr] at h
    cases h
    refine .or fun none => ?_
    subst none
    cases arity
  | ternary =>
    rcases ds with _ | ⟨a, _ | ⟨b, _ | ⟨c, _ | ⟨d, rest⟩⟩⟩⟩
    case cons.cons.cons.nil =>
      cases h
      exact .ternary a b c
    all_goals cases arity
  | get =>
    rcases ds with _ | ⟨a, _ | ⟨b, _ | ⟨c, rest⟩⟩⟩
    case cons.cons.nil =>
      cases h
      exact .get b a
    all_goals cases arity
  | range =>
    rcases ds with _ | ⟨a, _ | ⟨b, _ | ⟨c, _ | ⟨d, rest⟩⟩⟩⟩
    case nil | cons.cons.cons.cons => cases arity
    case cons.nil =>
      cases h
      exact .rangeTo a
    case cons.cons.nil =>
      cases h
      exact .rangeFrom a b
    case cons.cons.cons.nil =>
      cases h
      exact .rangeBy a b c
  | call =>
    rcases ds with _ | ⟨a, _ | ⟨b, rest⟩⟩
    case nil | cons.nil => cases arity
    simp only [assembleOther, List.map_cons, Operand.toExpr_expr, mapM_toExpr] at h
    change (functionName .call a >>= fun name => .ok (call name b rest)) = .ok e at h
    cases hn : functionName .call a with
    | error err =>
      rw [hn] at h
      cases h
    | ok name =>
      rw [hn] at h
      cases h
      exact .call b rest hn
  | val | key | context | arg0 | arg1 | func | topLevel | wildcard => cases h
  | mapValues | map | any | keyBy | filter | anyValues | filterBy | mapKeys | groupBy => cases hc
  | not | values | keys | assign | defaults | size => cases hu
  | eq | gt | lt | gte | lte | plus | minus | mult | div | mod => cases hb

private theorem assembles_of_assemble (h : assemble token operands = .ok e) :
    Assembles token operands e := by
  obtain ⟨internal, arity, takes⟩ := exists_assemble_ok.mp ⟨e, h⟩
  simp only [assemble, internal, arity, Bool.not_true, Bool.false_eq_true, if_false] at h
  cases hc : CollectionVerb.ofToken? token with
  | some verb =>
    simp only [hc] at h
    rw [Token.Takes, if_pos (by simp [hc])] at takes
    rw [(info_of_collection hc).1, Arity.admits_between] at arity
    obtain rfl := CollectionVerb.ofToken?_eq_some.mp hc
    obtain ⟨lambda, rest, rfl, exprs⟩ := takes
    obtain ⟨ds, rfl⟩ := exists_map_expr exprs
    simp only [List.length_cons, List.length_map] at arity
    have length : ds.length = 1 ∨ ds.length = 2 := by omega
    rcases length with length | length
    · obtain ⟨source, rfl⟩ := List.length_eq_one_iff.mp length
      cases h
      exact .iterate verb lambda source
    · obtain ⟨source, ctx, rfl⟩ := List.length_eq_two.mp length
      cases h
      exact .iterateWith verb lambda source ctx
  | none =>
    rw [Token.Takes, if_neg (by simp [hc])] at takes
    obtain ⟨ds, rfl⟩ := exists_map_expr takes.1
    rw [List.length_map] at arity
    cases hu : UnaryVerb.ofToken? token with
    | some verb =>
      rw [(info_of_unary hu).1, Arity.admits_between] at arity
      obtain ⟨a, rfl⟩ := List.length_eq_one_iff.mp (show ds.length = 1 by omega)
      simp only [hc, hu] at h
      obtain rfl := UnaryVerb.ofToken?_eq_some.mp hu
      cases h
      exact .unary verb a
    | none =>
      cases hb : BinaryVerb.ofToken? token with
      | some verb =>
        rw [(info_of_binary hb).1, Arity.admits_between] at arity
        obtain ⟨a, b, rfl⟩ := List.length_eq_two.mp (show ds.length = 2 by omega)
        simp only [hc, hu, hb] at h
        obtain rfl := BinaryVerb.ofToken?_eq_some.mp hb
        cases h
        exact .binary verb a b
      | none =>
        simp only [hc, hu, hb] at h
        exact assembles_of_assembleOther hc hu hb arity h

private theorem assemble_other (hc : CollectionVerb.ofToken? token = none)
    (hu : UnaryVerb.ofToken? token = none) (hb : BinaryVerb.ofToken? token = none)
    (internal : token.info.internal = false)
    (arity : token.info.arity.admits (operands.length + 1) = true) :
    assemble token operands = assembleOther token operands := by
  simp [assemble, hc, hu, hb, internal, arity]

/-- An expression is assembled from a flat form exactly as the token and its operands make it up. -/
theorem assemble_eq_ok : assemble token operands = .ok e ↔ Assembles token operands e := by
  refine ⟨assembles_of_assemble, fun h => ?_⟩
  have standalone {items : List Expr} (some : items ≠ []) :
      (Arity.mk 2 none).admits ((items.map Operand.expr).length + 1) = true := by
    have := List.length_pos_iff.mpr some
    simp only [Arity.admits, List.length_map, Bool.and_true, decide_eq_true_eq]
    omega
  cases h with
  | iterate verb lambda source => cases verb <;> rfl
  | iterateWith verb lambda source ctx => cases verb <;> rfl
  | unary verb operand => cases verb <;> rfl
  | binary verb left right => cases verb <;> rfl
  | and some =>
    rw [@assemble_other .and _ rfl rfl rfl rfl (standalone some), assembleOther, mapM_toExpr]
    rfl
  | or some =>
    rw [@assemble_other .or _ rfl rfl rfl rfl (standalone some), assembleOther, mapM_toExpr]
    rfl
  | @call name function receiver args named =>
    have arity : Token.call.info.arity.admits
        ((.expr name :: .expr receiver :: args.map Operand.expr).length + 1) = true := by
      simp [Token.info, TokenInfo.ofToken, TokenInfo.chained, Arity.admits]
    rw [assemble_other rfl rfl rfl rfl arity, assembleOther, mapM_toExpr, Operand.toExpr_expr]
    change (functionName .call name >>= fun f => .ok (call f receiver args)) = _
    rw [named]
    rfl
  | _ => rfl

end

/-! ### What is assembled has a flat form -/

private theorem flatten_of_assemble {e : Expr} (h : assemble token operands = .ok e) :
    e.flatten.isSome = true := by
  cases assemble_eq_ok.mp h <;> rfl

/-- No expression that names a function has a flat form. -/
theorem NamesFunction.flatten {e : Expr} (h : e.NamesFunction) : e.flatten = none := by
  obtain ⟨name, h⟩ := h
  fun_induction functionName Token.call e with
  | case1 name => rfl
  | case2 label e ih => exact ih h
  | case3 e => cases h

theorem not_namesFunction_of_assemble {e : Expr} (h : assemble token operands = .ok e) :
    ¬ e.NamesFunction := by
  intro named
  have flat := flatten_of_assemble h
  rw [named.flatten] at flat
  cases flat

end Expr

end Recalc
