import Mathlib.Data.List.Forall2
import Recalc.Proofs.Model.Grammar
import Recalc.Proofs.Program.Combine

/-! The reader accepts exactly the grammar of models. Reading a part is described by the condition
under which it succeeds; the functions around the part are the same afterwards, so such descriptions
compose. -/
namespace Recalc

namespace Reader
variable {α β : Type}

/-- Reading succeeds exactly under a condition. The result has a property then, and the functions
around are left as they were. -/
structure Accepts (x : ReadM α) (s : Scope) (P : Prop) (R : α → Prop) : Prop where
  succeeds : P → ∃ a t, x.run s = (.ok a, t)
  result : ∀ a t, x.run s = (.ok a, t) → P ∧ R a ∧ t.enclosing = s.enclosing

variable {s : Scope} {P Q : Prop} {R : α → Prop} {S : β → Prop} {x : ReadM α}

private theorem Accepts.congr (h : Accepts x s P R) (hp : P ↔ Q) : Accepts x s Q R := by
  refine ⟨fun hq => h.succeeds (hp.mpr hq), fun a t run => ?_⟩
  obtain ⟨p, r, same⟩ := h.result a t run
  exact ⟨hp.mp p, r, same⟩

theorem Accepts.mono {R' : α → Prop} (h : Accepts x s P R) (hr : ∀ a, R a → R' a) :
    Accepts x s P R' := by
  refine ⟨h.succeeds, fun a t run => ?_⟩
  obtain ⟨p, r, same⟩ := h.result a t run
  exact ⟨p, hr a r, same⟩

theorem Accepts.pure {a : α} (h : R a) : Accepts (Pure.pure a) s True R := by
  refine ⟨fun _ => ⟨a, s, rfl⟩, fun b t run => ?_⟩
  cases run
  exact ⟨trivial, h, rfl⟩

theorem Accepts.throw (e : DefinitionError) :
    Accepts (MonadExcept.throw e : ReadM α) s False R := by
  refine ⟨False.elim, fun a t run => ?_⟩
  cases run

theorem Accepts.ofExcept {r : Except DefinitionError α} :
    Accepts (MonadExcept.ofExcept r) s (∃ a, r = .ok a) fun a => r = .ok a := by
  cases r with
  | error e => exact (Accepts.throw e).congr (by simp)
  | ok a =>
    refine (Accepts.pure ?_).congr ?_
    · rfl
    · simp

theorem Accepts.get {f : Scope → ReadM β} (h : Accepts (f s) s P S) : Accepts (get >>= f) s P S :=
  ⟨h.succeeds, h.result⟩

theorem Accepts.bind {f : α → ReadM β} (hx : Accepts x s P R)
    (hf : ∀ a t, P → R a → t.enclosing = s.enclosing → Accepts (f a) t Q S) :
    Accepts (x >>= f) s (P ∧ Q) S := by
  refine ⟨fun h => ?_, fun b u run => ?_⟩
  · obtain ⟨a, t, run⟩ := hx.succeeds h.1
    obtain ⟨p, r, same⟩ := hx.result a t run
    rw [run_bind_ok run]
    exact (hf a t p r same).succeeds h.2
  · rcases hrun : x.run s with ⟨r, t⟩
    cases r with
    | error e =>
      rw [run_bind_error hrun] at run
      cases run
    | ok a =>
      rw [run_bind_ok hrun] at run
      obtain ⟨p, r, same⟩ := hx.result a t hrun
      obtain ⟨q, r', same'⟩ := (hf a t p r same).result b u run
      exact ⟨⟨p, q⟩, r', same'.trans same⟩

theorem Accepts.map {f : α → β} (hx : Accepts x s P R) (hf : ∀ a, R a → S (f a)) :
    Accepts (x >>= fun a => Pure.pure (f a)) s P S := by
  refine (hx.bind fun a t _ ha _ => Accepts.pure (hf a ha)).congr ?_
  exact and_iff_left trivial

/-- Reading the elements of a list one after the other. -/
theorem Accepts.mapM {f : α → ReadM β} {P : α → Prop} {R : α → β → Prop} {as : List α}
    (h : ∀ a ∈ as, ∀ t : Scope, t.enclosing = s.enclosing → Accepts (f a) t (P a) (R a)) :
    Accepts (as.mapM f) s (∀ a ∈ as, P a) fun bs => List.Forall₂ R as bs := by
  induction as generalizing s with
  | nil => exact (Accepts.pure .nil).congr (by simp)
  | cons a rest ih =>
    rw [List.mapM_cons]
    refine ((h a List.mem_cons_self s rfl).bind fun b t _ hb same => ?_).congr
      List.forall_mem_cons.symm
    have others := ih (s := t) fun a' ha u hu => h a' (List.mem_cons_of_mem _ ha) u (hu.trans same)
    exact others.map fun bs hbs => .cons hb hbs

theorem function_run (body : ReadM Expr) (s : Scope) : (Reader.function body).run s =
    ((body.run ⟨s.next + 1, s.next :: s.enclosing⟩).1.map fun e => ⟨s.next, e, none⟩,
      { (body.run ⟨s.next + 1, s.next :: s.enclosing⟩).2 with
        enclosing := (body.run ⟨s.next + 1, s.next :: s.enclosing⟩).2.enclosing.tail }) := rfl

/-- Inside of a new function there is one more. -/
theorem Accepts.function {body : ReadM Expr} {R : Expr → Prop}
    (h : Accepts body ⟨s.next + 1, s.next :: s.enclosing⟩ P R) :
    Accepts (Reader.function body) s P fun _ => True := by
  refine ⟨fun p => ?_, fun lambda t ht => ?_⟩
  · obtain ⟨e, t, hrun⟩ := h.succeeds p
    rw [function_run, hrun]
    exact ⟨_, _, rfl⟩
  · rcases hrun : body.run ⟨s.next + 1, s.next :: s.enclosing⟩ with ⟨r, u⟩
    rw [function_run, hrun] at ht
    cases r with
    | error e => cases ht
    | ok e =>
      obtain ⟨p, -, same⟩ := h.result e u hrun
      cases ht
      exact ⟨p, trivial, congrArg List.tail same⟩

/-! ### Lists of parts -/

private theorem itemList_eq (items : List Json) : itemList items = items.mapM expr := by
  induction items with
  | nil => rw [itemList, List.mapM_nil]
  | cons j rest ih => rw [itemList, List.mapM_cons, ih]

/-- A field with what is read of it. -/
def named (read : Json → ReadM α) (f : String × Json) : ReadM (String × α) := do
  let a ← read f.2
  return (f.1, a)

theorem fieldList_eq (fields : List (String × Json)) :
    fieldList fields = fields.mapM (named expr) := by
  induction fields with
  | nil => rw [fieldList, List.mapM_nil]
  | cons f rest ih => simp [fieldList, named, ih]

theorem definitions_eq (fields : List (String × Json)) :
    definitions fields = fields.mapM (named definition) := by
  induction fields with
  | nil => rw [definitions, List.mapM_nil]
  | cons f rest ih => simp [definitions, named, ih]

/-- One operand, which is a function if it is headed by the function token. -/
def operand : Json → ReadM Operand
  | .arr (.str "func" :: parts) => do
    let lambda ← match parts with
      | [body] => function (expr body)
      | _ => throw (.arity .func ⟨2, some 2⟩ (parts.length + 1))
    return .func lambda
  | j => do
    let e ← expr j
    return .expr e

theorem operandList_eq (operands : List Json) : operandList operands = operands.mapM operand := by
  induction operands with
  | nil => rw [operandList, List.mapM_nil]
  | cons j rest ih =>
    by_cases h : ∃ parts, j = .arr (.str "func" :: parts)
    · obtain ⟨parts, rfl⟩ := h
      rcases parts with _ | ⟨body, _ | ⟨other, more⟩⟩ <;> simp [operandList, operand, ih]
    · simp only [not_exists] at h
      simp [operandList, operand, ih]

/-! ### Words -/

theorem expr_scalar {j : Json} (h : j.isScalar = true) :
    expr j = pure (.literal (Value.ofJson j)) := by
  cases j with
  | arr _ | obj _ => cases h
  | _ => simp [expr]

theorem expr_array {items : List Json} (head : ∀ name rest, items ≠ .str name :: rest) :
    expr (.arr items) = (do
      let es ← items.mapM expr
      return .array es) := by
  rw [expr, itemList_eq]
  exact head

theorem expr_quote (j : Json) :
    expr (.arr [.str "$quote", j]) = pure (.literal (Value.ofJson j)) := by
  rw [expr, if_pos rfl]

theorem expr_quote_refused {operands : List Json} (h : ∀ j, operands ≠ [j]) :
    expr (.arr (.str "$quote" :: operands)) = throw (.invalidOperand .topLevel .quoteCount) := by
  rw [expr, if_pos rfl]
  exact h

theorem expr_unknown {head : String} (hq : head ≠ "$quote")
    (unknown : Token.ofName? head = none) (operands : List Json) :
    expr (.arr (.str head :: operands)) = throw (.unknownVerb head) := by
  by_cases h : ∃ j, operands = [j]
  · obtain ⟨j, rfl⟩ := h
    rw [expr, if_neg hq, unknown]
  · rw [expr, if_neg hq, unknown]
    exact fun j hj => h ⟨j, hj⟩

/-- Reading what a token heads. -/
def verb (token : Token) (operands : List Json) : ReadM Expr :=
  if token ∈ [.val, .key, .context] then reference token operands
  else if token = .func then throw (.unexpectedFunction .func)
  else do
    let os ← operandList operands
    MonadExcept.ofExcept (Expr.assemble token os)

theorem expr_token (token : Token) (operands : List Json) :
    expr (.arr (.str token.name :: operands)) = verb token operands := by
  by_cases h : ∃ j, operands = [j]
  · obtain ⟨j, rfl⟩ := h
    rw [expr, if_neg token.name_ne_quote, token.ofName?_name]
    cases token <;> rfl
  · rw [expr, if_neg token.name_ne_quote, token.ofName?_name]
    · cases token <;> rfl
    · exact fun j hj => h ⟨j, hj⟩

/-! ### References -/

theorem depth_eq_ok {token : Token} {operands : List Json} {d : Nat} :
    depth token operands = .ok d ↔
      operands = [] ∧ d = 0 ∨ operands = [.num (.int d)] ∧ d < Word.capacity := by
  unfold depth
  split
  · simp [eq_comm]
  · rename_i n
    have number := JsonNumber.toUInt64?_eq_some (n := n) (d := d)
    cases h : n.toUInt64? <;> rw [h] at number <;> simpa using number
  · rename_i none one
    simp only [reduceCtorEq, false_iff, not_or, not_and]
    exact ⟨fun h => absurd h none, fun h => absurd h (one _)⟩

private theorem exists_referent_ok {token : Token} {enclosing : List LambdaId} {d : Nat} :
    (∃ id, referent token enclosing d = .ok id) ↔ d + 1 < Word.capacity ∧ d < enclosing.length := by
  unfold referent
  split
  · rename_i h
    simp [Nat.not_lt.mpr h]
  · rename_i h
    by_cases hd : d < enclosing.length
    · simp [hd, Nat.not_le.mp h]
    · simp [hd]

private theorem accepts_reference (token : Token) (operands : List Json) (s : Scope) :
    Accepts (reference token operands) s (∃ d, depth token operands = .ok d ∧
      d + 1 < Word.capacity ∧ d < s.enclosing.length) fun e => ¬ e.NamesFunction := by
  have read : Accepts (reference token operands) s ((∃ d, depth token operands = .ok d) ∧
      ∃ d, depth token operands = .ok d ∧ d + 1 < Word.capacity ∧ d < s.enclosing.length)
      fun e => ¬ e.NamesFunction := by
    refine Accepts.ofExcept.bind fun d t _ hd same => Accepts.get ?_
    refine (Accepts.ofExcept.map fun id _ => ?_).congr ?_
    · rintro ⟨name, h⟩
      split at h <;> cases h
    · rw [exists_referent_ok, same, hd]
      simp
  refine read.congr (and_iff_right_of_imp ?_)
  rintro ⟨d, hd, -⟩
  exact ⟨d, hd⟩

end Reader

/-! ### Tokens with operands -/

namespace Json
variable {d : Nat} {j : Json} {token : Token} {operands : List Json} {os : List Operand}

private theorem isExpr_reference (ht : token ∈ [.val, .key, .context]) :
    IsExpr d (.arr (.str token.name :: operands)) ↔
      ∃ n, Reader.depth token operands = .ok n ∧ n + 1 < Word.capacity ∧ n < d := by
  have facts : ∀ t ∈ [Token.val, .key, .context],
      (CollectionVerb.ofToken? t).isSome = false ∧ t.info.terminal = true := by decide
  simp only [Reader.depth_eq_ok]
  constructor
  · intro h
    rcases h.of_token with
      ⟨rfl, -⟩ | ⟨-, ⟨rfl, hd⟩ | ⟨n, rfl, fits, hd⟩⟩ | ⟨hc, -⟩ | ⟨-, terminal, -⟩
    · simp at ht
    · exact ⟨0, .inl ⟨rfl, rfl⟩, by decide, hd⟩
    · exact ⟨n, .inr ⟨rfl, Nat.lt_of_succ_lt fits⟩, fits, hd⟩
    · rw [(facts token ht).1] at hc
      cases hc
    · rw [(facts token ht).2] at terminal
      cases terminal
  · rintro ⟨n, ⟨rfl, rfl⟩ | ⟨rfl, -⟩, fits, hd⟩
    · exact .reference ht hd
    · exact .distant ht fits hd

/-- Headed by the function token. -/
def isFunction : Json → Bool
  | .arr (.str "func" :: _) => true
  | _ => false

/-- What may stand as an operand: an expression, or a function with a body inside of it. -/
def IsOperand (d : Nat) (j : Json) : Prop :=
  if j.isFunction = true then ∃ body, j = .arr [.str "func", body] ∧ IsExpr (d + 1) body
  else IsExpr d j

/-- The kind of operand that a document is read as. -/
def ReadAs (j : Json) : Operand → Prop
  | .func _ => j.isFunction = true
  | .expr e => j.isFunction = false ∧ (e.NamesFunction ↔ j.NamesFunction)

private theorem exists_parts (h : j.isFunction = true) :
    ∃ parts, j = .arr (.str "func" :: parts) := by
  unfold isFunction at h
  split at h
  · exact ⟨_, rfl⟩
  · cases h

/-- The function token heads no expression. -/
theorem IsExpr.not_isFunction (h : IsExpr d j) : j.isFunction = false := by
  by_contra hf
  obtain ⟨parts, rfl⟩ := exists_parts (by simpa using hf)
  have h : IsExpr d (.arr (.str Token.func.name :: parts)) := h
  rcases h.of_token with ⟨ht, -⟩ | ⟨ht, -⟩ | ⟨ht, -⟩ | ⟨-, -, internal, -⟩
  · cases ht
  · simp at ht
  · cases ht
  · cases internal

/-- An operand is an expression exactly if it is read as one. -/
theorem ReadAs.isExpr_iff {o : Operand} (h : ReadAs j o) :
    IsOperand d j ∧ o.isExpr = true ↔ IsExpr d j := by
  cases o with
  | func lambda =>
    have not : ¬ IsExpr d j := by
      intro he
      rw [ReadAs, he.not_isFunction] at h
      cases h
    simp [not]
  | expr e => simp [IsOperand, h.1]

private theorem forall_isExpr_iff (h : List.Forall₂ ReadAs operands os) :
    (∀ j ∈ operands, IsOperand d j) ∧ (∀ o ∈ os, o.isExpr = true) ↔
      ∀ j ∈ operands, IsExpr d j := by
  induction h with
  | nil => simp
  | cons first _ ih =>
    rw [List.forall_mem_cons, List.forall_mem_cons, List.forall_mem_cons, and_and_and_comm,
      first.isExpr_iff, ih]

private theorem IsExpr.isOperand (h : IsExpr d j) : IsOperand d j := by
  simp [IsOperand, h.not_isFunction, h]

/-- All operands of an expression may stand as operands. -/
theorem IsExpr.forall_isOperand (h : IsExpr d (.arr (.str token.name :: operands)))
    (hr : token ∉ [.val, .key, .context]) : ∀ j ∈ operands, IsOperand d j := by
  rcases h.of_token with ⟨-, rfl⟩ | ⟨ht, -⟩ | ⟨-, -, body, rest, rfl, inner, each⟩ |
    ⟨-, -, -, -, each, -⟩
  · simp
  · exact absurd ht hr
  · refine List.forall_mem_cons.mpr ⟨⟨body, rfl, inner⟩, fun j hj => ?_⟩
    exact (each j hj).isOperand
  · exact fun j hj => (each j hj).isOperand

/-- A token with operands that it takes is an expression. -/
theorem isExpr_of_takes (h : List.Forall₂ ReadAs operands os)
    (hs : ∀ j ∈ operands, IsOperand d j) (internal : token.info.internal = false)
    (arity : token.info.arity.admits (operands.length + 1) = true) (takes : token.Takes os) :
    IsExpr d (.arr (.str token.name :: operands)) := by
  rw [Token.Takes] at takes
  cases hc : (CollectionVerb.ofToken? token).isSome with
  | true =>
    rw [if_pos hc] at takes
    obtain ⟨lambda, rest, rfl, exprs⟩ := takes
    cases h with
    | cons first others =>
      obtain ⟨function, later⟩ := List.forall_mem_cons.mp hs
      rw [ReadAs] at first
      rw [IsOperand, if_pos first] at function
      obtain ⟨body, rfl, inner⟩ := function
      exact .iteration hc arity inner ((forall_isExpr_iff others).mp ⟨later, exprs⟩)
  | false =>
    rw [if_neg (by simp [hc])] at takes
    obtain ⟨exprs, terminal, named⟩ := takes
    cases ht : token.info.terminal with
    | true =>
      cases terminal ht
      cases operands with
      | nil => exact .root
      | cons j rest => cases arity
    | false =>
      refine .verb hc ht internal arity ((forall_isExpr_iff h).mp ⟨hs, exprs⟩) fun call => ?_
      obtain ⟨e, rest, rfl, he⟩ := named call
      cases h with
      | cons first _ => exact ⟨_, _, rfl, first.2.mp he⟩

/-- The token of an expression takes its operands. -/
theorem IsExpr.takes (he : IsExpr d (.arr (.str token.name :: operands)))
    (hr : token ∉ [.val, .key, .context]) (h : List.Forall₂ ReadAs operands os) :
    token.info.internal = false ∧ token.info.arity.admits (operands.length + 1) = true ∧
      token.Takes os := by
  rw [Token.Takes]
  rcases he.of_token with ⟨rfl, rfl⟩ | ⟨ht, -⟩ | ⟨ht, arity, body, rest, rfl, inner, each⟩ |
    ⟨ht, terminal, internal, arity, each, named⟩
  · cases h
    exact ⟨rfl, rfl, by simp [CollectionVerb.ofToken?]⟩
  · exact absurd ht hr
  · obtain ⟨verb, hv⟩ := Option.isSome_iff_exists.mp ht
    refine ⟨(Expr.info_of_collection hv).2, arity, ?_⟩
    rw [if_pos ht]
    cases h with
    | @cons _ o _ _ first others =>
      cases o with
      | func lambda => exact ⟨lambda, _, rfl, ((forall_isExpr_iff others).mpr each).2⟩
      | expr e => cases first.1
  · refine ⟨internal, arity, ?_⟩
    have exprs := ((forall_isExpr_iff h).mpr each).2
    rw [if_neg (by simp [ht])]
    refine ⟨exprs, by simp [terminal], fun call => ?_⟩
    obtain ⟨name, rest, rfl, hn⟩ := named call
    cases h with
    | @cons _ o _ _ first others =>
      cases o with
      | func lambda => cases exprs _ List.mem_cons_self
      | expr e => exact ⟨e, _, rfl, first.2.mpr hn⟩

/-- A token with operands is an expression exactly if what they are read as can be assembled. -/
theorem isExpr_assembled (hr : token ∉ [.val, .key, .context])
    (h : List.Forall₂ ReadAs operands os) (hs : ∀ j ∈ operands, IsOperand d j) :
    (∃ e, Expr.assemble token os = .ok e) ↔ IsExpr d (.arr (.str token.name :: operands)) := by
  rw [Expr.exists_assemble_ok, ← h.length_eq]
  constructor
  · rintro ⟨internal, arity, takes⟩
    exact isExpr_of_takes h hs internal arity takes
  · exact fun he => he.takes hr h

end Json

/-! ### Expressions -/

namespace Reader
variable {j : Json} {s : Scope}

/-- The reader accepts a document as an expression exactly where it is one, and a literal is the
name of a function exactly if the document is. -/
def Recognizes (j : Json) : Prop :=
  ∀ s : Scope, Accepts (expr j) s (j.IsExpr s.enclosing.length) fun e =>
    (e.NamesFunction ↔ j.NamesFunction)

private theorem namesFunction_literal (j : Json) :
    (Expr.literal (Value.ofJson j)).NamesFunction ↔ ∃ name, j = .str name := by
  cases j with
  | num n =>
    unfold Value.ofJson Value.ofJsonNumber
    split <;> simp [Expr.NamesFunction, Expr.functionName]
  | _ => simp [Expr.NamesFunction, Expr.functionName, Value.ofJson]

private theorem accepts_operand (hj : Recognizes j)
    (hb : ∀ body, j = .arr [.str "func", body] → Recognizes body) (s : Scope) :
    Accepts (operand j) s (j.IsOperand s.enclosing.length) j.ReadAs := by
  cases hf : j.isFunction with
  | true =>
    obtain ⟨parts, rfl⟩ := Json.exists_parts hf
    have later (lambda : Lambda) : (Json.arr (.str "func" :: parts)).ReadAs (.func lambda) := hf
    rcases parts with _ | ⟨body, _ | ⟨other, more⟩⟩
    case cons.nil =>
      refine ((hb body rfl _).function.map fun lambda _ => later lambda).congr ?_
      simp [Json.IsOperand, hf]
    all_goals
      refine ((Accepts.throw (R := fun _ => True) _).map fun lambda _ => later lambda).congr ?_
      simp [Json.IsOperand, hf]
  | false =>
    have read : operand j = (do
        let e ← expr j
        return .expr e) := by
      rw [operand]
      rintro parts rfl
      cases hf
    rw [read]
    refine ((hj s).map fun e he => ?_).congr ?_
    · exact ⟨hf, he⟩
    · simp [Json.IsOperand, hf]

private theorem recognizes_scalar (h : j.isScalar = true) : Recognizes j := by
  intro s
  rw [expr_scalar h]
  refine (Accepts.pure ?_).congr ?_
  · rw [namesFunction_literal]
    cases j with
    | arr _ | obj _ => cases h
    | _ => simp [Json.NamesFunction]
  · exact iff_of_true trivial (.scalar h)

private theorem recognizes_array {items : List Json} (h : ∀ j ∈ items, Recognizes j)
    (head : ∀ name rest, items ≠ .str name :: rest) : Recognizes (.arr items) := by
  intro s
  have each : Accepts (items.mapM expr) s (∀ j ∈ items, j.IsExpr s.enclosing.length)
      (List.Forall₂ (fun j e => e.NamesFunction ↔ j.NamesFunction) items) := by
    refine Accepts.mapM fun j hj t same => ?_
    rw [← same]
    exact h j hj t
  rw [expr_array head]
  refine (each.map fun es _ => ?_).congr (Json.isExpr_array head).symm
  refine iff_of_false ?_ ?_
  · simp [Expr.NamesFunction, Expr.functionName]
  · rintro ⟨name, hn | hn⟩
    · cases hn
    · cases hn
      exact head _ _ rfl

private theorem recognizes_object {fields : List (String × Json)}
    (h : ∀ f ∈ fields, Recognizes f.2) :
    Recognizes (.obj fields) := by
  intro s
  have each : Accepts (fields.mapM (named expr)) s (∀ f ∈ fields, f.2.IsExpr s.enclosing.length)
      (List.Forall₂ (fun _ _ => True) fields) := by
    refine Accepts.mapM fun f hf t same => ?_
    rw [← same]
    exact (h f hf t).map fun _ _ => trivial
  rw [expr, fieldList_eq]
  refine (each.map fun es _ => ?_).congr Json.isExpr_object.symm
  simp [Expr.NamesFunction, Expr.functionName, Json.NamesFunction]

private theorem recognizes_quote (operands : List Json) :
    Recognizes (.arr (.str "$quote" :: operands)) := by
  intro s
  by_cases h : ∃ j, operands = [j]
  · obtain ⟨j, rfl⟩ := h
    rw [expr_quote]
    refine (Accepts.pure ?_).congr (iff_of_true trivial (.quote j))
    rw [namesFunction_literal]
    simp [Json.NamesFunction]
  · rw [expr_quote_refused fun j hj => h ⟨j, hj⟩]
    refine (Accepts.throw _).congr ?_
    rw [Json.isExpr_quote, false_iff]
    exact h

private theorem recognizes_unknown {head : String} (hq : head ≠ "$quote")
    (unknown : Token.ofName? head = none) {operands : List Json} :
    Recognizes (.arr (.str head :: operands)) := by
  intro s
  rw [expr_unknown hq unknown]
  exact (Accepts.throw _).congr (iff_of_false id (Json.not_isExpr_of_unknown hq unknown))

/-- Where a token's operands are recognized, so is the token with them. -/
theorem recognizes_token (token : Token) {operands : List Json}
    (h : ∀ j ∈ operands, ∀ s : Scope,
      Accepts (operand j) s (j.IsOperand s.enclosing.length) j.ReadAs) :
    Recognizes (.arr (.str token.name :: operands)) := by
  intro s
  have unnamed : ¬ (Json.arr (.str token.name :: operands)).NamesFunction := by
    rintro ⟨name, hn | hn⟩
    · cases hn
    · simp only [Json.arr.injEq, List.cons.injEq, Json.str.injEq] at hn
      exact token.name_ne_quote hn.1
  rw [expr_token, verb]
  split
  · rename_i ht
    refine ((accepts_reference token operands s).congr (Json.isExpr_reference ht).symm).mono ?_
    exact fun e he => iff_of_false he unnamed
  split
  · rename_i ht
    subst ht
    refine (Accepts.throw _).congr ?_
    rw [false_iff]
    intro he
    cases he.not_isFunction
  · rename_i hr hf
    have each : Accepts (operandList operands) s
        (∀ j ∈ operands, j.IsOperand s.enclosing.length) (List.Forall₂ Json.ReadAs operands) := by
      rw [operandList_eq]
      refine Accepts.mapM fun j hj t same => ?_
      rw [← same]
      exact h j hj t
    refine (each.bind fun os t hs hos same => ?_).congr
      (and_iff_right_of_imp fun he => he.forall_isOperand hr)
    refine (Accepts.ofExcept.congr (Json.isExpr_assembled hr hos hs)).mono fun e he => ?_
    exact iff_of_false (Expr.not_namesFunction_of_assemble he) unnamed

/-- Every document is recognized. -/
theorem recognizes (j : Json) : Recognizes j := by
  induction j using Json.inductWords with
  | scalar j h => exact recognizes_scalar h
  | array items head ih => exact recognizes_array ih head
  | object fields ih => exact recognizes_object ih
  | quote operands => exact recognizes_quote operands
  | unknown head operands hq found => exact recognizes_unknown hq found
  | token token operands ih =>
    refine recognizes_token token fun j hj => ?_
    exact accepts_operand (ih j hj).1 (ih j hj).2

/-! ### Definitions and models -/

private theorem exists_segment_ok {j : Json} :
    (∃ step, Reader.segment j = .ok step) ↔ j.IsSegment := by
  unfold segment
  split
  · simp [Json.IsSegment]
  · simp [Json.IsSegment]
  · simp [Json.IsSegment]
  · rename_i n
    cases n with
    | float x finite => simp [JsonNumber.toUInt64?, Json.IsSegment]
    | int n =>
      by_cases h : 0 ≤ n ∧ n < Word.capacity <;> simp [JsonNumber.toUInt64?, Json.IsSegment, h]
  · rename_i str arg0 arg1 num
    unfold Json.IsSegment
    split
    · exact absurd rfl (str _)
    · exact absurd rfl (num _)
    · rename_i name
      simp only [reduceCtorEq, exists_false, false_iff, not_or]
      exact ⟨fun h => arg0 (h ▸ rfl), fun h => arg1 (h ▸ rfl)⟩
    · simp

private theorem accepts_path (segments : List Json) (make : List Segment → Definition) (s : Scope) :
    Accepts (do
      let path ← MonadExcept.ofExcept (segments.mapM segment)
      return make path) s (∀ segment ∈ segments, segment.IsSegment) fun _ => True := by
  refine (Accepts.ofExcept.map fun _ _ => trivial).congr ?_
  rw [except_exists_mapM]
  simp only [exists_segment_ok]

private theorem accepts_definition (j : Json) {s : Scope} (hs : s.enclosing = []) :
    Accepts (definition j) s j.IsDefinition fun _ => True := by
  by_cases setter : ∃ segments, j = .arr (.str "$setter" :: segments)
  · obtain ⟨segments, rfl⟩ := setter
    rw [definition]
    exact (accepts_path segments _ s).congr (Json.isDefinition_mutator (by simp)).symm
  by_cases splice : ∃ segments, j = .arr (.str "$splice" :: segments)
  · obtain ⟨segments, rfl⟩ := splice
    rw [definition]
    exact (accepts_path segments _ s).congr (Json.isDefinition_mutator (by simp)).symm
  · rw [definition]
    · refine ((recognizes j s).map fun _ _ => trivial).congr ?_
      simp only [not_exists] at setter splice
      simp [Json.IsDefinition, hs, setter, splice]
    · exact fun segments he => setter ⟨segments, he⟩
    · exact fun segments he => splice ⟨segments, he⟩

private theorem accepts_model (document : Json) :
    Accepts (model document) Scope.start document.IsModel fun _ => True := by
  cases document with
  | obj fields =>
    rw [model, definitions_eq]
    have each : Accepts (fields.mapM (named definition)) Scope.start
        (∀ f ∈ fields, f.2.IsDefinition) (List.Forall₂ (fun _ _ => True) fields) := by
      refine Accepts.mapM fun f _ t same => ?_
      exact (accepts_definition f.2 same).map fun _ _ => trivial
    refine (each.map fun _ _ => trivial).congr ?_
    simp [Json.IsModel]
  | _ =>
    refine (Accepts.throw _).congr ?_
    simp [Json.IsModel]

end Reader

/-- The reader accepts exactly the documents that the grammar allows. -/
theorem Model.ofJson_ok_iff_isModel (document : Json) :
    (∃ m, Model.ofJson document = .ok m) ↔ document.IsModel := by
  have accepts := Reader.accepts_model document
  constructor
  · rintro ⟨m, h⟩
    exact (accepts.result m _ (Prod.ext h rfl)).1
  · intro h
    obtain ⟨m, t, run⟩ := accepts.succeeds h
    exact ⟨m, congrArg Prod.fst run⟩

end Recalc
