import Recalc.Proofs.Expr.Assembly
import Recalc.Model.Reader

/-! The grammar of models that are JSON documents, and that the reader accepts exactly what it
allows. How deep an expression may refer is a matter of the functions around it, so expressions are
those at a depth. -/
namespace Recalc

/-! ### The grammar -/

namespace Json

/-- Neither an array nor an object. -/
def isScalar : Json → Bool
  | .arr _ => false
  | .obj _ => false
  | _ => true

/-- The name of a function to call, as a string or as a quoted one. -/
def NamesFunction (j : Json) : Prop := ∃ name, j = .str name ∨ j = .arr [.str "$quote", .str name]

/-- The expressions inside of a number of functions. -/
inductive IsExpr : Nat → Json → Prop
  | scalar {d : Nat} {j : Json} (h : j.isScalar = true) : IsExpr d j
  | array {d : Nat} {items : List Json} (head : ∀ name rest, items ≠ .str name :: rest)
    (each : ∀ j ∈ items, IsExpr d j) : IsExpr d (.arr items)
  | object {d : Nat} {fields : List (String × Json)} (each : ∀ f ∈ fields, IsExpr d f.2) :
    IsExpr d (.obj fields)
  | quote {d : Nat} (j : Json) : IsExpr d (.arr [.str "$quote", j])
  | root {d : Nat} : IsExpr d (.arr [.str "root"])
  | reference {d : Nat} {token : Token} (ht : token ∈ [.val, .key, .context]) (h : 1 ≤ d) :
    IsExpr d (.arr [.str token.name])
  | distant {d n : Nat} {token : Token} (ht : token ∈ [.val, .key, .context])
    (fits : n + 1 < Word.capacity) (h : n < d) : IsExpr d (.arr [.str token.name, .num (.int n)])
  | iteration {d : Nat} {token : Token} {body : Json} {rest : List Json}
    (ht : (CollectionVerb.ofToken? token).isSome = true)
    (arity : token.info.arity.admits (rest.length + 2) = true) (inner : IsExpr (d + 1) body)
    (each : ∀ j ∈ rest, IsExpr d j) :
    IsExpr d (.arr (.str token.name :: .arr [.str "func", body] :: rest))
  | verb {d : Nat} {token : Token} {operands : List Json}
    (ht : (CollectionVerb.ofToken? token).isSome = false) (terminal : token.info.terminal = false)
    (internal : token.info.internal = false)
    (arity : token.info.arity.admits (operands.length + 1) = true)
    (each : ∀ j ∈ operands, IsExpr d j)
    (named : token = .call → ∃ name rest, operands = name :: rest ∧ name.NamesFunction) :
    IsExpr d (.arr (.str token.name :: operands))

/-- The steps of a mutator's path. -/
def IsSegment : Json → Prop
  | .str _ => True
  | .num (.int n) => 0 ≤ n ∧ n < Word.capacity
  | .arr [.str name] => name = "arg0" ∨ name = "arg1"
  | _ => False

/-- A mutator with its path, or an expression outside of all functions. -/
def IsDefinition (j : Json) : Prop :=
  (∃ segments, (j = .arr (.str "$setter" :: segments) ∨ j = .arr (.str "$splice" :: segments)) ∧
    ∀ segment ∈ segments, segment.IsSegment) ∨ j.IsExpr 0

def IsModel (j : Json) : Prop := ∃ fields, j = .obj fields ∧ ∀ f ∈ fields, f.2.IsDefinition

/-- Induction over a document from its elements and the values of its fields. -/
theorem induct {motive : Json → Prop} (scalar : ∀ j, j.isScalar = true → motive j)
    (arr : ∀ items, (∀ j ∈ items, motive j) → motive (.arr items))
    (obj : ∀ fields : List (String × Json), (∀ f ∈ fields, motive f.2) → motive (.obj fields))
    (j : Json) : motive j :=
  @Json.rec motive (fun items => ∀ j ∈ items, motive j) (fun fields => ∀ f ∈ fields, motive f.2)
    (fun f => motive f.2) (scalar _ rfl) (fun _ => scalar _ rfl) (fun _ => scalar _ rfl)
    (fun _ => scalar _ rfl) arr obj (by simp) (fun _ _ h hs => List.forall_mem_cons.mpr ⟨h, hs⟩)
    (by simp) (fun _ _ h hs => List.forall_mem_cons.mpr ⟨h, hs⟩) (fun _ _ h => h) j

end Json

/-! ### Words at the head of an array -/

theorem Token.ofName?_name (token : Token) : Token.ofName? token.name = some token := by
  cases token <;> rfl

theorem Token.name_injective {token token' : Token} (h : token.name = token'.name) :
    token = token' := by
  have found := token.ofName?_name
  rw [h, token'.ofName?_name] at found
  exact (Option.some.inj found).symm

theorem Token.name_ne_quote (token : Token) : token.name ≠ "$quote" := by
  intro h
  have found := token.ofName?_name
  rw [h] at found
  cases found

private theorem Token.eq_name {token : Token} {name : String}
    (h : Token.ofName? name = some token) :
    name = token.name := by
  have found := List.find?_some h
  exact (of_decide_eq_true found).symm

namespace Json
variable {d : Nat} {token : Token} {operands : List Json}

/-- Induction over a document as the reader sees it, by the word at the head of an array. A function
among the operands of a token is read through its body, so the token has it for the body too. -/
theorem inductWords {motive : Json → Prop} (scalar : ∀ j, j.isScalar = true → motive j)
    (array : ∀ items, (∀ name rest, items ≠ .str name :: rest) → (∀ j ∈ items, motive j) →
      motive (.arr items))
    (object : ∀ fields : List (String × Json), (∀ f ∈ fields, motive f.2) → motive (.obj fields))
    (quote : ∀ operands, motive (.arr (.str "$quote" :: operands)))
    (unknown : ∀ head operands, head ≠ "$quote" → Token.ofName? head = none →
      motive (.arr (.str head :: operands)))
    (token : ∀ (token : Token) (operands : List Json),
      (∀ j ∈ operands, motive j ∧ ∀ body, j = .arr [.str "func", body] → motive body) →
      motive (.arr (.str token.name :: operands))) (j : Json) : motive j := by
  have both : motive j ∧ ∀ body, j = .arr [.str "func", body] → motive body := by
    induction j using induct with
    | scalar j h =>
      refine ⟨scalar j h, ?_⟩
      rintro body rfl
      cases h
    | obj fields ih =>
      refine ⟨object fields fun f hf => (ih f hf).1, fun body h => ?_⟩
      cases h
    | arr items ih =>
      refine ⟨?_, ?_⟩
      · by_cases h : ∃ head operands, items = .str head :: operands
        · obtain ⟨head, operands, rfl⟩ := h
          by_cases hq : head = "$quote"
          · subst hq
            exact quote operands
          · cases found : Token.ofName? head with
            | none => exact unknown head operands hq found
            | some t =>
              rw [Token.eq_name found]
              exact token t operands (List.forall_mem_cons.mp ih).2
        · refine array items (fun head operands he => ?_) fun j hj => (ih j hj).1
          exact h ⟨head, operands, he⟩
      · rintro body h
        cases h
        exact (ih body (by simp)).1
  exact both.1

theorem isExpr_array {items : List Json} (head : ∀ name rest, items ≠ .str name :: rest) :
    IsExpr d (.arr items) ↔ ∀ j ∈ items, IsExpr d j := by
  refine ⟨fun h => ?_, .array head⟩
  cases h with
  | scalar h => cases h
  | array _ each => exact each
  | _ => exact absurd rfl (head _ _)

theorem isExpr_object {fields : List (String × Json)} :
    IsExpr d (.obj fields) ↔ ∀ f ∈ fields, IsExpr d f.2 := by
  refine ⟨fun h => ?_, .object⟩
  cases h with
  | scalar h => cases h
  | object each => exact each

theorem isExpr_quote :
    IsExpr d (.arr (.str "$quote" :: operands)) ↔ ∃ j, operands = [j] := by
  constructor
  · intro h
    generalize hh : "$quote" = head at h
    cases h with
    | scalar h => cases h
    | array head _ => exact absurd rfl (head _ _)
    | quote j => exact ⟨j, rfl⟩
    | root => exact absurd hh.symm (Token.name_ne_quote .root)
    | reference | distant | iteration | verb => exact absurd hh.symm (Token.name_ne_quote _)
  · rintro ⟨j, rfl⟩
    exact .quote j

/-- A word at the head of an expression is a token's name, unless it quotes. -/
theorem IsExpr.exists_token {head : String} (h : IsExpr d (.arr (.str head :: operands)))
    (hq : head ≠ "$quote") : ∃ token : Token, head = token.name := by
  cases h with
  | scalar h => cases h
  | array head _ => exact absurd rfl (head _ _)
  | quote j => exact absurd rfl hq
  | root => exact ⟨.root, rfl⟩
  | reference | distant | iteration | verb => exact ⟨_, rfl⟩

theorem not_isExpr_of_unknown {head : String} (hq : head ≠ "$quote")
    (unknown : Token.ofName? head = none) : ¬ IsExpr d (.arr (.str head :: operands)) := by
  intro h
  obtain ⟨token, rfl⟩ := h.exists_token hq
  rw [token.ofName?_name] at unknown
  cases unknown

theorem isDefinition_mutator {head : String} (h : head ∈ ["$setter", "$splice"])
    {segments : List Json} : IsDefinition (.arr (.str head :: segments)) ↔
      ∀ segment ∈ segments, segment.IsSegment := by
  have unknown : ∀ head ∈ ["$setter", "$splice"],
      head ≠ "$quote" ∧ Token.ofName? head = none := by decide
  obtain ⟨hq, unknown⟩ := unknown head h
  constructor
  · rintro (⟨segments, he | he, each⟩ | he)
    · cases he
      exact each
    · cases he
      exact each
    · exact absurd he (not_isExpr_of_unknown hq unknown)
  · intro each
    refine .inl ⟨segments, ?_, each⟩
    simpa using h

/-- What may follow a token. -/
theorem IsExpr.of_token (h : IsExpr d (.arr (.str token.name :: operands))) :
    token = .root ∧ operands = [] ∨
    token ∈ [.val, .key, .context] ∧ (operands = [] ∧ 1 ≤ d ∨
      ∃ n : Nat, operands = [.num (.int n)] ∧ n + 1 < Word.capacity ∧ n < d) ∨
    (CollectionVerb.ofToken? token).isSome = true ∧
      token.info.arity.admits (operands.length + 1) = true ∧
      (∃ body rest, operands = .arr [.str "func", body] :: rest ∧ IsExpr (d + 1) body ∧
        ∀ j ∈ rest, IsExpr d j) ∨
    (CollectionVerb.ofToken? token).isSome = false ∧ token.info.terminal = false ∧
      token.info.internal = false ∧ token.info.arity.admits (operands.length + 1) = true ∧
      (∀ j ∈ operands, IsExpr d j) ∧
      (token = .call → ∃ name rest, operands = name :: rest ∧ name.NamesFunction) := by
  generalize hh : token.name = head at h
  cases h with
  | scalar h => cases h
  | array head _ => exact absurd rfl (head _ _)
  | quote j => exact absurd hh token.name_ne_quote
  | root => exact .inl ⟨Token.name_injective hh, rfl⟩
  | reference ht h =>
    cases Token.name_injective hh
    exact .inr (.inl ⟨ht, .inl ⟨rfl, h⟩⟩)
  | distant ht fits h =>
    cases Token.name_injective hh
    exact .inr (.inl ⟨ht, .inr ⟨_, rfl, fits, h⟩⟩)
  | iteration ht arity inner each =>
    cases Token.name_injective hh
    exact .inr (.inr (.inl ⟨ht, arity, _, _, rfl, inner, each⟩))
  | verb ht terminal internal arity each named =>
    cases Token.name_injective hh
    exact .inr (.inr (.inr ⟨ht, terminal, internal, arity, each, named⟩))

end Json

end Recalc
