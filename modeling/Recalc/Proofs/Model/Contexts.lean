import Recalc.Proofs.Model.Reading

/-! Where a document refers to the context of a function. A collection verb gives its function a
context with a last operand, and a reference counts the functions outwards, so a document is looked
at together with what the functions around it are given. -/
namespace Recalc

namespace Json

/-- Whether a document refers to the context of a function that is given none. The functions around
the document are known by whether they are given one, the innermost first. -/
inductive LacksContext : List Bool → Json → Prop
  | near {around : List Bool} (h : around[0]? = some false) :
    LacksContext around (.arr [.str "context"])
  | distant {around : List Bool} {n : Nat} (h : around[n]? = some false) :
    LacksContext around (.arr [.str "context", .num (.int n)])
  | item {around : List Bool} {items : List Json} {j : Json}
    (head : ∀ name rest, items ≠ .str name :: rest) (hj : j ∈ items) (h : LacksContext around j) :
    LacksContext around (.arr items)
  | field {around : List Bool} {fields : List (String × Json)} {f : String × Json} (hf : f ∈ fields)
    (h : LacksContext around f.2) : LacksContext around (.obj fields)
  | operand {around : List Bool} {token : Token} {operands : List Json} {j : Json}
    (ht : token ≠ .func) (hj : j ∈ operands) (h : LacksContext around j) :
    LacksContext around (.arr (.str token.name :: operands))
  | body {around : List Bool} {token : Token} {inner source : Json} {ctx : Option Json}
    (ht : (CollectionVerb.ofToken? token).isSome = true)
    (h : LacksContext (ctx.isSome :: around) inner) :
    LacksContext around
      (.arr (.str token.name :: .arr [.str "func", inner] :: source :: ctx.toList))

variable {around : List Bool} {token : Token} {operands : List Json}

theorem not_lacksContext_scalar {j : Json} (h : j.isScalar = true) : ¬ LacksContext around j := by
  intro lacks
  cases lacks <;> cases h

theorem lacksContext_array {items : List Json} (head : ∀ name rest, items ≠ .str name :: rest) :
    LacksContext around (.arr items) ↔ ∃ j ∈ items, LacksContext around j := by
  constructor
  · intro h
    cases h with
    | item _ hj h => exact ⟨_, hj, h⟩
    | _ => exact absurd rfl (head _ _)
  · rintro ⟨j, hj, h⟩
    exact .item head hj h

theorem lacksContext_object {fields : List (String × Json)} :
    LacksContext around (.obj fields) ↔ ∃ j ∈ fields.map Prod.snd, LacksContext around j := by
  constructor
  · intro h
    cases h with
    | field hf h => exact ⟨_, List.mem_map_of_mem hf, h⟩
  · rintro ⟨j, hj, h⟩
    obtain ⟨f, hf, rfl⟩ := List.mem_map.mp hj
    exact .field hf h

/-- A word at the head of a document that lacks a context is a token's name. -/
theorem LacksContext.exists_token {head : String}
    (h : LacksContext around (.arr (.str head :: operands))) :
    ∃ token : Token, head = token.name ∧ token ≠ .func := by
  cases h with
  | near | distant => exact ⟨.context, rfl, by decide⟩
  | item head => exact absurd rfl (head _ _)
  | operand ht => exact ⟨_, rfl, ht⟩
  | @body _ token _ _ _ ht =>
    refine ⟨token, rfl, ?_⟩
    rintro rfl
    cases ht

theorem not_lacksContext_unknown {head : String} (unknown : Token.ofName? head = none) :
    ¬ LacksContext around (.arr (.str head :: operands)) := by
  intro h
  obtain ⟨token, rfl, -⟩ := h.exists_token
  rw [token.ofName?_name] at unknown
  cases unknown

/-- What a token heads lacks a context as a reference, in an operand, or in the body of its
function. -/
theorem LacksContext.of_token (h : LacksContext around (.arr (.str token.name :: operands))) :
    (token = .context ∧ ∃ n : Nat,
      (operands = [] ∧ n = 0 ∨ operands = [.num (.int n)]) ∧ around[n]? = some false) ∨
    (∃ j ∈ operands, LacksContext around j) ∨
    (CollectionVerb.ofToken? token).isSome = true ∧ ∃ inner source ctx,
      operands = .arr [.str "func", inner] :: source :: Option.toList ctx ∧
        LacksContext (ctx.isSome :: around) inner := by
  generalize hh : token.name = head at h
  cases h with
  | near h =>
    have ht : token = .context := Token.name_injective hh
    exact .inl ⟨ht, 0, .inl ⟨rfl, rfl⟩, h⟩
  | distant h =>
    have ht : token = .context := Token.name_injective hh
    exact .inl ⟨ht, _, .inr rfl, h⟩
  | item head => exact absurd rfl (head _ _)
  | operand _ hj h => exact .inr (.inl ⟨_, hj, h⟩)
  | body ht h =>
    cases Token.name_injective hh
    exact .inr (.inr ⟨ht, _, _, _, rfl, h⟩)

theorem lacksContext_reference (ht : token ∈ [.val, .key, .context]) {d : Nat}
    (hd : Reader.depth token operands = .ok d) :
    LacksContext around (.arr (.str token.name :: operands)) ↔
      token = .context ∧ around[d]? = some false := by
  rw [Reader.depth_eq_ok] at hd
  constructor
  · intro h
    rcases h.of_token with ⟨rfl, n, hn, lacks⟩ | ⟨j, hj, lacks⟩ | ⟨hc, -⟩
    · refine ⟨rfl, ?_⟩
      rcases hn with ⟨rfl, rfl⟩ | rfl
      · rcases hd with ⟨-, rfl⟩ | ⟨hd, -⟩
        · exact lacks
        · cases hd
      · rcases hd with ⟨hd, -⟩ | ⟨hd, -⟩
        · cases hd
        · have hd : (n : Int) = d := by simpa using hd
          obtain rfl : n = d := by omega
          exact lacks
    · rcases hd with ⟨rfl, -⟩ | ⟨rfl, -⟩
      · cases hj
      · cases List.mem_singleton.mp hj
        exact absurd lacks (not_lacksContext_scalar rfl)
    · have none : ∀ t ∈ [Token.val, .key, .context],
          (CollectionVerb.ofToken? t).isSome = false := by decide
      rw [none token ht] at hc
      cases hc
  · rintro ⟨rfl, lacks⟩
    rcases hd with ⟨rfl, rfl⟩ | ⟨rfl, -⟩
    · exact .near lacks
    · exact .distant lacks

theorem lacksContext_verb (hc : CollectionVerb.ofToken? token = none) (hr : token ≠ .context)
    (hf : token ≠ .func) : LacksContext around (.arr (.str token.name :: operands)) ↔
      ∃ j ∈ operands, LacksContext around j := by
  constructor
  · intro h
    rcases h.of_token with ⟨ht, -⟩ | lacks | ⟨ht, -⟩
    · exact absurd ht hr
    · exact lacks
    · simp [hc] at ht
  · rintro ⟨j, hj, h⟩
    exact .operand hf hj h

/-- A function on its own lacks nothing: its body is looked at with the verb that it is given to. -/
theorem not_lacksContext_function {parts : List Json} :
    ¬ LacksContext around (.arr (.str "func" :: parts)) := by
  intro h
  obtain ⟨token, hn, ht⟩ := h.exists_token
  exact ht (Token.name_injective hn.symm)

theorem lacksContext_iteration (hc : (CollectionVerb.ofToken? token).isSome = true)
    {inner source : Json} {ctx : Option Json} :
    LacksContext around
      (.arr (.str token.name :: .arr [.str "func", inner] :: source :: ctx.toList)) ↔
      (∃ j ∈ source :: ctx.toList, LacksContext around j) ∨
        LacksContext (ctx.isSome :: around) inner := by
  constructor
  · intro h
    rcases h.of_token with ⟨rfl, -⟩ | ⟨j, hj, lacks⟩ | ⟨-, inner', source', ctx', he, lacks⟩
    · cases hc
    · rcases List.mem_cons.mp hj with rfl | hj
      · exact absurd lacks not_lacksContext_function
      · exact .inl ⟨j, hj, lacks⟩
    · obtain ⟨rfl, rfl, hctx⟩ : inner = inner' ∧ source = source' ∧ ctx.toList = ctx'.toList := by
        simpa using he
      cases ctx <;> cases ctx' <;> simp_all
  · rintro (⟨j, hj, lacks⟩ | lacks)
    · refine .operand ?_ (List.mem_cons_of_mem _ hj) lacks
      rintro rfl
      cases hc
    · exact .body hc lacks

/-- Some definition of a model refers to the context of a function that is given none. Of
definitions with one name the last counts. -/
def ModelLacksContext (document : Json) : Prop :=
  ∃ fields, document = .obj fields ∧ ∃ f ∈ Fields.ofList fields, f.2.LacksContext []

end Json

/-- An iteration inside of another. The inner one is given a context, but its body refers to that of
the outer one. -/
def outerContext (given : Option Json) : Json :=
  .arr (.str "map" :: .arr [.str "func", .arr [.str "filter",
    .arr [.str "func", .arr [.str "context", .num (.int 1)]], .arr [.str "val"],
    .arr [.str "key"]]] :: .arr [.str "root"] :: given.toList)

theorem outerContext_lacksContext : (outerContext none).LacksContext [] := by
  have inner : Json.LacksContext [false] (.arr (.str Token.filter.name ::
      .arr [.str "func", .arr [.str "context", .num (.int 1)]] :: .arr [.str "val"] ::
      (some (Json.arr [.str "key"])).toList)) := .body rfl (.distant rfl)
  have outer : Json.LacksContext [] (.arr (.str Token.map.name :: .arr [.str "func", _] ::
      .arr [.str "root"] :: (none : Option Json).toList)) := .body rfl inner
  exact outer

end Recalc
