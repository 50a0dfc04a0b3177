import Recalc.Proofs.Expr.Assembly
import Recalc.Proofs.Expr.Folded

/-! Between expressions and their flat forms. Flattening undoes assembly but for the operands that
assembly supplies, and assembly undoes flattening. -/
namespace Recalc

namespace Expr

/-- The expression under its outer labels. -/
def bare : Expr → Expr
  | shared _ e => bare e
  | e => e

/-- The document, or a verb with its operands; a conjunction or a disjunction has some. -/
def Composed : Expr → Prop
  | root | get _ _ | iterate _ _ _ _ _ | unary _ _ | range _ _ _ | ternary _ _ _ | binary _ _ _
  | call _ _ _ => True
  | and items | or items => items ≠ []
  | shared _ e => Composed e
  | val _ | key _ | context _ | literal _ | array _ | object _ => False

private theorem composed_bare : (e : Expr) → (e.bare.Composed ↔ e.Composed)
  | shared _ e => composed_bare e
  | root | val _ | key _ | context _ | literal _ | array _ | object _ | get _ _
  | iterate _ _ _ _ _ | unary _ _ | range _ _ _ | ternary _ _ _ | and _ | or _ | binary _ _ _
  | call _ _ _ => .rfl

private theorem unlabel_bare : (e : Expr) → e.bare.unlabel = e.unlabel
  | shared _ e => unlabel_bare e
  | root | val _ | key _ | context _ | literal _ | array _ | object _ | get _ _
  | iterate _ _ _ _ _ | unary _ _ | range _ _ _ | ternary _ _ _ | and _ | or _ | binary _ _ _
  | call _ _ _ => rfl

private theorem alike_refl {rel : Value → Value → Bool} (self : ∀ v, rel v v = true) (e : Expr) :
    alike rel e e = true := by
  induction e using inductionOn with
  | step e ih =>
    cases hl : e.literal? with
    | none => exact (alike_iff_parts hl).mpr ⟨rfl, List.forall₂_same.mpr ih⟩
    | some v =>
      cases e with
      | literal w => simpa [alike] using self w
      | _ => cases hl

private theorem bare_beq (e : Expr) : (e.bare == e) = true := by
  change alike (· == ·) e.bare.unlabel e.unlabel = true
  rw [unlabel_bare]
  exact alike_refl (fun v => by rw [Value.beq_eq, Value.beq_self]) _

private theorem bare_of_functionName {token : Token} {function : String} :
    (name : Expr) → functionName token name = .ok function → name.bare = literal (.str function)
  | shared _ e, h => bare_of_functionName e h
  | literal (.str _), rfl => rfl

/-! ### Assembly after flattening -/

private theorem Assembles.composed {token : Token} {operands : List Operand} {e : Expr}
    (h : Assembles token operands e) : e.Composed := by
  cases h with
  | and some | or some => exact some
  | _ => trivial

/-- The flat form of a composed expression is one that it can be assembled from. -/
theorem assembles_flatten : (e : Expr) → e.Composed →
    ∃ token operands, e.flatten = some (token, operands) ∧ Assembles token operands e.bare
  | shared _ e, h => assembles_flatten e h
  | root, _ => ⟨_, _, rfl, .root⟩
  | get o k, _ => ⟨_, _, rfl, .get o k⟩
  | iterate verb source lambda body none, _ => ⟨_, _, rfl, .iterate verb ⟨lambda, body, none⟩ source⟩
  | iterate verb source lambda body (some ctx), _ =>
    ⟨_, _, rfl, .iterateWith verb ⟨lambda, body, some ctx⟩ source ctx⟩
  | unary verb operand, _ => ⟨_, _, rfl, .unary verb operand⟩
  | range stop start step, _ => ⟨_, _, rfl, .rangeBy stop start step⟩
  | ternary condition consequent alternative, _ =>
    ⟨_, _, rfl, .ternary condition consequent alternative⟩
  | and _, nonempty => ⟨_, _, rfl, .and nonempty⟩
  | or _, nonempty => ⟨_, _, rfl, .or nonempty⟩
  | binary verb left right, _ => ⟨_, _, rfl, .binary verb left right⟩
  | call _ receiver args, _ => ⟨_, _, rfl, .call receiver args rfl⟩

private theorem composed_iff (e : Expr) : e.Composed ↔
    ∃ token operands, e.flatten = some (token, operands) ∧ assemble token operands = .ok e.bare := by
  simp only [assemble_eq_ok]
  refine ⟨assembles_flatten e, ?_⟩
  rintro ⟨token, operands, _, h⟩
  exact (composed_bare e).mp h.composed

end Expr

/-! ### Flattening after assembly -/

namespace Token

/-- Operands other than the receiver, as a flat form has them. A range starts at zero and goes by
one unless told otherwise, a function takes the context that follows it or is followed by the one
that it has, and the name of a called function has no label. -/
def complete : Token → List Operand → List Operand
  | .range, [] => [.expr (.literal (.int 0)), .expr (.literal (.int 1))]
  | .range, [start] => [start, .expr (.literal (.int 1))]
  | .call, .expr name :: args => .expr name.bare :: args
  | _, [.func lambda] => .func lambda :: lambda.context.toList.map .expr
  | _, [.func lambda, .expr ctx] => [.func { lambda with context := some ctx }, .expr ctx]
  | _, args => args

/-- The operands of a flat form, with all but the receiver completed. -/
def normalize (token : Token) (operands : List Operand) : List Operand :=
  match token.info.receiver with
  | none | some 0 => operands
  | some (position + 1) => match operands[position]? with
    | none => operands
    | some receiver => (token.complete (operands.eraseIdx position)).insertIdx position receiver

private theorem length_complete (token : Token) (args : List Operand) :
    args.length ≤ (token.complete args).length := by
  unfold complete
  split <;> simp

private theorem normalize_insertIdx {token : Token} {position : Nat} {args : List Operand}
    {o : Operand}
    (receiver : token.info.receiver = some (position + 1)) (within : position ≤ args.length) :
    token.normalize (args.insertIdx position o) = (token.complete args).insertIdx position o := by
  simp only [normalize, receiver, List.getElem?_insertIdx_self, if_pos within,
    List.eraseIdx_insertIdx_self]

/-- A token with a receiver has enough operands to hold it. -/
theorem receiver_lt_least {token : Token} {place : Nat} (h : token.info.receiver = some place) :
    0 < place ∧ place < token.info.arity.least := by
  cases token <;> cases h <;> decide

end Token

namespace Expr
variable {token : Token} {operands : List Operand} {e r : Expr}

/-- What is assembled has the flat form that it was assembled from, with operands completed. -/
theorem Assembles.flatten (h : Assembles token operands e) :
    e.flatten = some (token, token.normalize operands) := by
  cases h with
  | iterate verb lambda source | iterateWith verb lambda source ctx => cases verb <;> rfl
  | unary verb operand => cases verb <;> rfl
  | binary verb left right => cases verb <;> rfl
  | @call name function receiver args named =>
    change _ = some (Token.call, Operand.expr name.bare :: .expr receiver :: args.map .expr)
    rw [bare_of_functionName name named]
    rfl
  | _ => rfl

private theorem take_append_cons_drop (o : Operand) : {n : Nat} → {os : List Operand} →
    n ≤ os.length → os.take n ++ o :: os.drop n = os.insertIdx n o
  | 0, _, _ => rfl
  | _ + 1, a :: _, h => congrArg (a :: ·) (take_append_cons_drop o (Nat.le_of_succ_le_succ h))

/-- Chaining inserts the receiver at its place. -/
theorem chain_eq_ok (h : chain e token operands = .ok r) : ∃ position,
    token.info.receiver = some (position + 1) ∧ position ≤ operands.length ∧
      assemble token (operands.insertIdx position (.expr e)) = .ok r := by
  simp only [chain] at h
  split at h
  · cases h
  split at h
  · cases h
  case h_2 place receiver =>
    obtain ⟨positive, least⟩ := Token.receiver_lt_least receiver
    have arity := (exists_assemble_ok.mp ⟨r, h⟩).2.1
    simp only [Arity.admits, Bool.and_eq_true, decide_eq_true_eq, List.length_append,
      List.length_take, List.length_cons, List.length_drop] at arity
    have within : place - 1 ≤ operands.length := by omega
    rw [Nat.min_eq_left within, take_append_cons_drop _ within] at h
    exact ⟨place - 1, by rw [receiver, Nat.sub_add_cancel positive], within, h⟩

/-- A composed expression is rebuilt from its flat form, an assembled one has the operands that it
was given, completed, and a chained one has the receiver at its place among them. -/
theorem flat_round_trip (e : Expr) (token : Token) (operands : List Operand) :
    (e.Composed ↔ ∃ t os, e.flatten = some (t, os) ∧ assemble t os = .ok e.bare) ∧
      (e.bare == e) = true ∧
      (∀ r, assemble token operands = .ok r →
        r.flatten = some (token, token.normalize operands)) ∧
      ∀ r, chain e token operands = .ok r → ∃ position os,
        token.info.receiver = some (position + 1) ∧ r.flatten = some (token, os) ∧
          os[position]? = some (.expr e) ∧ os.eraseIdx position = token.complete operands := by
  refine ⟨composed_iff e, bare_beq e, fun r h => (assemble_eq_ok.mp h).flatten, fun r h => ?_⟩
  obtain ⟨position, receiver, within, assembled⟩ := chain_eq_ok h
  have flat := (assemble_eq_ok.mp assembled).flatten
  rw [Token.normalize_insertIdx receiver within] at flat
  have inside := Nat.le_trans within (token.length_complete operands)
  refine ⟨position, _, receiver, flat, ?_, List.eraseIdx_insertIdx_self _⟩
  rw [List.getElem?_insertIdx_self, if_pos inside]

/-- A labelled conjunction. -/
def joined : Expr := shared 7 (and [root, literal (.bool true)])

/-- A function that carries its context. -/
def carrying : Lambda := ⟨0, .binary .eq (.val 0) (.context 0), some .root⟩

def selected : Expr := iterate .filter joined 0 carrying.body carrying.context

theorem flat_round_trip_selected :
    joined.Composed ∧
      (∃ t os, joined.flatten = some (t, os) ∧ assemble t os = .ok joined.bare) ∧
      (joined.bare == joined) = true ∧
      assemble .filter [.func carrying, .expr joined] = .ok selected ∧
      selected.flatten =
        some (.filter, Token.normalize .filter [.func carrying, .expr joined]) ∧
      Token.normalize .filter [.func carrying, .expr joined] =
        [.func carrying, .expr joined, .expr root] ∧
      chain joined .filter [.func carrying] = .ok selected ∧
      ∃ position os, Token.filter.info.receiver = some (position + 1) ∧
        selected.flatten = some (.filter, os) ∧ os[position]? = some (.expr joined) ∧
          os.eraseIdx position = Token.complete .filter [.func carrying] := by
  have composed : joined.Composed := List.cons_ne_nil _ _
  have whole := flat_round_trip joined .filter [.func carrying, .expr joined]
  have chained := flat_round_trip joined .filter [.func carrying]
  exact ⟨composed, whole.1.mp composed, whole.2.1, rfl, whole.2.2.1 _ rfl, rfl, rfl,
    chained.2.2.2 _ rfl⟩

end Expr

end Recalc
