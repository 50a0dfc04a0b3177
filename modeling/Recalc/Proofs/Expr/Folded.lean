import Mathlib.Data.List.Forall2
import Recalc.Proofs.Expr.Parts

/-! Expressions without labels and with their constants folded into literals. Whether two folded
expressions are equal is decided by their heads and, part by part, by their folded parts. -/
namespace Recalc

namespace Expr

def literal? : Expr → Option Value
  | literal v => some v
  | _ => none

def isShared : Expr → Bool
  | shared _ _ => true
  | _ => false

/-- The expression with its parts changed. -/
def mapParts (f : Expr → Expr) : Expr → Expr
  | array items => array (items.map f)
  | object fields => object (fields.map fun g => (g.1, f g.2))
  | get o k => get (f o) (f k)
  | iterate verb source lambda body ctx => iterate verb (f source) lambda (f body) (ctx.map f)
  | unary verb operand => unary verb (f operand)
  | range stop start step => range (f stop) (f start) (f step)
  | ternary condition consequent alternative =>
    ternary (f condition) (f consequent) (f alternative)
  | and items => and (items.map f)
  | or items => or (items.map f)
  | binary verb left right => binary verb (f left) (f right)
  | call function receiver args => call function (f receiver) (args.map f)
  | shared label e => shared label (f e)
  | e => e

private theorem parts_mapParts (f : Expr → Expr) (e : Expr) :
    (e.mapParts f).parts = e.parts.map f := by
  cases e with
  | iterate verb source lambda body ctx => cases ctx <;> rfl
  | object fields => simp [mapParts, parts]
  | _ => rfl

@[simp]
theorem isShared_mapParts (f : Expr → Expr) (e : Expr) :
    (e.mapParts f).isShared = e.isShared := by
  cases e <;> rfl

@[simp]
theorem literal?_mapParts (f : Expr → Expr) (e : Expr) : (e.mapParts f).literal? = e.literal? := by
  cases e <;> rfl

/-! ### Rebuilding from the parts up -/

section Rebuild
variable (own : Expr → Expr)

mutual

/-- Changes all parts of an expression, and then the expression that they make. -/
def rebuild : Expr → Expr
  | root => own root
  | val l => own (val l)
  | key l => own (key l)
  | context l => own (context l)
  | literal v => own (literal v)
  | array items => own (array (rebuildItems items))
  | object fields => own (object (rebuildFields fields))
  | get o k => own (get (rebuild o) (rebuild k))
  | iterate verb source lambda body ctx =>
    own (iterate verb (rebuild source) lambda (rebuild body) (rebuildOption ctx))
  | unary verb operand => own (unary verb (rebuild operand))
  | range stop start step => own (range (rebuild stop) (rebuild start) (rebuild step))
  | ternary condition consequent alternative =>
    own (ternary (rebuild condition) (rebuild consequent) (rebuild alternative))
  | and items => own (and (rebuildItems items))
  | or items => own (or (rebuildItems items))
  | binary verb left right => own (binary verb (rebuild left) (rebuild right))
  | call function receiver args => own (call function (rebuild receiver) (rebuildItems args))
  | shared label e => own (shared label (rebuild e))

def rebuildItems : List Expr → List Expr
  | [] => []
  | e :: rest => rebuild e :: rebuildItems rest

def rebuildFields : List (String × Expr) → List (String × Expr)
  | [] => []
  | (k, e) :: rest => (k, rebuild e) :: rebuildFields rest

def rebuildOption : Option Expr → Option Expr
  | none => none
  | some e => some (rebuild e)

end

private theorem rebuildItems_eq (es : List Expr) :
    rebuildItems own es = es.map (rebuild own) := by
  induction es with
  | nil => rfl
  | cons e rest ih => rw [rebuildItems, ih, List.map_cons]

private theorem rebuildFields_eq (fields : List (String × Expr)) :
    rebuildFields own fields = fields.map fun f => (f.1, rebuild own f.2) := by
  induction fields with
  | nil => rfl
  | cons f rest ih => rw [rebuildFields, ih, List.map_cons]

private theorem rebuild_eq (e : Expr) : rebuild own e = own (e.mapParts (rebuild own)) := by
  cases e with
  | iterate verb source lambda body ctx => cases ctx <;> rfl
  | _ => simp [rebuild, mapParts, rebuildItems_eq, rebuildFields_eq]

end Rebuild

/-! ### Folding -/

/-- A container of literals is a literal, and a label is dropped. -/
def collapse : Expr → Expr
  | array items => ((items.mapM literal?).map fun vs => literal (.arr vs)).getD (array items)
  | object fields => (((fields.map Prod.snd).mapM literal?).map fun vs =>
      literal (.obj (Fields.ofList ((fields.map Prod.fst).zip vs)))).getD (object fields)
  | shared _ e => e
  | e => e

/-- The expression without labels, where arrays and objects whose members are all constant are
literals. -/
def folded (e : Expr) : Expr := rebuild collapse e

private theorem folded_eq (e : Expr) :
    e.folded = (e.mapParts folded).collapse := rebuild_eq collapse e

theorem folded_shared (label : Nat) (e : Expr) : (shared label e).folded = e.folded :=
  folded_eq (shared label e)

private theorem mapM_folded {es : List Expr} (h : ∀ c ∈ es, c.folded.literal? = c.constant?) :
    (es.map folded).mapM literal? = es.mapM constant? := by
  induction es with
  | nil => rfl
  | cons e rest ih =>
    obtain ⟨first, others⟩ := List.forall_mem_cons.mp h
    rw [List.map_cons, List.mapM_cons, List.mapM_cons, first, ih others]

/-- What is folded into a literal is exactly what is constant. -/
theorem literal?_folded (e : Expr) : e.folded.literal? = e.constant? := by
  induction e using inductionOn with
  | step e ih =>
    cases e with
    | array items =>
      have members : ∀ c ∈ items, c.folded.literal? = c.constant? := ih
      rw [folded_eq, constant?_array, mapParts, collapse, mapM_folded members]
      cases items.mapM constant? <;> rfl
    | object fields =>
      have names : (fields.map fun g => (g.1, folded g.2)).map Prod.fst = fields.map Prod.fst := by
        simp
      have values : (fields.map fun g => (g.1, folded g.2)).map Prod.snd =
          (fields.map Prod.snd).map folded := by simp
      have members : ∀ c ∈ fields.map Prod.snd, c.folded.literal? = c.constant? := ih
      rw [folded_eq, constant?_object, mapParts, collapse, names, values, mapM_folded members]
      cases (fields.map Prod.snd).mapM constant? <;> rfl
    | shared label d =>
      rw [folded_shared]
      exact ih d List.mem_cons_self
    | _ => rfl

theorem folded_of_constant {e : Expr} {w : Value} (h : e.constant? = some w) :
    e.folded = literal w := by
  rw [← literal?_folded] at h
  cases he : e.folded with
  | literal v =>
    rw [he] at h
    exact congrArg literal (Option.some.inj h)
  | _ =>
    rw [he] at h
    cases h

/-- An expression that is not constant keeps its head. -/
theorem folded_of_varies {e : Expr} (varies : e.constant? = none) (hs : e.isShared = false) :
    e.folded = e.mapParts folded := by
  rw [← literal?_folded, folded_eq] at varies
  rw [folded_eq]
  cases e with
  | shared label d => cases hs
  | array items =>
    rw [mapParts, collapse] at varies ⊢
    cases hm : (items.map folded).mapM literal? with
    | none => rfl
    | some vs =>
      rw [hm] at varies
      cases varies
  | object fields =>
    rw [mapParts, collapse] at varies ⊢
    cases hm : ((fields.map fun g => (g.1, folded g.2)).map Prod.snd).mapM literal? with
    | none => rfl
    | some vs =>
      rw [hm] at varies
      cases varies
  | _ => rfl

/-! ### Heads -/

end Expr

/-- What is left of an expression without its parts. -/
inductive Head where
  | root
  | val (lambda : LambdaId)
  | key (lambda : LambdaId)
  | context (lambda : LambdaId)
  | literal (v : Value)
  | array
  | object (names : List String)
  | get
  | iterate (verb : CollectionVerb) (lambda : LambdaId) (hasContext : Bool)
  | unary (verb : UnaryVerb)
  | range
  | ternary
  | and
  | or
  | binary (verb : BinaryVerb)
  | call (function : String)
  | shared (label : Nat)

namespace Expr

def head : Expr → Head
  | root => .root
  | val l => .val l
  | key l => .key l
  | context l => .context l
  | literal v => .literal v
  | array _ => .array
  | object fields => .object (fields.map Prod.fst)
  | get _ _ => .get
  | iterate verb _ lambda _ ctx => .iterate verb lambda ctx.isSome
  | unary verb _ => .unary verb
  | range _ _ _ => .range
  | ternary _ _ _ => .ternary
  | and _ => .and
  | or _ => .or
  | binary verb _ _ => .binary verb
  | call function _ _ => .call function
  | shared label _ => .shared label

private theorem head_mapParts (f : Expr → Expr) (e : Expr) : (e.mapParts f).head = e.head := by
  cases e with
  | iterate verb source lambda body ctx => cases ctx <;> rfl
  | object fields => simp [mapParts, head]
  | _ => rfl

section Alike
variable {rel : Value → Value → Bool} {a b : Expr}

private theorem alikeItems_iff_forall₂ {as bs : List Expr} :
    alikeItems rel as bs = true ↔ List.Forall₂ (fun a b => alike rel a b = true) as bs := by
  induction as generalizing bs with
  | nil => cases bs <;> simp [alikeItems]
  | cons a as ih => cases bs <;> simp [alikeItems, ih]

private theorem alikeFields_iff_forall₂ {as bs : List (String × Expr)} :
    alikeFields rel as bs = true ↔ as.map Prod.fst = bs.map Prod.fst ∧
      List.Forall₂ (fun a b => alike rel a b = true) (as.map Prod.snd) (bs.map Prod.snd) := by
  induction as generalizing bs with
  | nil => cases bs <;> simp [alikeFields]
  | cons f as ih =>
    obtain ⟨k, a⟩ := f
    cases bs with
    | nil => simp [alikeFields]
    | cons g bs =>
      obtain ⟨l, b⟩ := g
      simp only [alikeFields, Bool.and_eq_true, decide_eq_true_eq, ih, List.map_cons,
        List.cons.injEq, List.forall₂_cons]
      exact and_and_and_comm

private theorem ctorIdx_of_alike (h : alike rel a b = true) : a.ctorIdx = b.ctorIdx := by
  unfold alike at h
  split at h
  case h_18 => cases h
  all_goals rfl

private theorem ctorIdx_of_head (h : a.head = b.head) : a.ctorIdx = b.ctorIdx := by
  cases a <;> cases b <;> first | rfl | cases h

private theorem alike_iff_of_ctorIdx (hl : a.literal? = none) (index : a.ctorIdx = b.ctorIdx) :
    alike rel a b = true ↔ a.head = b.head ∧
      List.Forall₂ (fun c d => alike rel c d = true) a.parts b.parts := by
  cases a <;> cases b <;> cases index
  case literal => cases hl
  case iterate ctx _ _ _ _ ctx' =>
    cases ctx <;> cases ctx' <;> simp [alike, head, parts, alikeOption]
    all_goals tauto
  all_goals simp [alike, head, parts, alikeItems_iff_forall₂, alikeFields_iff_forall₂, and_assoc]

/-- Expressions are alike if their heads are the same and their parts are alike. -/
theorem alike_iff_parts (hl : a.literal? = none) : alike rel a b = true ↔ a.head = b.head ∧
      List.Forall₂ (fun c d => alike rel c d = true) a.parts b.parts := by
  by_cases index : a.ctorIdx = b.ctorIdx
  · exact alike_iff_of_ctorIdx hl index
  · exact iff_of_false (fun h => index (ctorIdx_of_alike h)) fun h => index (ctorIdx_of_head h.1)

end Alike

/-! ### Equality of folded expressions -/

private theorem unlabelItems_eq (es : List Expr) : unlabelItems es = es.map unlabel := by
  induction es with
  | nil => rfl
  | cons e rest ih => rw [unlabelItems, ih, List.map_cons]

private theorem unlabelFields_eq (fields : List (String × Expr)) :
    unlabelFields fields = fields.map fun f => (f.1, unlabel f.2) := by
  induction fields with
  | nil => rfl
  | cons f rest ih => rw [unlabelFields, ih, List.map_cons]

private theorem unlabel_eq {e : Expr} (hs : e.isShared = false) :
    e.unlabel = e.mapParts unlabel := by
  cases e with
  | shared label d => cases hs
  | iterate verb source lambda body ctx => cases ctx <;> rfl
  | _ => simp [unlabel, mapParts, unlabelItems_eq, unlabelFields_eq]

variable {a b e d : Expr}

private theorem beq_iff_parts (hl : a.literal? = none) (ha : a.isShared = false)
    (hb : b.isShared = false) : (a == b) = true ↔
      a.head = b.head ∧ List.Forall₂ (fun c d => (c == d) = true) a.parts b.parts := by
  change alike (· == ·) a.unlabel b.unlabel = true ↔ _
  rw [unlabel_eq ha, unlabel_eq hb, alike_iff_parts (by simpa using hl), head_mapParts,
    head_mapParts, parts_mapParts, parts_mapParts, List.forall₂_map_left_iff,
    List.forall₂_map_right_iff]
  rfl

theorem beq_literal (v w : Value) : (literal v == literal w) = (v == w) := by
  change alike (· == ·) (literal v).unlabel (literal w).unlabel = _
  rw [unlabel, unlabel, alike]

private theorem literal?_of_beq (ha : a.isShared = false) (hb : b.isShared = false)
    (h : (a == b) = true) :
    Option.Rel (fun v w => (v == w) = true) a.literal? b.literal? := by
  cases a with
  | literal v =>
    have index : ((literal v).mapParts unlabel).ctorIdx = (b.mapParts unlabel).ctorIdx := by
      rw [← unlabel_eq ha, ← unlabel_eq hb]
      exact ctorIdx_of_alike h
    cases b with
    | literal w => exact .some ((beq_literal v w).symm.trans h)
    | shared label d => cases hb
    | _ => cases index
  | _ =>
    have same := ((beq_iff_parts rfl ha hb).mp h).1
    cases b <;> first | exact .none | cases same

private theorem isShared_folded (e : Expr) : e.folded.isShared = false := by
  induction e using inductionOn with
  | step e ih =>
    cases hs : e.isShared with
    | true =>
      cases e with
      | shared label d =>
        rw [folded_shared]
        exact ih d List.mem_cons_self
      | _ => cases hs
    | false =>
      cases hc : e.constant? with
      | some w =>
        rw [folded_of_constant hc]
        rfl
      | none => rw [folded_of_varies hc hs, isShared_mapParts, hs]

/-- Equal folded expressions are both constant, with equal values, or both not. -/
theorem constant?_of_folded (h : (e.folded == d.folded) = true) :
    Option.Rel (fun v w => (v == w) = true) e.constant? d.constant? := by
  rw [← literal?_folded, ← literal?_folded]
  exact literal?_of_beq (isShared_folded e) (isShared_folded d) h

theorem constant_of_folded {v : Value} (h : (e.folded == d.folded) = true)
    (he : e.constant? = some v) : ∃ w, d.constant? = some w ∧ (v == w) = true := by
  have values := constant?_of_folded h
  rw [he] at values
  generalize d.constant? = found at values
  cases values with
  | some same => exact ⟨_, rfl, same⟩

theorem varies_of_folded (h : (e.folded == d.folded) = true) (he : e.constant? = none) :
    d.constant? = none := by
  have values := constant?_of_folded h
  rw [he] at values
  generalize d.constant? = found at values
  cases values
  rfl

/-- Folded expressions that are not constant are equal if their heads are the same and their folded
parts are equal. -/
theorem folded_beq_iff (he : e.constant? = none) (hes : e.isShared = false)
    (hd : d.constant? = none) (hds : d.isShared = false) : (e.folded == d.folded) = true ↔
      e.head = d.head ∧
        List.Forall₂ (fun c c' => (c.folded == c'.folded) = true) e.parts d.parts := by
  have varies : e.folded.literal? = none := by rw [literal?_folded, he]
  rw [beq_iff_parts varies (isShared_folded e) (isShared_folded d), folded_of_varies he hes,
    folded_of_varies hd hds, head_mapParts, head_mapParts, parts_mapParts, parts_mapParts,
    List.forall₂_map_left_iff, List.forall₂_map_right_iff]

end Expr

end Recalc
