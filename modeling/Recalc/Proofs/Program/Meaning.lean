import Recalc.Proofs.Pass.Recall

/-! Lowering keeps the meaning of expressions: the value of a node is that of the expression which it
represents, as long as its literals have the very values of the constants that they stand for. -/
namespace Recalc

variable {lib : Library} {model : Value} {env : List Expr.Local}

/-! ### Parts in order -/

section Parts
variable {read : NodeId → Except EvalError Value} {ids : List NodeId} {es : List Expr}

private theorem mapM_eq_evalItems
    (h : List.Forall₂ (fun c e => read c = e.eval lib model env) ids es) :
    ids.mapM read = Expr.evalItems lib model env es := by
  induction h with
  | nil => rfl
  | cons first _ ih =>
    rw [List.mapM_cons, ih, first]
    rfl

private theorem readFields_eq_evalFields {fields : List (String × NodeId)}
    {named : List (String × Expr)} (names : fields.map Prod.fst = named.map Prod.fst)
    (h : List.Forall₂ (fun c e => read c = e.eval lib model env) (fields.map Prod.snd)
      (named.map Prod.snd)) :
    readFields read fields = Expr.evalFields lib model env named := by
  rw [← List.forall₂_eq_eq_eq, List.forall₂_map_left_iff, List.forall₂_map_right_iff] at names
  rw [List.forall₂_map_left_iff, List.forall₂_map_right_iff] at h
  have both := forall₂_and names h
  clear names h
  induction both with
  | nil => rfl
  | @cons field name _ _ first _ ih =>
    obtain ⟨k, c⟩ := field
    obtain ⟨k', e⟩ := name
    obtain ⟨rfl, hv⟩ := first
    rw [readFields, Expr.evalFields, ih, hv]

private theorem readWhile_eq_evalWhile (test : Value → Bool) (last : Value)
    (h : List.Forall₂ (fun c e => read c = e.eval lib model env) ids es) :
    readWhile read test last ids = Expr.evalWhile lib model env test last es := by
  induction h generalizing last with
  | nil => rfl
  | cons first _ ih =>
    rw [readWhile, Expr.evalWhile, first]
    simp only [ih]

/-- A node that combines its parts has the value of an expression with the same head and parts of
the same values. -/
private theorem combine_eq_eval {n : Node} {e : Expr} (agrees : n.Agrees e)
    (hr : n.isReference = false) (hi : n.isIterate = false)
    (parts : List.Forall₂ (fun c d => read c = d.eval lib model env) n.children e.parts) :
    n.combine read lib.call = e.eval lib model env := by
  have ofExcept (r : Except EvalError Value) : MonadExcept.ofExcept r = r := by cases r <;> rfl
  cases n with
  | array ids =>
    cases e with
    | array items =>
      have parts : List.Forall₂ _ ids items := parts
      rw [Node.combine, mapM_eq_evalItems parts, Expr.eval]
      cases Expr.evalItems lib model env items <;> rfl
    | _ => cases agrees
  | object fields =>
    cases e with
    | object named =>
      rw [Node.combine, readFields_eq_evalFields agrees parts, Expr.eval]
      cases Expr.evalFields lib model env named <;> rfl
    | _ => cases agrees
  | unary verb a =>
    cases e with
    | unary verb' d =>
      obtain ⟨ha, -⟩ := List.forall₂_cons.mp parts
      cases agrees
      simp only [Node.combine, Expr.eval, ha, ofExcept]
    | _ => cases agrees
  | range a b c =>
    cases e with
    | range stop start step =>
      obtain ⟨ha, parts⟩ := List.forall₂_cons.mp parts
      obtain ⟨hb, parts⟩ := List.forall₂_cons.mp parts
      obtain ⟨hc, -⟩ := List.forall₂_cons.mp parts
      simp only [Node.combine, Expr.eval, ha, hb, hc, ofExcept]
    | _ => cases agrees
  | ternary a b c =>
    cases e with
    | ternary condition consequent alternative =>
      obtain ⟨ha, parts⟩ := List.forall₂_cons.mp parts
      obtain ⟨hb, parts⟩ := List.forall₂_cons.mp parts
      obtain ⟨hc, -⟩ := List.forall₂_cons.mp parts
      simp only [Node.combine, Expr.eval, ha, hb, hc]
    | _ => cases agrees
  | and ids =>
    cases e with
    | and items => exact readWhile_eq_evalWhile _ _ parts
    | _ => cases agrees
  | or ids =>
    cases e with
    | or items => exact readWhile_eq_evalWhile _ _ parts
    | _ => cases agrees
  | binary verb a b =>
    cases e with
    | binary verb' left right =>
      obtain ⟨ha, parts⟩ := List.forall₂_cons.mp parts
      obtain ⟨hb, -⟩ := List.forall₂_cons.mp parts
      cases agrees
      simp only [Node.combine, Expr.eval, ha, hb, ofExcept]
    | _ => cases agrees
  | call function ids =>
    cases e with
    | call function' receiver args =>
      cases agrees
      have parts : List.Forall₂ _ ids (receiver :: args) := parts
      rw [Node.combine, mapM_eq_evalItems parts, Expr.eval,
        Expr.evalItems, bind_assoc]
      simp only [bind_assoc, pure_bind]
    | _ => cases agrees
  | root | literal | val | key | context | get => cases hr
  | iterate => cases hi

end Parts

namespace Pass
variable {p : Program} (hl : p.Lawful)
include hl

/-- References, accesses and iterations have the value of an expression with the same head and parts
of the same values. -/
private theorem value_eq_eval_of_agrees {id : NodeId} {e : Expr} (agrees : (p.node id).Agrees e)
    (parts : List.Forall₂ (fun c d => ∀ env : Env, value p lib model c env =
      d.eval lib model env.locals) (p.node id).children e.parts) (env : Env) :
    value p lib model id env = e.eval lib model env.locals := by
  cases hn : p.node id with
  | root =>
    rw [hn] at agrees
    cases e with
    | root => exact plain_root hn
    | _ => cases agrees
  | literal v =>
    rw [hn] at agrees
    cases agrees
  | val l =>
    rw [hn] at agrees
    cases e with
    | val l' =>
      cases agrees
      exact plain_val hn
    | _ => cases agrees
  | key l =>
    rw [hn] at agrees
    cases e with
    | key l' =>
      cases agrees
      exact plain_key hn
    | _ => cases agrees
  | context l =>
    rw [hn] at agrees
    cases e with
    | context l' =>
      cases agrees
      exact plain_context hn
    | _ => cases agrees
  | get o k =>
    rw [hn] at agrees parts
    cases e with
    | get o' k' =>
      obtain ⟨ho, parts⟩ := List.forall₂_cons.mp parts
      obtain ⟨hk, -⟩ := List.forall₂_cons.mp parts
      rw [value_get hl hn, ho, hk]
      rfl
    | _ => cases agrees
  | iterate verb source lambda body ctx =>
    rw [hn] at agrees parts
    cases e with
    | iterate verb' source' lambda' body' ctx' =>
      obtain ⟨rfl, rfl, hs⟩ := agrees
      obtain ⟨outer, inner⟩ := forall₂_iteration hs parts
      obtain ⟨hsource, hctx⟩ := List.forall₂_cons.mp outer
      have context : contextValue (fun c => value p lib model c env) ctx =
          Expr.evalOption lib model env.locals ctx' := by
        cases ctx <;> cases ctx' <;> cases hs
        · rfl
        · rw [contextValue, (List.forall₂_cons.mp hctx).1 env]
          rfl
      rw [value_iterate hl hn, hsource, context]
      simp only [inner]
      rfl
    | _ => cases agrees
  | _ =>
    have hi : (p.node id).isIterate = false := by simp [hn, Node.isIterate]
    have hr : (p.node id).isReference = false := by simp [hn, Node.isReference]
    rw [value_combine hl hr hi]
    exact combine_eq_eval agrees hr hi (parts.imp fun c d h => h env)

/-- The value of a node is that of the expression which it represents. -/
theorem value_eq_eval {id : NodeId} {e : Expr} (h : Represents p.node Eq id e) (env : Env) :
    value p lib model id env = e.eval lib model env.locals := by
  refine h.induct (motive := fun id e => ∀ env : Env,
    value p lib model id env = e.eval lib model env.locals) ?constant ?shared ?head env
  case constant =>
    rintro id e v _ const literal rfl env
    rw [Expr.eval_of_constant const]
    exact plain_literal literal
  case shared =>
    intro id label e ih env
    exact ih env
  case head =>
    intro id e varies agrees parts env
    exact value_eq_eval_of_agrees hl agrees parts env

end Pass

/-! ### Outputs of a compiled model -/

variable {m : Model} {b : Backend} {p : Program}

private theorem Model.get?_outputs {name : String} {e : Expr}
    (h : Fields.get? name m.definitions = some (.output e)) :
    Fields.get? name m.outputs = some e :=
  Fields.get?_of_mem m.sorted_outputs (mem_outputs.mpr (Fields.mem_of_get? h))

/-- Fields that are related in order are related by name. -/
theorem Fields.get?_of_forall₂ {α β : Type} {R : α → β → Prop} {as : Fields α} {bs : Fields β}
    (h : List.Forall₂ (fun a b => a.1 = b.1 ∧ R a.2 b.2) as bs) {name : String} {b : β}
    (hb : Fields.get? name bs = some b) : ∃ a, Fields.get? name as = some a ∧ R a b := by
  induction h with
  | nil => cases hb
  | @cons f g as bs first _ ih =>
    obtain ⟨k, a⟩ := f
    obtain ⟨k', b'⟩ := g
    obtain ⟨rfl, hr⟩ := first
    rw [Fields.get?] at hb ⊢
    split at hb
    · rename_i hk
      cases hb
      exact ⟨a, if_pos hk, hr⟩
    · rename_i hk
      obtain ⟨a', ha, hr⟩ := ih hb
      exact ⟨a', (if_neg hk).trans ha, hr⟩

private theorem mapM_eq_mapM {α β : Type} {f : α → Except EvalError Value}
    {g : β → Except EvalError Value} {as : List α} {bs : List β}
    (h : List.Forall₂ (fun a b => f a = g b) as bs) : as.mapM f = bs.mapM g := by
  induction h with
  | nil => rfl
  | cons first _ ih => rw [List.mapM_cons, List.mapM_cons, first, ih]

namespace Program

/-- Without doubles the literals of a compiled model have the very values of its constants. -/
theorem represents_of_floatFree (hc : compile m b = .ok p) (hm : m.FloatFree) :
    List.Forall₂ (fun o d => o.1 = d.1 ∧ Represents p.node Eq o.2 d.2) p.outputs m.outputs := by
  have free : Expr.ConstantClass Value.FloatFree :=
    ⟨fun _ h => Value.tame_arr.mpr h, fun _ h => Value.tame_obj.mpr
      ⟨Fields.sorted_ofList _, fun e he => h e (Fields.mem_of_mem_ofList he)⟩⟩
  have holds := holds_of_compile free hm hc
  refine (forall₂_mem holds.outputs).imp fun o d h => ⟨h.2.2.1, ?_⟩
  refine h.2.2.2.refine_rel free (hm d h.2.1) holds.literal fun v w hv hw same => ?_
  rwa [Value.beq_iff, Value.canon_of_tame (fun _ h => h.elim) v hv,
    Value.canon_of_tame (fun _ h => h.elim) w hw] at same

/-- Lowering keeps the meaning of a model without doubles among its literals. Each output, evaluated
in a pass of its own, and all of them in one pass give the values or errors of their expressions. -/
theorem eval_lowered {lib : OrderedLibrary} {doc : OrderedValue} (hc : compile m b = .ok p)
    (hm : m.FloatFree) :
    (∀ name e, Fields.get? name m.definitions = some (.output e) →
      ∃ id, Fields.get? name p.outputs = some id ∧
        Pass.evalOutput p lib doc id = e.eval lib doc []) ∧
    (Pass.run p lib doc).1 = m.outputs.mapM fun o => o.2.eval lib doc [] := by
  let S := Pass.Scene.ofCompiled hc hm.ordered lib.property doc.property
  have outputs := represents_of_floatFree hc hm
  constructor
  · intro name e he
    obtain ⟨id, hid, represents⟩ := Fields.get?_of_forall₂ outputs (Model.get?_outputs he)
    have alone := S.evalOutput_eq (Fields.mem_of_get? hid)
    exact ⟨id, hid, alone.trans (Pass.value_eq_eval S.lawful represents [])⟩
  · refine S.run_eq_plain.trans (mapM_eq_mapM (outputs.imp fun o d h => ?_))
    exact Pass.value_eq_eval S.lawful h.2 []

theorem eval_lowered_counting : ∃ p, compile Pass.counting .simple = .ok p ∧
    (Pass.run p Pass.countLibrary Pass.rows).1 = .ok [.arr [.int 2, .int 0], .int 2,
      .arr [.int 0, .obj [("low", .int 2)]]] := by
  obtain ⟨p, hp⟩ := compile_of_wellScoped (m := Pass.counting) (b := .simple) (by decide)
  refine ⟨p, hp, (eval_lowered hp (by decide)).2.trans ?_⟩
  rfl

end Program

end Recalc
