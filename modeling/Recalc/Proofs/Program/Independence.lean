import Recalc.Proofs.Program.Meaning
import Recalc.Proofs.Program.Pool

/-! The outputs of a model share one table, in which equal literals are one. An output means what it
means alone as long as no scalar of its literals is equal to a different one in an output before it;
otherwise it can mean something else. -/
namespace Recalc

/-- The scalars of the literals of an expression. -/
def Expr.leaves (e : Expr) : List Value := e.literals.flatMap Value.leaves

private theorem Expr.leaves_of_literal {e : Expr} {v : Value} (hv : v ∈ e.literals) :
    v.leaves ⊆ e.leaves := fun _ hx => List.mem_flatMap.mpr ⟨v, hv, hx⟩

private theorem constantClass_leaves (scalars : List Value) :
    Expr.ConstantClass fun v => v.leaves ⊆ scalars where
  array vs h := by
    intro x hx
    rw [Value.leaves_arr] at hx
    obtain ⟨v, hv, hx⟩ := List.mem_flatMap.mp hx
    exact h v hv hx
  object fields h := by
    intro x hx
    rw [Value.leaves_obj] at hx
    obtain ⟨f, hf, hx⟩ := List.mem_flatMap.mp hx
    exact h f (Fields.mem_of_mem_ofList hf) hx

/-! ### Pools side by side -/

namespace Pool
variable {others own : List Value} {p q : Pool} {w : Value} {e : Expr} {es : List Expr}

/-- A pool that started with literals of other outputs, and one that started with nothing, after
the same parts of one output. -/
structure Beside (others own : List Value) (p q : Pool) : Prop where
  kept : ∀ v ∈ q, v ∈ p
  known : ∀ v ∈ p, v.leaves ⊆ others ∨ v ∈ q
  leaves : ∀ v ∈ q, v.leaves ⊆ own

namespace Beside
variable (h : Beside others own p q)
include h

private theorem intern (coherent : Value.Coherent others own) (hw : w.leaves ⊆ own) :
    Beside others own (p.intern w) (q.intern w) := by
  rcases q.mem_or_new w with ⟨v, hv, same⟩ | new
  · rw [intern_of_mem hv same, intern_of_mem (h.kept v hv) same]
    exact h
  · have leaves : ∀ v ∈ q.intern w, v.leaves ⊆ own := by
      intro v hv
      rcases (mem_intern new).mp hv with rfl | hv
      · exact hw
      · exact h.leaves v hv
    rcases p.mem_or_new w with ⟨v, hv, same⟩ | new'
    -- Only a literal of the others can be equal here, and then it is the same.
    · obtain rfl : v = w := by
        rcases h.known v hv with other | had
        · exact Value.eq_of_coherent (coherent.mono other hw) same
        · exact absurd same (by simp [new v had])
      rw [intern_of_mem hv same]
      refine ⟨fun u hu => ?_, fun u hu => ?_, leaves⟩
      · rcases (mem_intern new).mp hu with rfl | hu
        · exact hv
        · exact h.kept u hu
      · exact (h.known u hu).imp_right mem_intern_of_mem
    · refine ⟨fun u hu => ?_, fun u hu => ?_, leaves⟩
      · exact (mem_intern new').mpr (((mem_intern new).mp hu).imp_right (h.kept u))
      · rcases (mem_intern new').mp hu with rfl | hu
        · exact .inr ((mem_intern new).mpr (.inl rfl))
        · exact (h.known u hu).imp_right mem_intern_of_mem

private theorem pick_eq (hw : ∃ v ∈ q, (v == w) = true) : p.pick w = q.pick w :=
  Pool.pick_eq (h.kept _ (pick_mem hw)) (q.pick_beq w)

end Beside

private theorem settled_constants {ws : List Value} (settled : ∀ c ∈ es, q.Settled c)
    (hws : es.mapM Expr.constant? = some ws) : ∀ w ∈ ws, ∃ v ∈ q, (v == w) = true := by
  induction es generalizing ws with
  | nil =>
    cases hws
    simp
  | cons c rest ih =>
    simp only [List.mapM_cons, Option.bind_eq_bind, Option.bind_eq_some_iff, Option.pure_def,
      Option.some.injEq] at hws
    obtain ⟨w, hw, ws, hr, rfl⟩ := hws
    refine List.forall_mem_cons.mpr ⟨(settled c List.mem_cons_self).own hw, ih (fun d hd => ?_) hr⟩
    exact settled d (List.mem_cons_of_mem _ hd)

namespace Beside
variable (h : Beside others own p q)
include h

/-- Over parts whose constants are all there, an expression brings in one value on both sides. -/
theorem brings_eq (settled : ∀ c ∈ e.parts, q.Settled c) (he : ∀ v ∈ e.literals, v.leaves ⊆ own) :
    e.brings p.pick = e.brings q.pick ∧ ∀ w, e.brings q.pick = some w → w.leaves ⊆ own := by
  have picks {ws : List Value} (hws : e.parts.mapM Expr.constant? = some ws) :
      ws.map p.pick = ws.map q.pick ∧ ∀ v ∈ ws.map q.pick, v.leaves ⊆ own := by
    have there := settled_constants settled hws
    refine ⟨List.map_congr_left fun w hw => h.pick_eq (there w hw), ?_⟩
    exact List.forall_mem_map.mpr fun w hw => h.leaves _ (pick_mem (there w hw))
  cases e with
  | literal v =>
    refine ⟨rfl, ?_⟩
    rintro _ ⟨⟩
    exact he v List.mem_cons_self
  | array items =>
    rw [Expr.brings, Expr.brings]
    cases hws : items.mapM Expr.constant? with
    | none => exact ⟨rfl, by simp⟩
    | some ws =>
      obtain ⟨same, leaves⟩ := picks hws
      refine ⟨by simp [same], ?_⟩
      rintro _ ⟨⟩
      exact (constantClass_leaves own).array _ leaves
  | object fields =>
    rw [Expr.brings, Expr.brings]
    cases hws : (fields.map Prod.snd).mapM Expr.constant? with
    | none => exact ⟨rfl, by simp⟩
    | some ws =>
      obtain ⟨same, leaves⟩ := picks hws
      refine ⟨by simp [same], ?_⟩
      rintro _ ⟨⟩
      exact (constantClass_leaves own).object _ fun f hf => leaves f.2 (List.of_mem_zip hf).2
  | _ => exact ⟨rfl, by simp [Expr.brings]⟩

private theorem add (coherent : Value.Coherent others own) (settled : ∀ c ∈ e.parts, q.Settled c)
    (he : ∀ v ∈ e.literals, v.leaves ⊆ own) : Beside others own (p.add e) (q.add e) := by
  obtain ⟨same, leaves⟩ := h.brings_eq settled he
  rw [Pool.add, Pool.add, same]
  cases hb : e.brings q.pick with
  | none => exact h
  | some w => exact h.intern coherent (leaves w hb)

private theorem gather (coherent : Value.Coherent others own)
    (he : ∀ v ∈ e.literals, v.leaves ⊆ own) :
    Beside others own (p.gather e) (q.gather e) := by
  induction e using Expr.inductionOn generalizing p q with
  | step e ih =>
    have parts (es : List Expr) (hes : ∀ c ∈ es, c ∈ e.parts) :
        Beside others own (es.foldl Pool.gather p) (es.foldl Pool.gather q) := by
      induction es generalizing p q with
      | nil => exact h
      | cons c rest ihs =>
        have hc := hes c List.mem_cons_self
        refine ihs (ih c hc h fun v hv => he v (Expr.literals_of_part hc hv)) fun d hd => ?_
        exact hes d (List.mem_cons_of_mem _ hd)
    rw [gather_eq, gather_eq]
    exact (parts e.parts fun _ hc => hc).add coherent settled_parts he

end Beside

end Pool

/-! ### One expression for two nodes -/

/-- The expression with the head of another one and the given parts. -/
def Expr.withExprs : Expr → List Expr → Expr
  | .array _, es => .array es
  | .object fields, es => .object ((fields.map Prod.fst).zip es)
  | .get _ _, [o, k] => .get o k
  | .iterate verb _ lambda _ none, [source, body] => .iterate verb source lambda body none
  | .iterate verb _ lambda _ (some _), [source, ctx, body] =>
    .iterate verb source lambda body (some ctx)
  | .unary verb _, [operand] => .unary verb operand
  | .range _ _ _, [stop, start, step] => .range stop start step
  | .ternary _ _ _, [condition, consequent, alternative] =>
    .ternary condition consequent alternative
  | .and _, es => .and es
  | .or _, es => .or es
  | .binary verb _ _, [left, right] => .binary verb left right
  | .call function _ _, receiver :: args => .call function receiver args
  | e, _ => e

private theorem Expr.withExprs_spec {e : Expr} {es : List Expr} (hl : es.length = e.parts.length)
    (hs : ∀ label d, e ≠ .shared label d)
    (hc : (es.mapM constant?).isSome = (e.parts.mapM constant?).isSome) :
    (e.withExprs es).parts = es ∧ (∀ n : Node, n.Agrees e → n.Agrees (e.withExprs es)) ∧
      (e.withExprs es).constant?.isSome = e.constant?.isSome := by
  cases e with
  | shared label d => exact absurd rfl (hs label d)
  | object fields =>
    have hf : (fields.map Prod.fst).length = es.length := by simpa [parts] using hl.symm
    have snd : ((fields.map Prod.fst).zip es).map Prod.snd = es :=
      List.map_snd_zip (Nat.le_of_eq hf.symm)
    refine ⟨snd, fun n hn => ?_, ?_⟩
    · cases n with
      | object named => exact hn.trans (List.map_fst_zip (Nat.le_of_eq hf)).symm
      | _ => cases hn
    · rw [withExprs, constant?_object, constant?_object, snd, Option.isSome_map, Option.isSome_map]
      exact hc
  | array items =>
    refine ⟨rfl, fun n hn => by cases n <;> exact hn, ?_⟩
    rw [withExprs, constant?_array, constant?_array, Option.isSome_map, Option.isSome_map]
    exact hc
  | and items | or items => exact ⟨rfl, fun n hn => by cases n <;> exact hn, rfl⟩
  | get o k | binary verb left right =>
    obtain ⟨a, b, rfl⟩ := List.length_eq_two.mp hl
    exact ⟨rfl, fun n hn => by cases n <;> exact hn, rfl⟩
  | range stop start step | ternary condition consequent alternative =>
    obtain ⟨a, b, c, rfl⟩ := List.length_eq_three.mp hl
    exact ⟨rfl, fun n hn => by cases n <;> exact hn, rfl⟩
  | unary verb operand =>
    obtain ⟨a, rfl⟩ := List.length_eq_one_iff.mp hl
    exact ⟨rfl, fun n hn => by cases n <;> exact hn, rfl⟩
  | iterate verb source lambda body ctx =>
    cases ctx with
    | none =>
      obtain ⟨a, b, rfl⟩ := List.length_eq_two.mp hl
      exact ⟨rfl, fun n hn => by cases n <;> exact hn, rfl⟩
    | some ctx =>
      obtain ⟨a, b, c, rfl⟩ := List.length_eq_three.mp hl
      exact ⟨rfl, fun n hn => by cases n <;> exact hn, rfl⟩
  | call function receiver args =>
    obtain ⟨a, as, rfl⟩ := List.exists_cons_of_length_eq_add_one hl
    exact ⟨rfl, fun n hn => by cases n <;> exact hn, rfl⟩
  | _ =>
    rw [List.length_eq_zero_iff.mp hl]
    exact ⟨rfl, fun n hn => hn, rfl⟩

namespace Represents
variable {node node' : NodeId → Node} {j i : NodeId} {e : Expr}

private theorem isSome_mapM {ds es : List Expr}
    (h : List.Forall₂ (fun d e => d.constant?.isSome = e.constant?.isSome) ds es) :
    (ds.mapM Expr.constant?).isSome = (es.mapM Expr.constant?).isSome := by
  induction h with
  | nil => rfl
  | @cons d e ds es first _ ih =>
    rw [List.mapM_cons, List.mapM_cons]
    generalize d.constant? = v, e.constant? = w at first ⊢
    generalize ds.mapM Expr.constant? = vs, es.mapM Expr.constant? = ws at ih ⊢
    cases v <;> cases w <;> cases first
    · rfl
    · cases vs <;> cases ws <;> cases ih <;> rfl

/-- Nodes of two tables represent one expression exactly if they represent one up to equal values,
and equal literals of the two tables are the same. -/
theorem exact_common
    (agree : ∀ j i v w, node j = .literal v → node' i = .literal w → (v == w) = true → v = w)
    (h : Represents node (fun v w => (v == w) = true) j e)
    (h' : Represents node' (fun v w => (v == w) = true) i e) :
    ∃ d, Represents node Eq j d ∧ Represents node' Eq i d ∧
      d.constant?.isSome = e.constant?.isSome := by
  induction e using Expr.inductionOn generalizing j i with
  | step e ih =>
    have parts {js is : List NodeId} {es : List Expr} (hes : ∀ c ∈ es, c ∈ e.parts)
        (hj : List.Forall₂ (Represents node fun v w => (v == w) = true) js es)
        (hi : List.Forall₂ (Represents node' fun v w => (v == w) = true) is es) :
        ∃ ds, List.Forall₂ (Represents node Eq) js ds ∧ List.Forall₂ (Represents node' Eq) is ds ∧
          List.Forall₂ (fun d e => d.constant?.isSome = e.constant?.isSome) ds es := by
      induction hj generalizing is with
      | nil =>
        cases hi
        exact ⟨[], .nil, .nil, .nil⟩
      | @cons j c js es first _ ihs =>
        cases hi with
        | cons first' rest' =>
          obtain ⟨d, hd, hd', same⟩ := ih c (hes c List.mem_cons_self) first first'
          obtain ⟨ds, hds, hds', sames⟩ := ihs (fun c hc => hes c (List.mem_cons_of_mem _ hc)) rest'
          exact ⟨d :: ds, .cons hd hds, .cons hd' hds', .cons same sames⟩
    cases hw : e.constant? with
    | some w =>
      obtain ⟨v, hv, same⟩ := h.exists_literal hw
      obtain ⟨v', hv', same'⟩ := h'.exists_literal hw
      obtain rfl := agree j i v v' hv hv' (PartialEquivBEq.trans same (PartialEquivBEq.symm same'))
      exact ⟨.literal v, .constant rfl hv rfl, .constant rfl hv' rfl, rfl⟩
    | none =>
      cases h with
      | constant const literal same => simp [hw] at const
      | shared inner =>
        cases h' with
        | constant const literal same => simp [hw] at const
        | shared inner' =>
          obtain ⟨d, hd, hd', same⟩ := ih _ List.mem_cons_self inner inner'
          exact ⟨d, hd, hd', same.trans (congrArg Option.isSome hw)⟩
        | head varies agrees parts =>
          generalize node' i = n at agrees
          cases n <;> cases agrees
      | head varies agrees children =>
        cases h' with
        | constant const literal same => simp [hw] at const
        | shared inner' =>
          generalize node j = n at agrees
          cases n <;> cases agrees
        | head varies' agrees' children' =>
          obtain ⟨ds, hds, hds', same⟩ := parts (fun _ hc => hc) children children'
          have hs : ∀ label d, e ≠ .shared label d := by
            rintro label d rfl
            generalize node j = n at agrees
            cases n <;> cases agrees
          obtain ⟨hp, ha, hc⟩ := Expr.withExprs_spec same.length_eq hs (isSome_mapM same)
          have varies : (e.withExprs ds).constant? = none := by simpa [hw] using hc
          refine ⟨e.withExprs ds, .head varies (ha _ agrees) ?_, .head varies (ha _ agrees') ?_, ?_⟩
          · rw [hp]
            exact hds
          · rw [hp]
            exact hds'
          · rw [varies]

end Represents

/-! ### Outputs one after another -/

/-- The model with one definition. -/
def Model.single (name : String) (d : Definition) : Model :=
  ⟨[(name, d)], List.pairwise_singleton _ _⟩

namespace Program
open Lowering

variable {t u s : NodeTable} {pool : Pool} {name : String} {e : Expr} {id j i : NodeId}
  {others : List Value}

private theorem expr_of_lowerOutput (run : lowerOutput name e t = .ok (id, u)) :
    expr name e t = .ok (id, u) := by
  obtain ⟨j, v, lowered, run⟩ := bind_eq_ok.mp run
  rw [get_bind] at run
  split at run
  · cases run
  · cases run
    exact lowered

private theorem lowerOutputs_append (as bs : List (String × Definition)) :
    lowerOutputs (as ++ bs) =
      lowerOutputs as >>= fun xs => lowerOutputs bs >>= fun ys => return xs ++ ys := by
  induction as with
  | nil => simp [lowerOutputs]
  | cons first rest ih =>
    obtain ⟨name, d⟩ := first
    cases d <;> simp [lowerOutputs, ih]

/-- An output is lowered after those before it, and before the rest. -/
theorem lowerOutputs_split {before after : List (String × Definition)}
    {outputs : List (String × NodeId)}
    (run : lowerOutputs (before ++ (name, .output e) :: after) t = .ok (outputs, u)) :
    ∃ earlier later v id w, lowerOutputs before t = .ok (earlier, v) ∧
      lowerOutput name e v = .ok (id, w) ∧ lowerOutputs after w = .ok (later, u) ∧
      (name, id) ∈ outputs := by
  rw [lowerOutputs_append] at run
  obtain ⟨earlier, v, hearlier, run⟩ := bind_eq_ok.mp run
  obtain ⟨rest, u', hrest, run⟩ := bind_eq_ok.mp run
  obtain ⟨rfl, rfl⟩ := pure_eq_ok.mp run
  obtain ⟨id, w, here, run⟩ := bind_eq_ok.mp hrest
  obtain ⟨later, u'', hlater, run⟩ := bind_eq_ok.mp run
  obtain ⟨rfl, rfl⟩ := pure_eq_ok.mp run
  exact ⟨earlier, later, v, id, w, hearlier, here, hlater, by simp⟩

private theorem lowerOutputs_follows {definitions : List (String × Definition)}
    {outputs : List (String × NodeId)} (ht : t.Sound fun _ => True) (h : t.Follows pool)
    (run : lowerOutputs definitions t = .ok (outputs, u)) : ∃ pool, u.Follows pool := by
  induction definitions generalizing t pool outputs with
  | nil =>
    cases run
    exact ⟨pool, h⟩
  | cons first rest ih =>
    obtain ⟨name, d⟩ := first
    cases d with
    | output e =>
      obtain ⟨id, v, lowered, run⟩ := bind_eq_ok.mp run
      obtain ⟨later, w, lowered', run⟩ := bind_eq_ok.mp run
      cases run
      have first := (lowerOutput_outcome Expr.constantClass_true (by simp) ht).lowered lowered
      exact ih first.sound (expr_follows name e _ _ _ _ ht h (expr_of_lowerOutput lowered)) lowered'
    | setter path => exact ih ht h run
    | splice path => exact ih ht h run

/-- Lowered after other outputs or alone, an output gets nodes that represent one expression. -/
theorem exact_of_lowerOutput (coherent : Value.Coherent others e.leaves)
    (ht : t.Sound fun v => v.leaves ⊆ others) (h : t.Follows pool)
    (run : lowerOutput name e t = .ok (j, u)) (alone : lowerOutput name e .empty = .ok (i, s)) :
    ∃ d, Represents u.node Eq j d ∧ Represents s.node Eq i d := by
  have left : t.Sound fun _ => True := ht.mono fun _ _ => trivial
  have right : NodeTable.Sound (fun _ => True) .empty := NodeTable.sound_empty
  have follows := expr_follows name e _ _ _ _ left h (expr_of_lowerOutput run)
  have follows' :=
    expr_follows name e _ _ _ _ right NodeTable.follows_empty (expr_of_lowerOutput alone)
  have start : Pool.Beside others e.leaves pool .empty := by
    refine ⟨fun v hv => absurd hv Pool.not_mem_empty, fun v hv => ?_,
      fun v hv => absurd hv Pool.not_mem_empty⟩
    obtain ⟨k, hk⟩ := (h.literal v).mpr hv
    exact .inl (ht.literal k v hk)
  have beside := start.gather coherent fun v => Expr.leaves_of_literal
  have lowered := (lowerOutput_outcome Expr.constantClass_true (by simp) left).lowered run
  have lowered' := (lowerOutput_outcome Expr.constantClass_true (by simp) right).lowered alone
  have agree (j i : NodeId) (v w : Value) (hv : u.node j = .literal v) (hw : s.node i = .literal w)
      (same : (v == w) = true) : v = w := by
    obtain ⟨k, hk⟩ := (follows.literal w).mpr (beside.kept w ((follows'.literal w).mp ⟨i, hw⟩))
    exact lowered.sound.unique j k v w hv hk same
  obtain ⟨d, hd, hd', -⟩ := Represents.exact_common agree
    (List.forall₂_cons.mp lowered.represents).1 (List.forall₂_cons.mp lowered'.represents).1
  exact ⟨d, hd, hd'⟩

variable {m : Model} {b : Backend} {p q : Program}

private theorem lowerOutputs_of_compile (h : compile m b = .ok p) :
    ∃ u, lowerOutputs m.definitions .empty = .ok (p.outputs, u) ∧ p.node = u.node := by
  obtain ⟨r, hr, h⟩ := except_bind_eq_ok.mp h
  cases h
  exact ⟨r.2, hr, rfl⟩

private theorem sorted_of_compile (h : compile m b = .ok p) : Fields.Sorted p.outputs := by
  have holds := holds_of_compile Expr.constantClass_true (by simp) h
  have names : p.outputs.map Prod.fst = m.outputs.map Prod.fst := by
    rw [← List.forall₂_eq_eq_eq, List.forall₂_map_left_iff, List.forall₂_map_right_iff]
    exact holds.outputs.imp fun _ _ ho => ho.1
  have sorted := m.sorted_outputs
  rw [Fields.Sorted, ← List.pairwise_map (f := Prod.fst) (R := (· < ·))] at sorted ⊢
  rwa [names]

/-- The nodes of an output, in the whole program and alone, represent one expression. -/
theorem exact_of_compile (hp : compile m b = .ok p) (he : (name, .output e) ∈ m.definitions)
    (coherent : ∀ other d, (other, .output d) ∈ m.definitions → other < name →
      Value.Coherent d.leaves e.leaves) (hq : compile (.single name (.output e)) b = .ok q) :
    ∃ id id' d, (name, id) ∈ p.outputs ∧ (name, id') ∈ q.outputs ∧ Represents p.node Eq id d ∧
      Represents q.node Eq id' d := by
  obtain ⟨before, after, split⟩ := List.append_of_mem he
  obtain ⟨u, run, node⟩ := lowerOutputs_of_compile hp
  obtain ⟨s, alone, node'⟩ := lowerOutputs_of_compile hq
  rw [split] at run
  obtain ⟨earlier, later, t, id, v, lowered, here, lowered', hid⟩ := lowerOutputs_split run
  obtain ⟨_, _, _, id', _, start, here', rest, hid'⟩ :=
    lowerOutputs_split (show lowerOutputs ([] ++ (name, .output e) :: []) _ = _ from alone)
  cases start
  cases rest
  -- What the outputs before this one leave behind.
  let others := (Definition.outputs before).flatMap fun o => o.2.leaves
  have sound : t.Sound fun v => v.leaves ⊆ others :=
    ((lowerOutputs_outcome (constantClass_leaves others) before NodeTable.sound_empty
      fun o ho v hv x hx => List.mem_flatMap.mpr ⟨o, ho, Expr.leaves_of_literal hv hx⟩).lowered
        lowered).sound
  obtain ⟨pool, follows⟩ :=
    lowerOutputs_follows NodeTable.sound_empty NodeTable.follows_empty lowered
  have apart : Value.Coherent others e.leaves := by
    intro v hv
    obtain ⟨o, ho, hv⟩ := List.mem_flatMap.mp hv
    have mem := Definition.mem_outputs.mp ho
    have sorted := m.sorted
    rw [split] at sorted
    refine coherent o.1 o.2 (split ▸ List.mem_append_left _ mem) ?_ v hv
    exact (List.pairwise_append.mp sorted).2.2 _ mem _ List.mem_cons_self
  obtain ⟨d, hd, hd'⟩ := exact_of_lowerOutput apart sound follows here here'
  -- The outputs after it change no node.
  have lowers := (lowerOutput_lowers sound.lawful here).1
  have extend := (lowerOutputs_lowers after lowers.lawful lowered').1.extend
  refine ⟨id, id', d, hid, hid', ?_, ?_⟩
  · rw [node]
    exact extend.represents lowers.lawful (lowers.lt id List.mem_cons_self) hd
  · rw [node']
    exact hd'

/-- An output evaluates to what it evaluates to alone, the value or the error, as long as no scalar
of its literals is equal to a different scalar in an output before it. -/
theorem outputs_independent {m : OrderedModel} (lib : OrderedLibrary) (doc : OrderedValue)
    (hp : compile m b = .ok p) (he : (name, .output e) ∈ m.val.definitions)
    (coherent : ∀ other d, (other, .output d) ∈ m.val.definitions → other < name →
      Value.Coherent d.leaves e.leaves) :
    ∃ q id id', compile (.single name (.output e)) b = .ok q ∧ Fields.get? name p.outputs = some id ∧
      Fields.get? name q.outputs = some id' ∧
      Pass.evalOutput p lib doc id = Pass.evalOutput q lib doc id' := by
  have mem : (name, e) ∈ m.val.outputs := Model.mem_outputs.mpr he
  obtain ⟨q, hq⟩ : ∃ q, compile (.single name (.output e)) b = .ok q :=
    compile_of_wellScoped (List.forall_mem_singleton.mpr (wellScoped_of_compile hp _ mem))
  have ordered : Model.Ordered (.single name (.output e)) :=
    List.forall_mem_singleton.mpr (m.property _ mem)
  obtain ⟨id, id', d, hid, hid', represents, represents'⟩ :=
    exact_of_compile hp he coherent hq
  let whole := Pass.Scene.ofCompiled hp m.property lib.property doc.property
  let alone := Pass.Scene.ofCompiled hq ordered lib.property doc.property
  refine ⟨q, id, id', hq, Fields.get?_of_mem (sorted_of_compile hp) hid,
    Fields.get?_of_mem (sorted_of_compile hq) hid', ?_⟩
  calc Pass.evalOutput p lib doc id
      = Pass.value p lib doc id [] := whole.evalOutput_eq hid
    _ = d.eval lib doc [] := Pass.value_eq_eval whole.lawful represents []
    _ = Pass.value q lib doc id' [] := (Pass.value_eq_eval alone.lawful represents' []).symm
    _ = Pass.evalOutput q lib doc id' := (alone.evalOutput_eq hid').symm

/-! ### Outputs with equal literals -/

def below : Expr :=
  .shared 0 (.binary .lt (.literal (.int 2)) (.get .root (.literal (.str "x"))))

def mixture : Expr := .array [.literal (.int 1), .literal (.float (.ofNat 1)), below]

/-- Two outputs with a shared part. The second has two literals of its own that are equal, and not
the same. -/
def mixed : OrderedModel :=
  ⟨⟨[("below", .output below), ("mixture", .output mixture)], by decide⟩, by decide⟩

/-- An object with one number. -/
def measured (n : Int) : OrderedValue :=
  ⟨.obj [("x", .int n)], Value.tame_obj.mpr ⟨List.pairwise_singleton _ _, by simp⟩⟩

theorem outputs_independent_mixed : ∃ p q id id', compile mixed .simple = .ok p ∧
    compile (.single "mixture" (.output mixture)) .simple = .ok q ∧
    Fields.get? "mixture" p.outputs = some id ∧ Fields.get? "mixture" q.outputs = some id' ∧
    Pass.evalOutput p .empty (measured 3) id = Pass.evalOutput q .empty (measured 3) id' := by
  obtain ⟨p, hp⟩ := compile_of_wellScoped (m := mixed) (b := .simple) (by decide)
  have coherent : Value.Coherent below.leaves mixture.leaves := by
    change Value.Coherent [.int 2, .str "x"] [.int 1, .float (.ofNat 1), .int 2, .str "x"]
    intro v hv w hw same
    simp only [List.mem_cons, List.not_mem_nil, or_false] at hv hw
    rcases hv with rfl | rfl <;> rcases hw with rfl | rfl | rfl | rfl
    all_goals first | rfl | exact absurd same (by decide +kernel)
  obtain ⟨q, id, id', hq, hid, hid', same⟩ := outputs_independent .empty (measured 3) hp
    (List.mem_cons_of_mem _ List.mem_cons_self) fun other d ho hlt => by
      rcases List.mem_cons.mp ho with ho | ho
      · cases ho
        exact coherent
      · cases List.mem_singleton.mp ho
        exact absurd hlt (String.lt_irrefl _)
  exact ⟨p, q, id, id', hp, hq, hid, hid', same⟩

def exceeds : Expr :=
  .binary .lt (.literal (.int 9007199254740992)) (.get .root (.literal (.str "x")))

/-- Two outputs. The literal of the first is a double, and equal to the integer of the second. -/
def limited : OrderedModel :=
  ⟨⟨[("limit", .output (.literal (.float (.ofNat 9007199254740992)))), ("over", .output exceeds)],
    by decide⟩, by decide⟩

/-- An output can evaluate to something else than it does alone: a double before it takes the place
of an equal integer, and comparisons tell them apart. -/
theorem outputs_interfere : ¬ ∀ (m : OrderedModel) b p q (lib : OrderedLibrary)
    (doc : OrderedValue) name e id id', compile m b = .ok p →
    (name, .output e) ∈ m.val.definitions → compile (.single name (.output e)) b = .ok q →
    Fields.get? name p.outputs = some id → Fields.get? name q.outputs = some id' →
    ∀ v, Pass.evalOutput p lib doc id = .ok v →
      ∃ w, Pass.evalOutput q lib doc id' = .ok w ∧ (v == w) = true := by
  intro agree
  have shows (m : Model) (r : Bool) (h : (compile m .simple).toOption.any (fun p =>
      (Fields.get? "over" p.outputs).any fun id =>
        (Pass.evalOutput p .empty (measured 9007199254740993) id).toOption.any
          (· == .bool r)) = true) : ∃ p id v, compile m .simple = .ok p ∧
        Fields.get? "over" p.outputs = some id ∧
        Pass.evalOutput p .empty (measured 9007199254740993) id = .ok v ∧
        (v == .bool r) = true := by
    obtain ⟨p, hp, h⟩ := exists_of_toOption_any h
    obtain ⟨id, hid, h⟩ := (Option.any_eq_true _ _).mp h
    obtain ⟨v, hv, h⟩ := exists_of_toOption_any h
    exact ⟨p, id, v, hp, hid, hv, h⟩
  obtain ⟨p, id, v, hp, hid, hv, no⟩ := shows limited false (by decide +kernel)
  obtain ⟨q, id', w, hq, hid', hw, yes⟩ :=
    shows (.single "over" (.output exceeds)) true (by decide +kernel)
  obtain ⟨u, hu, same⟩ := agree limited .simple p q .empty (measured 9007199254740993) "over" exceeds
    id id' hp (List.mem_cons_of_mem _ List.mem_cons_self) hq hid hid' v hv
  obtain rfl : w = u := Except.ok.inj (hw.symm.trans hu)
  have impossible : (Value.bool false == .bool true) = true :=
    PartialEquivBEq.trans (PartialEquivBEq.symm no) (PartialEquivBEq.trans same yes)
  exact absurd impossible (by decide)

end Program

end Recalc
