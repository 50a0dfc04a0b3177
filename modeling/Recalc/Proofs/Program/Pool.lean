import Recalc.Proofs.Program.Lowering

/-! Which literals a table has after lowering an expression, by those that it had before. Expressions
that were lowered once bring in no new ones, so that taking the node of a shared expression and
lowering it again come to the same. -/
namespace Recalc

/-- Values of literals, no two of them equal. -/
structure Pool where
  values : List Value
  unique : ∀ v ∈ values, ∀ w ∈ values, (v == w) = true → v = w

namespace Pool
variable {pool other : Pool} {v w : Value}

instance : Membership Value Pool := ⟨fun pool v => v ∈ pool.values⟩

def empty : Pool := ⟨[], by simp⟩

theorem not_mem_empty : v ∉ empty := List.not_mem_nil

private theorem eq_of_beq (hv : v ∈ pool) (hw : w ∈ pool) (h : (v == w) = true) : v = w :=
  pool.unique v hv w hw h

/-- A pool with a value, unless an equal one is there. -/
def intern (pool : Pool) (w : Value) : Pool :=
  if h : ∃ v ∈ pool.values, (v == w) = true then pool
  else ⟨w :: pool.values, by
    have differs {u : Value} (hu : u ∈ pool.values) : ¬ (u == w) = true :=
      fun same => h ⟨u, hu, same⟩
    intro u hu v hv same
    rcases List.mem_cons.mp hu with hu | hu <;> rcases List.mem_cons.mp hv with hv | hv
    · exact hu.trans hv.symm
    · exact absurd (PartialEquivBEq.symm (hu ▸ same)) (differs hv)
    · exact absurd (hv ▸ same) (differs hu)
    · exact pool.unique u hu v hv same⟩

theorem intern_of_mem (hv : v ∈ pool) (h : (v == w) = true) : pool.intern w = pool :=
  dif_pos ⟨v, hv, h⟩

theorem mem_intern (h : ∀ v ∈ pool, (v == w) = false) {u : Value} :
    u ∈ pool.intern w ↔ u = w ∨ u ∈ pool := by
  have new : ¬ ∃ v ∈ pool.values, (v == w) = true := by
    rintro ⟨v, hv, same⟩
    simp [h v hv] at same
  rw [intern, dif_neg new]
  exact List.mem_cons

theorem mem_or_new (pool : Pool) (w : Value) :
    (∃ v ∈ pool, (v == w) = true) ∨ ∀ v ∈ pool, (v == w) = false := by
  by_cases h : ∃ v ∈ pool, (v == w) = true
  · exact .inl h
  · exact .inr fun v hv => by simpa using fun same => h ⟨v, hv, same⟩

theorem mem_intern_of_mem (hv : v ∈ pool) : v ∈ pool.intern w := by
  rcases pool.mem_or_new w with ⟨u, hu, same⟩ | new
  · rwa [intern_of_mem hu same]
  · exact (mem_intern new).mpr (.inr hv)

private theorem exists_mem_intern (pool : Pool) (w : Value) :
    ∃ v ∈ pool.intern w, (v == w) = true := by
  rcases pool.mem_or_new w with ⟨u, hu, same⟩ | new
  · exact ⟨u, mem_intern_of_mem hu, same⟩
  · exact ⟨w, (mem_intern new).mpr (.inl rfl), ReflBEq.rfl⟩

/-- The value that stands for another: an equal one of the pool, or itself. -/
def pick (pool : Pool) (w : Value) : Value := (pool.values.find? (· == w)).getD w

theorem pick_beq (pool : Pool) (w : Value) : (pool.pick w == w) = true := by
  rw [pick]
  cases h : pool.values.find? (· == w) with
  | none => exact ReflBEq.rfl
  | some v => simpa using List.find?_some h

theorem pick_mem (h : ∃ v ∈ pool, (v == w) = true) : pool.pick w ∈ pool := by
  rw [pick]
  cases hf : pool.values.find? (· == w) with
  | none =>
    obtain ⟨v, hv, same⟩ := h
    exact absurd same (List.find?_eq_none.mp hf v hv)
  | some v => exact List.mem_of_find?_eq_some hf

theorem pick_eq (hv : v ∈ pool) (h : (v == w) = true) : pool.pick w = v := by
  refine eq_of_beq (pick_mem ⟨v, hv, h⟩) hv ?_
  exact PartialEquivBEq.trans (pool.pick_beq w) (PartialEquivBEq.symm h)

end Pool

namespace Expr

/-- The value that an expression itself brings in, with the values that stand for its parts. -/
def brings (pick : Value → Value) : Expr → Option Value
  | literal w => some w
  | array items => (items.mapM constant?).map fun ws => .arr (ws.map pick)
  | object fields => ((fields.map Prod.snd).mapM constant?).map fun ws =>
    .obj (Fields.ofList ((fields.map Prod.fst).zip (ws.map pick)))
  | _ => none

end Expr

/-- The literals after assembling the node of an expression. -/
def Pool.add (pool : Pool) (e : Expr) : Pool :=
  match e.brings pool.pick with
  | some w => pool.intern w
  | none => pool

/-- The literals after lowering an expression. -/
def Pool.gather (pool : Pool) (e : Expr) : Pool :=
  (e.parts.attach.foldl (fun pool c => pool.gather c.1) pool).add e
termination_by e
decreasing_by exact Expr.sizeOf_part c.2

theorem Pool.gather_eq (pool : Pool) (e : Expr) :
    pool.gather e = (e.parts.foldl Pool.gather pool).add e := by
  rw [gather, List.foldl_attach (f := Pool.gather)]

private theorem Pool.gather_shared (pool : Pool) (label : Nat) (e : Expr) :
    pool.gather (.shared label e) = pool.gather e := by
  rw [gather_eq]
  rfl

namespace Pool
variable {pool other : Pool} {v w : Value} {e : Expr} {es : List Expr}

/-! ### Pools grow -/

private theorem mem_add (hv : v ∈ pool) : v ∈ pool.add e := by
  rw [add]
  split
  · exact mem_intern_of_mem hv
  · exact hv

private theorem mem_foldl (h : ∀ e ∈ es, ∀ pool : Pool, v ∈ pool → v ∈ pool.gather e)
    (hv : v ∈ pool) : v ∈ es.foldl gather pool := by
  induction es generalizing pool with
  | nil => exact hv
  | cons e rest ih =>
    exact ih (fun d hd => h d (List.mem_cons_of_mem _ hd)) (h e List.mem_cons_self pool hv)

private theorem mem_gather (hv : v ∈ pool) : v ∈ pool.gather e := by
  induction e using Expr.inductionOn generalizing pool with
  | step e ih =>
    rw [gather_eq]
    exact mem_add (mem_foldl (fun c hc pool hv => ih c hc hv) hv)

/-! ### Expressions whose constants are all in a pool -/

/-- Every constant in the expression has an equal value in the pool. -/
inductive Settled (pool : Pool) : Expr → Prop
  | intro {e : Expr} (own : ∀ w, e.constant? = some w → ∃ v ∈ pool, (v == w) = true)
    (parts : ∀ c ∈ e.parts, Settled pool c) : Settled pool e

theorem Settled.mono (h : Settled pool e) (sub : ∀ v ∈ pool, v ∈ other) : Settled other e := by
  induction h with
  | intro own _ ih =>
    refine .intro (fun w hw => ?_) ih
    obtain ⟨v, hv, same⟩ := own w hw
    exact ⟨v, sub v hv, same⟩

theorem Settled.own (h : Settled pool e) (hw : e.constant? = some w) :
    ∃ v ∈ pool, (v == w) = true := by
  cases h with
  | intro own _ => exact own w hw

/-- What an expression brings in is equal to its value. -/
theorem brings_cases (pool : Pool) (hw : e.constant? = some w) :
    (∃ label d, e = .shared label d) ∨
      ∃ v, e.brings pool.pick = some v ∧ (v == w) = true := by
  have picks (ws : List Value) :
      List.Forall₂ (fun v w => (v == w) = true) (ws.map pool.pick) ws := by
    rw [List.forall₂_map_left_iff, List.forall₂_same]
    exact fun w _ => pool.pick_beq w
  cases e with
  | shared label d => exact .inl ⟨label, d, rfl⟩
  | literal v =>
    cases hw
    exact .inr ⟨_, rfl, ReflBEq.rfl⟩
  | array items =>
    rw [Expr.constant?_array] at hw
    obtain ⟨ws, hws, rfl⟩ := Option.map_eq_some_iff.mp hw
    refine .inr ⟨_, by rw [Expr.brings, hws]; rfl, Value.beq_arr (picks ws)⟩
  | object fields =>
    rw [Expr.constant?_object] at hw
    obtain ⟨ws, hws, rfl⟩ := Option.map_eq_some_iff.mp hw
    refine .inr ⟨_, by rw [Expr.brings, hws]; rfl, Value.beq_obj_ofList _ (picks ws)⟩
  | _ => cases hw

private theorem brings_of_varies (pick : Value → Value) (h : e.constant? = none) :
    e.brings pick = none := by
  cases e with
  | literal v => cases h
  | array items =>
    rw [Expr.constant?_array, Option.map_eq_none_iff] at h
    rw [Expr.brings, h]
    rfl
  | object fields =>
    rw [Expr.constant?_object, Option.map_eq_none_iff] at h
    rw [Expr.brings, h]
    rfl
  | _ => rfl

private theorem settled_foldl (h : ∀ e ∈ es, ∀ pool : Pool, Settled (pool.gather e) e) :
    ∀ e ∈ es, Settled (es.foldl gather pool) e := by
  induction es generalizing pool with
  | nil => simp
  | cons e rest ih =>
    rw [List.foldl_cons]
    refine List.forall_mem_cons.mpr ⟨(h e List.mem_cons_self pool).mono fun v hv => ?_, ?_⟩
    · exact mem_foldl (fun d _ pool hv => mem_gather hv) hv
    · exact ih fun d hd => h d (List.mem_cons_of_mem _ hd)

/-- After lowering an expression all its constants are there. -/
theorem settled_gather (pool : Pool) (e : Expr) : Settled (pool.gather e) e := by
  induction e using Expr.inductionOn generalizing pool with
  | step e ih =>
    have parts : ∀ c ∈ e.parts, Settled (e.parts.foldl gather pool) c := settled_foldl ih
    rw [gather_eq]
    refine .intro (fun w hw => ?_) fun c hc => (parts c hc).mono fun v hv => mem_add hv
    rcases (e.parts.foldl gather pool).brings_cases hw with ⟨label, d, rfl⟩ | ⟨v, hv, same⟩
    · obtain ⟨v, hv, same⟩ := (parts d List.mem_cons_self).own hw
      exact ⟨v, mem_add hv, same⟩
    · rw [add, hv]
      obtain ⟨u, hu, equal⟩ := exists_mem_intern (e.parts.foldl gather pool) v
      exact ⟨u, hu, PartialEquivBEq.trans equal same⟩

theorem settled_parts : ∀ c ∈ e.parts, Settled (e.parts.foldl gather pool) c :=
  settled_foldl fun c _ pool => settled_gather pool c

/-- Lowering an expression whose constants are all there brings in nothing. -/
theorem gather_of_settled (h : Settled pool e) : pool.gather e = pool := by
  induction h with
  | @intro e own _ ih =>
    have parts (es : List Expr) (hs : ∀ c ∈ es, pool.gather c = pool) :
        es.foldl gather pool = pool := by
      induction es with
      | nil => rfl
      | cons c rest ihs =>
        rw [List.foldl_cons, hs c List.mem_cons_self]
        exact ihs fun d hd => hs d (List.mem_cons_of_mem _ hd)
    rw [gather_eq, parts e.parts ih, add]
    cases hw : e.constant? with
    | none => rw [brings_of_varies _ hw]
    | some w =>
      rcases pool.brings_cases hw with ⟨label, d, rfl⟩ | ⟨v, hv, same⟩
      · rfl
      · obtain ⟨u, hu, equal⟩ := own w hw
        rw [hv]
        exact intern_of_mem hu (PartialEquivBEq.trans equal (PartialEquivBEq.symm same))

end Pool

/-! ### Tables and their pools -/

namespace NodeTable
variable {t : NodeTable} {pool : Pool} {n : Node} {id : NodeId} {v w : Value} {e : Expr}

def HasLiteral (t : NodeTable) (v : Value) : Prop := ∃ id, t.node id = .literal v

private theorem hasLiteral_push : (t.push n).HasLiteral v ↔ n = .literal v ∨ t.HasLiteral v := by
  constructor
  · rintro ⟨id, h⟩
    rw [node_push] at h
    split at h
    · exact .inl h
    · exact .inr ⟨id, h⟩
  · rintro (h | ⟨id, h⟩)
    · refine ⟨t.entries.size, ?_⟩
      rw [node_push, if_pos rfl, h]
    · refine ⟨id, ?_⟩
      rw [node_push, if_neg (Nat.ne_of_lt (lt_size_of_literal h)), h]

/-- The literals of a table are those of the pool, and with them all constants of the expressions
that it shares. -/
structure Follows (t : NodeTable) (pool : Pool) : Prop where
  literal : ∀ v, t.HasLiteral v ↔ v ∈ pool
  shared : ∀ label e id, t.shared.get? label = some (e, id) → pool.Settled e

theorem follows_empty : Follows empty .empty where
  literal v := by
    refine ⟨?_, fun h => absurd h Pool.not_mem_empty⟩
    rintro ⟨id, h⟩
    rw [node_of_size_le (Nat.zero_le id)] at h
    cases h
  shared label e id h := by simp [empty] at h

namespace Follows
variable (h : t.Follows pool)
include h

private theorem internHead (hn : ∀ v, n ≠ .literal v) : (t.intern n).2.Follows pool := by
  rcases intern_cases t n with ⟨id, same, -⟩ | ⟨same, -⟩
  · rwa [same]
  · rw [same]
    refine ⟨fun v => ?_, h.shared⟩
    rw [hasLiteral_push, or_iff_right (hn v), h.literal]

private theorem internLiteral (w : Value) : (t.intern (.literal w)).2.Follows (pool.intern w) := by
  rcases intern_cases t (.literal w) with ⟨id, same, equal⟩ | ⟨same, new⟩
  · obtain ⟨v, hv, equal⟩ : ∃ v, t.node id = .literal v ∧ (v == w) = true := by
      rcases Node.beq_cases equal with hn | ⟨v, _, hv, ⟨⟩, equal⟩
      · exact ⟨w, hn, ReflBEq.rfl⟩
      · exact ⟨v, hv, equal⟩
    rwa [same, Pool.intern_of_mem ((h.literal v).mp ⟨id, hv⟩) equal]
  · have differs : ∀ v ∈ pool, (v == w) = false := by
      intro v hv
      obtain ⟨id, hid⟩ := (h.literal v).mpr hv
      have differs := new id (lt_size_of_literal hid)
      rw [hid] at differs
      exact differs
    rw [same]
    refine ⟨fun v => ?_, fun label e id hs => ?_⟩
    · rw [hasLiteral_push, Pool.mem_intern differs, h.literal, Node.literal.injEq, eq_comm]
    · exact (h.shared label e id hs).mono fun v => Pool.mem_intern_of_mem

/-- The literals of nodes are the values that stand for the constants which they represent. -/
theorem literals?_eq {ids : List NodeId} {es : List Expr}
    (represents : List.Forall₂ t.Represents ids es) :
    t.literals? ids = (es.mapM Expr.constant?).map (List.map pool.pick) := by
  change ids.mapM (fun id => (t.node id).literal?) = _
  induction represents with
  | nil => rfl
  | @cons id e ids es first _ ih =>
    have here : (t.node id).literal? = e.constant?.map pool.pick := by
      cases hw : e.constant? with
      | none =>
        have rel := first.literal?
        rw [hw] at rel
        cases hv : (t.node id).literal? with
        | none => rfl
        | some v =>
          rw [hv] at rel
          cases rel
      | some w =>
        obtain ⟨v, hv, same⟩ := first.exists_literal hw
        rw [hv, Option.map_some, Pool.pick_eq ((h.literal v).mp ⟨id, hv⟩) same]
        rfl
    rw [List.mapM_cons, List.mapM_cons, here, ih]
    cases e.constant? with
    | none => rfl
    | some w => cases es.mapM Expr.constant? <;> rfl

private theorem share {label : Nat} (settled : pool.Settled e) :
    Follows { t with shared := t.shared.insert label (e, id) } pool := by
  refine ⟨h.literal, fun other d n hs => ?_⟩
  rw [Std.TreeMap.get?_eq_getElem?, Std.TreeMap.getElem?_insert] at hs
  split at hs
  · cases hs
    exact settled
  · exact h.shared other d n hs

end Follows

end NodeTable

namespace Lowering
variable {output : String} {t u : NodeTable} {pool : Pool} {e : Expr} {es : List Expr} {id : NodeId}
  {ids : List NodeId}

private theorem internContainer_follows {make : List Value → Value} {n : Node}
    (h : t.Follows pool) (represents : List.Forall₂ t.Represents ids es)
    (hn : ∀ v, n ≠ .literal v)
    (brings : e.brings pool.pick = (es.mapM Expr.constant?).map fun ws => make (ws.map pool.pick))
    (run : internContainer make n ids t = .ok (id, u)) : u.Follows (pool.add e) := by
  rw [internContainer, get_bind, h.literals?_eq represents] at run
  rw [Pool.add, brings]
  cases hw : es.mapM Expr.constant? with
  | none =>
    rw [hw] at run
    rw [snd_intern run]
    exact h.internHead hn
  | some ws =>
    rw [hw] at run
    rw [snd_intern run]
    exact h.internLiteral _

private theorem assemble_follows (hs : ∀ label d, e ≠ .shared label d) (h : t.Follows pool)
    (represents : List.Forall₂ t.Represents ids e.parts)
    (run : assemble output e ids t = .ok (id, u)) : u.Follows (pool.add e) := by
  have head (varies : e.constant? = none) (run : intern (e.withParts ids) t = .ok (id, u)) :
      u.Follows (pool.add e) := by
    have literal : ∀ v, e ≠ .literal v := by
      rintro v rfl
      cases varies
    have agrees := (Expr.withParts_agrees represents.length_eq literal hs).1
    rw [Pool.add, Pool.brings_of_varies _ varies, snd_intern run]
    exact h.internHead agrees.ne_literal
  cases e with
  | shared label d => exact absurd rfl (hs label d)
  | literal w =>
    rw [snd_intern run]
    exact h.internLiteral w
  | array items =>
    rw [assemble, internArray_eq] at run
    exact internContainer_follows h represents (by simp) rfl run
  | object fields =>
    have length : (fields.map Prod.fst).length = ids.length := by
      simpa [Expr.parts] using represents.length_eq.symm
    rw [assemble, internObject_eq, List.map_fst_zip (Nat.le_of_eq length),
      List.map_snd_zip (Nat.le_of_eq length.symm)] at run
    exact internContainer_follows h represents (by simp) rfl run
  | iterate verb source lambda body ctx =>
    rw [assemble, get_bind] at run
    split at run
    · cases run
    · exact head rfl run
  | _ => exact head rfl run

/-- A table goes on to follow its pool while an expression is lowered. -/
def Keeps (output : String) (e : Expr) : Prop :=
  ∀ t u pool id, t.Sound (fun _ => True) → t.Follows pool → expr output e t = .ok (id, u) →
    u.Follows (pool.gather e)

private theorem exprs_follows (each : ∀ e ∈ es, Keeps output e) (ht : t.Sound fun _ => True)
    (h : t.Follows pool) (run : exprs output es t = .ok (ids, u)) :
    u.Follows (es.foldl Pool.gather pool) := by
  induction es generalizing t ids pool with
  | nil =>
    cases run
    exact h
  | cons e rest ih =>
    rw [exprs] at run
    obtain ⟨id, t₁, first, run⟩ := bind_eq_ok.mp run
    obtain ⟨rest, t₂, later, run⟩ := bind_eq_ok.mp run
    cases run
    have lowered := (expr_outcome Expr.constantClass_true (by simp) ht).lowered first
    exact ih (fun d hd => each d (List.mem_cons_of_mem _ hd)) lowered.sound
      (each e List.mem_cons_self t t₁ pool id ht h first) later

private theorem shared_follows {label : Nat} (inner : Keeps output e) :
    Keeps output (.shared label e) := by
  intro t u pool id ht h run
  rw [Pool.gather_shared]
  rw [expr, get_bind] at run
  cases hs : t.sharedNode? label e with
  | some known =>
    rw [hs] at run
    cases run
    rw [Pool.gather_of_settled (h.shared label e id (sharedNode?_eq_some hs))]
    exact h
  | none =>
    rw [hs] at run
    obtain ⟨j, v, first, run⟩ := bind_eq_ok.mp run
    cases run
    exact (inner t v pool _ ht h first).share (pool.settled_gather e)

/-- The literals after lowering an expression are those that its constants bring in. -/
theorem expr_follows (output : String) (e : Expr) : Keeps output e := by
  induction e using Expr.inductionOn with
  | step e ih =>
    by_cases hs : ∃ label d, e = .shared label d
    · obtain ⟨label, d, rfl⟩ := hs
      exact shared_follows (ih d List.mem_cons_self)
    · replace hs : ∀ label d, e ≠ .shared label d := by simpa using hs
      intro t u pool id ht h run
      rw [expr_eq hs] at run
      obtain ⟨⟨⟩, t₁, first, run⟩ := bind_eq_ok.mp run
      obtain ⟨ids, t₂, parts, run⟩ := bind_eq_ok.mp run
      have prepares : Outcome (fun _ => True) output t (fun _ => []) [] (prepare e t) :=
        prepare_outcome ht
      have prepared := prepares.lowered first
      have follows : t₁.Follows pool := by
        cases e <;> cases first <;> exact ⟨h.literal, h.shared⟩
      have lowered := (exprs_outcome (fun c _ t ht =>
        expr_outcome Expr.constantClass_true (by simp) ht) prepared.sound).lowered parts
      rw [Pool.gather_eq]
      exact assemble_follows hs (exprs_follows ih prepared.sound follows parts)
        lowered.represents run

end Lowering

end Recalc
