import Recalc.Proofs.Model.Closed

/-! How references find their functions while a document is read. Reading an expression enters and
leaves functions in pairs, also where it fails, so at every place the reader knows exactly the
functions around it, and a depth counts outwards from the innermost. Only the largest 64-bit depth
has no place to look at. -/
namespace Recalc

namespace Scope

/-- The scope of the body of a new function. -/
def inside (s : Scope) : Scope := ⟨s.next + 1, s.next :: s.enclosing⟩

/-- The scope after the innermost function. -/
def outside (s : Scope) : Scope := { s with enclosing := s.enclosing.tail }

/-- The scopes of a reader that has entered functions and not left them yet, the innermost first.
Between entering and leaving it reads expressions, and goes on where it could not read one. -/
inductive Reached : List LambdaId → Scope → Prop
  | start : Reached [] start
  | enter {around : List LambdaId} {s : Scope} (h : Reached around s) :
    Reached (s.next :: around) s.inside
  | read {around : List LambdaId} {s : Scope} (h : Reached around s) (j : Json) :
    Reached around ((Reader.expr j).run s).2
  | leave {id : LambdaId} {around : List LambdaId} {s : Scope} (h : Reached (id :: around) s) :
    Reached around s.outside

end Scope

namespace Reader
variable {α β : Type} {x : ReadM α}

/-! ### What reading leaves behind -/

/-- Whether it succeeds or not, reading ends at the place where it started. -/
def Restores (x : ReadM α) : Prop := ∀ s : Scope, s.Later (x.run s).2

theorem Restores.pure (a : α) : Restores (Pure.pure a) := fun s => .refl s

theorem Restores.throw (e : DefinitionError) : Restores (MonadExcept.throw e : ReadM α) :=
  fun s => .refl s

theorem Restores.ofExcept (r : Except DefinitionError α) :
    Restores (MonadExcept.ofExcept r : ReadM α) := by
  cases r with
  | error e => exact .throw e
  | ok a => exact .pure a

theorem Restores.bind {f : α → ReadM β} (hx : Restores x) (hf : ∀ a, Restores (f a)) :
    Restores (x >>= f) := by
  intro s
  have first := hx s
  rcases run : x.run s with ⟨r, t⟩
  rw [run] at first
  cases r with
  | error e => rwa [run_bind_error run]
  | ok a =>
    rw [run_bind_ok run]
    exact first.trans (hf a t)

theorem Restores.mapM {f : α → ReadM β} {as : List α} (h : ∀ a ∈ as, Restores (f a)) :
    Restores (as.mapM f) := by
  induction as with
  | nil => exact .pure []
  | cons a rest ih =>
    obtain ⟨first, others⟩ := List.forall_mem_cons.mp h
    rw [List.mapM_cons]
    exact first.bind fun b => (ih others).bind fun bs => .pure (b :: bs)

/-- A function that was entered is left, whatever became of its body. -/
theorem Restores.function {body : ReadM Expr} (h : Restores body) :
    Restores (Reader.function body) := by
  intro s
  have inner := h s.inside
  rw [function_run]
  exact ⟨congrArg List.tail inner.enclosing, Nat.le_of_succ_le inner.next⟩

private theorem restores_operand {j : Json} (hj : Restores (expr j))
    (hb : ∀ body, j = .arr [.str "func", body] → Restores (expr body)) : Restores (operand j) := by
  unfold operand
  split
  · split
    · exact (hb _ rfl).function.bind fun lambda => .pure _
    · exact (Restores.throw _).bind fun lambda => .pure _
  · exact hj.bind fun e => .pure _

private theorem restores_reference (token : Token) (operands : List Json) :
    Restores (reference token operands) := by
  refine (Restores.ofExcept (depth token operands)).bind fun d s => ?_
  exact (Restores.ofExcept (referent token s.enclosing d)).bind (fun id => .pure _) s

/-- An expression, read or not, leaves the functions around it as they were. -/
theorem restores_expr (j : Json) : Restores (expr j) := by
  induction j using Json.inductWords with
  | scalar j h =>
    rw [expr_scalar h]
    exact .pure _
  | array items head ih =>
    rw [expr_array head]
    exact (Restores.mapM ih).bind fun es => .pure _
  | object fields ih =>
    rw [expr, fieldList_eq]
    have named (f : String × Json) (hf : f ∈ fields) : Restores (named expr f) :=
      (ih f hf).bind fun e => .pure _
    exact (Restores.mapM named).bind fun es => .pure _
  | quote operands =>
    by_cases h : ∃ j, operands = [j]
    · obtain ⟨j, rfl⟩ := h
      rw [expr_quote]
      exact .pure _
    · rw [expr_quote_refused fun j hj => h ⟨j, hj⟩]
      exact .throw _
  | unknown head operands hq found =>
    rw [expr_unknown hq found]
    exact .throw _
  | token token operands ih =>
    rw [expr_token, verb]
    split
    · exact restores_reference token operands
    split
    · exact .throw _
    · rw [operandList_eq]
      have operands := Restores.mapM fun j hj => restores_operand (ih j hj).1 (ih j hj).2
      exact operands.bind fun os => .ofExcept _

end Reader

/-- At every place the reader knows exactly the functions around it, each by a number of its own. -/
theorem Scope.Reached.fresh {around : List LambdaId} {s : Scope} (h : s.Reached around) :
    s.enclosing = around ∧ s.Fresh := by
  induction h with
  | start => exact ⟨rfl, .nil, by simp [Scope.start]⟩
  | enter _ ih => exact ⟨congrArg _ ih.1, ih.2.inside⟩
  | @read _ s _ j ih =>
    have later := Reader.restores_expr j s
    exact ⟨later.enclosing.trans ih.1, ih.2.later later⟩
  | leave _ ih =>
    obtain ⟨same, fresh⟩ := ih
    refine ⟨by rw [outside, same, List.tail_cons], fresh.nodup.tail, fun l hl => ?_⟩
    exact fresh.below l (List.mem_of_mem_tail hl)

namespace Reader

/-! ### Depths -/

/-- The tokens of references, with what they refer to of a function. -/
def references : List (Token × (LambdaId → Expr)) :=
  [(.val, .val), (.key, .key), (.context, .context)]

section Distant
variable {token : Token} {refer : LambdaId → Expr} {n : Nat}

/-- A reference with a 64-bit depth is to the function that is looked up. -/
theorem expr_distant (h : (token, refer) ∈ references) (word : n < Word.capacity) (s : Scope) :
    (expr (.arr [.str token.name, .num (.int n)])).run s =
      ((referent token s.enclosing n).map refer, s) := by
  have read : depth token [.num (.int n)] = .ok n := depth_eq_ok.mpr (.inr ⟨rfl, word⟩)
  have found (r : Except DefinitionError LambdaId) (make : LambdaId → Expr) :
      (do return make (← MonadExcept.ofExcept r) : ReadM Expr).run s = (r.map make, s) := by
    cases r <;> rfl
  rw [expr_token]
  simp only [references, List.mem_cons, List.not_mem_nil, or_false, Prod.mk.injEq] at h
  rcases h with ⟨rfl, rfl⟩ | ⟨rfl, rfl⟩ | ⟨rfl, rfl⟩ <;>
    rw [verb, if_pos (by decide), reference, read]
  · exact found (referent .val s.enclosing n) .val
  · exact found (referent .key s.enclosing n) .key
  · exact found (referent .context s.enclosing n) .context

private theorem referent_eq (small : n + 1 < Word.capacity) (enclosing : List LambdaId) :
    referent token enclosing n = if h : n < enclosing.length then .ok enclosing[n]
      else .error (.unboundReference token) := by
  rw [referent, if_neg (Nat.not_le.mpr small)]
  split
  · rename_i id found
    obtain ⟨h, rfl⟩ := List.getElem?_eq_some_iff.mp found
    rw [dif_pos h]
  · rename_i unbound
    rw [dif_neg (Nat.not_lt.mpr (List.getElem?_eq_none_iff.mp unbound))]

end Distant

/-- A reference is to the function that many places further out than the innermost, or unbound if
there are not as many, for every depth but the largest, which overflows everywhere. Whatever is
read, the functions around are the same afterwards, so they are always those that were entered and
not left. -/
theorem reference_resolves (s : Scope) :
    (∀ token refer, (token, refer) ∈ references → ∀ n : Nat,
      (n + 1 < Word.capacity → (expr (.arr [.str token.name, .num (.int n)])).run s =
        (if h : n < s.enclosing.length then .ok (refer s.enclosing[n])
          else .error (.unboundReference token), s)) ∧
      (n + 1 = Word.capacity → (expr (.arr [.str token.name, .num (.int n)])).run s =
        (.error (.depthOverflow token), s))) ∧
    (∀ j : Json, ((expr j).run s).2.enclosing = s.enclosing) ∧
    ∀ around : List LambdaId, s.Reached around → s.enclosing = around ∧ around.Nodup := by
  refine ⟨fun token refer h n => ⟨fun small => ?_, fun largest => ?_⟩,
    fun j => (restores_expr j s).enclosing, fun around reached => ?_⟩
  · rw [expr_distant h (Nat.lt_of_succ_lt small), referent_eq small]
    split <;> rfl
  · rw [expr_distant h (Nat.lt_of_succ_le (Nat.le_of_eq largest)), referent,
      if_pos (Nat.le_of_eq largest.symm)]
    rfl
  · obtain ⟨rfl, fresh⟩ := reached.fresh
    exact ⟨rfl, fresh.nodup⟩

/-- Inside of a function, after a part with a function in it that could not be read. -/
def resumed : Scope :=
  ((expr (.arr [.str "map", .arr [.str "func", .arr [.str "flatMap"]], .arr [.str "root"]])).run
    Scope.start.inside).2

theorem reference_resolves_resumed :
    resumed.inside.Reached [2, 0] ∧
      (expr (.arr [.str "key", .num (.int 1)])).run resumed.inside =
        (.ok (.key 0), resumed.inside) ∧
      (expr (.arr [.str "val", .num (.int 2)])).run resumed.inside =
        (.error (.unboundReference .val), resumed.inside) := by
  have taken : resumed.next = 2 := by with_unfolding_all rfl
  have reached : resumed.inside.Reached [resumed.next, 0] := .enter (.read (.enter .start) _)
  rw [taken] at reached
  obtain ⟨resolves, -, places⟩ := reference_resolves resumed.inside
  have around := (places _ reached).1
  have outer := (resolves .key .key (by simp [references]) 1).1 (by decide)
  have beyond := (resolves .val .val (by simp [references]) 2).1 (by decide)
  simp only [around] at outer beyond
  exact ⟨reached, outer, beyond⟩

/-- The largest 64-bit depth is no depth of a function, yet it is not reported as unbound. -/
theorem reference_overflows :
    18446744073709551615 < Word.capacity ∧ Scope.start.enclosing.length = 0 ∧
      (expr (.arr [.str "val", .num (.int 18446744073709551615)])).run Scope.start =
        (.error (.depthOverflow .val), Scope.start) ∧
      ((expr (.arr [.str "val", .num (.int 18446744073709551615)])).run Scope.start).1 ≠
        .error (.unboundReference .val) := by
  have known : (Token.val, Expr.val) ∈ references := by simp [references]
  have overflow := @expr_distant .val .val 18446744073709551615 known (by decide) Scope.start
  refine ⟨by decide, rfl, overflow, fun unbound => ?_⟩
  have overflow := (congrArg Prod.fst overflow).symm.trans unbound
  cases overflow

end Reader

end Recalc
