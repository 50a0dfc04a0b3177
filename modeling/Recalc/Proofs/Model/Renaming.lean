import Recalc.Proofs.Expr.Renaming
import Recalc.Proofs.Fields
import Recalc.Proofs.Model.Reading

/-! Reading a document with the numbers of functions counted from another one. All that is read is
the same up to the numbers of functions, which are moved by the difference. -/
namespace Recalc

/-! ### Results -/

/-- Two results that are both errors, or of which one is the other one changed. -/
inductive Agrees {α β : Type} (g : α → β) :
    Except DefinitionError α → Except DefinitionError β → Prop
  | error (e e' : DefinitionError) : Agrees g (.error e) (.error e')
  | ok (a : α) : Agrees g (.ok a) (.ok (g a))

namespace Agrees
variable {α β γ δ : Type} {g : α → β} {h : γ → δ}

theorem pure {a : α} {b : β} (hb : g a = b) : Agrees g (Pure.pure a) (Pure.pure b) := by
  subst hb
  exact .ok a

theorem bind {x : Except DefinitionError α} {y : Except DefinitionError β}
    {k : α → Except DefinitionError γ} {l : β → Except DefinitionError δ} (hx : Agrees g x y)
    (hk : ∀ a, Agrees h (k a) (l (g a))) : Agrees h (x >>= k) (y >>= l) := by
  cases hx with
  | error e e' => exact .error e e'
  | ok a => exact hk a

theorem mapM {k : α → Except DefinitionError γ} {l : β → Except DefinitionError δ}
    (hk : ∀ a, Agrees h (k a) (l (g a))) (as : List α) :
    Agrees (List.map h) (as.mapM k) ((as.map g).mapM l) := by
  induction as with
  | nil => exact .ok []
  | cons a rest ih =>
    rw [List.map_cons, List.mapM_cons, List.mapM_cons]
    exact (hk a).bind fun b => ih.bind fun bs => .ok (b :: bs)

end Agrees

/-! ### Flat forms -/

def Lambda.rename (f : LambdaId → LambdaId) (lambda : Lambda) : Lambda :=
  ⟨f lambda.id, lambda.body.rename f, lambda.context.map (Expr.rename f)⟩

def Operand.rename (f : LambdaId → LambdaId) : Operand → Operand
  | .expr e => .expr (e.rename f)
  | .func lambda => .func (lambda.rename f)

namespace Expr
variable {f : LambdaId → LambdaId}

private theorem toExpr_rename (token : Token) (o : Operand) :
    Agrees (rename f) (o.toExpr token) ((o.rename f).toExpr token) := by
  cases o with
  | expr e => exact .ok e
  | func lambda => exact .error _ _

private theorem functionName_rename (token : Token) (e : Expr) :
    Agrees id (functionName token e) (functionName token (e.rename f)) := by
  induction e using inductionOn with
  | step e ih =>
    cases e with
    | literal v =>
      cases v with
      | str name => exact .ok name
      | _ => exact .error _ _
    | shared label d => exact ih d List.mem_cons_self
    | _ => exact .error _ _

private theorem assembleIteration_rename (token : Token) (verb : CollectionVerb)
    (os : List Operand) :
    Agrees (rename f) (assembleIteration token verb os)
      (assembleIteration token verb (os.map (Operand.rename f))) := by
  rcases os with _ | ⟨_ | lambda, _ | ⟨source, rest⟩⟩
  case cons.func.cons =>
    refine (toExpr_rename token source).bind fun e => ?_
    cases rest with
    | nil => exact .pure (by simp [rename, Lambda.rename])
    | cons ctx more =>
      refine (toExpr_rename token ctx).bind fun c => ?_
      exact .pure (by simp [rename, Lambda.rename])
  all_goals exact .error _ _

private theorem assembleOther_rename (token : Token) (os : List Operand) :
    Agrees (rename f) (assembleOther token os)
      (assembleOther token (os.map (Operand.rename f))) := by
  have expr := toExpr_rename (f := f) token
  cases token with
  | root => exact .ok root
  | and | or =>
    refine (Agrees.mapM expr os).bind fun es => ?_
    exact .pure (by simp [rename])
  | ternary =>
    rcases os with _ | ⟨a, _ | ⟨b, _ | ⟨c, rest⟩⟩⟩
    case cons.cons.cons =>
      exact (expr a).bind fun _ => (expr b).bind fun _ => (expr c).bind fun _ => .pure rfl
    all_goals exact .error _ _
  | get =>
    rcases os with _ | ⟨k, _ | ⟨o, rest⟩⟩
    case cons.cons => exact (expr k).bind fun _ => (expr o).bind fun _ => .pure rfl
    all_goals exact .error _ _
  | range =>
    rcases os with _ | ⟨stop, _ | ⟨start, _ | ⟨step, rest⟩⟩⟩
    case nil => exact .error _ _
    case cons.nil => exact (expr stop).bind fun _ => .pure rfl
    case cons.cons.nil => exact (expr stop).bind fun _ => (expr start).bind fun _ => .pure rfl
    case cons.cons.cons =>
      exact (expr stop).bind fun _ => (expr start).bind fun _ => (expr step).bind fun _ => .pure rfl
  | call =>
    rcases os with _ | ⟨name, _ | ⟨receiver, args⟩⟩
    case cons.cons =>
      refine (expr name).bind fun e => (functionName_rename .call e).bind fun function => ?_
      refine (expr receiver).bind fun r => (Agrees.mapM expr args).bind fun es => ?_
      exact .pure (by simp [rename])
    all_goals exact .error _ _
  | _ => exact .error _ _

/-- Flat forms with renumbered operands are those of renumbered expressions. -/
theorem assemble_rename (token : Token) (os : List Operand) :
    Agrees (rename f) (assemble token os) (assemble token (os.map (Operand.rename f))) := by
  unfold assemble
  dsimp only
  rw [List.length_map]
  split
  · exact .error _ _
  split
  · exact .error _ _
  cases CollectionVerb.ofToken? token with
  | some verb => exact assembleIteration_rename token verb os
  | none =>
    cases UnaryVerb.ofToken? token with
    | some verb =>
      cases os with
      | nil => exact .error _ _
      | cons a rest => exact (toExpr_rename token a).bind fun _ => .pure rfl
    | none =>
      cases BinaryVerb.ofToken? token with
      | some verb =>
        rcases os with _ | ⟨a, _ | ⟨b, rest⟩⟩
        case cons.cons =>
          exact (toExpr_rename token a).bind fun _ => (toExpr_rename token b).bind fun _ => .pure rfl
        all_goals exact .error _ _
      | none => exact assembleOther_rename token os

end Expr

/-! ### Reading -/

/-- The scope with all numbers of functions moved up. -/
def Scope.shift (n : Nat) (s : Scope) : Scope := ⟨s.next + n, s.enclosing.map (· + n)⟩

namespace Reader
variable {α β γ δ : Type} {n : Nat} {g : α → β} {h : γ → δ}

/-- Two computations read the same with all numbers moved up. -/
def Shifts (n : Nat) (g : α → β) (x : ReadM α) (y : ReadM β) : Prop :=
  ∀ s : Scope, Agrees g (x.run s).1 (y.run (s.shift n)).1 ∧
    (y.run (s.shift n)).2 = (x.run s).2.shift n

theorem Shifts.pure {a : α} {b : β} (hb : g a = b) :
    Shifts n g (Pure.pure a) (Pure.pure b) := fun _ => ⟨.pure hb, rfl⟩

theorem Shifts.throw (e : DefinitionError) :
    Shifts n g (MonadExcept.throw e) (MonadExcept.throw e) := fun _ => ⟨.error e e, rfl⟩

theorem Shifts.ofExcept {x : Except DefinitionError α} {y : Except DefinitionError β}
    (hx : Agrees g x y) : Shifts n g (MonadExcept.ofExcept x) (MonadExcept.ofExcept y) := by
  cases hx with
  | error e e' => exact fun _ => ⟨.error e e', rfl⟩
  | ok a => exact Shifts.pure rfl

theorem Shifts.bind {x : ReadM α} {y : ReadM β} {k : α → ReadM γ} {l : β → ReadM δ}
    (hx : Shifts n g x y) (hk : ∀ a, Shifts n h (k a) (l (g a))) :
    Shifts n h (x >>= k) (y >>= l) := by
  intro s
  obtain ⟨agrees, scope⟩ := hx s
  rcases hrun : x.run s with ⟨r, t⟩
  rcases hrun' : y.run (s.shift n) with ⟨r', t'⟩
  rw [hrun, hrun'] at agrees scope
  subst scope
  cases agrees with
  | error e e' =>
    rw [run_bind_error hrun, run_bind_error hrun']
    exact ⟨.error e e', rfl⟩
  | ok a =>
    rw [run_bind_ok hrun, run_bind_ok hrun']
    exact hk a t

theorem Shifts.mapM {k l : α → ReadM γ} {h : γ → γ} {as : List α}
    (hk : ∀ a ∈ as, Shifts n h (k a) (l a)) :
    Shifts n (List.map h) (as.mapM k) (as.mapM l) := by
  induction as with
  | nil => exact Shifts.pure rfl
  | cons a rest ih =>
    rw [List.mapM_cons, List.mapM_cons]
    refine (hk a List.mem_cons_self).bind fun b => ?_
    exact (ih fun a ha => hk a (List.mem_cons_of_mem _ ha)).bind fun bs => .pure rfl

private theorem Shifts.function {x y : ReadM Expr} (hx : Shifts n (Expr.rename (· + n)) x y) :
    Shifts n (Lambda.rename (· + n)) (Reader.function x) (Reader.function y) := by
  intro s
  obtain ⟨agrees, scope⟩ := hx ⟨s.next + 1, s.next :: s.enclosing⟩
  have inside : Scope.shift n ⟨s.next + 1, s.next :: s.enclosing⟩ =
      ⟨(s.shift n).next + 1, (s.shift n).next :: (s.shift n).enclosing⟩ := by
    simp [Scope.shift, Nat.add_right_comm]
  rw [inside] at agrees scope
  rw [function_run, function_run, scope]
  refine ⟨?_, by simp [Scope.shift]⟩
  generalize (x.run _).1 = r, (y.run _).1 = r' at agrees
  cases agrees with
  | error e e' => exact .error e e'
  | ok a => exact .ok (Lambda.mk s.next a none)

private theorem shifts_reference (token : Token) (operands : List Json) :
    Shifts n (Expr.rename (· + n)) (reference token operands) (reference token operands) := by
  have same : Agrees id (depth token operands) (depth token operands) := by
    cases depth token operands with
    | error e => exact .error e e
    | ok d => exact .ok d
  refine (Shifts.ofExcept same).bind fun d s => ?_
  have found : Agrees (· + n) (referent token s.enclosing d)
      (referent token (s.shift n).enclosing d) := by
    unfold referent
    split
    · exact .error _ _
    · rw [Scope.shift, List.getElem?_map]
      cases s.enclosing[d]? with
      | none => exact .error _ _
      | some id => exact .ok id
  refine (Shifts.ofExcept found).bind (fun id => ?_) s
  refine Shifts.pure ?_
  split <;> rfl

/-- The numbers in a document are moved up when it is read from a later number on. -/
def Moves (n : Nat) (j : Json) : Prop := Shifts n (Expr.rename (· + n)) (expr j) (expr j)

private theorem shifts_operand {j : Json} (hj : Moves n j)
    (hb : ∀ body, j = .arr [.str "func", body] → Moves n body) :
    Shifts n (Operand.rename (· + n)) (operand j) (operand j) := by
  unfold operand
  split
  · rename_i parts
    rcases parts with _ | ⟨body, _ | ⟨other, more⟩⟩
    case cons.nil => exact (hb body rfl).function.bind fun lambda => .pure rfl
    all_goals exact (Shifts.throw (g := Lambda.rename (· + n)) _).bind fun _ => .pure rfl
  · exact hj.bind fun e => .pure rfl

private theorem shifts_named {read : Json → ReadM α} {g : α → α} {field : String × Json}
    (h : Shifts n g (read field.2) (read field.2)) :
    Shifts n (Prod.map id g) (named read field) (named read field) :=
  h.bind fun _ => .pure rfl

private theorem moves (n : Nat) (j : Json) : Moves n j := by
  induction j using Json.inductWords with
  | scalar j h =>
    unfold Moves
    rw [expr_scalar h]
    exact Shifts.pure rfl
  | array items head ih =>
    unfold Moves
    rw [expr_array head]
    exact (Shifts.mapM ih).bind fun es => .pure (by simp [Expr.rename])
  | object fields ih =>
    unfold Moves
    rw [expr, fieldList_eq]
    refine (Shifts.mapM fun field hf => shifts_named (ih field hf)).bind fun es => ?_
    exact .pure (by simp [Expr.rename])
  | quote operands =>
    unfold Moves
    by_cases h : ∃ j, operands = [j]
    · obtain ⟨j, rfl⟩ := h
      rw [expr_quote]
      exact Shifts.pure rfl
    · rw [expr_quote_refused fun j hj => h ⟨j, hj⟩]
      exact Shifts.throw _
  | unknown head operands hq unknown =>
    unfold Moves
    rw [expr_unknown hq unknown]
    exact Shifts.throw _
  | token token operands ih =>
    unfold Moves
    rw [expr_token, verb]
    split
    · exact shifts_reference token operands
    split
    · exact Shifts.throw _
    · rw [operandList_eq]
      refine (Shifts.mapM fun j hj => shifts_operand (ih j hj).1 (ih j hj).2).bind fun os => ?_
      exact Shifts.ofExcept (Expr.assemble_rename token os)

private theorem shifts_definition (j : Json) :
    Shifts n (Definition.rename (· + n)) (definition j) (definition j) := by
  have path (segments : List Json) :
      Agrees id (segments.mapM segment) (segments.mapM segment) := by
    cases segments.mapM segment with
    | error e => exact .error e e
    | ok path => exact .ok path
  unfold definition
  split
  · exact (Shifts.ofExcept (path _)).bind fun _ => .pure rfl
  · exact (Shifts.ofExcept (path _)).bind fun _ => .pure rfl
  · exact (moves n _).bind fun _ => .pure rfl

private theorem shifts_model (document : Json) :
    Shifts n (Model.rename (· + n)) (model document) (model document) := by
  cases document with
  | obj fields =>
    rw [model, definitions_eq]
    refine (Shifts.mapM fun field _ => shifts_named (shifts_definition field.2)).bind fun ds => ?_
    exact .pure (Model.ext (Fields.ofList_map (Definition.rename (· + n)) ds).symm)
  | _ => exact Shifts.throw _

end Reader

/-- The model that a document is, with the functions numbered from a given number on. -/
def Model.ofJsonFrom (n : LambdaId) (document : Json) : Except DefinitionError Model :=
  ((Reader.model document).run ⟨n, []⟩).1

/-- Numbering functions from another number on moves all numbers. -/
theorem Model.ofJsonFrom_eq {document : Json} {m : Model} (h : Model.ofJson document = .ok m)
    (n : LambdaId) : Model.ofJsonFrom n document = .ok (m.rename (· + n)) := by
  have agrees := (Reader.shifts_model (n := n) document Scope.start).1
  have start : Scope.start.shift n = ⟨n, []⟩ := by simp [Scope.start, Scope.shift]
  rw [start] at agrees
  unfold Model.ofJson at h
  unfold Model.ofJsonFrom
  rw [h] at agrees
  generalize ((Reader.model document).run ⟨n, []⟩).1 = r at agrees ⊢
  cases agrees with
  | ok => rfl

end Recalc
