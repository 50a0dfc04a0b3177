import Mathlib.Data.List.Sort
import Recalc.Proofs.Origin.Meaning

/-! Which bindings a node depends on: evaluation of a node sees only the bindings of the functions
listed for it, and bindings in order are determined by what is found in them. -/
namespace Recalc

namespace Program.Lawful
variable {p : Program} (hl : p.Lawful) {id : NodeId}
include hl

theorem free_part {c : NodeId} (hi : (p.node id).isIterate = false)
    (hc : c ∈ (p.node id).children) {l : LambdaId} (h : l ∈ p.free c) : l ∈ p.free id := by
  rw [hl.mem_free]
  cases hn : p.node id with
  | iterate verb source lambda body ctx => simp [hn, Node.isIterate] at hi
  | val m => simp [hn, Node.children] at hc
  | key m => simp [hn, Node.children] at hc
  | context m => simp [hn, Node.children] at hc
  | _ => exact ⟨c, hn ▸ hc, h⟩

variable {verb : CollectionVerb} {source body : NodeId} {lambda : LambdaId} {ctx : Option NodeId}
  (hn : p.node id = .iterate verb source lambda body ctx)
include hn

theorem free_source {c : NodeId} (hc : c ∈ source :: ctx.toList) {l : LambdaId}
    (h : l ∈ p.free c) : l ∈ p.free id := by
  rw [hl.mem_free, hn]
  exact .inl ⟨c, hc, h⟩

theorem free_body {l : LambdaId} (h : l ∈ p.free body) (hne : l ≠ lambda) : l ∈ p.free id := by
  rw [hl.mem_free, hn]
  exact .inr ⟨h, hne⟩

end Program.Lawful

namespace CellEnv
variable {ι : Type} {p : Program} {id : NodeId} {env env' : CellEnv ι} {l : LambdaId}
  {b : CellBinding ι}

/-- Bindings are in strictly increasing order of their functions. -/
def Sorted (env : CellEnv ι) : Prop := env.Pairwise fun a b => a.1 < b.1

theorem sorted_restrict (h : env.Sorted) (p : Program) (id : NodeId) :
    (restrict p id env).Sorted := h.filter _

private theorem sorted_insertBinding (h : env.Sorted) (hl : ∀ e ∈ env, e.1 ≠ l) :
    (insertBinding l b env).Sorted := by
  induction env with
  | nil => exact List.pairwise_singleton _ _
  | cons e rest ih =>
    obtain ⟨hlt, hs⟩ := List.pairwise_cons.mp h
    have hne : e.1 ≠ l := hl e List.mem_cons_self
    unfold insertBinding
    split
    · rename_i hle
      refine List.pairwise_cons.mpr
        ⟨fun c hc => ?_, ih hs fun e he => hl e (List.mem_cons_of_mem _ he)⟩
      rcases mem_insertBinding.mp hc with rfl | hc
      · exact hle
      · exact hlt c hc
    · rename_i hle
      have hlt' : l < e.1 := Nat.lt_of_le_of_ne (Nat.le_of_not_lt hle) hne.symm
      refine List.pairwise_cons.mpr ⟨fun c hc => ?_, h⟩
      rcases List.mem_cons.mp hc with rfl | hc
      · exact hlt'
      · exact Nat.lt_trans hlt' (hlt c hc)

theorem sorted_bind (h : env.Sorted) : (bind env l b).Sorted :=
  sorted_insertBinding (h.filter _) fun e he => by simpa using (List.mem_filter.mp he).2

/-- With the functions in order, what is found is what is there. -/
theorem lookup_eq_ok (h : env.Sorted) : lookup env l = .ok b ↔ (l, b) ∈ env := by
  refine ⟨mem_of_lookup, fun hm => ?_⟩
  unfold lookup
  induction env with
  | nil => cases hm
  | cons e rest ih =>
    obtain ⟨hlt, hs⟩ := List.pairwise_cons.mp h
    rcases List.mem_cons.mp hm with rfl | hm
    · simp
    · have hne : e.1 ≠ l := fun he => absurd (hlt _ hm) (by simp [he])
      rw [List.find?_cons_of_neg (by simpa using hne)]
      exact ih hs hm

/-- Bindings in order are determined by which bindings they are. -/
theorem ext_mem (h : env.Sorted) (h' : env'.Sorted) (he : ∀ e, e ∈ env ↔ e ∈ env') :
    env = env' := by
  have : Std.Antisymm fun a b : LambdaId × CellBinding ι => a.1 < b.1 :=
    ⟨fun a b hab hba => absurd (Nat.lt_trans hab hba) (Nat.lt_irrefl _)⟩
  have : Std.Irrefl fun a b : LambdaId × CellBinding ι => a.1 < b.1 :=
    ⟨fun a => Nat.lt_irrefl _⟩
  exact h.eq_of_mem_iff h' he

/-- Bindings in order are determined by what is found in them. -/
theorem ext_lookup (h : env.Sorted) (h' : env'.Sorted)
    (he : ∀ l b, lookup env l = .ok b ↔ lookup env' l = .ok b) : env = env' := by
  refine ext_mem h h' fun e => ?_
  rw [← lookup_eq_ok h, ← lookup_eq_ok h']
  exact he e.1 e.2

theorem lookup_restrict (hl : l ∈ p.free id) : lookup (restrict p id env) l = lookup env l := by
  unfold lookup restrict
  rw [List.find?_filter]
  congr 2
  funext e
  by_cases he : e.1 = l
  · simp [he, hl]
  · simp [he]

theorem mem_free_of_lookup_restrict (h : lookup (restrict p id env) l = .ok b) : l ∈ p.free id := by
  simpa using (List.mem_filter.mp (mem_of_lookup h)).2

private theorem restrict_restrict {c : NodeId} (h : ∀ l ∈ p.free c, l ∈ p.free id) :
    restrict p c (restrict p id env) = restrict p c env := by
  unfold restrict
  rw [List.filter_filter]
  refine List.filter_congr fun e _ => ?_
  by_cases he : e.1 ∈ p.free c
  · simp [he, h e.1 he]
  · simp [he]

theorem lookup_bind (h : env.Sorted) {m : LambdaId} {c : CellBinding ι} :
    lookup (bind env l b) m = .ok c ↔ if m = l then c = b else lookup env m = .ok c := by
  rw [lookup_eq_ok (sorted_bind h), mem_bind]
  split
  · rename_i hm
    simp [hm]
  · rename_i hm
    rw [lookup_eq_ok h]
    simp [hm]

/-- Nodes that read fewer bindings see the same ones. -/
theorem restrict_congr {c : NodeId} (h : ∀ l ∈ p.free c, l ∈ p.free id)
    (he : restrict p id env = restrict p id env') : restrict p c env = restrict p c env' := by
  rw [← restrict_restrict h, he, restrict_restrict h]

private theorem lookup_congr (hl : l ∈ p.free id) (he : restrict p id env = restrict p id env') :
    lookup env l = lookup env' l := by
  rw [← lookup_restrict hl, he, lookup_restrict hl]

end CellEnv

namespace CellAccess
variable {m : Type → Type} [Monad m] [MonadExceptOf EvalError m] {ι : Type}
variable (cells : CellAccess m ι) {p : Program} (hl : p.Lawful)
include hl

private theorem handleWithin_irrelevant {n k : Nat} {id : NodeId} (hn : id < n) (hk : id < k)
    (env : CellEnv ι) : cells.handleWithin p n id env = cells.handleWithin p k id env := by
  induction n generalizing k id with
  | zero => cases hn
  | succ n ih =>
    cases k with
    | zero => cases hk
    | succ k =>
      have part {c : NodeId} (hc : c ∈ (p.node id).children) :
          cells.handleWithin p n c env = cells.handleWithin p k c env := by
        have hlt := hl.child_lt id c hc
        exact ih (Nat.lt_of_lt_of_le hlt (Nat.le_of_lt_succ hn))
          (Nat.lt_of_lt_of_le hlt (Nat.le_of_lt_succ hk))
      unfold handleWithin
      cases hnode : p.node id with
      | get o k =>
        simp only [part (c := o) (by simp [hnode, Node.children]),
          part (c := k) (by simp [hnode, Node.children])]
      | _ => rfl

/-- Parts come first, so more fuel than a node's position makes no difference. -/
theorem handleWithin_eq_handle {fuel : Nat} {id : NodeId} (h : id < fuel) (env : CellEnv ι) :
    cells.handleWithin p fuel id env = cells.handle p id env :=
  handleWithin_irrelevant cells hl h (Nat.lt_succ_self id) env

theorem handle_get {id o k : NodeId} (hn : p.node id = .get o k) (env : CellEnv ι) :
    cells.handle p id env = (do
      let o ← cells.handle p o env
      let k ← cells.handle p k env
      let key ← cells.read k
      match o with
      | .cell source => return .cell (← cells.intern (.slot source key))
      | .const v => return .const (← MonadExcept.ofExcept (v.get key))) := by
  have ho := hl.child_lt id o (by simp [hn, Node.children])
  have hk := hl.child_lt id k (by simp [hn, Node.children])
  rw [← handleWithin_eq_handle cells hl ho, ← handleWithin_eq_handle cells hl hk, handle,
    handleWithin]
  generalize p.node id = n at hn ⊢
  subst hn
  rfl

/-- Where a node's value comes from depends only on the bindings that it reads. -/
theorem handle_congr {id : NodeId} {env env' : CellEnv ι}
    (he : CellEnv.restrict p id env = CellEnv.restrict p id env') :
    cells.handle p id env = cells.handle p id env' := by
  induction id using Nat.strongRecOn with
  | ind id ih =>
    have reads {l : LambdaId} (h : (p.node id).Needs p.free l) :
        CellEnv.lookup env l = CellEnv.lookup env' l :=
      CellEnv.lookup_congr ((hl.mem_free id l).mpr h) he
    cases hn : p.node id with
    | get o k =>
      have part {c : NodeId} (hc : c ∈ (p.node id).children) :
          cells.handle p c env = cells.handle p c env' :=
        ih c (hl.child_lt id c hc) (CellEnv.restrict_congr
          (fun l h => hl.free_part (by simp [hn, Node.isIterate]) hc h) he)
      rw [handle_get cells hl hn, handle_get cells hl hn,
        part (c := o) (by simp [hn, Node.children]), part (c := k) (by simp [hn, Node.children])]
    | val l => simp only [handle, handleWithin, hn, reads (l := l) (by simp [hn, Node.Needs])]
    | key l => simp only [handle, handleWithin, hn, reads (l := l) (by simp [hn, Node.Needs])]
    | context l =>
      simp only [handle, handleWithin, hn, CellEnv.context,
        reads (l := l) (by simp [hn, Node.Needs])]
    | _ => simp only [handle, handleWithin, hn, he]

theorem contextHandle_congr {ctx : Option NodeId} {env env' : CellEnv ι}
    (he : ∀ c ∈ ctx, CellEnv.restrict p c env = CellEnv.restrict p c env') :
    cells.contextHandle p env ctx = cells.contextHandle p env' ctx := by
  cases ctx with
  | none => rfl
  | some c => simp only [contextHandle, handle_congr cells hl (he c rfl)]

end CellAccess

end Recalc
