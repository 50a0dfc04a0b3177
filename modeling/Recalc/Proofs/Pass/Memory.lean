import Recalc.Proofs.Pass.Run

/-! What a pass from scratch remembers, in terms of origins. Each number stands for a binding over
origins, which the iteration, the numbers around it and the key of the element determine. A
remembered value is the meaning of the origin that its node has under the bindings read, and all
calls for it have been made. -/
namespace Recalc.Pass

/-- A program over a document, with a class of values that evaluation never leaves. -/
structure Setting where
  program : Program
  library : Library
  domain : Value → Prop
  lawful : program.Lawful
  closed : Domain program library domain
  model : Value
  model_mem : domain model

namespace Setting
variable (E : Setting)

def meaning (o : Origin) : Except EvalError Value := Origin.meaning E.program E.library E.model o

def plan (o : Origin) : Reading Value := Origin.plan E.program E.library o

theorem meaning_eq {o : Origin} (ho : o.In E.domain) (hne : o ≠ .of .model) :
    E.meaning o = (E.plan o).run E.meaning :=
  Origin.meaning_eq E.lawful E.closed E.model_mem ho hne

/-- The calls for an origin and for all that it reads are in a list. -/
inductive Covered (called : List Origin) : Origin → Prop
  | of {o : Origin} (call : o.isCall E.program → o ∈ called)
    (reads : ∀ d ∈ (E.plan o).reads E.meaning, Covered called d) : Covered called o

theorem Covered.reads {E : Setting} {called : List Origin} {o d : Origin} (h : E.Covered called o)
    (hd : d ∈ (E.plan o).reads E.meaning) : E.Covered called d := by
  obtain ⟨-, hr⟩ := h
  exact hr d hd

theorem Covered.call {E : Setting} {called : List Origin} {o : Origin} (h : E.Covered called o)
    (hc : o.isCall E.program) : o ∈ called := by
  obtain ⟨call, -⟩ := h
  exact call hc

theorem Covered.mono {E : Setting} {called more : List Origin} (hm : called ⊆ more) {o : Origin}
    (h : E.Covered called o) : E.Covered more o := by
  induction h with
  | of call _ ih => exact .of (fun hc => hm (call hc)) ih

end Setting

/-! ### Logs -/

/-- What the numbers given so far stand for, and the origins that calls were made for. -/
structure Log where
  bindings : List (LambdaId × CellBinding Origin)
  called : List Origin

namespace Log

structure Later (a b : Log) : Prop where
  bindings : a.bindings <+: b.bindings
  called : a.called ⊆ b.called

theorem Later.refl (a : Log) : a.Later a := ⟨List.prefix_refl _, List.Subset.refl _⟩

theorem Later.trans {a b c : Log} (h : a.Later b) (k : b.Later c) : a.Later c :=
  ⟨h.bindings.trans k.bindings, List.Subset.trans h.called k.called⟩

theorem Later.binding {a b : Log} (h : a.Later b) {n : BindingId}
    {e : LambdaId × CellBinding Origin} (hn : a.bindings[n]? = some e) :
    b.bindings[n]? = some e := by
  obtain ⟨rest, hr⟩ := h.bindings
  have hlt : n < a.bindings.length := (List.getElem?_eq_some_iff.mp hn).1
  rw [← hr, List.getElem?_append_left hlt, hn]

/-- Numbers stand for the bindings of some functions. -/
def Stands (a : Log) (env : CellEnv Origin) (lambdas : List LambdaId) (ids : List BindingId) :
    Prop :=
  List.Forall₂ (fun l n => ∃ b, CellEnv.lookup env l = .ok b ∧ a.bindings[n]? = some (l, b))
    lambdas ids

variable {a b : Log} {env env' : CellEnv Origin} {lambdas : List LambdaId} {ids : List BindingId}

theorem Stands.later (h : a.Stands env lambdas ids) (hl : a.Later b) : b.Stands env lambdas ids :=
  h.imp fun _ _ ⟨c, hc, hn⟩ => ⟨c, hc, hl.binding hn⟩

private theorem Stands.lookup_eq (h : a.Stands env lambdas ids) (h' : a.Stands env' lambdas ids)
    {l : LambdaId} (hl : l ∈ lambdas) : CellEnv.lookup env l = CellEnv.lookup env' l := by
  induction h with
  | nil => cases hl
  | cons first _ ih =>
    obtain ⟨c, hc, hn⟩ := first
    cases h' with
    | cons first' rest' =>
      obtain ⟨c', hc', hn'⟩ := first'
      rcases List.mem_cons.mp hl with rfl | hl
      · rw [hn] at hn'
        cases hn'
        rw [hc, hc']
      · exact ih rest' hl

/-- The same numbers stand for the same bindings. -/
theorem Stands.restrict_eq {p : Program} {id : NodeId} (h : a.Stands env (p.free id) ids)
    (h' : a.Stands env' (p.free id) ids) (hs : env.Sorted) (hs' : env'.Sorted) :
    CellEnv.restrict p id env = CellEnv.restrict p id env' := by
  refine CellEnv.ext_lookup (CellEnv.sorted_restrict hs p id) (CellEnv.sorted_restrict hs' p id)
    fun l c => ?_
  by_cases hl : l ∈ p.free id
  · rw [CellEnv.lookup_restrict hl, CellEnv.lookup_restrict hl, h.lookup_eq h' hl]
  · exact ⟨fun hc => absurd (CellEnv.mem_free_of_lookup_restrict hc) hl,
      fun hc => absurd (CellEnv.mem_free_of_lookup_restrict hc) hl⟩

end Log

/-! ### Bindings over origins -/

/-- What an element of an iteration is bound to. -/
def element (source : Handle Origin) (key element : Value) : Handle Origin :=
  match source with
  | .cell o => .cell (.of (.slot o key))
  | .const _ => .const element

theorem elementHandle_eq (source : Handle Origin) (key value : Value) :
    Origin.access.elementHandle source key value = pure (element source key value) := by
  cases source <;> rfl

namespace Setting
variable (E : Setting)

/-- The binding that an iteration makes for the element at a key. -/
inductive Binds (env : CellEnv Origin) (iteration : NodeId) (key : Value) :
    LambdaId × CellBinding Origin → Prop
  | intro {verb : CollectionVerb} {source body : NodeId} {lambda : LambdaId} {ctx : Option NodeId}
    {h : Handle Origin} {elements value : Value} {context : Option (Handle Origin)}
    (node : E.program.node iteration = .iterate verb source lambda body ctx)
    (handle : (Origin.access.handle E.program source env).run E.meaning = .ok h)
    (read : (Origin.access.read h).run E.meaning = .ok elements)
    (get : elements.get key = .ok value)
    (ctx : (Origin.access.contextHandle E.program env ctx).run E.meaning = .ok context) :
    Binds env iteration key (lambda, ⟨element h key value, key, context⟩)

private theorem Binds.unique {E : Setting} {env env' : CellEnv Origin} {iteration : NodeId}
    {key : Value}
    {b c : LambdaId × CellBinding Origin} (h : E.Binds env iteration key b)
    (h' : E.Binds env' iteration key c)
    (he : CellEnv.restrict E.program iteration env = CellEnv.restrict E.program iteration env') :
    b = c := by
  obtain ⟨node, handle, read, get, ctx⟩ := h
  obtain ⟨node', handle', read', get', ctx'⟩ := h'
  rw [node] at node'
  cases node'
  have part {c : NodeId} (hc : c ∈ _ :: Option.toList _) :
      CellEnv.restrict E.program c env = CellEnv.restrict E.program c env' :=
    CellEnv.restrict_congr (fun l hl => E.lawful.free_source node hc hl) he
  rw [Origin.access.handle_congr E.lawful (part List.mem_cons_self), handle'] at handle
  cases handle
  rw [read] at read'
  cases read'
  rw [get] at get'
  cases get'
  rw [Origin.access.contextHandle_congr E.lawful fun c hc =>
    part (List.mem_cons_of_mem _ (Option.mem_toList.mpr hc)), ctx'] at ctx
  cases ctx
  rfl

/-- The state of a pass with a log of it. -/
structure Remembers (s : State) (a : Log) : Prop where
  count : s.count = a.bindings.length
  calls : s.work.calls.size = a.called.length
  numbers : ∀ key n, E.domain key.key → s.numbers.find? key = some n →
    ∃ env b, CellEnv.Sorted env ∧ a.Stands env (E.program.free key.iteration) key.outer ∧
      E.Binds env key.iteration key.key b ∧ a.bindings[n]? = some b
  memo : ∀ id ids v, s.memo.find? ⟨id, ids⟩ = some v →
    ∃ env, CellEnv.Sorted env ∧ a.Stands env (E.program.free id) ids ∧ E.domain v ∧
      E.meaning (.of (.node id (CellEnv.restrict E.program id env))) = .ok v ∧
      E.Covered a.called (.of (.node id (CellEnv.restrict E.program id env)))

variable {E}

theorem remembers_start : E.Remembers .start ⟨[], []⟩ where
  count := rfl
  calls := rfl
  numbers key n _ h := by simp [State.start, Table.find?_empty] at h
  memo id ids v h := by simp [State.start, Table.find?_empty] at h

variable {s : State} {a : Log}

/-- A longer log fits a state with the same memory. -/
theorem Remembers.later (h : E.Remembers s a) {b : Log} (hl : a.Later b) {t : State}
    (hm : t.memo = s.memo) (hn : t.numbers = s.numbers) (count : t.count = b.bindings.length)
    (calls : t.work.calls.size = b.called.length) : E.Remembers t b where
  count := count
  calls := calls
  numbers key n hk hf := by
    obtain ⟨env, e, hs, hst, hb, he⟩ := h.numbers key n hk (hn ▸ hf)
    exact ⟨env, e, hs, hst.later hl, hb, hl.binding he⟩
  memo id ids v hf := by
    obtain ⟨env, hs, hst, hd, hv, hc⟩ := h.memo id ids v (hm ▸ hf)
    exact ⟨env, hs, hst.later hl, hd, hv, hc.mono hl.called⟩

theorem Remembers.memoize (h : E.Remembers s a) {env : CellEnv Origin} {id : NodeId}
    {ids : List BindingId} {v : Value} (hs : env.Sorted)
    (hst : a.Stands env (E.program.free id) ids) (hd : E.domain v)
    (hv : E.meaning (.of (.node id (CellEnv.restrict E.program id env))) = .ok v)
    (hc : E.Covered a.called (.of (.node id (CellEnv.restrict E.program id env)))) :
    E.Remembers { s with memo := s.memo.insert ⟨id, ids⟩ v } a where
  count := h.count
  calls := h.calls
  numbers := h.numbers
  memo id' ids' v' hf := by
    rw [Table.find?_insert] at hf
    split at hf
    · rename_i heq
      cases eq_of_beq heq
      cases hf
      exact ⟨env, hs, hst, hd, hv, hc⟩
    · exact h.memo id' ids' v' hf

private theorem bindingKey_eq {key key' : BindingKey} (hk : E.domain key.key)
    (hk' : E.domain key'.key) (h : (key == key') = true) : key = key' := by
  obtain ⟨iteration, outer, k⟩ := key
  obtain ⟨iteration', outer', k'⟩ := key'
  have h : (decide (iteration = iteration') && decide (outer = outer') && k == k') = true := h
  simp only [Bool.and_eq_true, decide_eq_true_eq] at h
  obtain ⟨⟨rfl, rfl⟩, hkey⟩ := h
  obtain rfl : k = k' := E.closed.eq_of_beq hk hk' hkey
  rfl

/-- The number of a binding stands for it. -/
theorem Remembers.number (h : E.Remembers s a) (key : BindingKey) {env : CellEnv Origin}
    {b : LambdaId × CellBinding Origin} (hk : E.domain key.key) (hs : env.Sorted)
    (hst : a.Stands env (E.program.free key.iteration) key.outer)
    (hb : E.Binds env key.iteration key.key b) :
    ∃ n t a', (number key).run s = (.ok n, t) ∧ a.Later a' ∧ E.Remembers t a' ∧
      a'.bindings[n]? = some b := by
  cases hf : s.numbers.find? key with
  | some n =>
    obtain ⟨env', b', hs', hst', hb', hn⟩ := h.numbers key n hk hf
    obtain rfl : b' = b := hb'.unique hb (hst'.restrict_eq hst hs' hs)
    exact ⟨n, s, a, by rw [number_run, hf], .refl a, h, hn⟩
  | none =>
    have hl : a.Later ⟨a.bindings ++ [b], a.called⟩ := ⟨List.prefix_append _ _, List.Subset.refl _⟩
    have last : (a.bindings ++ [b])[s.count]? = some b := by simp [h.count]
    refine ⟨s.count, { s with numbers := s.numbers.insert key s.count, count := s.count + 1 },
      ⟨a.bindings ++ [b], a.called⟩, by rw [number_run, hf], hl, ?_, last⟩
    have kept : E.Remembers { s with count := s.count + 1 } ⟨a.bindings ++ [b], a.called⟩ :=
      h.later hl rfl rfl (by simp [h.count]) h.calls
    refine { kept with numbers := fun key' n hk' hf' => ?_ }
    rw [Table.find?_insert] at hf'
    split at hf'
    · rename_i heq
      cases bindingKey_eq hk hk' heq
      cases hf'
      exact ⟨env, b, hs, hst.later hl, hb, last⟩
    · exact kept.numbers key' n hk' hf'

end Setting

end Recalc.Pass
