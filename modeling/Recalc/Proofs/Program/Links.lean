import Recalc.Proofs.Origin.Scope
import Recalc.Proofs.Program.Acceptance
import Recalc.Proofs.Program.Contract

/-! What a compiled program refers to. The functions whose context a node reads are listed for it, an
iteration without context has a body that reads none, and every function of the library that a node
calls is listed for the program. So bindings that cover a node cover its parts too. -/
namespace Recalc

private theorem Fields.mem_keys_insert {α : Type} {key other : String} {v : α} {fields : Fields α} :
    other ∈ keys (insert key v fields) ↔ other = key ∨ other ∈ keys fields := by
  induction fields with
  | nil => simp [insert, keys]
  | cons e rest ih =>
    simp only [keys] at ih
    unfold insert keys
    split
    · simp
    · split
      · rename_i h
        simp [h]
      · simp only [List.map_cons, List.mem_cons, ih]
        exact or_left_comm

/-! ### Tables -/

namespace NodeTable

/-- A node has what it refers to: an iteration without context has a body that reads none, and a
function that is called is listed. -/
def Links (t : NodeTable) : Node → Prop
  | .iterate _ _ lambda body none => lambda ∉ (t.entry body).contexts
  | .call function _ => function ∈ Fields.keys t.functions
  | _ => True

def Linked (t : NodeTable) : Prop := ∀ id, t.Links (t.node id)

/-- A later table of the same lowering. -/
structure Continues (t u : NodeTable) : Prop where
  sound : u.Sound (fun _ => True)
  linked : u.Linked
  functions : ∀ f ∈ Fields.keys t.functions, f ∈ Fields.keys u.functions

variable {t u v : NodeTable} {n : Node}

theorem Continues.trans (h : t.Continues u) (k : u.Continues v) : t.Continues v :=
  ⟨k.sound, k.linked, fun f hf => k.functions f (h.functions f hf)⟩

theorem Links.mono (h : t.Links n) (hc : ∀ c ∈ n.children, u.entry c = t.entry c)
    (hf : ∀ f ∈ Fields.keys t.functions, f ∈ Fields.keys u.functions) : u.Links n := by
  cases n with
  | iterate verb source lambda body ctx =>
    cases ctx with
    | none =>
      change lambda ∉ (u.entry body).contexts
      rw [hc body (by simp [Node.children])]
      exact h
    | some c => trivial
  | call function args => exact hf function h
  | _ => trivial

/-- A node that has what it refers to can join a table. -/
theorem Continues.intern (ht : t.Sound fun _ => True) (hl : t.Linked)
    (hc : ∀ c ∈ n.children, c < t.entries.size) (hn : t.Links n) : t.Continues (t.intern n).2 := by
  obtain ⟨sound, extend, -, -⟩ := ht.intern hc fun _ _ => trivial
  rcases intern_cases t n with ⟨id, same, -⟩ | ⟨same, -⟩
  · rw [same]
    exact ⟨ht, hl, fun f hf => hf⟩
  · rw [same] at sound extend ⊢
    refine ⟨sound, fun id => ?_, fun f hf => hf⟩
    rw [node_push]
    split
    · exact hn.mono (fun c h => extend.entry_eq c (hc c h)) fun f hf => hf
    · refine (hl id).mono (fun c h => ?_) fun f hf => hf
      exact extend.entry_eq c (ht.lawful.child_lt_size h)

end NodeTable

namespace Lowering
open NodeTable

variable {output : String} {t u : NodeTable} {e : Expr} {ids : List NodeId}

/-- Lowering goes to a table that continues the one it starts from. -/
def Advances {α : Type} (x : LowerM α) : Prop :=
  ∀ t, t.Sound (fun _ => True) → t.Linked → ∀ a u, x t = .ok (a, u) → t.Continues u

theorem Advances.bind {α β : Type} {x : LowerM α} {f : α → LowerM β} (hx : Advances x)
    (hf : ∀ a t u, t.Continues u → x t = .ok (a, u) → ∀ b v, f a u = .ok (b, v) → u.Continues v) :
    Advances (x >>= f) := by
  intro t ht hl b v h
  obtain ⟨a, u, hu, hv⟩ := bind_eq_ok.mp h
  have continues := hx t ht hl a u hu
  exact continues.trans (hf a t u continues hu b v hv)

private theorem continues_intern {n : Node} {id : NodeId} (ht : t.Sound fun _ => True)
    (hl : t.Linked) (hc : ∀ c ∈ n.children, c < t.entries.size) (hn : t.Links n)
    (h : intern n t = .ok (id, u)) : t.Continues u := by
  rw [snd_intern h]
  exact .intern ht hl hc hn

private theorem continues_container {make : List Value → Value} {n : Node} {id : NodeId}
    (ht : t.Sound fun _ => True) (hl : t.Linked) (hc : ∀ c ∈ n.children, c < t.entries.size)
    (hn : t.Links n) (h : internContainer make n ids t = .ok (id, u)) : t.Continues u := by
  rw [internContainer, get_bind] at h
  cases hv : t.literals? ids with
  | none =>
    rw [hv] at h
    exact continues_intern ht hl hc hn h
  | some vs =>
    rw [hv] at h
    exact continues_intern (n := .literal (make vs)) ht hl (by simp [Node.children]) trivial h

/-- The head of an expression joins the table of its parts. -/
private theorem continues_assemble {id : NodeId} (hs : ∀ label d, e ≠ .shared label d)
    (ht : t.Sound fun _ => True) (hl : t.Linked) (hlen : ids.length = e.parts.length)
    (hlt : ∀ c ∈ ids, c < t.entries.size)
    (hf : ∀ f receiver args, e = .call f receiver args → f ∈ Fields.keys t.functions)
    (h : assemble output e ids t = .ok (id, u)) : t.Continues u := by
  have children (hv : ∀ v, e ≠ .literal v) : ∀ c ∈ (e.withParts ids).children,
      c < t.entries.size := by
    rw [(Expr.withParts_agrees hlen hv hs).2]
    exact hlt
  cases e with
  | shared label d => exact absurd rfl (hs label d)
  | literal v => exact continues_intern (n := .literal v) ht hl (by simp [Node.children]) trivial h
  | array items => exact continues_container ht hl (children (by simp)) trivial h
  | object fields =>
    rw [assemble, internObject_eq] at h
    exact continues_container ht hl (children (by simp)) trivial h
  | call function receiver args =>
    exact continues_intern ht hl (children (by simp)) (hf function receiver args rfl) h
  | iterate verb source lambda body ctx =>
    rw [assemble, get_bind] at h
    split at h
    · cases h
    · rename_i present
      refine continues_intern ht hl (children (by simp)) ?_ h
      cases ctx with
      | none =>
        obtain ⟨a, b, rfl⟩ := List.length_eq_two.mp hlen
        intro hm
        exact present (by simpa using hm)
      | some c =>
        obtain ⟨a, b, c, rfl⟩ := List.length_eq_three.mp hlen
        trivial
  | get _ _ | binary _ _ _ =>
    obtain ⟨a, b, rfl⟩ := List.length_eq_two.mp hlen
    exact continues_intern ht hl (children (by simp)) trivial h
  | range _ _ _ | ternary _ _ _ =>
    obtain ⟨a, b, c, rfl⟩ := List.length_eq_three.mp hlen
    exact continues_intern ht hl (children (by simp)) trivial h
  | unary _ _ =>
    obtain ⟨a, rfl⟩ := List.length_eq_one_iff.mp hlen
    exact continues_intern ht hl (children (by simp)) trivial h
  | _ => exact continues_intern ht hl (children (by simp)) trivial h

private theorem continues_prepare {a : Unit} (ht : t.Sound fun _ => True) (hl : t.Linked)
    (h : prepare e t = .ok (a, u)) : t.Continues u ∧ t.Extends u ∧
      ∀ f receiver args, e = .call f receiver args → f ∈ Fields.keys u.functions := by
  have lowered : Lowered (fun _ => True) t u [] [] :=
    Outcome.lowered (prepare_outcome (e := e) ht : Outcome _ "" t (fun _ => []) [] _) h
  cases e with
  | call function receiver args =>
    cases h
    have grows (f : String) (hf : f ∈ Fields.keys t.functions) :
        f ∈ Fields.keys (Fields.insert function () t.functions) :=
      Fields.mem_keys_insert.mpr (.inr hf)
    refine ⟨⟨lowered.sound, fun id => (hl id).mono (fun c _ => rfl) grows, grows⟩,
      lowered.extend, ?_⟩
    rintro f _ _ ⟨⟩
    exact Fields.mem_keys_insert.mpr (.inl rfl)
  | _ =>
    cases h
    exact ⟨⟨ht, hl, fun f hf => hf⟩, .refl t, by simp⟩

private theorem advances_exprs {es : List Expr} (h : ∀ e ∈ es, Advances (expr output e)) :
    Advances (exprs output es) := by
  induction es with
  | nil =>
    intro t ht hl ids u h
    cases h
    exact ⟨ht, hl, fun f hf => hf⟩
  | cons e rest ih =>
    rw [exprs]
    refine (h e List.mem_cons_self).bind fun id t u hu _ ids v hv => ?_
    obtain ⟨rest, w, hw, hv⟩ := bind_eq_ok.mp hv
    obtain ⟨-, rfl⟩ := pure_eq_ok.mp hv
    exact ih (fun e he => h e (List.mem_cons_of_mem _ he)) u hu.sound hu.linked rest w hw

/-- Lowering an expression keeps the nodes of a table linked. -/
theorem advances_expr : Advances (expr output e) := by
  induction e using Expr.inductionOn with
  | step e ih =>
    by_cases hs : ∃ label d, e = .shared label d
    · obtain ⟨label, d, rfl⟩ := hs
      intro t ht hl id u h
      have lowered := (expr_outcome Expr.constantClass_true (by simp) ht).lowered h
      rw [expr, get_bind] at h
      cases hk : t.sharedNode? label d with
      | some known =>
        rw [hk] at h
        cases h
        exact ⟨ht, hl, fun f hf => hf⟩
      | none =>
        rw [hk] at h
        obtain ⟨inner, v, hv, h⟩ := bind_eq_ok.mp h
        cases h
        have continues := ih d List.mem_cons_self t ht hl _ v hv
        exact ⟨lowered.sound, continues.linked, continues.functions⟩
    · replace hs : ∀ label d, e ≠ .shared label d := by simpa using hs
      intro t ht hl id w h
      rw [expr_eq hs] at h
      obtain ⟨_, u, hu, h⟩ := bind_eq_ok.mp h
      obtain ⟨ids, v, hv, h⟩ := bind_eq_ok.mp h
      obtain ⟨prepared, -, named⟩ := continues_prepare ht hl hu
      have parts := advances_exprs ih u prepared.sound prepared.linked ids v hv
      have outcome (c : Expr) (_ : c ∈ e.parts) (t : NodeTable) (ht : t.Sound fun _ => True) :
          Outcome _ output t ([·]) [c] (expr output c t) :=
        expr_outcome Expr.constantClass_true (by simp) ht
      have lowered := (exprs_outcome outcome prepared.sound).lowered hv
      refine prepared.trans (parts.trans ?_)
      refine continues_assemble hs parts.sound parts.linked lowered.nodes.length_eq lowered.lt ?_ h
      intro f receiver args he
      exact parts.functions f (named f receiver args he)

end Lowering

/-! ### Programs -/

namespace Program
open Lowering

/-- The functions whose context a node reads from outside. -/
def contexts (p : Program) (id : NodeId) : List LambdaId := (p.entry id).contexts

/-- A program whose nodes have what they refer to. -/
structure Linked (p : Program) : Prop where
  lawful : p.Lawful
  mem_contexts : ∀ id l, l ∈ p.contexts id ↔ (p.node id).Reads (· = .context) p.contexts l
  iterate : ∀ id verb source l body, p.node id = .iterate verb source l body none →
    l ∉ p.contexts body
  call : ∀ id f args, p.node id = .call f args → f ∈ p.functions

private theorem advances_lowerOutputs (definitions : List (String × Definition)) :
    Advances (lowerOutputs definitions) := by
  induction definitions with
  | nil =>
    intro t ht hl outputs u h
    cases h
    exact ⟨ht, hl, fun f hf => hf⟩
  | cons first rest ih =>
    obtain ⟨name, d⟩ := first
    cases d with
    | output e =>
      have here : Advances (lowerOutput name e) := by
        refine advances_expr.bind fun id t u hu _ id' v hv => ?_
        rw [get_bind] at hv
        split at hv
        · cases hv
        · cases hv
          exact ⟨hu.sound, hu.linked, fun f hf => hf⟩
      refine here.bind fun id t u hu _ outputs v hv => ?_
      obtain ⟨later, w, hw, hv⟩ := bind_eq_ok.mp hv
      obtain ⟨-, rfl⟩ := pure_eq_ok.mp hv
      exact ih u hu.sound hu.linked later w hw
    | setter path => exact ih
    | splice path => exact ih

/-- The nodes of a compiled model have what they refer to. -/
theorem linked_of_compile {m : Model} {b : Backend} {p : Program} (h : compile m b = .ok p) :
    p.Linked := by
  have lawful := lawful_of_compile h
  obtain ⟨⟨outputs, table⟩, hr, h⟩ := except_bind_eq_ok.mp h
  cases h
  have start : NodeTable.empty.Linked := by
    intro id
    rw [NodeTable.node_of_size_le (Nat.zero_le id)]
    trivial
  have continues := advances_lowerOutputs m.definitions _ NodeTable.sound_empty start _ _ hr
  refine ⟨lawful, continues.sound.contexts, ?_, ?_⟩
  · intro id verb source l body hn
    have links := continues.linked id
    rw [show table.node id = _ from hn] at links
    exact links
  · intro id f args hn
    have links := continues.linked id
    rw [show table.node id = _ from hn] at links
    exact links

/-! ### Bindings that cover a node -/

/-- Bindings, by functions and whether they come with a context, that have all that a node reads. -/
def Covers (p : Program) (id : NodeId) (bound : LambdaId → Bool → Prop) : Prop :=
  ∀ l ∈ p.free id, ∃ c, bound l c ∧ (l ∈ p.contexts id → c = true)

namespace Linked
variable {p : Program} (hp : p.Linked) {id c : NodeId} {bound : LambdaId → Bool → Prop}
include hp

private theorem contexts_part (hi : (p.node id).isIterate = false) (hc : c ∈ (p.node id).children)
    {l : LambdaId} (h : l ∈ p.contexts c) : l ∈ p.contexts id := by
  rw [hp.mem_contexts]
  right
  cases hn : p.node id with
  | iterate verb source lambda body ctx => simp [hn, Node.isIterate] at hi
  | _ => exact ⟨c, hn ▸ hc, h⟩

/-- What covers a node covers its parts, unless it binds a function for one of them. -/
theorem covers_part (h : p.Covers id bound) (hi : (p.node id).isIterate = false)
    (hc : c ∈ (p.node id).children) : p.Covers c bound := by
  intro l hl
  obtain ⟨k, hb, hk⟩ := h l (hp.lawful.free_part hi hc hl)
  exact ⟨k, hb, fun hx => hk (hp.contexts_part hi hc hx)⟩

variable {verb : CollectionVerb} {source body : NodeId} {lambda : LambdaId} {ctx : Option NodeId}
  (hn : p.node id = .iterate verb source lambda body ctx)
include hn

theorem covers_source (h : p.Covers id bound) (hc : c ∈ source :: ctx.toList) :
    p.Covers c bound := by
  intro l hl
  obtain ⟨k, hb, hk⟩ := h l (hp.lawful.free_source hn hc hl)
  refine ⟨k, hb, fun hx => hk ?_⟩
  rw [hp.mem_contexts, hn]
  exact .inr (.inl ⟨c, hc, hx⟩)

/-- The body of an iteration is covered once its function is bound, with a context if the iteration
has one. -/
theorem covers_body (h : p.Covers id bound) {inner : LambdaId → Bool → Prop}
    (same : ∀ l c, l ≠ lambda → bound l c → inner l c) (new : inner lambda ctx.isSome) :
    p.Covers body inner := by
  intro l hl
  by_cases he : l = lambda
  · subst he
    refine ⟨ctx.isSome, new, fun hx => ?_⟩
    cases ctx with
    | none => exact absurd hx (hp.iterate id verb source l body hn)
    | some c => rfl
  · obtain ⟨k, hb, hk⟩ := h l (hp.lawful.free_body hn hl he)
    refine ⟨k, same l k he hb, fun hx => hk ?_⟩
    rw [hp.mem_contexts, hn]
    exact .inr (.inr ⟨hx, he⟩)

end Linked

/-- A reference is covered by a binding of its function, which has a context if the reference asks
for it. -/
theorem Linked.covers_reference {p : Program} (hp : p.Linked) {id : NodeId}
    {bound : LambdaId → Bool → Prop} (h : p.Covers id bound) {kind : ReferenceKind} {l : LambdaId}
    (hn : (p.node id).reference? = some (kind, l)) :
    ∃ c, bound l c ∧ (kind = .context → c = true) := by
  have free : l ∈ p.free id := by
    rw [hp.lawful.mem_free, Node.needs_iff_reads]
    exact .inl ⟨kind, hn, trivial⟩
  obtain ⟨c, hb, hc⟩ := h l free
  refine ⟨c, hb, fun hk => hc ?_⟩
  rw [hp.mem_contexts]
  exact .inl ⟨kind, hn, hk⟩

theorem Linked.covers_output {p : Program} (hp : p.Linked) {o : String × NodeId}
    (ho : o ∈ p.outputs) (bound : LambdaId → Bool → Prop) : p.Covers o.2 bound := by
  intro l hl
  rw [hp.lawful.output_free o ho] at hl
  cases hl

end Program

/-! ### Libraries -/

/-- A program whose nodes have what they refer to, a library, and what evaluation with them may fail
for: reasons about values, and those for which calls of the program's functions fail. -/
structure Linkage where
  program : Program
  library : Library
  linked : program.Linked
  fails : EvalError → Prop
  values : ∀ e, e.AboutValues → fails e
  call : ∀ f ∈ program.functions, ∀ args e, library.call f args = .error e → fails e

namespace Linkage
variable {p : Program} {lib : Library}

/-- With any library evaluation may fail for any reason. -/
def any (hp : p.Linked) (lib : Library) : Linkage where
  program := p
  library := lib
  linked := hp
  fails _ := True
  values _ _ := trivial
  call _ _ _ _ _ := trivial

/-- With a library that has all functions of the program, evaluation should fail only for reasons
about values. -/
def complete (hp : p.Linked) (hl : ∀ f ∈ p.functions, lib.contains f = true) : Linkage where
  program := p
  library := lib
  linked := hp
  fails := EvalError.AboutValues
  values _ h := h
  call f hf args e h := by
    obtain ⟨g, hg⟩ := Option.isSome_iff_exists.mp (hl f hf)
    rw [Library.call, hg] at h
    cases h

end Linkage

end Recalc
