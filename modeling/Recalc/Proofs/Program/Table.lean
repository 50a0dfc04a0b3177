import Mathlib.Tactic.Common
import Recalc.Program.Compile
import Recalc.Proofs.Except

/-! What every compiled table of nodes has: parts come before the nodes that they are part of, and
the functions listed for a node are those that its parts read and that it does not bind. -/
namespace Recalc

theorem LambdaSet.mem_insert {l m : LambdaId} {s : List LambdaId} :
    l ∈ LambdaSet.insert m s ↔ l = m ∨ l ∈ s := by
  induction s with
  | nil => simp [LambdaSet.insert]
  | cons k rest ih =>
    unfold LambdaSet.insert
    split
    · exact List.mem_cons
    · split
      · rename_i h
        subst h
        simp
      · rw [List.mem_cons, ih, List.mem_cons]
        exact or_left_comm

private theorem LambdaSet.mem_union {l : LambdaId} {a b : List LambdaId} :
    l ∈ LambdaSet.union a b ↔ l ∈ a ∨ l ∈ b := by
  unfold LambdaSet.union
  induction b generalizing a with
  | nil => simp
  | cons m rest ih =>
    rw [List.foldl_cons, ih, LambdaSet.mem_insert, List.mem_cons, or_assoc, or_left_comm]

private theorem LambdaSet.mem_unions {l : LambdaId} {sets : List (List LambdaId)} :
    l ∈ LambdaSet.unions sets ↔ ∃ s ∈ sets, l ∈ s := by
  have fold (start : List LambdaId) : l ∈ sets.foldl LambdaSet.union start ↔
      l ∈ start ∨ ∃ s ∈ sets, l ∈ s := by
    induction sets generalizing start with
    | nil => simp
    | cons s rest ih =>
      rw [List.foldl_cons, ih, LambdaSet.mem_union, or_assoc]
      simp
  rw [LambdaSet.unions, fold]
  simp

/-- Whether a node reads a function from outside, by what its parts read. -/
def Node.ReadsOutside (read : NodeId → List LambdaId) (l : LambdaId) : Node → Prop
  | .iterate _ source lambda body ctx =>
    (∃ c ∈ source :: ctx.toList, l ∈ read c) ∨ l ∈ read body ∧ l ≠ lambda
  | node => ∃ c ∈ node.children, l ∈ read c

/-- Whether a node needs a function to be bound. -/
def Node.Needs (read : NodeId → List LambdaId) (l : LambdaId) : Node → Prop
  | .val m => l = m
  | .key m => l = m
  | .context m => l = m
  | node => node.ReadsOutside read l

/-- What parts read decides what a node needs. -/
theorem Node.needs_congr {read read' : NodeId → List LambdaId} {l : LambdaId} {node : Node}
    (h : ∀ c ∈ node.children, read c = read' c) : node.Needs read l ↔ node.Needs read' l := by
  have outside (hn : ∀ c ∈ node.children, read c = read' c) :
      node.ReadsOutside read l ↔ node.ReadsOutside read' l := by
    cases node with
    | iterate verb source lambda body ctx =>
      have hs : ∀ c ∈ source :: ctx.toList, read c = read' c :=
        fun c hc => hn c (List.mem_append_left _ hc)
      have hb : read body = read' body := hn body (by simp [Node.children])
      simp only [Node.ReadsOutside, hb]
      refine or_congr (exists_congr fun c => and_congr_right fun hc => ?_) Iff.rfl
      rw [hs c hc]
    | _ =>
      refine exists_congr fun c => and_congr_right fun hc => ?_
      rw [hn c hc]
  cases node with
  | val m => rfl
  | key m => rfl
  | context m => rfl
  | _ => exact outside h

namespace NodeTable

theorem mem_outside (t : NodeTable) (read : Entry → List LambdaId) {l : LambdaId} {node : Node} :
    l ∈ t.outside read node ↔ node.ReadsOutside (fun c => read (t.entry c)) l := by
  cases node <;>
    simp [outside, Node.ReadsOutside, LambdaSet.mem_union, LambdaSet.mem_unions, LambdaSet.erase]

private theorem mem_free {t : NodeTable} {l : LambdaId} {node : Node} :
    l ∈ t.free node ↔ node.Needs (fun c => (t.entry c).free) l := by
  cases node with
  | val m => exact List.mem_singleton
  | key m => exact List.mem_singleton
  | context m => exact List.mem_singleton
  | _ => simp only [free, Node.Needs, mem_outside]

/-- Parts come first, every node's functions are those it needs, and remembered nodes exist. -/
structure Lawful (t : NodeTable) : Prop where
  child_lt : ∀ id, ∀ c ∈ (t.entry id).node.children, c < id
  mem_free : ∀ id l, l ∈ (t.entry id).free ↔
    (t.entry id).node.Needs (fun c => (t.entry c).free) l
  shared_lt : ∀ label e id, t.shared.get? label = some (e, id) → id < t.entries.size

/-- The entries of a table stay where they are. -/
structure Extends (t t' : NodeTable) : Prop where
  size_le : t.entries.size ≤ t'.entries.size
  entry_eq : ∀ id < t.entries.size, t'.entry id = t.entry id

theorem Extends.refl (t : NodeTable) : t.Extends t := ⟨Nat.le_refl _, fun _ _ => rfl⟩

theorem Extends.trans {a b c : NodeTable} (h : a.Extends b) (k : b.Extends c) : a.Extends c :=
  ⟨Nat.le_trans h.size_le k.size_le,
    fun id hid => (k.entry_eq id (Nat.lt_of_lt_of_le hid h.size_le)).trans (h.entry_eq id hid)⟩

theorem entry_of_size_le {t : NodeTable} {id : NodeId} (h : t.entries.size ≤ id) :
    t.entry id = default := by
  rw [entry, Array.getD_eq_getD_getElem?, Array.getElem?_eq_none h]
  rfl

theorem lawful_empty : Lawful empty where
  child_lt id c hc := by
    rw [entry_of_size_le (Nat.zero_le id)] at hc
    cases hc
  mem_free id l := by
    rw [entry_of_size_le (Nat.zero_le id)]
    simp [Node.Needs, Node.ReadsOutside, Node.children, default, instInhabitedEntry.default,
      instInhabitedNode.default]
  shared_lt label e id h := by simp [empty] at h

private theorem entry_push_lt {t : NodeTable} {e : Entry} {id : NodeId} (h : id < t.entries.size) :
    entry { t with entries := t.entries.push e } id = t.entry id := by
  simp only [entry, Array.getD_eq_getD_getElem?]
  rw [Array.getElem?_push_lt h, Array.getElem?_eq_getElem h]

private theorem entry_push_self {t : NodeTable} {e : Entry} :
    entry { t with entries := t.entries.push e } t.entries.size = e := by
  simp [entry, Array.getD_eq_getD_getElem?]

/-- Adding a node after its parts keeps a table lawful. -/
private theorem lawful_push {t : NodeTable} (ht : t.Lawful) {node : Node}
    (hc : ∀ c ∈ node.children, c < t.entries.size) :
    Lawful { t with entries := t.entries.push ⟨node, t.free node, t.contexts node⟩ } where
  child_lt id c h := by
    rcases Nat.lt_trichotomy id t.entries.size with hid | rfl | hid
    · rw [entry_push_lt hid] at h
      exact ht.child_lt id c h
    · rw [entry_push_self] at h
      exact hc c h
    · rw [entry_of_size_le (by simpa [Nat.succ_le_iff] using hid)] at h
      cases h
  mem_free id l := by
    rcases Nat.lt_trichotomy id t.entries.size with hid | rfl | hid
    · rw [entry_push_lt hid, ht.mem_free]
      refine Node.needs_congr fun c h => ?_
      rw [entry_push_lt (Nat.lt_trans (ht.child_lt id c h) hid)]
    · rw [entry_push_self, NodeTable.mem_free]
      refine Node.needs_congr fun c h => ?_
      rw [entry_push_lt (hc c h)]
    · rw [entry_of_size_le (by simpa [Nat.succ_le_iff] using hid)]
      simp [Node.Needs, Node.ReadsOutside, Node.children, default, instInhabitedEntry.default,
        instInhabitedNode.default]
  shared_lt label e id h := by
    exact Nat.lt_of_lt_of_le (ht.shared_lt label e id h) (by simp)

/-- A node's place in the table lies within it, and the table stays lawful. -/
theorem intern_lawful {t : NodeTable} (ht : t.Lawful) {node : Node}
    (hc : ∀ c ∈ node.children, c < t.entries.size) :
    (t.intern node).2.Lawful ∧ t.Extends (t.intern node).2 ∧
      (t.intern node).1 < (t.intern node).2.entries.size := by
  unfold intern
  split
  · rename_i id h
    exact ⟨ht, .refl t, (Array.findIdx?_eq_some_iff_getElem.mp h).1⟩
  · refine ⟨lawful_push ht hc, ⟨by simp, fun id hid => entry_push_lt hid⟩, by simp⟩

end NodeTable

/-! ### Lowering -/

namespace Lowering

theorem bind_eq_ok {α β : Type} {x : LowerM α} {f : α → LowerM β} {t t' : NodeTable} {b : β} :
    (x >>= f) t = .ok (b, t') ↔ ∃ a u, x t = .ok (a, u) ∧ f a u = .ok (b, t') := by
  change (x t >>= fun (a, u) => f a u) = _ ↔ _
  rw [except_bind_eq_ok, Prod.exists]

theorem pure_eq_ok {α : Type} {a b : α} {t t' : NodeTable} :
    (pure a : LowerM α) t = .ok (b, t') ↔ a = b ∧ t = t' := by
  change Except.ok (a, t) = _ ↔ _
  simp

private theorem get_bind_eq_ok {α : Type} {f : NodeTable → LowerM α} {t t' : NodeTable} {a : α} :
    ((get : LowerM NodeTable) >>= f) t = .ok (a, t') ↔ f t t = .ok (a, t') := Iff.rfl

/-- From a lawful table lowering goes to a lawful extension that has the nodes it gives. -/
structure Lowers (t t' : NodeTable) (ids : List NodeId) : Prop where
  lawful : t'.Lawful
  extend : t.Extends t'
  lt : ∀ id ∈ ids, id < t'.entries.size

theorem Lowers.append {t u v : NodeTable} {ids more : List NodeId} (h : Lowers t u ids)
    (k : Lowers u v more) : Lowers t v (ids ++ more) where
  lawful := k.lawful
  extend := h.extend.trans k.extend
  lt id hid := by
    rcases List.mem_append.mp hid with hid | hid
    · exact Nat.lt_of_lt_of_le (h.lt id hid) k.extend.size_le
    · exact k.lt id hid

private theorem Lowers.intern {t u v : NodeTable} {ids : List NodeId} {node : Node} {id : NodeId}
    (h : Lowers t u ids) (hi : Lowering.intern node u = .ok (id, v))
    (hc : ∀ c ∈ node.children, c ∈ ids) : Lowers t v [id] := by
  obtain ⟨hl, he, hlt⟩ := NodeTable.intern_lawful h.lawful fun c hm => h.lt c (hc c hm)
  rw [Except.ok.inj hi] at hl he hlt
  exact ⟨hl, h.extend.trans he, by simpa using hlt⟩

private theorem lowers_nil {t : NodeTable} (ht : t.Lawful) : Lowers t t [] := ⟨ht, .refl t, by simp⟩

private theorem internArray_lowers {t u v : NodeTable} {ids : List NodeId} {id : NodeId}
    (h : Lowers t u ids) (hi : internArray ids u = .ok (id, v)) : Lowers t v [id] := by
  replace hi := get_bind_eq_ok.mp hi
  cases hv : u.literals? ids <;> rw [hv] at hi
  · exact h.intern hi (fun c hc => hc)
  · exact h.intern hi (by simp [Node.children])

private theorem internObject_lowers {t u v : NodeTable} {fields : List (String × NodeId)}
    {id : NodeId} (h : Lowers t u (fields.map Prod.snd))
    (hi : internObject fields u = .ok (id, v)) : Lowers t v [id] := by
  replace hi := get_bind_eq_ok.mp hi
  cases hv : u.literals? (fields.map Prod.snd) <;> rw [hv] at hi
  · exact h.intern hi (fun c hc => hc)
  · exact h.intern hi (by simp [Node.children])

private theorem internIteration_lowers {t u v : NodeTable} {output : String}
    {verb : CollectionVerb} {source body : NodeId} {lambda : LambdaId} {ctx : Option NodeId}
    {id : NodeId} (h : Lowers t u (source :: ctx.toList ++ [body]))
    (hi : internIteration output verb source lambda body ctx u = .ok (id, v)) :
    Lowers t v [id] := by
  replace hi := get_bind_eq_ok.mp hi
  split at hi
  · cases hi
  · exact h.intern hi (fun c hc => hc)

mutual

private theorem expr_lowers {output : String} : (e : Expr) → {t t' : NodeTable} → {id : NodeId} →
    t.Lawful → expr output e t = .ok (id, t') → Lowers t t' [id]
  | .root, _, _, _, ht, h => (lowers_nil ht).intern h (by simp [Node.children])
  | .val _, _, _, _, ht, h => (lowers_nil ht).intern h (by simp [Node.children])
  | .key _, _, _, _, ht, h => (lowers_nil ht).intern h (by simp [Node.children])
  | .context _, _, _, _, ht, h => (lowers_nil ht).intern h (by simp [Node.children])
  | .literal _, _, _, _, ht, h => (lowers_nil ht).intern h (by simp [Node.children])
  | .array items, _, _, _, ht, h => by
    obtain ⟨ids, u, hi, h⟩ := bind_eq_ok.mp h
    exact internArray_lowers (exprs_lowers items ht hi) h
  | .object fields, _, _, _, ht, h => by
    obtain ⟨ids, u, hi, h⟩ := bind_eq_ok.mp h
    exact internObject_lowers (fieldExprs_lowers fields ht hi) h
  | .get o k, _, _, _, ht, h => by
    obtain ⟨a, u, ha, h⟩ := bind_eq_ok.mp h
    obtain ⟨b, v, hb, h⟩ := bind_eq_ok.mp h
    have la := expr_lowers o ht ha
    exact (la.append (expr_lowers k la.lawful hb)).intern h (fun c hc => hc)
  | .iterate verb source lambda body ctx, _, _, _, ht, h => by
    obtain ⟨a, u, ha, h⟩ := bind_eq_ok.mp h
    obtain ⟨c, v, hc, h⟩ := bind_eq_ok.mp h
    obtain ⟨b, w, hb, h⟩ := bind_eq_ok.mp h
    have la := expr_lowers source ht ha
    have lc := la.append (optionExpr_lowers ctx la.lawful hc)
    exact internIteration_lowers (lc.append (expr_lowers body lc.lawful hb)) h
  | .unary verb operand, _, _, _, ht, h => by
    obtain ⟨a, u, ha, h⟩ := bind_eq_ok.mp h
    exact (expr_lowers operand ht ha).intern h (fun c hc => hc)
  | .range stop start step, _, _, _, ht, h => by
    obtain ⟨a, u, ha, h⟩ := bind_eq_ok.mp h
    obtain ⟨b, v, hb, h⟩ := bind_eq_ok.mp h
    obtain ⟨c, w, hc, h⟩ := bind_eq_ok.mp h
    have la := expr_lowers stop ht ha
    have lb := la.append (expr_lowers start la.lawful hb)
    exact (lb.append (expr_lowers step lb.lawful hc)).intern h (fun c hc => hc)
  | .ternary condition consequent alternative, _, _, _, ht, h => by
    obtain ⟨a, u, ha, h⟩ := bind_eq_ok.mp h
    obtain ⟨b, v, hb, h⟩ := bind_eq_ok.mp h
    obtain ⟨c, w, hc, h⟩ := bind_eq_ok.mp h
    have la := expr_lowers condition ht ha
    have lb := la.append (expr_lowers consequent la.lawful hb)
    exact (lb.append (expr_lowers alternative lb.lawful hc)).intern h (fun c hc => hc)
  | .and items, _, _, _, ht, h => by
    obtain ⟨ids, u, hi, h⟩ := bind_eq_ok.mp h
    exact (exprs_lowers items ht hi).intern h (fun c hc => hc)
  | .or items, _, _, _, ht, h => by
    obtain ⟨ids, u, hi, h⟩ := bind_eq_ok.mp h
    exact (exprs_lowers items ht hi).intern h (fun c hc => hc)
  | .binary verb left right, _, _, _, ht, h => by
    obtain ⟨a, u, ha, h⟩ := bind_eq_ok.mp h
    obtain ⟨b, v, hb, h⟩ := bind_eq_ok.mp h
    have la := expr_lowers left ht ha
    exact (la.append (expr_lowers right la.lawful hb)).intern h (fun c hc => hc)
  | .call function receiver args, t, _, _, ht, h => by
    obtain ⟨_, u, hf, h⟩ := bind_eq_ok.mp h
    cases hf
    obtain ⟨a, v, ha, h⟩ := bind_eq_ok.mp h
    obtain ⟨ids, w, hi, h⟩ := bind_eq_ok.mp h
    have ht' : NodeTable.Lawful { t with functions := Fields.insert function () t.functions } :=
      ⟨ht.child_lt, ht.mem_free, ht.shared_lt⟩
    have la := expr_lowers receiver ht' ha
    have li := (la.append (exprs_lowers args la.lawful hi)).intern h (fun c hc => hc)
    exact ⟨li.lawful, ⟨li.extend.size_le, li.extend.entry_eq⟩, li.lt⟩
  | .shared label e, t, _, _, ht, h => by
    replace h := get_bind_eq_ok.mp h
    cases hs : t.sharedNode? label e with
    | some n =>
      rw [hs] at h
      obtain ⟨rfl, rfl⟩ := pure_eq_ok.mp h
      obtain ⟨⟨known, n⟩, hk, hn⟩ := Option.bind_eq_some_iff.mp hs
      simp only [Option.ite_none_right_eq_some, Option.some.injEq] at hn
      exact ⟨ht, .refl t, by simpa [← hn.2] using ht.shared_lt label known n hk⟩
    | none =>
      rw [hs] at h
      obtain ⟨id, u, he, h⟩ := bind_eq_ok.mp h
      obtain ⟨_, v, hm, h⟩ := bind_eq_ok.mp h
      obtain ⟨rfl, rfl⟩ := pure_eq_ok.mp h
      cases hm
      have le := expr_lowers e ht he
      refine ⟨⟨le.lawful.child_lt, le.lawful.mem_free, ?_⟩,
        ⟨le.extend.size_le, le.extend.entry_eq⟩, le.lt⟩
      intro other d n hs
      rw [Std.TreeMap.get?_eq_getElem?, Std.TreeMap.getElem?_insert] at hs
      split at hs
      · cases hs
        exact le.lt _ List.mem_cons_self
      · exact le.lawful.shared_lt other d n hs

private theorem exprs_lowers {output : String} : (es : List Expr) → {t t' : NodeTable} →
    {ids : List NodeId} → t.Lawful → exprs output es t = .ok (ids, t') → Lowers t t' ids
  | [], _, _, _, ht, h => by
    obtain ⟨rfl, rfl⟩ := pure_eq_ok.mp h
    exact lowers_nil ht
  | e :: rest, _, _, _, ht, h => by
    obtain ⟨a, u, ha, h⟩ := bind_eq_ok.mp h
    obtain ⟨ids, v, hi, h⟩ := bind_eq_ok.mp h
    obtain ⟨rfl, rfl⟩ := pure_eq_ok.mp h
    have la := expr_lowers e ht ha
    exact la.append (exprs_lowers rest la.lawful hi)

private theorem fieldExprs_lowers {output : String} : (fields : List (String × Expr)) →
    {t t' : NodeTable} → {ids : List (String × NodeId)} → t.Lawful →
    fieldExprs output fields t = .ok (ids, t') → Lowers t t' (ids.map Prod.snd)
  | [], _, _, _, ht, h => by
    obtain ⟨rfl, rfl⟩ := pure_eq_ok.mp h
    exact lowers_nil ht
  | (_, e) :: rest, _, _, _, ht, h => by
    obtain ⟨a, u, ha, h⟩ := bind_eq_ok.mp h
    obtain ⟨ids, v, hi, h⟩ := bind_eq_ok.mp h
    obtain ⟨rfl, rfl⟩ := pure_eq_ok.mp h
    have la := expr_lowers e ht ha
    exact la.append (fieldExprs_lowers rest la.lawful hi)

private theorem optionExpr_lowers {output : String} : (ctx : Option Expr) → {t t' : NodeTable} →
    {id : Option NodeId} → t.Lawful → optionExpr output ctx t = .ok (id, t') →
    Lowers t t' id.toList
  | none, _, _, _, ht, h => by
    obtain ⟨rfl, rfl⟩ := pure_eq_ok.mp h
    exact lowers_nil ht
  | some e, _, _, _, ht, h => by
    obtain ⟨a, u, ha, h⟩ := bind_eq_ok.mp h
    obtain ⟨rfl, rfl⟩ := pure_eq_ok.mp h
    exact expr_lowers e ht ha

end

end Lowering

/-! ### Programs -/

namespace Program
open Lowering

/-- Parts come first, every node's functions are those it needs, and outputs need none. -/
structure Lawful (p : Program) : Prop where
  child_lt : ∀ id, ∀ c ∈ (p.node id).children, c < id
  mem_free : ∀ id l, l ∈ p.free id ↔ (p.node id).Needs p.free l
  output_lt : ∀ o ∈ p.outputs, o.2 < p.entries.size
  output_free : ∀ o ∈ p.outputs, p.free o.2 = []

theorem lowerOutput_lowers {name : String} {e : Expr} {t t' : NodeTable} {id : NodeId}
    (ht : t.Lawful) (h : lowerOutput name e t = .ok (id, t')) :
    Lowers t t' [id] ∧ (t'.entry id).free = [] := by
  obtain ⟨n, u, he, h⟩ := bind_eq_ok.mp h
  replace h := get_bind_eq_ok.mp h
  split at h
  · cases h
  · rename_i hf
    obtain ⟨rfl, rfl⟩ := pure_eq_ok.mp h
    exact ⟨expr_lowers e ht he, by simpa using hf⟩

theorem lowerOutputs_lowers : (definitions : List (String × Definition)) →
    {t t' : NodeTable} → {outputs : List (String × NodeId)} → t.Lawful →
    lowerOutputs definitions t = .ok (outputs, t') →
    Lowers t t' (outputs.map Prod.snd) ∧ ∀ o ∈ outputs, (t'.entry o.2).free = []
  | [], _, _, _, ht, h => by
    obtain ⟨rfl, rfl⟩ := pure_eq_ok.mp h
    exact ⟨lowers_nil ht, by simp⟩
  | (name, .output e) :: rest, _, _, _, ht, h => by
    obtain ⟨id, u, he, h⟩ := bind_eq_ok.mp h
    obtain ⟨outputs, v, ho, h⟩ := bind_eq_ok.mp h
    obtain ⟨rfl, rfl⟩ := pure_eq_ok.mp h
    obtain ⟨le, hf⟩ := lowerOutput_lowers ht he
    obtain ⟨lo, hr⟩ := lowerOutputs_lowers rest le.lawful ho
    refine ⟨le.append lo, fun o hm => ?_⟩
    rcases List.mem_cons.mp hm with rfl | hm
    · rw [lo.extend.entry_eq id (le.lt id List.mem_cons_self)]
      exact hf
    · exact hr o hm
  | (_, .setter _) :: rest, _, _, _, ht, h => lowerOutputs_lowers rest ht h
  | (_, .splice _) :: rest, _, _, _, ht, h => lowerOutputs_lowers rest ht h

/-- The table of a compiled model is lawful. -/
theorem lawful_of_compile {model : Model} {backend : Backend} {p : Program}
    (h : compile model backend = .ok p) : p.Lawful := by
  obtain ⟨⟨outputs, table⟩, hr, h⟩ := except_bind_eq_ok.mp h
  cases h
  obtain ⟨lo, hf⟩ := lowerOutputs_lowers _ NodeTable.lawful_empty hr
  exact ⟨lo.lawful.child_lt, lo.lawful.mem_free,
    fun o ho => lo.lt o.2 (List.mem_map_of_mem ho), hf⟩

/-- The backend of a compiled model is the one asked for. -/
theorem backend_of_compile {model : Model} {backend : Backend} {p : Program}
    (h : compile model backend = .ok p) : p.backend = backend := by
  obtain ⟨r, -, h⟩ := except_bind_eq_ok.mp h
  cases h
  rfl

end Program

end Recalc
