import Recalc.Proofs.Graph.Opening.Basic

/-! Handles of nodes in a first recalculation. The handle of a node stands for the judged value of
the node. For an access only the key is read, so if object and key both fail, the failure that shows
is the key's. -/
namespace Recalc.Opening
open Recalc.Graph Trial
variable {O : Opening} {w : Trial} {verify : CellId → CellM Unit}

/-- The handle of a node stands for its judged value, except that a failure may be another one if
that was pending before. -/
structure Gives (O : Opening) (w w' : Trial) (id : NodeId) (h : Handle CellId) (j : Judged Value) :
    Prop where
  known : h.Within w'.graph.Live (O.program.Constant (.node id))
  ok : ∀ a, (w'.sense h).result = .ok a ↔ j.result = .ok a
  error : ∀ e, (w'.sense h).result = .error e → ∃ e', j.result = .error e' ∧
    (j.fair = true → (w'.sense h).fair = true ∧ (e = e' ∨ w.Pending e))
  pending : ∀ e, w'.Pending e → w.Pending e ∨ (w'.sense h).result = .error e

/-- A handle and a judged value that are both one value. -/
theorem Gives.settled {id : NodeId} {h : Handle CellId} {j : Judged Value} {a : Value}
    (known : h.Within w.graph.Live (O.program.Constant (.node id)))
    (hs : (w.sense h).result = .ok a) (hj : j.result = .ok a) : O.Gives w w id h j where
  known := known
  ok b := by rw [hs, hj]
  error e he := by
    rw [hs] at he
    cases he
  pending e he := .inl he

/-! ### Reading -/

section
variable {v v' : Trial} {id : NodeId} {h : Handle CellId} {j : Judged Value}
  (gives : O.Gives v v' id h j)
include gives

/-- Taking the handle of a node that has a value brings in no failure. -/
theorem Gives.calm {a : Value} (ha : j.result = .ok a) : v.Calm v' := by
  intro e he
  refine (gives.pending e he).resolve_right fun failed => ?_
  rw [(gives.ok a).mpr ha] at failed
  cases failed

/-- The handle of a node that fails stands for a failure. -/
theorem Gives.fails {e : EvalError} (he : j.result = .error e) :
    ∃ e', (v'.sense h).result = .error e' := by
  cases hs : (v'.sense h).result with
  | error e' => exact ⟨e', rfl⟩
  | ok a =>
    rw [(gives.ok a).mp hs] at he
    cases he

/-- A failure of the handle is a failure of the node. -/
theorem Gives.errs {e : EvalError} (he : v'.Errs (v'.sense h) e) : v.Errs j e := by
  rcases he with rfl | ⟨e', he', fair⟩
  · exact .inl rfl
  · obtain ⟨e'', hj, same⟩ := gives.error e' he'
    refine .inr ⟨e'', hj, fun hf => ?_⟩
    obtain ⟨hσ, one⟩ := same hf
    rcases fair hσ with rfl | pending
    · exact one
    · rcases gives.pending e pending with pending | failed
      · exact .inr pending
      · rw [he'] at failed
        cases failed
        exact one

end

/-- A handle of a node that has been read: it stands for the value that was given, and so does the
node. -/
structure Holds (O : Opening) (w w' : Trial) (id : NodeId) (j : Judged Value)
    (r : Handle CellId × Value) : Prop where
  known : r.1.Within w'.graph.Live (O.program.Constant (.node id))
  sense : (w'.sense r.1).result = .ok r.2
  result : j.result = .ok r.2
  ordered : r.2.Ordered
  calm : w.Calm w'

section
variable (hv : O.Verifies verify) {x : CellM (Handle CellId)} {id : NodeId} {j : Judged Value}
  (hx : O.Tries w (fun v v' h => O.Gives v v' id h j) x j)
include hv hx

/-- Reading the handle of a node gives the value of the node. -/
theorem Tries.thenRead : O.Tries w (fun v v' r => O.Holds v v' id j r)
    (x >>= fun h => (access verify).read h >>= fun a => Pure.pure (h, a)) j := by
  refine hx.andThen (fun _ _ h => h) fun v v' h _ _ _ gives => ?_
  have read := follows_read hv gives.known fun _ hc => hc.tame O.closed.literal
  refine ⟨v'.sense h, fun u u' r => r.1 = h ∧ (v'.sense h).result = .ok r.2 ∧ r.2.Ordered ∧
    u.Calm u', ?_, fun _ => gives.errs, ?_⟩
  · exact read.map fun _ _ _ _ _ ha => ⟨rfl, ha⟩
  · rintro u ⟨_, a⟩ onward ⟨rfl, ha, ordered, calm⟩
    have result := (gives.ok a).mp ha
    refine ⟨gives.known.mono onward.live fun _ hc => hc, ?_, result, ordered,
      (gives.calm result).trans calm⟩
    rw [sense_onward onward gives.known]
    exact ha

theorem Tries.read : O.Follows w Value.Ordered (x >>= (access verify).read) j := by
  have read : O.Follows w Value.Ordered (_ >>= fun r => Pure.pure (Prod.snd r)) j :=
    (Tries.thenRead hv hx).map fun _ _ _ _ _ h => ⟨h.result, h.ordered, h.calm⟩
  simp only [bind_assoc, pure_bind, bind_pure] at read
  exact read

end

/-! ### Access -/

/-- An access fails as its object does. -/
theorem errs_object {v : Trial} {jo jk : Judged Value} {e : EvalError} (h : v.Errs jo e) :
    v.Errs (Judged.access jo jk) e := by
  rcases h with rfl | ⟨e', he, fair⟩
  · exact .inl rfl
  · refine .inr ⟨e', ?_, fun hf => fair (Judged.fair_of_access hf).1⟩
    rw [Judged.result_access, he]
    rfl

section
variable {v v' u : Trial} {o id : NodeId} {object : Handle CellId} {jo jk : Judged Value}
  (gives : O.Gives v v' o object jo)
include gives

/-- What fails after the handle of an object fails as an access to the object, if it is the key that
fails or the access itself. -/
theorem Gives.errs_access {rest : Judged Value} {e : EvalError} (h : v'.Errs rest e)
    (fails : ∀ e', rest.result = .error e' → jk.result = .error e' ∨
      ∃ a k, jo.result = .ok a ∧ jk.result = .ok k ∧ a.get k = .error e')
    (fair : jk.fair = true → rest.fair = true) : v.Errs (Judged.access jo jk) e := by
  rcases h with rfl | ⟨e', he', same⟩
  · exact .inl rfl
  · cases hjo : jo.result with
    | ok a =>
      refine .inr ⟨e', ?_, fun hf => ?_⟩
      · rw [Judged.result_access, hjo]
        rcases fails e' he' with hk | ⟨b, k, hb, hk, hg⟩
        · rw [hk]
          rfl
        · rw [hjo] at hb
          cases hb
          rw [hk]
          exact hg
      · obtain ⟨-, hk, -⟩ := Judged.fair_of_access hf
        exact (same (fair hk)).imp_right (gives.calm hjo e)
    | error e'' =>
      have hk : jk.result = .error e' := by
        rcases fails e' he' with hk | ⟨b, k, hb, -⟩
        · exact hk
        · rw [hjo] at hb
          cases hb
      refine .inr ⟨e'', ?_, fun hf => ?_⟩
      · rw [Judged.result_access, hjo]
        rfl
      · -- Both parts fail, for one reason as the access is fair.
        obtain ⟨hof, hkf, one⟩ := Judged.fair_of_access hf
        obtain rfl := one e'' e' hjo hk
        rcases same (fair hkf) with rfl | pending
        · exact .inl rfl
        · rcases gives.pending e pending with pending | failed
          · exact .inr pending
          · obtain ⟨e₃, he₃, same⟩ := gives.error e failed
            rw [hjo] at he₃
            cases he₃
            exact (same hof).2

/-- The slot for an access stands for the access. -/
theorem Gives.slot {source slot : CellId} {key : Value} (hn : object = .cell source)
    (onward : v'.Onward u) (hs : Slot v' u source key slot) (hk : jk.result = .ok key) :
    O.Gives v u id (.cell slot) (Judged.access jo jk) := by
  subst hn
  obtain ⟨k, same, judged, new⟩ := hs.judged
  rw [onward.judged source gives.known] at judged
  have given (c : Value) (hc : jo.result = .ok c) :
      (u.judged slot).result = c.get k ∧ (u.judged slot).fair = true ∧
        (Judged.access jo jk).result = c.get key := by
    have hσ : (v'.judged source).result = .ok c := (gives.ok c).mpr hc
    rw [judged, Judged.bind_of_ok hσ, Judged.result_access, hc, hk]
    exact ⟨Judged.result_ofExcept _, Judged.fair_ofExcept _, rfl⟩
  have lost (e : EvalError) (he : jo.result = .error e) :
      (Judged.access jo jk).result = .error e ∧
        ∃ e', (v'.judged source).result = .error e' ∧ (u.judged slot).result = .error e' := by
    obtain ⟨e', hσ⟩ : ∃ e', (v'.judged source).result = .error e' := gives.fails he
    rw [Judged.result_access, he, judged]
    exact ⟨rfl, e', hσ, Judged.result_bind_of_error hσ⟩
  refine ⟨hs.live, fun a => ?_, fun e he => ?_, fun e he => ?_⟩
  · change (u.judged slot).result = .ok a ↔ _
    cases hc : jo.result with
    | ok c =>
      obtain ⟨hσ, -, hj⟩ := given c hc
      rw [hσ, hj]
      exact Value.get_eq_ok_congr same c a
    | error e =>
      obtain ⟨hj, e', -, hσ⟩ := lost e hc
      rw [hj, hσ]
      exact ⟨(by rintro ⟨⟩), (by rintro ⟨⟩)⟩
  · change (u.judged slot).result = .error e at he
    change ∃ e', _ ∧ (_ → (u.judged slot).fair = true ∧ _)
    cases hc : jo.result with
    | ok c =>
      obtain ⟨hσ, fair, hj⟩ := given c hc
      rw [hj]
      cases hg : c.get key with
      | ok a =>
        rw [hσ, (Value.get_eq_ok_congr same c a).mpr hg] at he
        cases he
      | error e' =>
        refine ⟨e', rfl, fun _ => ⟨fair, ?_⟩⟩
        rcases new with rfl | failed
        · rw [hσ, hg] at he
          cases he
          exact .inl rfl
        · exact .inr (gives.calm hc e (failed e he))
    | error e' =>
      obtain ⟨hj, e'', hσ, he''⟩ := lost e' hc
      rw [he] at he''
      cases he''
      refine ⟨e', hj, fun hf => ?_⟩
      obtain ⟨e'', he'', same⟩ := gives.error e hσ
      rw [hc] at he''
      cases he''
      rw [judged, Judged.fair_bind_of_error hσ]
      exact same (Judged.fair_of_access hf).1
  · rcases hs.pending e he with pending | failed
    · refine (gives.pending e pending).imp_right fun failed => ?_
      change (u.judged slot).result = .error e
      rw [judged]
      exact Judged.result_bind_of_error failed
    · exact .inr failed

/-- An access to a constant stands for the access. -/
theorem Gives.const {c a key : Value} (hn : object = .const c) (calm : v'.Calm u)
    (hk : jk.result = .ok key) (ha : c.get key = .ok a)
    (known : O.program.Constant (.node id) a) :
    O.Gives v u id (.const a) (Judged.access jo jk) := by
  subst hn
  have hc : jo.result = .ok c := (gives.ok c).mp rfl
  have hj : (Judged.access jo jk).result = .ok a := by
    rw [Judged.result_access, hc, hk]
    exact ha
  refine ⟨known, fun b => ?_, by rintro e ⟨⟩, fun e he => .inl (gives.calm hc e (calm e he))⟩
  rw [hj]
  rfl

/-- Computations after the handle of an object that complete an access. -/
def Completes (O : Opening) (v v' : Trial) (id : NodeId) (jo jk : Judged Value)
    (x : CellM (Handle CellId)) : Prop :=
  ∃ (rest : Judged Value) (post : Trial → Trial → Handle CellId → Prop), O.Tries v' post x rest ∧
    (∀ e, v'.Errs rest e → v.Errs (Judged.access jo jk) e) ∧
    ∀ u h, v'.Onward u → post v' u h → O.Gives v u id h (Judged.access jo jk)

variable {x : CellM Value} (key : O.Follows v' Value.Ordered x jk)
include key

private theorem Gives.thenSlot {source : CellId} (hn : object = .cell source) :
    O.Completes v v' id jo jk (do return .cell (← internCell (.slot source (← x)))) := by
  subst hn
  refine ⟨jk, fun u u' h => ∃ key slot, jk.result = .ok key ∧ h = .cell slot ∧
    Slot u u' source key slot, ?_, ?_, ?_⟩
  · refine key.andThen (fun _ _ h => h) ?_
    rintro u u' key hu onward - ⟨hk, -, calm⟩
    have live := (hu.trans onward).live source gives.known
    refine ⟨pure .null, fun t t' h => ∃ slot, h = .cell slot ∧ Slot t t' source key slot, ?_,
      fun _ h => .inl (errs_pure h), ?_⟩
    · exact (tries_slot key live).map fun _ _ slot _ _ hs => ⟨slot, rfl, hs⟩
    · rintro t h - ⟨slot, rfl, hs⟩
      exact ⟨key, slot, hk, rfl, hs.before calm⟩
  · exact fun e h => gives.errs_access h (fun _ => .inl) fun hf => hf
  · rintro u h onward ⟨key, slot, hk, rfl, hs⟩
    exact gives.slot rfl onward hs hk

private theorem Gives.thenGet {c : Value} (hn : object = .const c)
    (known : ∀ k a, c.get k = .ok a → O.program.Constant (.node id) a) :
    O.Completes v v' id jo jk
      (do return .const (← MonadExcept.ofExcept (c.get (← x)))) := by
  subst hn
  have hc : jo.result = .ok c := (gives.ok c).mp rfl
  let get (k : Value) : Judged Value := MonadExcept.ofExcept (c.get k)
  refine ⟨jk >>= get, fun u u' h => ∃ key a, jk.result = .ok key ∧ c.get key = .ok a ∧
    h = .const a ∧ u.Calm u', ?_, ?_, ?_⟩
  · refine key.andThen (fun _ _ => errs_bind_first) ?_
    rintro u u' key - - - ⟨hk, -, calm⟩
    have got : O.Follows u' (fun a => c.get key = .ok a) (MonadExcept.ofExcept (c.get key))
        (get key) := (O.correspondence u').ofExcept (c.get key) fun _ ha => ha
    refine ⟨get key, fun t t' h => ∃ a, c.get key = .ok a ∧ h = .const a ∧ t.Calm t', got.map ?_,
      fun e => errs_bind hk calm, ?_⟩
    · rintro t t' a - - ⟨-, ha, calm'⟩
      exact ⟨a, ha, rfl, calm'⟩
    · rintro t h - ⟨a, ha, rfl, calm'⟩
      exact ⟨key, a, hk, ha, rfl, calm.trans calm'⟩
  · intro e h
    refine gives.errs_access h (fun e' he => ?_) fun hf => ?_
    · cases hk : jk.result with
      | error e'' =>
        rw [Judged.result_bind_of_error hk] at he
        exact .inl he
      | ok key =>
        rw [Judged.bind_of_ok hk] at he
        exact .inr ⟨c, key, hc, rfl, (Judged.result_ofExcept _).symm.trans he⟩
    · cases hk : jk.result with
      | error e'' => rw [Judged.fair_bind_of_error hk, hf]
      | ok key =>
        rw [Judged.bind_of_ok hk]
        exact Judged.fair_ofExcept _
  · rintro u h - ⟨key, a, hk, ha, rfl, calm⟩
    exact gives.const rfl calm hk ha (known key a ha)

end

/-! ### Nodes -/

/-- The cell of a node stands for the node. -/
theorem tries_cell {id : NodeId} {env : CellEnv CellId} {e : Pass.Env}
    (hm : w.Means O.program id env e) (only : ∀ b ∈ env, b.1 ∈ O.program.free id) :
    O.Tries w (fun v v' h => O.Gives v v' id h (O.judged id e))
      (do return .cell (← internCell (.node id env))) (O.judged id e) := by
  refine Tries.map (tries_node hm only) ?_
  rintro v v' cell - - ⟨live, judged, pending⟩
  have same : v'.sense (.cell cell) = O.judged id e := judged
  refine ⟨live, fun a => by rw [same], fun e he => ?_, pending⟩
  rw [same] at he ⊢
  exact ⟨e, he, fun hf => ⟨hf, .inl rfl⟩⟩

/-- A reference has its binding, with a context if it asks for it. -/
private theorem bound_reference {id : NodeId} {env : CellEnv CellId} {e : Pass.Env}
    (hm : w.Means O.program id env e) {kind : ReferenceKind} {l : LambdaId}
    (hn : (O.program.node id).reference? = some (kind, l)) :
    ∃ b c, CellEnv.lookup env l = .ok b ∧ (kind = .context → b.context.isSome) ∧
      Expr.find e.locals l = .ok c ∧ w.Binds O.program l b c := by
  obtain ⟨k, ⟨b, hb, hk⟩, hx⟩ := O.linked.covers_reference hm.serves.covers hn
  have free : l ∈ O.program.free id := by
    rw [O.linked.lawful.mem_free, Node.needs_iff_reads]
    exact .inl ⟨kind, hn, trivial⟩
  obtain ⟨c, hc, binds⟩ := hm.binds l free b hb
  exact ⟨b, c, hb, fun he => hk.trans (hx he), hc, binds⟩

private theorem handle_access {id o k : NodeId} (hn : O.program.node id = .get o k)
    (env : CellEnv CellId) : (access verify).handle O.program id env = (do
      let object ← (access verify).handle O.program o env
      let key ← (access verify).readNode O.program k env
      match object with
      | .cell source => return .cell (← internCell (.slot source key))
      | .const v => return .const (← MonadExcept.ofExcept (v.get key))) := by
  rw [CellAccess.handle_get _ O.linked.lawful hn]
  simp only [CellAccess.readNode, bind_assoc]
  refine bind_congr fun object => bind_congr fun _ => bind_congr fun key => ?_
  cases object <;> rfl

/-- The handle of a node stands for the node. -/
theorem tries_handle (hv : O.Verifies verify) {id : NodeId} {env : CellEnv CellId} {e : Pass.Env}
    (hm : w.Means O.program id env e) :
    O.Tries w (fun v v' h => O.Gives v v' id h (O.judged id e))
      ((access verify).handle O.program id env) (O.judged id e) := by
  induction id using Nat.strongRecOn generalizing w with
  | ind id ih =>
    have lawful := O.linked.lawful
    cases hn : O.program.node id with
    | literal v =>
      have hj : O.judged id e = pure v := Pass.judged_literal lawful hn
      rw [hj]
      simp only [CellAccess.handle, CellAccess.handleWithin, hn]
      exact Tries.pure fun u _ _ => Gives.settled (.literal hn) rfl rfl
    | root =>
      have hj : O.judged id e = pure O.model := Pass.judged_root lawful hn
      rw [hj]
      simp only [CellAccess.handle, CellAccess.handleWithin, hn]
      refine Tries.pure fun u _ sound => Gives.settled sound.live_model (a := O.model) ?_ rfl
      exact congrArg Judged.result sound.judged_model
    | val l =>
      obtain ⟨b, c, hb, -, hc, binds⟩ := bound_reference hm (by rw [hn]; rfl)
      have hj : O.judged id e = pure c.val := Pass.judged_val lawful hn hc
      rw [hj]
      simp only [CellAccess.handle, CellAccess.handleWithin, hn, hb]
      refine Tries.pure fun u hw _ => Gives.settled ?_ (binds.onward hw).val.result rfl
      exact (binds.onward hw).val.known.mono (fun _ h => h) fun _ => .val hn
    | key l =>
      obtain ⟨b, c, hb, -, hc, binds⟩ := bound_reference hm (by rw [hn]; rfl)
      have hj : O.judged id e = pure c.key := Pass.judged_key lawful hn hc
      rw [hj, ← binds.key]
      simp only [CellAccess.handle, CellAccess.handleWithin, hn, hb]
      exact Tries.pure fun u _ _ => Gives.settled (.key hn binds.isKey) rfl rfl
    | context l =>
      obtain ⟨b, c, hb, hx, hc, binds⟩ := bound_reference hm (by rw [hn]; rfl)
      obtain ⟨h, hh⟩ := Option.isSome_iff_exists.mp (hx rfl)
      obtain ⟨a, ha, stands⟩ : ∃ a, c.context = some a ∧ w.Stands O.program (.context l) h a := by
        have rel := binds.context
        rw [hh] at rel
        generalize c.context = y at rel
        cases rel with
        | some hs => exact ⟨_, rfl, hs⟩
      have hj : O.judged id e = pure a := Pass.judged_context lawful hn hc ha
      have context : CellEnv.context env l = .ok h := by
        simp [CellEnv.context, hb, hh, bind, Except.bind, pure, Except.pure]
      rw [hj]
      simp only [CellAccess.handle, CellAccess.handleWithin, hn, context]
      refine Tries.pure fun u hw _ => Gives.settled ?_ (stands.onward hw).result rfl
      exact (stands.onward hw).known.mono (fun _ h => h) fun _ => .context hn
    | get o k =>
      have hi : (O.program.node id).isIterate = false := by rw [hn]; rfl
      have mo : o ∈ (O.program.node id).children := by simp [hn, Node.children]
      have mk : k ∈ (O.program.node id).children := by simp [hn, Node.children]
      have hj : O.judged id e = Judged.access (O.judged o e) (O.judged k e) :=
        Pass.judged_get lawful hn
      rw [hj, handle_access hn]
      refine (ih o (lawful.child_lt id o mo) (hm.part O.linked hi mo)).andThen
        (fun _ _ => errs_object) ?_
      intro v v' object hw onward _ gives
      have means := (hm.part O.linked hi mk).onward (hw.trans onward)
      have key : O.Follows v' Value.Ordered ((access verify).readNode O.program k env)
          (O.judged k e) := Tries.read hv (ih k (lawful.child_lt id k mk) means)
      cases object with
      | cell source => exact gives.thenSlot key rfl
      | const c => exact gives.thenGet key rfl fun _ _ => .part hn gives.known
    | _ =>
      have cell := tries_cell hm.restrict hm.serves.exact_restrict.only
      simp only [CellAccess.handle, CellAccess.handleWithin, hn]
      exact cell

end Recalc.Opening
