import Recalc.Proofs.Pass.Memory

/-! A pass from scratch follows evaluation over origins: it gives the meaning of each node, or both
fail, and all calls that the meaning needs are made. -/
namespace Recalc.Pass.Setting
open Origin

variable (E : Setting) {α β : Type}

/-- What following a reading leads to. -/
def Follows (a : Log) (P : Log → α → Prop) (y : Reading α) : Except EvalError α × State → Prop
  | (.ok v, t) => ∃ b, a.Later b ∧ E.Remembers t b ∧ y.run E.meaning = .ok v ∧ P b v ∧
      ∀ o ∈ y.reads E.meaning, E.Covered b.called o
  | (.error _, _) => ∃ e, y.run E.meaning = .error e

/-- A computation of a pass follows a reading from all logs later than a given one. -/
def Sim (a : Log) (P : Log → α → Prop) (x : PassM α) (y : Reading α) : Prop :=
  ∀ s b, a.Later b → E.Remembers s b → E.Follows b P y (x.run s)

/-- The value of the class that both sides give. -/
def Within (P : α → Prop) (_ : Log) (v : α) : Prop := P v

variable {E} {a b : Log} {P : Log → α → Prop} {Q : Log → β → Prop}

theorem Follows.later {y : Reading α} {r : Except EvalError α × State} (h : E.Follows b P y r)
    (hl : a.Later b) : E.Follows a P y r := by
  obtain ⟨result, t⟩ := r
  cases result with
  | error e => exact h
  | ok v =>
    obtain ⟨c, hc, hrest⟩ := h
    exact ⟨c, hl.trans hc, hrest⟩

theorem Sim.later {x : PassM α} {y : Reading α} (h : E.Sim a P x y) (hl : a.Later b) :
    E.Sim b P x y := fun s c hc => h s c (hl.trans hc)

theorem Sim.mono {P' : Log → α → Prop} {x : PassM α} {y : Reading α} (h : E.Sim a P x y)
    (hP : ∀ b v, P b v → P' b v) : E.Sim a P' x y := by
  intro s b hl hr
  have hf := h s b hl hr
  rcases hrun : x.run s with ⟨r, t⟩
  rw [hrun] at hf
  cases r with
  | error e => exact hf
  | ok v =>
    obtain ⟨c, hc, hr', hv, hp, hcover⟩ := hf
    exact ⟨c, hc, hr', hv, hP c v hp, hcover⟩

theorem Sim.pure {v : α} (h : ∀ b, a.Later b → P b v) : E.Sim a P (pure v) (pure v) :=
  fun _ b hl hr => ⟨b, .refl b, hr, rfl, h b hl, by simp⟩

theorem Sim.throw (e : EvalError) : E.Sim a P (throw e : PassM α) (throw e : Reading α) :=
  fun _ _ _ _ => ⟨e, rfl⟩

/-- Two computations in sequence follow a reading that fails with the first part followed, and goes
on as the second part followed. -/
theorem Sim.andThen {x : PassM α} {f : α → PassM β} {y : Reading α} {z : Reading β}
    (hx : E.Sim a P x y)
    (fails : ∀ e, y.run E.meaning = .error e → ∃ e, z.run E.meaning = .error e)
    (goes : ∀ b v, a.Later b → P b v → y.run E.meaning = .ok v →
      (∀ o ∈ y.reads E.meaning, E.Covered b.called o) →
      ∃ rest : Reading β, E.Sim b Q (f v) rest ∧ z.run E.meaning = rest.run E.meaning ∧
        ∀ o ∈ z.reads E.meaning, o ∈ y.reads E.meaning ∨ o ∈ rest.reads E.meaning) :
    E.Sim a Q (x >>= f) z := by
  intro s b hl hr
  have first := hx s b hl hr
  rcases hrun : x.run s with ⟨r, t⟩
  rw [hrun] at first
  cases r with
  | error e =>
    obtain ⟨e', he⟩ := first
    rw [run_bind_error hrun]
    exact fails e' he
  | ok v =>
    obtain ⟨c, hc, hr', hv, hP, hcover⟩ := first
    obtain ⟨rest, hrest, hsame, hreads⟩ := goes c v (hl.trans hc) hP hv hcover
    have second := hrest t c (.refl c) hr'
    rw [run_bind_ok hrun]
    rcases hrun' : (f v).run t with ⟨r, u⟩
    rw [hrun'] at second
    cases r with
    | error e =>
      obtain ⟨e', he⟩ := second
      exact ⟨e', hsame.trans he⟩
    | ok w =>
      obtain ⟨d, hd, hr'', hw, hQ, hcover'⟩ := second
      refine ⟨d, hc.trans hd, hr'', hsame.trans hw, hQ, fun o ho => ?_⟩
      rcases hreads o ho with ho | ho
      · exact (hcover o ho).mono hd.called
      · exact hcover' o ho

theorem Sim.bind {x : PassM α} {y : Reading α} {f : α → PassM β} {g : α → Reading β}
    (hx : E.Sim a P x y) (hf : ∀ b v, a.Later b → P b v → E.Sim b Q (f v) (g v)) :
    E.Sim a Q (x >>= f) (y >>= g) := by
  refine hx.andThen (fun e he => ⟨e, Reading.run_bind_of_error he⟩) fun b v hl hP hv _ =>
    ⟨g v, hf b v hl hP, Reading.run_bind_of_ok hv, fun o ho => ?_⟩
  rw [Reading.reads_bind_of_ok hv] at ho
  exact List.mem_append.mp ho

variable (E) in
/-- Following, from one log, as a relation between computations with the same results. -/
def correspondence (a : Log) : Correspondence PassM Reading where
  rel P x y := E.Sim a (Within P) x y
  pure h := Sim.pure fun _ _ => h
  bind hx hf := hx.bind fun _ v hl hP => (hf v hP).later hl
  throw e := Sim.throw e

/-! ### Handles -/

variable (E) in
/-- A handle has a value, and all calls for it have been made. -/
structure Holds (a : Log) (h : Handle Origin) (v : Value) : Prop where
  run : (access.read h).run E.meaning = .ok v
  covered : ∀ o ∈ (access.read h).reads E.meaning, E.Covered a.called o

theorem holds_cell {o : Origin} {v : Value} :
    E.Holds a (.cell o) v ↔ E.meaning o = .ok v ∧ E.Covered a.called o := by
  refine ⟨fun ⟨hr, hc⟩ => ⟨?_, hc o (by simp)⟩, fun ⟨hr, hc⟩ => ⟨?_, ?_⟩⟩
  · rwa [run_read_cell] at hr
  · rwa [run_read_cell]
  · simpa using hc

theorem Holds.later {h : Handle Origin} {v : Value} (hh : E.Holds a h v) (hl : a.Later b) :
    E.Holds b h v := ⟨hh.run, fun o ho => (hh.covered o ho).mono hl.called⟩

theorem holds_context_later {h : Option (Handle Origin)} {v : Option Value}
    (hh : Option.Rel (E.Holds a) h v) (hl : a.Later b) : Option.Rel (E.Holds b) h v := by
  cases hh with
  | none => exact .none
  | some hh => exact .some (hh.later hl)

theorem Holds.mem {h : Handle Origin} {v : Value} (hh : E.Holds a h v)
    (hw : h.Within (In E.domain) E.domain) : E.domain v :=
  Origin.read_mem E.lawful E.closed E.model_mem hw hh.run

theorem Sim.handle {x : PassM Value} {f : Value → PassM β} {g : Handle Origin → Value → Reading β}
    {P : Log → Value → Prop} {id : NodeId} {env : CellEnv Origin}
    (hx : E.Sim a P x (access.readNode E.program id env))
    (hf : ∀ b h v, a.Later b → P b v → (access.handle E.program id env).run E.meaning = .ok h →
      E.Holds b h v → E.Sim b Q (f v) (g h v)) :
    E.Sim a Q (x >>= f) (do
      let h ← access.handle E.program id env
      let v ← access.read h
      g h v) := by
  refine hx.andThen (fun e he => ⟨e, run_handle_error he _⟩) fun b v hl hP hv hcover => ?_
  obtain ⟨h, hh, hv⟩ := Reading.run_bind_ok.mp hv
  have hreads : (access.readNode E.program id env).reads E.meaning =
      (access.handle E.program id env).reads E.meaning ++ (access.read h).reads E.meaning :=
    Reading.reads_bind_of_ok hh
  rw [hreads] at hcover ⊢
  refine ⟨g h v, hf b h v hl hP hh ⟨hv, fun o ho => hcover o (List.mem_append_right _ ho)⟩, ?_,
    fun o ho => ?_⟩
  · rw [Reading.run_bind_of_ok hh, Reading.run_bind_of_ok hv]
  · rw [Reading.reads_bind_of_ok hh, Reading.reads_bind_of_ok hv, ← List.append_assoc] at ho
    exact List.mem_append.mp ho

/-! ### Bindings -/

variable (E) in
/-- A binding of the pass and one over origins stand for the same. -/
structure Pairs (a : Log) (l : LambdaId) (b : Binding) (c : CellBinding Origin) : Prop where
  number : a.bindings[b.id]? = some (l, c)
  val : E.Holds a c.val b.val
  key : c.key = b.key
  context : Option.Rel (E.Holds a) c.context b.context

theorem Pairs.later {l : LambdaId} {c : Binding} {d : CellBinding Origin} (h : E.Pairs a l c d)
    (hl : a.Later b) : E.Pairs b l c d where
  number := hl.binding h.number
  val := h.val.later hl
  key := h.key
  context := holds_context_later h.context hl

variable (E) in
/-- The bindings that a node reads are the same on both sides. -/
structure Matches (a : Log) (env : Env) (cells : CellEnv Origin) (id : NodeId) : Prop where
  sorted : cells.Sorted
  within : cells.Within (In E.domain) E.domain
  bound : ∀ l ∈ E.program.free id, ∃ b c, Env.find? env l = some b ∧
    CellEnv.lookup cells l = .ok c ∧ E.Pairs a l b c

variable {env : Env} {cells : CellEnv Origin} {id : NodeId}

theorem Matches.later (h : E.Matches a env cells id) (hl : a.Later b) : E.Matches b env cells id :=
  ⟨h.sorted, h.within, fun l hm =>
    have ⟨c, d, hc, hd, hp⟩ := h.bound l hm
    ⟨c, d, hc, hd, hp.later hl⟩⟩

theorem Matches.part (h : E.Matches a env cells id) {c : NodeId}
    (hf : ∀ l ∈ E.program.free c, l ∈ E.program.free id) : E.Matches a env cells c :=
  ⟨h.sorted, h.within, fun l hm => h.bound l (hf l hm)⟩

theorem Matches.restrict (h : E.Matches a env cells id) :
    E.Matches a env (CellEnv.restrict E.program id cells) id :=
  ⟨CellEnv.sorted_restrict h.sorted _ _, h.within.restrict _ _, fun l hm => by
    rw [CellEnv.lookup_restrict hm]
    exact h.bound l hm⟩

theorem Matches.stands (h : E.Matches a env cells id) :
    a.Stands cells (E.program.free id) (bindingsRead E.program id env) := by
  have all (ls : List LambdaId) (hb : ∀ l ∈ ls, ∃ b c, Env.find? env l = some b ∧
      CellEnv.lookup cells l = .ok c ∧ E.Pairs a l b c) :
      a.Stands cells ls (ls.filterMap fun l => (Env.find? env l).map Binding.id) := by
    induction ls with
    | nil => exact .nil
    | cons l rest ih =>
      obtain ⟨b, c, hb', hc, hp⟩ := hb l List.mem_cons_self
      rw [List.filterMap_cons_some (b := b.id) (by simp [hb'])]
      exact .cons ⟨c, hc, hp.number⟩ (ih fun l hl => hb l (List.mem_cons_of_mem _ hl))
  exact all _ h.bound

/-- Binding a function on both sides. -/
theorem Matches.bind {lambda : LambdaId} {body : NodeId} (h : E.Matches a env cells id)
    (hf : ∀ l ∈ E.program.free body, l ≠ lambda → l ∈ E.program.free id) {c : Binding}
    {d : CellBinding Origin} (hl : c.lambda = lambda) (hp : E.Pairs a lambda c d)
    (hw : d.Within (In E.domain) E.domain) :
    E.Matches a (c :: env) (CellEnv.bind cells lambda d) body where
  sorted := CellEnv.sorted_bind h.sorted
  within := h.within.bind hw
  bound l hm := by
    by_cases he : l = lambda
    · subst he
      refine ⟨c, d, by simp [Env.find?, hl], ?_, hp⟩
      rw [CellEnv.lookup_bind h.sorted, if_pos rfl]
    · obtain ⟨c', d', hc, hd, hp'⟩ := h.bound l (hf l hm he)
      refine ⟨c', d', ?_, ?_, hp'⟩
      · rw [Env.find?, List.find?_cons_of_neg (by simpa [hl] using Ne.symm he)]
        exact hc
      · rw [CellEnv.lookup_bind h.sorted, if_neg he]
        exact hd

end Recalc.Pass.Setting
