import Recalc.Proofs.Path.Lens

/-! Splicing an array within a document. The bounds of a splice stay within the array whatever start
and count are asked for, and what was removed can be spliced back. -/
namespace Recalc.Path
open Value

/-! ### Splicing a list -/

/-- A start before the front is the front, and one after the end is the end. -/
theorem spliceStart_eq (n : Nat) (start : Int) :
    spliceStart n start = (if start < 0 then max 0 (n + start) else min start n).toNat := by
  unfold spliceStart
  split <;> omega

private theorem spliceStart_le (n : Nat) (start : Int) : spliceStart n start ≤ n := by
  unfold spliceStart
  split <;> omega

private theorem spliceStart_nat {n i : Nat} (h : i ≤ n) : spliceStart n i = i := by
  unfold spliceStart
  split <;> omega

/-- Splicing back what a splice has removed, in the place of what it has inserted. -/
theorem spliceItems_back (items inserted : List Value) (start : Int) (deleted : Nat) :
    let first := spliceStart items.length start
    let count := min deleted (items.length - first)
    spliceItems (spliceItems items start deleted inserted) first inserted.length
      ((items.drop first).take count) = items := by
  intro first count
  have low : first ≤ items.length := spliceStart_le _ _
  have high : first + count ≤ items.length := by omega
  have spliced : spliceItems items start deleted inserted =
      items.take first ++ (inserted ++ items.drop (first + count)) := List.append_assoc _ _ _
  have front : (items.take first).length = first := List.length_take_of_le low
  have length : (spliceItems items start deleted inserted).length =
      first + (inserted.length + (items.length - (first + count))) := by
    rw [spliced, List.length_append, List.length_append, List.length_drop, front]
  have bound : spliceStart (spliceItems items start deleted inserted).length first = first :=
    spliceStart_nat (by omega)
  have all : min inserted.length ((spliceItems items start deleted inserted).length - first) =
      inserted.length := by omega
  rw [spliceItems, bound, all, spliced, List.take_left' front, List.append_assoc,
    ← List.drop_drop, List.drop_left' front, List.drop_left, ← List.drop_drop,
    List.take_append_drop, List.take_append_drop]

/-! ### Splicing in a document -/

variable {root next : Value} {ps : List Site} {old : List Value}

/-- A splice succeeds exactly when the keys lead to an array, and splices that array. -/
theorem splice_eq_ok {keys inserted : List Value} {start : Int} {deleted : Nat} :
    splice root keys start deleted inserted = .ok next ↔
      ∃ ps old, sites? root keys = some ps ∧ root.at? ps = some (arr old) ∧
        next = root.replace ps (arr (spliceItems old start deleted inserted)) := by
  rw [splice, modify_eq_ok]
  constructor
  · rintro ⟨ps, c, c', sites, hc, changed, rfl⟩
    cases c with
    | arr old =>
      cases changed
      exact ⟨ps, old, sites, hc, rfl⟩
    | _ => cases changed
  · rintro ⟨ps, old, sites, hc, rfl⟩
    exact ⟨ps, arr old, _, sites, hc, rfl, rfl⟩

/-- Splicing has the semantics of splicing a list, for all arguments, and can be undone. It fails
exactly when the keys do not lead to an array. The bounds stay within the array, so no sum that is
formed leaves the 64-bit integers. Apart from the array nothing changes, and the containers above it
keep their kind and size. -/
theorem splice_exact (root : OrderedValue) (keys : List Value) (start : Int) (deleted : Nat)
    (inserted : List Value) :
    ((∃ e, splice root keys start deleted inserted = .error e) ↔
      ¬ ∃ old, locate? root keys = some (arr old)) ∧
    ∀ ps old, sites? root keys = some ps → root.val.at? ps = some (arr old) →
      let n := old.length
      let f := (if start < 0 then max 0 (n + start) else min start n).toNat
      let d := min deleted (n - f)
      (f ≤ n ∧ f + d ≤ n ∧ (Word.fits start = true → Word.fits n = true → start < 0 →
        Word.fits (n + start) = true)) ∧
      ∃ next, splice root keys start deleted inserted = .ok next ∧
        locate? next keys = some (arr (old.take f ++ inserted ++ old.drop (f + d))) ∧
        (∀ qs, Apart ps qs → next.at? qs = root.val.at? qs) ∧
        (∀ qs c, root.val.at? qs = some c → ¬ ps <+: qs →
          ∃ c', next.at? qs = some c' ∧ c'.kind = c.kind ∧ c'.length? = c.length?) ∧
        splice next keys f inserted.length ((old.drop f).take d) = .ok root := by
  obtain ⟨root, hr⟩ := root
  constructor
  · rw [except_exists_error, not_iff_not]
    constructor
    · rintro ⟨next, spliced⟩
      obtain ⟨ps, old, sites, hold, -⟩ := splice_eq_ok.mp spliced
      exact ⟨old, locate?_eq_some.mpr ⟨ps, sites, hold⟩⟩
    · rintro ⟨old, located⟩
      obtain ⟨ps, sites, hold⟩ := locate?_eq_some.mp located
      exact ⟨_, splice_eq_ok.mpr ⟨ps, old, sites, hold, rfl⟩⟩
  · intro ps old sites hold n f d
    have start_eq : f = spliceStart n start := (spliceStart_eq n start).symm
    clear_value f
    subst start_eq
    have low : spliceStart n start ≤ n := spliceStart_le _ _
    have admits := admits_of_at? hold
    let new := arr (spliceItems old start deleted inserted)
    have there : (root.replace ps new).at? ps = some new := at?_replace admits
    have stays : sites? (root.replace ps new) keys = some ps :=
      sites?_replace admits sites (.inl List.prefix_rfl)
    refine ⟨⟨low, by omega, ?_⟩, root.replace ps new, splice_eq_ok.mpr ⟨ps, old, sites, hold, rfl⟩,
      locate?_eq_some.mpr ⟨ps, stays, there⟩, fun qs apart => at?_replace_of_apart admits apart,
      fun qs c hc outside => ?_, ?_⟩
    · simp only [Word.fits, Bool.and_eq_true, decide_eq_true_eq]
      unfold Word.least Word.greatest
      omega
    · obtain ⟨c', hc', kind, size⟩ := length?_replace (w := new) hr admits hc outside
      refine ⟨c', hc', kind, ?_⟩
      simpa [hold] using size
    · refine splice_eq_ok.mpr ⟨ps, _, stays, there, ?_⟩
      rw [spliceItems_back, replace_replace admits, replace_at hr hold]

/-- The least start and the greatest count that 64 bits hold clear the array. -/
theorem splice_exact_shelf : ∃ next, splice shelf [.str "parts", .str "1"] Word.least
      (Word.capacity - 1) [.null, .str "a"] = .ok next ∧
    locate? next [.str "parts", .str "1"] = some (.arr [.null, .str "a"]) ∧
    next.at? [.field "parts", .index 0] = shelf.val.at? [.field "parts", .index 0] ∧
    splice next [.str "parts", .str "1"] 0 2 [.int 2] = .ok shelf ∧
    ∃ e, splice shelf [.str "note"] 0 0 [] = .error e := by
  have exact := splice_exact shelf [.str "parts", .str "1"] Word.least
    (Word.capacity - 1) [.null, .str "a"]
  obtain ⟨-, next, spliced, located, apart, -, back⟩ :=
    exact.2 [.field "parts", .index 1] [.int 2] rfl rfl
  refine ⟨next, spliced, located, apart _ (.step (.here (by decide))), back, ?_⟩
  refine (splice_exact shelf [.str "note"] 0 0 []).1.mpr ?_
  rintro ⟨old, ⟨⟩⟩

end Recalc.Path
