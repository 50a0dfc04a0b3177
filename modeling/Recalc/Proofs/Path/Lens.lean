import Recalc.Proofs.Path.Sites

/-! Writing at keys replaces what is at the location that they address. So it has the laws of a lens:
what is written is read, what is apart stays, and of two writes the later counts. -/
namespace Recalc.Path
open Value
variable {root v w c next : Value} {ps qs : List Site} {key : Value} {keys walked : List Value}
  {change : Value → Except PathError Value}

private theorem fieldName_eq_ok {name : String} {fields : List (String × Value)} :
    fieldName key = .ok name ↔ (obj fields).site? key = some (.field name) := by
  rw [fieldName, site?]
  cases key.keyText? with
  | none => exact ⟨(by rintro ⟨⟩), (by rintro ⟨⟩)⟩
  | some text => simp

private theorem position_eq_ok {i : Nat} {items : List Value} :
    position key = .ok i ↔ (arr items).site? key = some (.index i) := by
  rw [position, site?]
  cases key.arrayIndex? with
  | none => exact ⟨(by rintro ⟨⟩), (by rintro ⟨⟩)⟩
  | some n =>
    by_cases nonneg : 0 ≤ n
    · simp [nonneg]
    · simp [nonneg]

/-- One step of a change: the key addresses a site, and what is there is changed. -/
theorem modify_cons_eq_ok : modify change walked (key :: keys) v = .ok next ↔
    ∃ p c c', v.site? key = some p ∧ v.part? p = some c ∧
      modify change (walked ++ [key]) keys c = .ok c' ∧ next = v.withPart p c' := by
  cases v with
  | obj fields =>
    rw [modify, except_bind_eq_ok]
    constructor
    · rintro ⟨name, hn, h⟩
      cases hg : Fields.get? name fields with
      | none =>
        rw [hg] at h
        cases h
      | some child =>
        rw [hg] at h
        obtain ⟨changed, hm, h⟩ := except_bind_eq_ok.mp h
        cases h
        exact ⟨.field name, child, changed, fieldName_eq_ok.mp hn, hg, hm, rfl⟩
    · rintro ⟨p, child, changed, site, part, hm, rfl⟩
      obtain ⟨name, -, rfl⟩ := Option.map_eq_some_iff.mp site
      refine ⟨name, fieldName_eq_ok.mpr site, ?_⟩
      rw [show Fields.get? name fields = some child from part]
      exact except_bind_eq_ok.mpr ⟨changed, hm, rfl⟩
  | arr items =>
    rw [modify, except_bind_eq_ok]
    constructor
    · rintro ⟨i, hi, h⟩
      cases hg : items[i]? with
      | none =>
        rw [hg] at h
        cases h
      | some child =>
        rw [hg] at h
        obtain ⟨changed, hm, h⟩ := except_bind_eq_ok.mp h
        cases h
        refine ⟨.index i, child, changed, position_eq_ok.mp hi, hg, hm, ?_⟩
        rw [withPart, if_pos (List.getElem?_eq_some_iff.mp hg).1]
    · rintro ⟨p, child, changed, site, part, hm, rfl⟩
      obtain ⟨i, -, rfl⟩ := Option.map_eq_some_iff.mp site
      refine ⟨i.toNat, position_eq_ok.mpr site, ?_⟩
      have part : items[i.toNat]? = some child := part
      rw [part, withPart, if_pos (List.getElem?_eq_some_iff.mp part).1]
      exact except_bind_eq_ok.mpr ⟨changed, hm, rfl⟩
  | _ =>
    constructor
    · rintro ⟨⟩
    · rintro ⟨p, child, changed, ⟨⟩, -⟩

/-- A change at keys succeeds exactly when they lead somewhere and the change there succeeds. It
replaces what is there. -/
theorem modify_eq_ok : modify change walked keys root = .ok next ↔
    ∃ ps c c', sites? root keys = some ps ∧ root.at? ps = some c ∧ change c = .ok c' ∧
      next = root.replace ps c' := by
  induction keys generalizing root next walked with
  | nil =>
    constructor
    · intro h
      exact ⟨[], root, next, rfl, rfl, h, rfl⟩
    · rintro ⟨ps, c, c', ⟨⟩, ⟨⟩, h, rfl⟩
      exact h
  | cons key keys ih =>
    rw [modify_cons_eq_ok]
    constructor
    · rintro ⟨p, d, d', site, part, h, rfl⟩
      obtain ⟨ps, c, c', sites, hc, changed, rfl⟩ := ih.mp h
      refine ⟨p :: ps, c, c', sites?_cons.mpr ⟨p, ps, site, ?_, rfl⟩, ?_, changed, ?_⟩
      · rwa [part]
      · rwa [at?, part]
      · rw [replace, part, Option.getD_some]
    · rintro ⟨ps, c, c', sites, hc, h, rfl⟩
      obtain ⟨p, rest, site, below, rfl⟩ := sites?_cons.mp sites
      obtain ⟨d, part, hc⟩ := Option.bind_eq_some_iff.mp hc
      rw [part] at below
      have inner : modify change (walked ++ [key]) keys d = .ok (d.replace rest c') :=
        ih.mpr ⟨rest, c, c', below, hc, h, rfl⟩
      refine ⟨p, d, d.replace rest c', site, part, inner, ?_⟩
      rw [replace, part, Option.getD_some]

private theorem put_eq_ok {parents : List Value} : put parents key w c = .ok next ↔
    ∃ p, c.site? key = some p ∧ c.offers p = true ∧ next = c.withPart p w := by
  cases c with
  | obj fields =>
    rw [put, except_bind_eq_ok]
    constructor
    · rintro ⟨name, hn, h⟩
      cases h
      exact ⟨.field name, fieldName_eq_ok.mp hn, rfl, rfl⟩
    · rintro ⟨p, site, -, rfl⟩
      obtain ⟨name, -, rfl⟩ := Option.map_eq_some_iff.mp site
      exact ⟨name, fieldName_eq_ok.mpr site, rfl⟩
  | arr items =>
    rw [put, except_bind_eq_ok]
    constructor
    · rintro ⟨i, hi, h⟩
      refine ⟨.index i, position_eq_ok.mp hi, ?_⟩
      simp only [offers, withPart, decide_eq_true_eq]
      split at h
      · rename_i lt
        cases h
        exact ⟨Nat.le_of_lt lt, by rw [if_pos lt]⟩
      · split at h
        · rename_i ge same
          cases h
          exact ⟨Nat.le_of_eq same, by rw [if_neg ge]⟩
        · cases h
    · rintro ⟨p, site, offers, rfl⟩
      obtain ⟨i, -, rfl⟩ := Option.map_eq_some_iff.mp site
      have le : i.toNat ≤ items.length := of_decide_eq_true offers
      refine ⟨i.toNat, position_eq_ok.mpr site, ?_⟩
      by_cases lt : i.toNat < items.length
      · simp only [withPart, if_pos lt]
        rfl
      · simp only [withPart, if_neg lt, if_pos (show i.toNat = items.length by omega)]
        rfl
  | _ =>
    constructor
    · rintro ⟨⟩
    · rintro ⟨p, ⟨⟩, -⟩

/-- A write succeeds exactly when the keys address a location that can be written. It replaces what
is there. -/
theorem set_eq_ok : set root keys w = .ok next ↔
    ∃ ps, sites? root keys = some ps ∧ root.admits ps = true ∧ next = root.replace ps w := by
  rcases List.eq_nil_or_concat keys with rfl | ⟨parents, key, rfl⟩
  · constructor
    · rintro ⟨⟩
      exact ⟨[], rfl, rfl, rfl⟩
    · rintro ⟨ps, ⟨⟩, -, rfl⟩
      rfl
  · have written : set root (parents ++ [key]) w = modify (put parents key w) [] parents root := by
      simp [set]
    rw [List.concat_eq_append, written, modify_eq_ok]
    constructor
    · rintro ⟨ps, c, c', sites, hc, h, rfl⟩
      obtain ⟨p, site, offers, rfl⟩ := put_eq_ok.mp h
      refine ⟨ps ++ [p], sites?_append_cons.mpr ⟨ps, c, p, [], sites, hc, site, rfl, rfl⟩, ?_, ?_⟩
      · rw [admits_append hc, admits, offers]
        rfl
      · rw [replace_append hc]
        rfl
    · rintro ⟨qs, whole, admits, rfl⟩
      obtain ⟨ps, c, p, rest, sites, hc, site, ⟨⟩, rfl⟩ := sites?_append_cons.mp whole
      rw [admits_append hc] at admits
      refine ⟨ps, c, c.withPart p w, sites, hc, put_eq_ok.mpr ⟨p, site, ?_, rfl⟩, ?_⟩
      · exact (admits_cons.mp admits).1
      · rw [replace_append hc]
        rfl

/-- Keys at which nothing can be written: what is above is not there, or is no container, or a key is
of no use in it, or the last position is beyond the end of its array. -/
inductive Unwritable (root : Value) : List Value → Prop
  | missing {front rest : List Value} {key : Value} : locate? root front = none →
      Unwritable root (front ++ key :: rest)
  | scalar {parents : List Value} {key c : Value} : locate? root parents = some c →
      c.length? = none → Unwritable root (parents ++ [key])
  | unusable {front rest : List Value} {key c : Value} : locate? root front = some c →
      c.length? ≠ none → c.site? key = none → Unwritable root (front ++ key :: rest)
  | beyond {parents items : List Value} {key : Value} {i : Nat} :
      locate? root parents = some (arr items) → (arr items).site? key = some (.index i) →
      items.length < i → Unwritable root (parents ++ [key])

private theorem unwritable_iff : Unwritable root keys ↔
    ¬ ∃ ps, sites? root keys = some ps ∧ root.admits ps = true := by
  constructor
  · rintro unwritable ⟨qs, whole, admits⟩
    cases unwritable with
    | missing absent =>
      obtain ⟨ps, c, p, rest, sites, hc, -⟩ := sites?_append_cons.mp whole
      rw [locate?_eq_some.mpr ⟨ps, sites, hc⟩] at absent
      cases absent
    | scalar located scalar =>
      obtain ⟨ps, c, p, rest, sites, hc, site, -⟩ := sites?_append_cons.mp whole
      rw [locate?_eq_some.mpr ⟨ps, sites, hc⟩] at located
      cases located
      exact length?_ne_none site scalar
    | unusable located _ useless =>
      obtain ⟨ps, c, p, rest, sites, hc, site, -⟩ := sites?_append_cons.mp whole
      rw [locate?_eq_some.mpr ⟨ps, sites, hc⟩] at located
      cases located
      rw [useless] at site
      cases site
    | beyond located index far =>
      obtain ⟨ps, c, p, rest, sites, hc, site, -, rfl⟩ := sites?_append_cons.mp whole
      rw [locate?_eq_some.mpr ⟨ps, sites, hc⟩] at located
      cases located
      rw [index] at site
      cases site
      rw [admits_append hc] at admits
      exact Nat.not_le_of_lt far (of_decide_eq_true (admits_cons.mp admits).1)
  · intro closed
    rcases List.eq_nil_or_concat keys with rfl | ⟨parents, key, rfl⟩
    · exact absurd ⟨[], rfl, rfl⟩ closed
    rw [List.concat_eq_append] at closed ⊢
    cases located : locate? root parents with
    | none => exact .missing located
    | some c =>
      cases size : c.length? with
      | none => exact .scalar located size
      | some n =>
        cases site : c.site? key with
        | none => exact .unusable located (by simp [size]) site
        | some p =>
          obtain ⟨ps, sites, hc⟩ := locate?_eq_some.mp located
          have refused : ¬ c.offers p = true := by
            intro offers
            refine closed ⟨ps ++ [p], sites?_append_cons.mpr
              ⟨ps, c, p, [], sites, hc, site, rfl, rfl⟩, ?_⟩
            rw [admits_append hc, admits, offers]
            rfl
          cases c with
          | obj fields =>
            obtain ⟨name, -, rfl⟩ := Option.map_eq_some_iff.mp site
            exact absurd rfl refused
          | arr items =>
            obtain ⟨i, -, rfl⟩ := Option.map_eq_some_iff.mp site
            refine .beyond located site (Nat.lt_of_not_le fun le => refused ?_)
            exact decide_eq_true le
          | _ => cases site

/-- Writing is lawful. It fails exactly at keys that are unwritable. After a write, access with the
keys gives what was written, and access with keys that lead elsewhere gives what it gave before. No
container changes its size, but that the last one grows by one if there was nothing at the keys. A
second write leads where it would have led alone. -/
theorem set_lens (root : OrderedValue) (keys : List Value) (w : Value) :
    ((∃ e, set root keys w = .error e) ↔ Unwritable root keys) ∧
    ∀ next, set root keys w = .ok next → ∃ ps, sites? root keys = some ps ∧
      read next keys = .ok w ∧
      (∀ js qs u, sites? root js = some qs → root.val.at? qs = some u → Apart ps qs →
        read root js = .ok u ∧ read next js = .ok u) ∧
      (∀ qs c, root.val.at? qs = some c → ¬ ps <+: qs → ∃ c', next.at? qs = some c' ∧
        c'.kind = c.kind ∧ c'.length? =
          c.length?.map (· + if qs = ps.dropLast ∧ root.val.at? ps = none then 1 else 0)) ∧
      ∀ w', ∃ last, set next keys w' = .ok last ∧ set root keys w' = .ok last := by
  obtain ⟨root, hr⟩ := root
  constructor
  · rw [unwritable_iff, except_exists_error, not_iff_not]
    constructor
    · rintro ⟨next, written⟩
      obtain ⟨ps, sites, admits, -⟩ := set_eq_ok.mp written
      exact ⟨ps, sites, admits⟩
    · rintro ⟨ps, sites, admits⟩
      exact ⟨_, set_eq_ok.mpr ⟨ps, sites, admits, rfl⟩⟩
  · intro next written
    obtain ⟨ps, sites, admits, rfl⟩ := set_eq_ok.mp written
    have stays : sites? (root.replace ps w) keys = some ps :=
      sites?_replace admits sites (.inl List.prefix_rfl)
    refine ⟨ps, sites, read_of_sites? stays (at?_replace admits), ?_, ?_, fun w' => ?_⟩
    · intro js qs u elsewhere hu apart
      have kept := (at?_replace_of_apart (w := w) admits apart).trans hu
      exact ⟨read_of_sites? elsewhere hu,
        read_of_sites? (sites?_replace admits elsewhere (.inr apart)) kept⟩
    · exact fun qs c hc outside => length?_replace hr admits hc outside
    · have again : (root.replace ps w).admits ps = true := admits_of_at? (at?_replace admits)
      refine ⟨root.replace ps w', ?_, set_eq_ok.mpr ⟨ps, sites, admits, rfl⟩⟩
      exact set_eq_ok.mpr ⟨ps, stays, again, (replace_replace admits).symm⟩

/-- A list of parts and a note. -/
def shelf : OrderedValue :=
  ⟨.obj [("note", .null), ("parts", .arr [.obj [("x", .int 1)], .arr [.int 2]])], by decide⟩

/-- A new field in the first part. The position is given as text and the field as a number. -/
def shelfKeys : List Value := [.str "parts", .str "+0", .int 7]

theorem set_lens_shelf : ∃ next, set shelf shelfKeys (.bool true) = .ok next ∧
    read next shelfKeys = .ok (.bool true) ∧
    read next [.str "parts", .int 1, .int 0] = .ok (.int 2) ∧
    (∃ c, next.at? [.field "parts", .index 0] = some c ∧ c.length? = some 2) ∧
    (∃ last, set next shelfKeys .null = .ok last ∧ set shelf shelfKeys .null = .ok last) ∧
    Unwritable shelf [.str "parts", .int 3] := by
  have sites : sites? shelf shelfKeys = some [.field "parts", .index 0, .field "7"] := rfl
  obtain ⟨-, lawful⟩ := set_lens shelf shelfKeys (.bool true)
  obtain ⟨ps, hp, written, apart, sizes, again⟩ := lawful _ rfl
  obtain rfl := Option.some.inj (sites.symm.trans hp)
  obtain ⟨c, hc, -, size⟩ := sizes [.field "parts", .index 0] _ rfl (by decide)
  refine ⟨_, rfl, written, (apart _ [.field "parts", .index 1, .index 0] _ rfl rfl ?_).2,
    ⟨c, hc, size⟩, again .null, ?_⟩
  · exact .step (.here (by decide))
  · exact (set_lens shelf [.str "parts", .int 3] .null).1.mp ⟨_, rfl⟩

end Recalc.Path
