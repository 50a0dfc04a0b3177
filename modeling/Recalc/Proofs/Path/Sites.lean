import Recalc.Proofs.Path

/-! Sites of a document. Keys of many spellings address one site of a container, and a location is
the list of sites on the way to it. Replacing what is at a location leaves every location alone that
parts from it at some step. -/
namespace Recalc

/-- A site in a container: a field of an object or a position in an array. -/
inductive Site where
  | field (name : String)
  | index (i : Nat)
  deriving DecidableEq, Repr

/-! ### Sites of one container -/

namespace Value
variable {v w c key : Value} {p q : Site}

/-- The site that a key addresses. Only containers have sites. -/
def site? : Value → Value → Option Site
  | obj _, key => key.keyText?.map .field
  | arr _, key => (key.arrayIndex?.filter fun i => 0 ≤ i).map fun i => .index i.toNat
  | _, _ => none

/-- What is at a site. -/
def part? : Value → Site → Option Value
  | obj fields, .field name => Fields.get? name fields
  | arr items, .index i => items[i]?
  | _, _ => none

/-- Whether something can be put at a site. A field may be new, and so may the position after the
last element. -/
def offers : Value → Site → Bool
  | obj _, .field _ => true
  | arr items, .index i => i ≤ items.length
  | _, _ => false

/-- The container with something put at a site that it offers. -/
def withPart : Value → Site → Value → Value
  | obj fields, .field name, w => obj (Fields.insert name w fields)
  | arr items, .index i, w => arr (if i < items.length then items.set i w else items ++ [w])
  | v, _, _ => v

private theorem offers_of_part? (h : v.part? p = some c) : v.offers p = true := by
  cases v with
  | obj fields => cases p with
    | field name => rfl
    | index i => cases h
  | arr items => cases p with
    | field name => cases h
    | index i => exact decide_eq_true (Nat.le_of_lt (List.getElem?_eq_some_iff.mp h).1)
  | _ => cases h

private theorem site?_withPart : (v.withPart p w).site? key = v.site? key := by
  cases v <;> cases p <;> rfl

private theorem kind_withPart : (v.withPart p w).kind = v.kind := by
  cases v <;> cases p <;> rfl

theorem length?_ne_none (h : v.site? key = some p) : v.length? ≠ none := by
  cases v with
  | obj fields | arr items => exact Option.some_ne_none _
  | _ => cases h

private theorem get_of_site? (h : v.site? key = some p) :
    v.get key = .ok ((v.part? p).getD null) := by
  cases v with
  | obj fields =>
    obtain ⟨name, hk, rfl⟩ := Option.map_eq_some_iff.mp h
    rw [get, propertyKey, hk]
    rfl
  | arr items =>
    obtain ⟨i, hi, rfl⟩ := Option.map_eq_some_iff.mp h
    obtain ⟨hi, nonneg⟩ := Option.filter_eq_some_iff.mp hi
    have scalar : key.isContainer = false := by
      cases key with
      | arr items | obj fields => cases hi
      | _ => rfl
    rw [get, getAt, scalar, hi, if_neg Bool.false_ne_true, Option.elim_some, element,
      if_pos (of_decide_eq_true nonneg), List.getD_eq_getElem?_getD]
    rfl
  | _ => cases h

private theorem ordered_part (hv : v.Ordered) (h : v.part? p = some c) : c.Ordered := by
  cases v with
  | obj fields => cases p with
    | field name => exact (tame_obj.mp hv).2 _ (Fields.mem_of_get? h)
    | index i => cases h
  | arr items => cases p with
    | field name => cases h
    | index i => exact tame_arr.mp hv c (List.mem_of_getElem? h)
  | _ => cases h

section
variable (h : v.offers p = true)
include h

private theorem part?_withPart_self : (v.withPart p w).part? p = some w := by
  cases v with
  | obj fields => cases p with
    | field name => exact (Fields.get?_insert name name w fields).trans (if_pos rfl)
    | index i => cases h
  | arr items => cases p with
    | field name => cases h
    | index i =>
      have le : i ≤ items.length := of_decide_eq_true h
      rw [withPart, part?]
      split
      · rename_i lt
        exact List.getElem?_set_self lt
      · rw [show i = items.length by omega, List.getElem?_concat_length]
  | _ => cases h

private theorem part?_withPart_of_ne (hq : q ≠ p) : (v.withPart p w).part? q = v.part? q := by
  cases v with
  | obj fields => cases p with
    | field name => cases q with
      | field other =>
        exact (Fields.get?_insert name other w fields).trans
          (if_neg fun same => hq (congrArg Site.field same.symm))
      | index j => rfl
    | index i => cases h
  | arr items => cases p with
    | field name => cases h
    | index i => cases q with
      | field other => rfl
      | index j =>
        have le : i ≤ items.length := of_decide_eq_true h
        have ne : j ≠ i := fun same => hq (congrArg Site.index same)
        rw [withPart, part?, part?]
        split
        · exact List.getElem?_set_ne ne.symm
        · rw [List.getElem?_append]
          split
          · rfl
          · rw [List.getElem?_eq_none (by simp; omega), List.getElem?_eq_none (by omega)]
  | _ => cases h

private theorem withPart_withPart {w' : Value} :
    (v.withPart p w).withPart p w' = v.withPart p w' := by
  cases v with
  | obj fields => cases p with
    | field name => exact congrArg obj (Fields.insert_insert name w w' fields)
    | index i => cases h
  | arr items => cases p with
    | field name => cases h
    | index i =>
      have le : i ≤ items.length := of_decide_eq_true h
      by_cases lt : i < items.length
      · simp [withPart, lt]
      · simp [withPart, show i = items.length by omega]
  | _ => cases h

/-- A container grows by one when a new site is filled, and else keeps its size. -/
theorem length?_withPart (hv : v.Ordered) : (v.withPart p w).length? =
    v.length?.map (· + if v.part? p = none then 1 else 0) := by
  cases v with
  | obj fields => cases p with
    | field name =>
      exact congrArg some (Fields.length_insert (tame_obj.mp hv).1)
    | index i => cases h
  | arr items => cases p with
    | field name => cases h
    | index i =>
      have le : i ≤ items.length := of_decide_eq_true h
      by_cases lt : i < items.length
      · simp [withPart, part?, length?, lt]
      · simp [withPart, part?, length?, lt]
  | _ => cases h

end

/-- Putting back what is there changes nothing. -/
theorem withPart_part (hv : v.Ordered) (h : v.part? p = some c) : v.withPart p c = v := by
  cases v with
  | obj fields => cases p with
    | field name => exact congrArg obj (Fields.insert_get? (tame_obj.mp hv).1 h)
    | index i => cases h
  | arr items => cases p with
    | field name => cases h
    | index i =>
      obtain ⟨lt, rfl⟩ := List.getElem?_eq_some_iff.mp h
      simp [withPart, lt]
  | _ => cases h

end Value

/-! ### Locations -/

/-- Two locations are the same up to a container and go to different sites there. -/
inductive Apart : List Site → List Site → Prop
  | here {p q : Site} {ps qs : List Site} : p ≠ q → Apart (p :: ps) (q :: qs)
  | step {p : Site} {ps qs : List Site} : Apart ps qs → Apart (p :: ps) (p :: qs)

/-- Of two locations one is at or below the other, or strictly above it, or they are apart. -/
theorem below_or_above_or_apart (ps qs : List Site) :
    ps <+: qs ∨ (∃ p rest, ps = qs ++ p :: rest) ∨ Apart ps qs := by
  induction ps generalizing qs with
  | nil => exact .inl List.nil_prefix
  | cons p ps ih =>
    cases qs with
    | nil => exact .inr (.inl ⟨p, ps, rfl⟩)
    | cons q qs =>
      by_cases same : p = q
      · subst same
        rcases ih qs with below | ⟨r, rest, rfl⟩ | apart
        · exact .inl (List.cons_prefix_cons.mpr ⟨rfl, below⟩)
        · exact .inr (.inl ⟨r, rest, rfl⟩)
        · exact .inr (.inr (.step apart))
      · exact .inr (.inr (.here same))

private theorem Apart.not_prefix {ps qs : List Site} (h : Apart ps qs) : ¬ qs <+: ps := by
  induction h with
  | here ne => exact fun below => ne (List.cons_prefix_cons.mp below).1.symm
  | step _ ih => exact fun below => ih (List.cons_prefix_cons.mp below).2

namespace Value
variable {root c w : Value} {p : Site} {ps qs : List Site}

/-- What is at a location. -/
def at? : Value → List Site → Option Value
  | v, [] => some v
  | v, p :: ps => (v.part? p).bind fun c => c.at? ps

/-- Whether a location can be written: all above it is there, and the last site is offered. -/
def admits : Value → List Site → Bool
  | _, [] => true
  | v, p :: ps => v.offers p && ((v.part? p).getD null).admits ps

/-- The document with something else at a location. -/
def replace : Value → List Site → Value → Value
  | _, [], w => w
  | v, p :: ps, w => v.withPart p (((v.part? p).getD null).replace ps w)

theorem admits_cons : root.admits (p :: ps) = true ↔
    root.offers p = true ∧ ((root.part? p).getD null).admits ps = true := by
  rw [admits, Bool.and_eq_true]

/-- What is not there has no sites. -/
theorem exists_part_of_admits {q : Site}
    (h : root.admits (p :: q :: ps) = true) : ∃ c, root.part? p = some c := by
  have below := (admits_cons.mp h).2
  cases hc : root.part? p with
  | some c => exact ⟨c, rfl⟩
  | none =>
    rw [hc] at below
    cases below

theorem admits_of_at? (h : root.at? ps = some c) : root.admits ps = true := by
  induction ps generalizing root with
  | nil => rfl
  | cons p ps ih =>
    obtain ⟨d, hd, h⟩ := Option.bind_eq_some_iff.mp h
    refine admits_cons.mpr ⟨offers_of_part? hd, ?_⟩
    rw [hd]
    exact ih h

private theorem ordered_at (hv : root.Ordered) (h : root.at? ps = some c) : c.Ordered := by
  induction ps generalizing root with
  | nil =>
    cases h
    exact hv
  | cons p ps ih =>
    obtain ⟨d, hd, h⟩ := Option.bind_eq_some_iff.mp h
    exact ih (ordered_part hv hd) h

private theorem at?_append (ps qs : List Site) :
    root.at? (ps ++ qs) = (root.at? ps).bind fun c => c.at? qs := by
  induction ps generalizing root with
  | nil => rfl
  | cons p ps ih =>
    simp only [List.cons_append, at?]
    cases root.part? p with
    | none => rfl
    | some c => exact ih

theorem admits_append (h : root.at? ps = some c) : root.admits (ps ++ qs) = c.admits qs := by
  induction ps generalizing root with
  | nil =>
    cases h
    rfl
  | cons p ps ih =>
    obtain ⟨d, hd, h⟩ := Option.bind_eq_some_iff.mp h
    rw [List.cons_append, admits, offers_of_part? hd, hd]
    exact ih h

theorem replace_append (h : root.at? ps = some c) :
    root.replace (ps ++ qs) w = root.replace ps (c.replace qs w) := by
  induction ps generalizing root with
  | nil =>
    cases h
    rfl
  | cons p ps ih =>
    obtain ⟨d, hd, h⟩ := Option.bind_eq_some_iff.mp h
    rw [List.cons_append, replace, replace, hd, Option.getD_some, ih h]

section
variable (h : root.admits ps = true)
include h

theorem at?_replace : (root.replace ps w).at? ps = some w := by
  induction ps generalizing root with
  | nil => rfl
  | cons p ps ih =>
    obtain ⟨offers, below⟩ := admits_cons.mp h
    rw [replace, at?, part?_withPart_self offers]
    exact ih below

/-- What is apart from the location stays. -/
theorem at?_replace_of_apart (apart : Apart ps qs) :
    (root.replace ps w).at? qs = root.at? qs := by
  induction apart generalizing root with
  | here ne => rw [replace, at?, part?_withPart_of_ne (admits_cons.mp h).1 (Ne.symm ne), at?]
  | @step p ps qs apart ih =>
    obtain ⟨offers, below⟩ := admits_cons.mp h
    obtain ⟨c, hc⟩ : ∃ c, root.part? p = some c := by
      cases apart <;> exact exists_part_of_admits h
    rw [replace, at?, at?, part?_withPart_self offers, hc]
    rw [hc] at below
    exact ih below

/-- Of two replacements the later counts. -/
theorem replace_replace {w' : Value} :
    (root.replace ps w).replace ps w' = root.replace ps w' := by
  induction ps generalizing root with
  | nil => rfl
  | cons p ps ih =>
    obtain ⟨offers, below⟩ := admits_cons.mp h
    simp only [replace, part?_withPart_self offers, withPart_withPart offers, Option.getD_some,
      ih below]

end

/-- Replacing something by itself changes nothing. -/
theorem replace_at (hv : root.Ordered) (h : root.at? ps = some c) : root.replace ps c = root := by
  induction ps generalizing root with
  | nil =>
    cases h
    rfl
  | cons p ps ih =>
    obtain ⟨d, hd, h⟩ := Option.bind_eq_some_iff.mp h
    rw [replace, hd, Option.getD_some, ih (ordered_part hv hd) h, withPart_part hv hd]

/-- Above the location, a container has the replacement inside. -/
theorem at?_replace_above (h : root.admits (qs ++ p :: ps) = true) :
    ∃ c, root.at? qs = some c ∧ c.admits (p :: ps) = true ∧
      (root.replace (qs ++ p :: ps) w).at? qs = some (c.replace (p :: ps) w) := by
  induction qs generalizing root with
  | nil => exact ⟨root, rfl, h, rfl⟩
  | cons q qs ih =>
    obtain ⟨offers, below⟩ := admits_cons.mp h
    obtain ⟨d, hd⟩ : ∃ d, root.part? q = some d := by
      cases qs <;> exact exists_part_of_admits h
    rw [hd] at below
    obtain ⟨c, hc, admits, replaced⟩ := ih below
    refine ⟨c, ?_, admits, ?_⟩
    · rw [at?, hd]
      exact hc
    · rw [List.cons_append, replace, at?, part?_withPart_self offers, hd]
      exact replaced

/-- Containers that are not at or below the location keep their kind and, but for the one that holds
the last site, their size. That one grows by one if there was nothing at the location. -/
theorem length?_replace (hv : root.Ordered) (h : root.admits ps = true)
    (hc : root.at? qs = some c) (hq : ¬ ps <+: qs) :
    ∃ c', (root.replace ps w).at? qs = some c' ∧ c'.kind = c.kind ∧
      c'.length? = c.length?.map (· + if qs = ps.dropLast ∧ root.at? ps = none then 1 else 0) := by
  rcases below_or_above_or_apart ps qs with below | ⟨p, rest, rfl⟩ | apart
  · exact absurd below hq
  · obtain ⟨d, hd, admits, replaced⟩ := at?_replace_above (w := w) h
    obtain rfl : d = c := Option.some.inj (hd.symm.trans hc)
    refine ⟨_, replaced, kind_withPart, ?_⟩
    rw [replace, length?_withPart (admits_cons.mp admits).1 (ordered_at hv hc)]
    have at_end : d.part? p = none ↔
        qs = (qs ++ p :: rest).dropLast ∧ root.at? (qs ++ p :: rest) = none := by
      rw [at?_append, hc, Option.bind_some]
      cases rest with
      | nil => simp [at?]
      | cons r rest =>
        obtain ⟨e, he⟩ := exists_part_of_admits admits
        simp [he]
    simp only [at_end]
  · have above : qs ≠ ps.dropLast := fun same => apart.not_prefix (same ▸ ps.dropLast_prefix)
    refine ⟨c, (at?_replace_of_apart h apart).trans hc, rfl, ?_⟩
    simp [above]

end Value

/-! ### Keys -/

namespace Path
open Value
variable {root c w : Value} {ps qs : List Site} {key : Value} {keys : List Value}

/-- The sites that keys address, each in what the keys before lead to. What is not there counts as
null, in which no key addresses anything. -/
def sites? : Value → List Value → Option (List Site)
  | _, [] => some []
  | v, key :: keys => do
    let p ← v.site? key
    let ps ← sites? ((v.part? p).getD null) keys
    return p :: ps

/-- What keys lead to. -/
def locate? (root : Value) (keys : List Value) : Option Value := (sites? root keys).bind root.at?

theorem sites?_cons : sites? root (key :: keys) = some ps ↔ ∃ p rest, root.site? key = some p ∧
    sites? ((root.part? p).getD null) keys = some rest ∧ ps = p :: rest := by
  constructor
  · intro h
    obtain ⟨p, hp, h⟩ := Option.bind_eq_some_iff.mp h
    obtain ⟨rest, hr, h⟩ := Option.bind_eq_some_iff.mp h
    cases h
    exact ⟨p, rest, hp, hr, rfl⟩
  · rintro ⟨p, rest, hp, hr, rfl⟩
    exact Option.bind_eq_some_iff.mpr ⟨p, hp, Option.bind_eq_some_iff.mpr ⟨rest, hr, rfl⟩⟩

theorem locate?_eq_some :
    locate? root keys = some c ↔ ∃ ps, sites? root keys = some ps ∧ root.at? ps = some c :=
  Option.bind_eq_some_iff

/-- Before each key, the keys lead to something in which it addresses a site. -/
theorem sites?_append_cons {front : List Value} :
    sites? root (front ++ key :: keys) = some qs ↔ ∃ ps c p rest, sites? root front = some ps ∧
      root.at? ps = some c ∧ c.site? key = some p ∧
      sites? ((c.part? p).getD null) keys = some rest ∧ qs = ps ++ p :: rest := by
  induction front generalizing root qs with
  | nil =>
    rw [List.nil_append, sites?_cons]
    constructor
    · rintro ⟨p, rest, site, below, rfl⟩
      exact ⟨[], root, p, rest, rfl, rfl, site, below, rfl⟩
    · rintro ⟨ps, c, p, rest, ⟨⟩, ⟨⟩, site, below, rfl⟩
      exact ⟨p, rest, site, below, rfl⟩
  | cons first front ih =>
    rw [List.cons_append, sites?_cons]
    constructor
    · rintro ⟨q, qs, first, behind, rfl⟩
      obtain ⟨ps, c, p, rest, sites, hc, site, below, rfl⟩ := ih.mp behind
      cases hd : root.part? q with
      | none =>
        -- What is not there counts as null, and nothing is below null.
        rw [hd] at sites hc
        cases front with
        | nil =>
          cases sites
          cases hc
          cases site
        | cons => cases sites
      | some d =>
        rw [hd] at sites hc
        refine ⟨q :: ps, c, p, rest, sites?_cons.mpr ⟨q, ps, first, ?_, rfl⟩, ?_, site, below, rfl⟩
        · rw [hd]
          exact sites
        · rw [at?, hd]
          exact hc
    · rintro ⟨qs, c, p, rest, sites, hc, site, below, rfl⟩
      obtain ⟨q, ps, first, behind, rfl⟩ := sites?_cons.mp sites
      obtain ⟨d, hd, hc⟩ := Option.bind_eq_some_iff.mp hc
      refine ⟨q, ps ++ p :: rest, first, ih.mpr ⟨ps, c, p, rest, behind, ?_, site, below, rfl⟩, rfl⟩
      rw [hd]
      exact hc

/-- Access with one key after the other. -/
def read (root : Value) (keys : List Value) : Except EvalError Value := keys.foldlM Value.get root

/-- Access gives what the keys lead to. -/
theorem read_of_sites? (hp : sites? root keys = some ps) (hw : root.at? ps = some w) :
    read root keys = .ok w := by
  induction keys generalizing root ps with
  | nil =>
    cases hp
    cases hw
    rfl
  | cons key keys ih =>
    obtain ⟨p, rest, site, below, rfl⟩ := sites?_cons.mp hp
    obtain ⟨c, hc, hw⟩ := Option.bind_eq_some_iff.mp hw
    rw [hc] at below
    rw [read, List.foldlM_cons, get_of_site? site, hc]
    exact ih below hw

/-- Keys that lead elsewhere, or no further, address the same sites after a replacement. -/
theorem sites?_replace (h : root.admits ps = true) (hq : sites? root keys = some qs)
    (outside : qs <+: ps ∨ Apart ps qs) : sites? (root.replace ps w) keys = some qs := by
  induction keys generalizing root ps qs with
  | nil =>
    cases hq
    rfl
  | cons key keys ih =>
    obtain ⟨q, rest, site, below, rfl⟩ := sites?_cons.mp hq
    cases ps with
    | nil =>
      rcases outside with below | apart
      · cases List.prefix_nil.mp below
      · cases apart
    | cons p ps =>
      obtain ⟨offers, admits⟩ := admits_cons.mp h
      refine sites?_cons.mpr ⟨q, rest, site?_withPart.trans site, ?_, rfl⟩
      by_cases same : q = p
      · subst same
        have outside : rest <+: ps ∨ Apart ps rest := by
          rcases outside with below | apart
          · exact .inl (List.cons_prefix_cons.mp below).2
          · cases apart with
            | here ne => exact absurd rfl ne
            | step apart => exact .inr apart
        rw [replace, part?_withPart_self offers]
        exact ih admits below outside
      · rw [replace, part?_withPart_of_ne offers same]
        exact below

end Path

end Recalc
