import Std.Data.TreeMap

/-! Finite maps with string keys, kept as lists of fields in increasing order of their keys. -/
namespace Recalc

/-- Named entries. Every operation below keeps the keys strictly increasing. -/
abbrev Fields (α : Type) := List (String × α)

namespace Fields
variable {α β : Type}

def get? (key : String) : Fields α → Option α
  | [] => none
  | (k, v) :: rest => if k = key then some v else get? key rest

/-- Adds a field, or replaces the one that has the key. -/
def insert (key : String) (value : α) : Fields α → Fields α
  | [] => [(key, value)]
  | (k, v) :: rest =>
    if key < k then (key, value) :: (k, v) :: rest
    else if k = key then (key, value) :: rest
    else (k, v) :: insert key value rest

/-- Adds a field unless there is one with the key. -/
def insertNew (key : String) (value : α) (fields : Fields α) : Fields α :=
  if (get? key fields).isSome then fields else insert key value fields

/-- Collects entries in any order; of two with one key the later counts. -/
def ofList (entries : List (String × α)) : Fields α := (Std.TreeMap.ofList entries).toList

/-- The values of entries by key, those of one key in the order of the entries. -/
def group (entries : List (String × α)) : Fields (List α) :=
  let groups := entries.foldr (fun (k, v) groups => groups.insert k (v :: groups.getD k []))
    (Std.TreeMap.empty : Std.TreeMap String (List α))
  groups.toList

/-- The fields as a search tree. -/
def tree (fields : Fields α) : Std.TreeMap String α :=
  fields.foldr (fun e t => t.insert e.1 e.2) .empty

theorem tree_cons (e : String × α) (rest : Fields α) :
    tree (e :: rest) = (tree rest).insert e.1 e.2 := rfl

theorem get?_tree (key : String) : (fields : Fields α) → (tree fields)[key]? = get? key fields
  | [] => by simp [tree, get?]
  | (k, v) :: rest => by simp [tree_cons, get?, Std.TreeMap.getElem?_insert, get?_tree key rest]

def mapValues (f : α → β) (fields : Fields α) : Fields β :=
  fields.map fun (k, v) => (k, f v)

def keys (fields : Fields α) : List String := fields.map Prod.fst

def values (fields : Fields α) : List α := fields.map Prod.snd

/-! ### Keys in order -/

/-- Keys are strictly increasing. -/
def Sorted (fields : Fields α) : Prop := fields.Pairwise (fun a b => a.1 < b.1)

instance (fields : Fields α) : Decidable (Sorted fields) :=
  inferInstanceAs (Decidable (fields.Pairwise fun a b => a.1 < b.1))

theorem mem_insert {key : String} {v : α} {fields : Fields α} {e : String × α}
    (h : e ∈ insert key v fields) : e = (key, v) ∨ e ∈ fields := by
  induction fields with
  | nil => exact .inl (List.mem_singleton.mp h)
  | cons f rest ih =>
    rw [insert] at h
    split at h
    · exact List.mem_cons.mp h
    · split at h
      · exact (List.mem_cons.mp h).imp_right (List.mem_cons_of_mem _)
      · rcases List.mem_cons.mp h with rfl | h
        · exact .inr List.mem_cons_self
        · exact (ih h).imp_right (List.mem_cons_of_mem _)

theorem sorted_insert {key : String} {v : α} {fields : Fields α} (hs : Sorted fields) :
    Sorted (insert key v fields) := by
  induction fields with
  | nil => exact List.pairwise_singleton _ _
  | cons f rest ih =>
    obtain ⟨k, w⟩ := f
    obtain ⟨hlt, hrest⟩ := List.pairwise_cons.mp hs
    rw [insert]
    split
    · rename_i hkey
      refine List.pairwise_cons.mpr ⟨fun e he => ?_, hs⟩
      rcases List.mem_cons.mp he with rfl | he
      · exact hkey
      · exact String.lt_trans hkey (hlt e he)
    · split
      · rename_i heq
        subst heq
        exact List.pairwise_cons.mpr ⟨hlt, hrest⟩
      · rename_i hkey hne
        have hk : k < key :=
          String.not_le.mp fun hle => hne (String.le_antisymm (String.not_lt.mp hkey) hle)
        refine List.pairwise_cons.mpr ⟨fun e he => ?_, ih hrest⟩
        rcases mem_insert he with rfl | he
        · exact hk
        · exact hlt e he

theorem compare_eq_lt {a b : String} : compare a b = .lt ↔ a < b := compareOfLessAndEq_eq_lt

theorem sorted_toList (t : Std.TreeMap String α) : Sorted t.toList := by
  apply List.Pairwise.imp _ Std.TreeMap.ordered_keys_toList
  intro a b h
  exact compare_eq_lt.mp h

theorem sorted_ofList (entries : List (String × α)) : Sorted (ofList entries) := sorted_toList _

theorem sorted_mapValues {f : α → β} {fields : Fields α} (h : Sorted fields) :
    Sorted (mapValues f fields) := by
  rw [Sorted, mapValues, List.pairwise_map]
  exact h

end Fields

end Recalc
