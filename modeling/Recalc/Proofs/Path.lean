import Recalc.Path.Write
import Recalc.Proofs.Value.Tame

/-! Writes put values into documents and change nothing else, so a document stays within a class of
values if what is written is of it. -/
namespace Recalc

namespace Path
open Value
variable {ok : Double → Prop}

private theorem tame_arr_set {i : Nat} {child : Value} {items : List Value}
    (hi : ∀ v ∈ items, Tame ok v) (hc : Tame ok child) : Tame ok (.arr (items.set i child)) := by
  refine tame_arr.mpr fun v hv => ?_
  rcases List.mem_or_eq_of_mem_set hv with hv | rfl
  · exact hi v hv
  · exact hc

private theorem tame_modify {change : Value → Except PathError Value}
    (hc : ∀ v w, Tame ok v → change v = .ok w → Tame ok w) {keys walked : List Value}
    {root next : Value} (hr : Tame ok root) (h : modify change walked keys root = .ok next) :
    Tame ok next := by
  induction keys generalizing root next walked with
  | nil => exact hc root next hr h
  | cons key rest ih =>
    cases root with
    | obj fields =>
      obtain ⟨name, -, h⟩ := except_bind_eq_ok.mp h
      cases hg : Fields.get? name fields with
      | none => simp [hg] at h
      | some child =>
        rw [hg] at h
        obtain ⟨changed, hm, h⟩ := except_bind_eq_ok.mp h
        cases h
        exact tame_insert hr (ih ((tame_obj.mp hr).2 _ (Fields.mem_of_get? hg)) hm)
    | arr items =>
      obtain ⟨i, -, h⟩ := except_bind_eq_ok.mp h
      cases hg : items[i]? with
      | none => simp [hg] at h
      | some child =>
        rw [hg] at h
        obtain ⟨changed, hm, h⟩ := except_bind_eq_ok.mp h
        cases h
        have hi := tame_arr.mp hr
        exact tame_arr_set hi (ih (hi child (List.mem_of_getElem? hg)) hm)
    | _ => cases h

private theorem tame_put {parents : List Value} {key value v w : Value} (hv : Tame ok v)
    (hvalue : Tame ok value) (h : put parents key value v = .ok w) : Tame ok w := by
  cases v with
  | obj fields =>
    obtain ⟨name, -, h⟩ := except_bind_eq_ok.mp h
    cases h
    exact tame_insert hv hvalue
  | arr items =>
    obtain ⟨i, -, h⟩ := except_bind_eq_ok.mp h
    have hi := tame_arr.mp hv
    split at h
    · cases h
      exact tame_arr_set hi hvalue
    · split at h
      · cases h
        refine tame_arr.mpr fun u hu => ?_
        rcases List.mem_append.mp hu with hu | hu
        · exact hi u hu
        · exact List.mem_singleton.mp hu ▸ hvalue
      · cases h
  | _ => cases h

theorem tame_set {root value next : Value} {keys : List Value} (hr : Tame ok root)
    (hv : Tame ok value) (h : set root keys value = .ok next) : Tame ok next := by
  unfold set at h
  split at h
  · cases h
    exact hv
  · exact tame_modify (fun v w hv' hw => tame_put hv' hv hw) hr h

private theorem mem_spliceItems {items inserted : List Value} {start : Int} {deleted : Nat}
    {v : Value} (h : v ∈ spliceItems items start deleted inserted) : v ∈ items ∨ v ∈ inserted := by
  rcases List.mem_append.mp h with h | h
  · exact (List.mem_append.mp h).imp_left List.mem_of_mem_take
  · exact .inl (List.mem_of_mem_drop h)

theorem tame_splice {root next : Value} {keys inserted : List Value} {start : Int} {deleted : Nat}
    (hr : Tame ok root) (hi : ∀ v ∈ inserted, Tame ok v)
    (h : splice root keys start deleted inserted = .ok next) : Tame ok next := by
  refine tame_modify (fun v w hv hw => ?_) hr h
  cases v with
  | arr items =>
    cases hw
    exact tame_arr.mpr fun u hu => (mem_spliceItems hu).elim (tame_arr.mp hv u) (hi u)
  | _ => cases hw

end Path

end Recalc
