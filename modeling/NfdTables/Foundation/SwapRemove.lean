import Mathlib.Data.List.Perm.Basic
import Mathlib.Data.Multiset.AddSub

namespace NfdTables
variable {α : Type} [DecidableEq α]

-- The first occurrence is overwritten with the last element; `none` without one.
def swapRemove (items : List α) (target : α) : Option (List α) :=
  if target ∈ items then some ((items.set (items.idxOf target) (items.getLastD target)).dropLast) else none

theorem swapRemove_absent (absent : target ∉ items) : swapRemove (α:=α) items target = none := by
  simp [swapRemove,absent]

theorem swapRemove_last (fresh : target ∉ earlier) :
    swapRemove (α:=α) (earlier ++ [target]) target = some earlier := by
  simp [swapRemove,List.idxOf_append_of_notMem fresh]

theorem swapRemove_inner (fresh : target ∉ earlier) (last : α) :
    swapRemove (α:=α) (earlier ++ target :: (middle ++ [last])) target = some (earlier ++ last :: middle) := by
  have shape : earlier ++ target :: (middle ++ [last]) = (earlier ++ target :: middle) ++ [last] := by simp
  have final : (earlier ++ target :: (middle ++ [last])).getLastD target = last := by
    rw [shape,List.getLastD_eq_getLast?,List.getLast?_concat,Option.getD_some]
  have position : (earlier ++ target :: (middle ++ [last])).idxOf target = earlier.length := by
    simp [List.idxOf_append_of_notMem fresh]
  have dropped : (earlier ++ last :: (middle ++ [last])).dropLast = earlier ++ last :: middle := by
    have same : earlier ++ last :: (middle ++ [last]) = (earlier ++ last :: middle) ++ [last] := by simp
    rw [same,List.dropLast_concat]
  rw [swapRemove,if_pos (by simp),final,position]
  simp only [List.set_append_right _ _ (Nat.le_refl _),Nat.sub_self,List.set_cons_zero,dropped]

theorem swapRemove_perm (present : target ∈ items) :
    ∃ rest, swapRemove (α:=α) items target = some rest ∧ items.Perm (target :: rest) := by
  obtain ⟨earlier,later,rfl,fresh⟩ := List.eq_append_cons_of_mem present
  rcases List.eq_nil_or_concat' later with rfl | ⟨middle,last,rfl⟩
  · exact ⟨earlier,swapRemove_last fresh,List.perm_append_singleton target earlier⟩
  · refine ⟨_,swapRemove_inner fresh last,List.perm_middle.trans (.cons _ (.append_left _ ?_))⟩
    exact List.perm_append_singleton last middle

theorem swapRemove_erase (present : target ∈ items) :
    ∃ rest, swapRemove (α:=α) items target = some rest ∧ (rest : Multiset α) = (items : Multiset α).erase target := by
  obtain ⟨rest,taken,perm⟩ := swapRemove_perm present
  refine ⟨rest,taken,?_⟩
  rw [Multiset.coe_eq_coe.mpr perm,← Multiset.cons_coe,Multiset.erase_cons_head]

end NfdTables
