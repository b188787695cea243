import Mathlib.Data.List.Nodup

namespace NfdTables
variable {β : Type}

def countdown (k : Nat) : List Nat := (List.range k).reverse

@[simp] theorem countdown_zero : countdown 0 = [] := rfl

theorem countdown_succ (k : Nat) : countdown (k+1) = k :: countdown k := by
  simp [countdown,List.range_succ]

theorem mem_countdown : i ∈ countdown k ↔ i < k := by
  simp [countdown]

theorem countdown_decreasing (k : Nat) : (countdown k).Pairwise (· > ·) := by
  rw [countdown,List.pairwise_reverse]
  exact List.pairwise_lt_range

-- A search downwards, going on from where it has found something.
theorem countdown_first {visit : Nat → Option β} (found : (countdown k).findSome? visit = some b) :
    ∃ i < k, visit i = some b ∧ (countdown k).filterMap visit = b :: (countdown i).filterMap visit := by
  induction k with
  | zero => cases found
  | succ k ih =>
    rw [countdown_succ,List.findSome?_cons] at found
    rw [countdown_succ]
    cases here : visit k with
    | some c =>
      rw [here] at found
      cases Option.some.inj found
      exact ⟨k,Nat.lt_succ_self k,here,List.filterMap_cons_some here⟩
    | none =>
      rw [here] at found
      obtain ⟨i,below,hit,rest⟩ := ih found
      exact ⟨i,Nat.lt_succ_of_lt below,hit,by rw [List.filterMap_cons_none here,rest]⟩

-- Nothing is found above the place a search stops at.
theorem countdown_highest {visit : Nat → Option β} (found : (countdown k).findSome? visit = some b) :
    ∃ i < k, visit i = some b ∧ ∀ j < k, i < j → visit j = none := by
  induction k with
  | zero => cases found
  | succ k ih =>
    rw [countdown_succ,List.findSome?_cons] at found
    cases here : visit k with
    | some c =>
      rw [here] at found
      cases Option.some.inj found
      exact ⟨k,Nat.lt_succ_self k,here,fun j below above => absurd (Nat.le_of_lt_succ below) (Nat.not_le.mpr above)⟩
    | none =>
      rw [here] at found
      obtain ⟨i,below,hit,beyond⟩ := ih found
      refine ⟨i,Nat.lt_succ_of_lt below,hit,fun j bound above => ?_⟩
      rcases Nat.lt_succ_iff_lt_or_eq.mp bound with lower | rfl
      · exact beyond j lower above
      · exact here

theorem countdown_none {visit : Nat → Option β} (missing : (countdown k).findSome? visit = none) :
    (countdown k).filterMap visit = [] :=
  List.filterMap_eq_nil_iff.mpr (List.findSome?_eq_none_iff.mp missing)

theorem countdown_head (k : Nat) (visit : Nat → Option β) :
    ((countdown k).filterMap visit).head? = (countdown k).findSome? visit := List.head?_filterMap

-- Numbers that contribute nothing can be left out at the top.
theorem countdown_quiet {contribute : Nat → List β} (within : k ≤ n) (quiet : ∀ i, k ≤ i → i < n → contribute i = []) :
    (countdown n).flatMap contribute = (countdown k).flatMap contribute := by
  induction within with
  | refl => rfl
  | @step n within ih =>
    rw [countdown_succ,List.flatMap_cons,quiet n within (Nat.lt_succ_self n),List.nil_append]
    exact ih fun i above below => quiet i above (Nat.lt_succ_of_lt below)

end NfdTables
