import Mathlib.Data.List.Sort
import Mathlib.Order.Bounds.Basic

/-!
# Order statistics

The element at an index of an ascending list, characterised without the order of the list: it is
the least element that more than so many elements do not exceed.
-/

namespace LinkScheduling.Framework

variable {α : Type} [LinearOrder α] {l sorted : List α} {v : α} {i : ℕ}

/-- The elements up to an index do not exceed the one there. -/
theorem lt_countP_getElem (h : sorted.Pairwise (· ≤ ·)) (hi : i < sorted.length) :
    i < sorted.countP (· ≤ sorted[i]) := by
  have hall : (sorted.take (i + 1)).countP (· ≤ sorted[i]) = (sorted.take (i + 1)).length := by
    apply List.countP_eq_length.mpr
    intro x hx
    obtain ⟨j, hj, rfl⟩ := List.mem_iff_getElem.mp hx
    rw [List.length_take] at hj
    rw [List.getElem_take, decide_eq_true_eq]
    rcases Nat.lt_or_ge j i with hlt | hge
    · exact List.pairwise_iff_getElem.mp h j i _ hi hlt
    · have heq : j = i := by omega
      subst heq
      exact le_rfl
  have hle := (List.take_sublist (i + 1) sorted).countP_le (p := fun x => decide (x ≤ sorted[i]))
  rw [hall, List.length_take] at hle
  omega

/-- Only elements before an index are smaller than the one there. -/
theorem countP_le_of_lt_getElem (h : sorted.Pairwise (· ≤ ·)) (hi : i < sorted.length)
    (hv : v < sorted[i]) : sorted.countP (· ≤ v) ≤ i := by
  have hnone : (sorted.drop i).countP (· ≤ v) = 0 := by
    apply List.countP_eq_zero.mpr
    intro x hx
    obtain ⟨j, hj, rfl⟩ := List.mem_iff_getElem.mp hx
    rw [List.length_drop] at hj
    rw [List.getElem_drop, decide_eq_true_eq, not_le]
    refine hv.trans_le ?_
    rcases Nat.eq_zero_or_pos j with rfl | hpos
    · exact le_rfl
    · exact List.pairwise_iff_getElem.mp h i (i + j) hi _ (by omega)
  rw [← List.take_append_drop i sorted, List.countP_append, hnone, Nat.add_zero]
  exact List.countP_le_length.trans (List.length_take_le _ _)

/-- The `i`-th element, by counting. -/
theorem isLeast_getElem (hperm : sorted.Perm l) (h : sorted.Pairwise (· ≤ ·))
    (hi : i < sorted.length) : IsLeast {v | v ∈ l ∧ i < l.countP (· ≤ v)} sorted[i] := by
  constructor
  · refine ⟨hperm.mem_iff.mp (List.getElem_mem hi), ?_⟩
    rw [← hperm.countP_eq]
    exact lt_countP_getElem h hi
  · rintro v ⟨-, hv⟩
    rw [← hperm.countP_eq] at hv
    by_contra hlt
    exact absurd (countP_le_of_lt_getElem h hi (not_le.mp hlt)) (Nat.not_le.mpr hv)

end LinkScheduling.Framework
