import Mathlib.Data.List.Sort
import Mathlib.Order.Defs.LinearOrder

/-!
# Stable selection

Taking the first least element out of a list until it is empty is a stable sort: elements of
equal keys leave in the order in which they stood. A stable sort of a list is unique, so it is
the `List.mergeSort` of the core library.
-/

namespace LinkScheduling.Framework

variable {α β : Type} [LinearOrder β] {key : α → β} {front back l sorted : List α} {r : α}

/-- `r` is the first of the least elements of `front ++ r :: back`. -/
structure FirstLeast (key : α → β) (front : List α) (r : α) (back : List α) : Prop where
  front : ∀ x ∈ front, key r < key x
  back : ∀ x ∈ back, key r ≤ key x

/-- The first least element is taken out again and again. -/
inductive Selects (key : α → β) : List α → List α → Prop
  | nil : Selects key [] []
  | cons {front : List α} {r : α} {back sorted : List α} : FirstLeast key front r back →
      Selects key (front ++ back) sorted → Selects key (front ++ r :: back) (r :: sorted)

/-- `sorted` has the elements of `l` by ascending key, those of one key in the order of `l`. -/
structure StablySorts (key : α → β) (l sorted : List α) : Prop where
  ascending : sorted.Pairwise fun a b => key a ≤ key b
  stable : ∀ k, sorted.filter (key · = k) = l.filter (key · = k)

theorem FirstLeast.le (h : FirstLeast key front r back) : ∀ x ∈ front ++ back, key r ≤ key x := by
  intro x hx
  rcases List.mem_append.mp hx with hx | hx
  · exact (h.front x hx).le
  · exact h.back x hx

/-- The elements of one key, without the first least element. -/
theorem FirstLeast.filter (h : FirstLeast key front r back) (k : β) :
    (front ++ r :: back).filter (key · = k) =
      if key r = k then r :: (front ++ back).filter (key · = k)
      else (front ++ back).filter (key · = k) := by
  rw [List.filter_append, List.filter_append]
  by_cases hk : key r = k
  · have hfront : front.filter (key · = k) = [] := by
      apply List.filter_eq_nil_iff.mpr
      intro x hx
      rw [decide_eq_true_eq, ← hk]
      exact (h.front x hx).ne'
    rw [if_pos hk, hfront, List.filter_cons_of_pos (by simpa using hk)]
    rfl
  · rw [if_neg hk, List.filter_cons_of_neg (by simpa using hk)]

theorem StablySorts.perm (h : StablySorts key l sorted) : sorted.Perm l := by
  classical
  apply List.perm_iff_count.mpr
  intro a
  rw [← List.count_filter (p := fun x => decide (key x = key a)) (by simp), h.stable,
    List.count_filter (by simp)]

theorem Selects.stablySorts (h : Selects key l sorted) : StablySorts key l sorted := by
  induction h with
  | nil => exact ⟨.nil, fun k => rfl⟩
  | cons hleast _ ih =>
      constructor
      · refine List.pairwise_cons.mpr ⟨fun x hx => ?_, ih.ascending⟩
        exact hleast.le x (ih.perm.mem_iff.mp hx)
      · intro k
        rw [hleast.filter, List.filter_cons, ih.stable]
        simp only [decide_eq_true_eq]

/-- Two stable sorts of one list are the same. -/
theorem StablySorts.unique {sorted' : List α} (h : StablySorts key l sorted)
    (h' : StablySorts key l sorted') : sorted = sorted' := by
  induction sorted generalizing l sorted' with
  | nil => exact (List.nil_perm.mp (h.perm.trans h'.perm.symm)).symm
  | cons a sorted ih =>
      cases sorted' with
      | nil => exact List.perm_nil.mp (h.perm.trans h'.perm.symm)
      | cons b sorted' =>
          have hmem : b ∈ a :: sorted := h.perm.mem_iff.mpr (h'.perm.mem_iff.mp List.mem_cons_self)
          have hmem' : a ∈ b :: sorted' := h'.perm.mem_iff.mpr (h.perm.mem_iff.mp List.mem_cons_self)
          have hle : key a ≤ key b := by
            rcases List.mem_cons.mp hmem with rfl | hmem
            · exact le_rfl
            · exact List.rel_of_pairwise_cons h.ascending hmem
          have hle' : key b ≤ key a := by
            rcases List.mem_cons.mp hmem' with rfl | hmem'
            · exact le_rfl
            · exact List.rel_of_pairwise_cons h'.ascending hmem'
          have hkey : key b = key a := le_antisymm hle' hle
          have hfilter := (h.stable (key a)).trans (h'.stable (key a)).symm
          rw [List.filter_cons_of_pos (by simp), List.filter_cons_of_pos (by simp [hkey])] at hfilter
          obtain ⟨rfl, -⟩ := List.cons.inj hfilter
          congr 1
          refine @ih sorted sorted' ⟨h.ascending.of_cons, fun k => rfl⟩
            ⟨h'.ascending.of_cons, fun k => ?_⟩
          have hk := (h'.stable k).trans (h.stable k).symm
          rw [List.filter_cons, List.filter_cons] at hk
          split at hk
          · exact (List.cons.inj hk).2
          · exact hk

/-- The merge sort of the library is a stable sort. -/
theorem stablySorts_mergeSort (key : α → β) (l : List α) :
    StablySorts key l (l.mergeSort fun a b => key a ≤ key b) := by
  have htrans : ∀ a b c : α, decide (key a ≤ key b) = true → decide (key b ≤ key c) = true →
      decide (key a ≤ key c) = true := by
    intro a b c hab hbc
    exact decide_eq_true ((of_decide_eq_true hab).trans (of_decide_eq_true hbc))
  have htotal : ∀ a b : α, (decide (key a ≤ key b) || decide (key b ≤ key a)) = true := by
    intro a b
    simpa using le_total (key a) (key b)
  constructor
  · exact (List.pairwise_mergeSort htrans htotal l).imp of_decide_eq_true
  · intro k
    have hequal : (l.filter (key · = k)).Pairwise fun a b => decide (key a ≤ key b) = true := by
      refine List.pairwise_of_forall_mem_list fun a ha b hb => decide_eq_true (le_of_eq ?_)
      rw [of_decide_eq_true (List.mem_filter.mp ha).2, of_decide_eq_true (List.mem_filter.mp hb).2]
    have hsub := List.sublist_mergeSort htrans htotal hequal List.filter_sublist
    have hkept := hsub.filter (key · = k)
    rw [List.filter_filter] at hkept
    simp only [Bool.and_self] at hkept
    have hperm := (List.mergeSort_perm l fun a b => decide (key a ≤ key b)).filter (key · = k)
    exact (hkept.eq_of_length hperm.length_eq.symm).symm

theorem Selects.eq_mergeSort (h : Selects key l sorted) :
    sorted = l.mergeSort fun a b => key a ≤ key b :=
  h.stablySorts.unique (stablySorts_mergeSort key l)

end LinkScheduling.Framework
