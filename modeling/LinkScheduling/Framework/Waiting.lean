import Mathlib.Algebra.Order.BigOperators.Group.List
import Mathlib.Tactic.Abel
import Mathlib.Tactic.GCongr

/-!
# Waiting

Elements are served one after the other and each takes its `size`. The order that takes the
smallest first keeps waiting short: after any number of elements the least has been served, and
the waiting times add up to the least sum, which no other order reaches.
-/

namespace LinkScheduling.Framework

variable {α M : Type} {size : α → M} {x : α} {front back order : List α}

/-- Where a smallest element stands in another order. -/
theorem exists_middle [LinearOrder M] {l : List α} (hsorted : (x :: l).Pairwise fun a b => size a ≤ size b)
    (hperm : order.Perm (x :: l)) :
    ∃ front back, order = front ++ x :: back ∧ (front ++ back).Perm l ∧
      ∀ y ∈ front ++ back, size x ≤ size y := by
  obtain ⟨front, back, rfl⟩ := List.append_of_mem (hperm.mem_iff.mpr List.mem_cons_self)
  have hrest : (front ++ back).Perm l := List.Perm.cons_inv (List.perm_middle.symm.trans hperm)
  exact ⟨front, back, rfl, hrest, fun y hy =>
    List.rel_of_pairwise_cons hsorted (hrest.subset hy)⟩

variable [AddCommMonoid M]

/-- What the elements wait for in total: each for the sizes of those before it. -/
def totalWait (size : α → M) : List α → M
  | [] => 0
  | x :: l => l.length • size x + totalWait size l

/-- Only the sizes matter. -/
theorem totalWait_congr {β : Type} {size' : β → M} {l : List α} {l' : List β}
    (h : l.map size = l'.map size') : totalWait size l = totalWait size' l' := by
  induction l generalizing l' with
  | nil =>
      rw [List.map_eq_nil_iff.mp h.symm]
      rfl
  | cons x l ih =>
      obtain ⟨y, l', rfl, hy, hl⟩ := List.map_eq_cons_iff.mp h.symm
      have hlength : l.length = l'.length := by simpa using congrArg List.length hl.symm
      rw [totalWait, totalWait, ih hl.symm, hlength, hy]

variable [LinearOrder M] [IsOrderedCancelAddMonoid M]

/-- Bringing a smallest element to the front delays the first `k + 1` of them no more. -/
theorem take_sum_middle_le (hfront : ∀ y ∈ front, size x ≤ size y) (k : ℕ) :
    size x + (((front ++ back).take k).map size).sum ≤
      (((front ++ x :: back).take (k + 1)).map size).sum := by
  induction front generalizing k with
  | nil => simp
  | cons y front ih =>
      cases k with
      | zero =>
          have hy := hfront y List.mem_cons_self
          simpa using hy
      | succ k =>
          have hrest := ih (fun z hz => hfront z (List.mem_cons_of_mem _ hz)) k
          calc size x + (((y :: front ++ back).take (k + 1)).map size).sum
              = size y + (size x + (((front ++ back).take k).map size).sum) := by
                rw [List.cons_append, List.take_succ_cons, List.map_cons, List.sum_cons,
                  add_left_comm]
            _ ≤ size y + (((front ++ x :: back).take (k + 1)).map size).sum := by gcongr
            _ = (((y :: front ++ x :: back).take (k + 2)).map size).sum := by
                rw [List.cons_append, List.take_succ_cons, List.map_cons, List.sum_cons]

theorem totalWait_middle_le (hfront : ∀ y ∈ front, size x ≤ size y) :
    totalWait size (x :: (front ++ back)) ≤ totalWait size (front ++ x :: back) ∧
    (totalWait size (front ++ x :: back) ≤ totalWait size (x :: (front ++ back)) →
      ∀ y ∈ front, size y = size x) := by
  induction front with
  | nil => exact ⟨le_rfl, fun _ y hy => by cases hy⟩
  | cons y front ih =>
      have hy := hfront y List.mem_cons_self
      obtain ⟨hle, hequal⟩ := ih fun z hz => hfront z (List.mem_cons_of_mem _ hz)
      have hexpand : totalWait size (x :: (y :: front ++ back)) + size y =
          size x + ((front ++ x :: back).length • size y +
            totalWait size (x :: (front ++ back))) := by
        simp only [List.cons_append, totalWait, List.length_cons, List.length_append, add_nsmul,
          one_nsmul]
        abel
      have hmiddle : totalWait size (y :: front ++ x :: back) =
          (front ++ x :: back).length • size y + totalWait size (front ++ x :: back) := rfl
      constructor
      · refine le_of_add_le_add_right (a := size y) ?_
        rw [hexpand, hmiddle, add_comm]
        gcongr
      · intro h z hz
        have hsum : size y + totalWait size (front ++ x :: back) ≤
            size x + totalWait size (x :: (front ++ back)) := by
          have hadd := add_le_add_left h (size y)
          rw [hexpand, hmiddle, add_assoc, add_left_comm (size x)] at hadd
          rw [add_comm (size y)]
          exact le_of_add_le_add_left hadd
        have hyx : size y ≤ size x := by
          by_contra hlt
          exact absurd hsum (not_le.mpr (add_lt_add_of_lt_of_le (not_le.mp hlt) hle))
        rcases List.mem_cons.mp hz with rfl | hz
        · exact le_antisymm hyx hy
        · refine hequal ?_ z hz
          have hxy : size x = size y := le_antisymm hy hyx
          rw [hxy] at hsum
          exact le_of_add_le_add_left hsum

/-- After `k` elements no order has served less than the ascending one. -/
theorem take_sum_le {l : List α} (hsorted : l.Pairwise fun a b => size a ≤ size b)
    (hperm : order.Perm l) (k : ℕ) :
    ((l.take k).map size).sum ≤ ((order.take k).map size).sum := by
  induction l generalizing order k with
  | nil =>
      rw [List.perm_nil.mp hperm]
  | cons x l ih =>
      cases k with
      | zero => simp
      | succ k =>
          obtain ⟨front, back, rfl, hrest, hleast⟩ := exists_middle hsorted hperm
          calc (((x :: l).take (k + 1)).map size).sum
              = size x + ((l.take k).map size).sum := by
                rw [List.take_succ_cons, List.map_cons, List.sum_cons]
            _ ≤ size x + (((front ++ back).take k).map size).sum := by
                gcongr
                exact ih hsorted.of_cons hrest k
            _ ≤ _ := take_sum_middle_le
                (fun y hy => hleast y (List.mem_append_left _ hy)) k

/-- No order waits less than the ascending one. -/
theorem totalWait_le {l : List α} (hsorted : l.Pairwise fun a b => size a ≤ size b)
    (hperm : order.Perm l) : totalWait size l ≤ totalWait size order := by
  induction l generalizing order with
  | nil => rw [List.perm_nil.mp hperm]
  | cons x l ih =>
      obtain ⟨front, back, rfl, hrest, hleast⟩ := exists_middle hsorted hperm
      refine le_trans ?_
        (totalWait_middle_le fun y hy => hleast y (List.mem_append_left _ hy)).1
      rw [totalWait, totalWait, hrest.length_eq]
      gcongr
      exact ih hsorted.of_cons hrest

/-- An order that waits as little is ascending. -/
theorem ascending_of_totalWait_le {l : List α} (hsorted : l.Pairwise fun a b => size a ≤ size b)
    (hperm : order.Perm l) (h : totalWait size order ≤ totalWait size l) :
    order.Pairwise fun a b => size a ≤ size b := by
  induction l generalizing order with
  | nil =>
      rw [List.perm_nil.mp hperm]
      exact .nil
  | cons x l ih =>
      obtain ⟨front, back, rfl, hrest, hleast⟩ := exists_middle hsorted hperm
      have hleast' : ∀ y ∈ front, size x ≤ size y :=
        fun y hy => hleast y (List.mem_append_left back hy)
      obtain ⟨hmiddle, hequal⟩ := totalWait_middle_le hleast'
      have hcons : totalWait size (x :: l) ≤ totalWait size (x :: (front ++ back)) := by
        rw [totalWait, totalWait, hrest.length_eq]
        gcongr
        exact totalWait_le hsorted.of_cons hrest
      have hfront := hequal (h.trans hcons)
      have hshort : totalWait size (front ++ back) ≤ totalWait size l := by
        have hle := hmiddle.trans h
        rw [totalWait, totalWait, hrest.length_eq] at hle
        exact le_of_add_le_add_left hle
      have hpairs := ih hsorted.of_cons hrest hshort
      rw [List.pairwise_append] at hpairs ⊢
      obtain ⟨hfrontPairs, hbackPairs, -⟩ := hpairs
      refine ⟨hfrontPairs, List.pairwise_cons.mpr ⟨fun y hy =>
        hleast y (List.mem_append_right _ hy), hbackPairs⟩, fun a ha b hb => ?_⟩
      rw [hfront a ha]
      rcases List.mem_cons.mp hb with rfl | hb
      · exact le_rfl
      · exact hleast b (List.mem_append_right _ hb)

end LinkScheduling.Framework
