import Mathlib.Algebra.BigOperators.Group.Finset.Basic
import Mathlib.Algebra.Order.BigOperators.Group.Finset

/-!
# Counting over a pool of threads

A pool maps thread indices to thread states; a step replaces one of them. The
number of threads in a given situation is a sum over the pool, and these are
the facts that carry such a sum over a step.
-/

namespace LinkScheduling.Framework

variable {ι α : Type} [Fintype ι] [DecidableEq ι]

/-- Replacing one state exchanges its weight for the new one. -/
theorem sum_update_add {M : Type} [AddCommMonoid M] (weight : α → M) (pool : ι → α) (k : ι)
    (x : α) :
    ∑ j, weight (Function.update pool k x j) + weight (pool k) =
      ∑ j, weight (pool j) + weight x := by
  have h : ∀ j ∈ Finset.univ.erase k,
      weight (Function.update pool k x j) = weight (pool j) := by
    intro j hj
    rw [Function.update_of_ne (Finset.ne_of_mem_erase hj)]
  rw [← Finset.add_sum_erase Finset.univ _ (Finset.mem_univ k),
    ← Finset.add_sum_erase Finset.univ (fun j => weight (pool j)) (Finset.mem_univ k),
    Finset.sum_congr rfl h, Function.update_self]
  ac_rfl

omit [DecidableEq ι] in
/-- One thread's weight is at most the sum. -/
theorem le_sum_pool (weight : α → ℕ) (pool : ι → α) (k : ι) :
    weight (pool k) ≤ ∑ j, weight (pool j) :=
  Finset.single_le_sum (f := fun j => weight (pool j)) (fun _ _ => Nat.zero_le _)
    (Finset.mem_univ k)

/-- Two different threads' weights are together at most the sum. -/
theorem add_le_sum_pool (weight : α → ℕ) (pool : ι → α) {k k' : ι} (h : k ≠ k') :
    weight (pool k) + weight (pool k') ≤ ∑ j, weight (pool j) := by
  rw [← Finset.sum_pair (f := fun j => weight (pool j)) h]
  exact Finset.sum_le_sum_of_subset (Finset.subset_univ _)

end LinkScheduling.Framework
