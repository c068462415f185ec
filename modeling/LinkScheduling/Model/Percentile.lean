import Mathlib.Data.Rat.Floor

/-!
# `nearest_rank` of `metrics.cpp` and of `scripts/analyze_metrics.py`

The product `percentile / 100.0 * n` is taken as the exact rational, and sorting is the library's:
a sorted list of a linear order is unique.
-/

namespace LinkScheduling

variable {α : Type} [LinearOrder α] [Zero α]

/-- `k - 1` on a `std::size_t`. -/
def sizeTPred (k : ℕ) : ℕ := if k = 0 then 2 ^ 64 - 1 else k - 1

/-- `nearest_rank` of `metrics.cpp`, where the values are `std::uint64_t`. -/
def nearestRank (values : List α) (percentile : ℚ) : α :=
  if values.isEmpty then 0
  else
    let values := values.mergeSort
    let n := values.length
    let index := sizeTPred ⌈percentile / 100 * n⌉.toNat
    values.getD (min index (n - 1)) 0

/-- `nearest_rank` of `analyze_metrics.py`. -/
def Analyser.nearestRank (values : List α) (p : ℚ) : α :=
  if values.isEmpty then 0
  else
    let values := values.mergeSort
    let n := values.length
    let index : ℤ := ⌈p / 100 * n⌉ - 1
    values.getD (min (max index 0) (n - 1)).toNat 0

end LinkScheduling
