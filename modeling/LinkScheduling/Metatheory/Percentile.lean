import LinkScheduling.Framework.OrderStatistics
import LinkScheduling.Model.Percentile
import Mathlib.Algebra.Order.Field.Rat
import Mathlib.Data.List.GetD
import Mathlib.Tactic.Linarith
import Mathlib.Tactic.Positivity

/-!
# Percentiles

Server and analyser compute the index of the nearest rank with different clamps. For a
percentile above 0 and at most 100 the index is in range and neither clamp acts, so both return
the element the rank counts to.
-/

namespace LinkScheduling

open Framework

variable {α : Type} [LinearOrder α] {values : List α} {p q : ℚ}

/-- The nearest rank of a percentile. -/
def nearestRankIndex (n : ℕ) (p : ℚ) : ℕ := ⌈p / 100 * n⌉.toNat - 1

/-- The rank is one of the `n` ranks. -/
theorem ceil_bounds {n : ℕ} (hn : 0 < n) (hp : 0 < p) (hp' : p ≤ 100) :
    0 < ⌈p / 100 * n⌉ ∧ ⌈p / 100 * n⌉ ≤ n := by
  have hn' : (0 : ℚ) < n := Nat.cast_pos.mpr hn
  constructor
  · apply Int.ceil_pos.mpr
    positivity
  · apply Int.ceil_le.mpr
    rw [Int.cast_natCast]
    have hle : p / 100 ≤ 1 := by linarith
    calc p / 100 * n ≤ 1 * n := mul_le_mul_of_nonneg_right hle hn'.le
      _ = n := one_mul _

theorem nearestRankIndex_lt {n : ℕ} (hn : 0 < n) (hp : 0 < p) (hp' : p ≤ 100) :
    nearestRankIndex n p < n := by
  have hbounds := ceil_bounds hn hp hp'
  unfold nearestRankIndex
  omega

/-- An exact number of elements reaches the percentile when it is above the index. -/
theorem le_iff_nearestRankIndex_lt {n : ℕ} (hn : 0 < n) (hp : 0 < p) (hp' : p ≤ 100)
    (count : ℕ) : p / 100 * n ≤ count ↔ nearestRankIndex n p < count := by
  have hbounds := ceil_bounds hn hp hp'
  have hceil : p / 100 * n ≤ count ↔ ⌈p / 100 * n⌉ ≤ (count : ℤ) := by
    rw [Int.ceil_le, Int.cast_natCast]
  rw [hceil]
  unfold nearestRankIndex
  omega

theorem nearestRankIndex_mono {n : ℕ} (h : p ≤ q) : nearestRankIndex n p ≤ nearestRankIndex n q := by
  have hle : ⌈p / 100 * (n : ℚ)⌉ ≤ ⌈q / 100 * (n : ℚ)⌉ := by
    apply Int.ceil_le_ceil
    exact mul_le_mul_of_nonneg_right (by linarith) (Nat.cast_nonneg n)
  unfold nearestRankIndex
  omega

theorem length_mergeSort_pos (hne : values ≠ []) : 0 < values.mergeSort.length := by
  rw [List.length_mergeSort]
  exact List.length_pos_iff.mpr hne

theorem mergeSort_pairwise (values : List α) : values.mergeSort.Pairwise (· ≤ ·) :=
  List.pairwise_mergeSort' (· ≤ ·) values

section Ranks

variable [Zero α]

theorem nearestRank_eq (hne : values ≠ []) (hp : 0 < p) (hp' : p ≤ 100) :
    nearestRank values p =
      values.mergeSort.getD (nearestRankIndex values.mergeSort.length p) 0 := by
  have hbounds := ceil_bounds (length_mergeSort_pos hne) hp hp'
  rw [nearestRank, if_neg (by simpa using hne)]
  simp only [sizeTPred]
  rw [if_neg (by omega), Nat.min_eq_left (by omega)]
  rfl

theorem analyser_nearestRank_eq (hne : values ≠ []) (hp : 0 < p) (hp' : p ≤ 100) :
    Analyser.nearestRank values p =
      values.mergeSort.getD (nearestRankIndex values.mergeSort.length p) 0 := by
  have hbounds := ceil_bounds (length_mergeSort_pos hne) hp hp'
  rw [Analyser.nearestRank, if_neg (by simpa using hne)]
  simp only
  rw [max_eq_left (by omega), min_eq_left (by omega)]
  congr 1
  unfold nearestRankIndex
  omega

theorem nearestRank_isLeast (hne : values ≠ []) (hp : 0 < p) (hp' : p ≤ 100) :
    IsLeast {v | v ∈ values ∧ p / 100 * values.length ≤ values.countP (· ≤ v)}
      (nearestRank values p) := by
  have hpos := length_mergeSort_pos hne
  have hlt := nearestRankIndex_lt hpos hp hp'
  rw [nearestRank_eq hne hp hp', List.getD_eq_getElem _ _ hlt]
  have hset : {v | v ∈ values ∧ p / 100 * values.length ≤ values.countP (· ≤ v)} =
      {v | v ∈ values ∧
        nearestRankIndex values.mergeSort.length p < values.countP (· ≤ v)} := by
    ext v
    rw [Set.mem_ofPred_eq, Set.mem_ofPred_eq, ← le_iff_nearestRankIndex_lt hpos hp hp',
      List.length_mergeSort]
  rw [hset]
  exact isLeast_getElem (List.mergeSort_perm _ _) (mergeSort_pairwise values) hlt

theorem nearestRank_perm {values' : List α} (h : values'.Perm values) (hne : values ≠ [])
    (hp : 0 < p) (hp' : p ≤ 100) : nearestRank values' p = nearestRank values p := by
  have hne' : values' ≠ [] := fun hnil => hne (List.nil_perm.mp (hnil ▸ h))
  have hleast := nearestRank_isLeast hne' hp hp'
  have hset : {v | v ∈ values' ∧ p / 100 * values'.length ≤ values'.countP (· ≤ v)} =
      {v | v ∈ values ∧ p / 100 * values.length ≤ values.countP (· ≤ v)} := by
    ext v
    rw [Set.mem_ofPred_eq, Set.mem_ofPred_eq, h.mem_iff, h.length_eq, h.countP_eq]
  rw [hset] at hleast
  exact hleast.unique (nearestRank_isLeast hne hp hp')

theorem nearestRank_mono (hne : values ≠ []) (hp : 0 < p) (hpq : p ≤ q) (hq : q ≤ 100) :
    nearestRank values p ≤ nearestRank values q := by
  have hpos := length_mergeSort_pos hne
  have hlt := nearestRankIndex_lt hpos (hp.trans_le hpq) hq
  have hle := nearestRankIndex_mono (n := values.mergeSort.length) hpq
  rw [nearestRank_eq hne hp (hpq.trans hq), nearestRank_eq hne (hp.trans_le hpq) hq,
    List.getD_eq_getElem _ _ hlt, List.getD_eq_getElem _ _ (hle.trans_lt hlt)]
  rcases Nat.eq_or_lt_of_le hle with heq | hless
  · simp only [heq]
    exact le_rfl
  · exact List.pairwise_iff_getElem.mp (mergeSort_pairwise values) _ _ _ _ hless

/-- **The percentiles.** Server and analyser return the same value: the least element that at
least `p / 100 * n` elements do not exceed, whatever the order of the list, and it does not
decrease with `p`. -/
theorem nearest_rank_spec (hne : values ≠ []) (hp : 0 < p) (hp' : p ≤ 100) :
    nearestRank values p = Analyser.nearestRank values p ∧
    IsLeast {v | v ∈ values ∧ p / 100 * values.length ≤ values.countP (· ≤ v)}
      (nearestRank values p) ∧
    (∀ values' : List α, values'.Perm values →
      nearestRank values' p = nearestRank values p ∧
        Analyser.nearestRank values' p = Analyser.nearestRank values p) ∧
    ∀ q, p ≤ q → q ≤ 100 → nearestRank values p ≤ nearestRank values q := by
  have hsame : ∀ values' : List α, values' ≠ [] →
      nearestRank values' p = Analyser.nearestRank values' p := fun values' hne' =>
    (nearestRank_eq hne' hp hp').trans (analyser_nearestRank_eq hne' hp hp').symm
  refine ⟨hsame values hne, nearestRank_isLeast hne hp hp', fun values' h => ?_,
    fun q hpq hq => nearestRank_mono hne hp hpq hq⟩
  have hperm := nearestRank_perm h hne hp hp'
  have hne' : values' ≠ [] := fun hnil => hne (List.nil_perm.mp (hnil ▸ h))
  exact ⟨hperm, (hsame values' hne').symm.trans (hperm.trans (hsame values hne))⟩

end Ranks

/-- The median of three times, two of them the same. -/
theorem nearest_rank_spec_median :
    nearestRank [9, 4, 4] 50 = 4 ∧ Analyser.nearestRank [9, 4, 4] 50 = 4 := by
  obtain ⟨hsame, hleast, -⟩ :=
    @nearest_rank_spec ℕ _ [9, 4, 4] 50 _ (by decide) (by decide) (by decide)
  have hfour : IsLeast {v | v ∈ [9, 4, 4] ∧
      (50 : ℚ) / 100 * ([9, 4, 4] : List ℕ).length ≤ ([9, 4, 4] : List ℕ).countP (· ≤ v)} 4 := by
    refine ⟨⟨by decide, by decide +kernel⟩, ?_⟩
    rintro v ⟨hmem, -⟩
    have hall : ∀ v ∈ [9, 4, 4], 4 ≤ v := by decide
    exact hall v hmem
  have hvalue := hleast.unique hfour
  exact ⟨hvalue, hsame.symm.trans hvalue⟩

end LinkScheduling
