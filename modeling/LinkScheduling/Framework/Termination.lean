import Mathlib.Logic.Hydra
import Mathlib.Tactic.Abel
import LinkScheduling.Framework.Pool
import LinkScheduling.Framework.Transition

/-!
# Behaviours that come to rest

A step either does some of the work that is left or leaves the state's rank as it is.
Where the rank is well founded the work ends, and a behaviour that never stands still
while there is work to do ends in a state without any. Work that is spread over a pool is
ranked by the multiset of the jobs: a job that is replaced by smaller ones lowers it
(`Relation.CutExpand`).
-/

namespace LinkScheduling.Framework

variable {S L : Type} {step : S → L → Option S}

namespace Behaviour

/-- Where the steps that do work lower a well-founded rank and the others keep it, only
finitely many steps do work. -/
theorem quiesces (b : Behaviour step) {A : Type} {r : A → A → Prop} (hwf : WellFounded r)
    (rank : S → A) (works : S → L → Prop) (n₀ : ℕ)
    (hlower : ∀ n, n₀ ≤ n → works (b.state n) (b.label n) →
      r (rank (b.state (n + 1))) (rank (b.state n)))
    (hkeep : ∀ n, n₀ ≤ n → ¬ works (b.state n) (b.label n) →
      rank (b.state (n + 1)) = rank (b.state n)) :
    ∃ n, n₀ ≤ n ∧ ∀ m, n ≤ m → ¬ works (b.state m) (b.label m) := by
  -- a state of least rank
  obtain ⟨_, ⟨n, hn, rfl⟩, hleast⟩ :=
    hwf.has_min {a | ∃ n, n₀ ≤ n ∧ rank (b.state n) = a} ⟨_, n₀, le_rfl, rfl⟩
  have hrank : ∀ d, rank (b.state (n + d)) = rank (b.state n) := by
    intro d
    induction d with
    | zero => rfl
    | succ d ih =>
        by_cases hw : works (b.state (n + d)) (b.label (n + d))
        · have hlt := hlower (n + d) (by omega) hw
          rw [ih] at hlt
          exact absurd hlt (hleast _ ⟨n + d + 1, by omega, rfl⟩)
        · exact (hkeep (n + d) (by omega) hw).trans ih
  refine ⟨n, hn, fun m hm hw => ?_⟩
  obtain ⟨d, rfl⟩ := Nat.exists_eq_add_of_le hm
  have hlt := hlower (n + d) (by omega) hw
  rw [hrank d] at hlt
  exact hleast _ ⟨n + d + 1, by omega, rfl⟩ hlt

/-- A behaviour whose work ends and that never stands still while there is work to do
reaches a state in which there is none. -/
theorem comes_to_rest (b : Behaviour step) {works : S → L → Prop} {n₀ : ℕ}
    (hquiet : ∃ n, n₀ ≤ n ∧ ∀ m, n ≤ m → ¬ works (b.state m) (b.label m))
    (hbusy : ∀ n, (∃ l, works (b.state n) l ∧ (step (b.state n) l).isSome = true) →
      ∃ m, n ≤ m ∧ works (b.state m) (b.label m)) :
    ∃ n, n₀ ≤ n ∧ ∀ l, works (b.state n) l → step (b.state n) l = none := by
  obtain ⟨n, hn, hquiet⟩ := hquiet
  refine ⟨n, hn, fun l hl => ?_⟩
  by_contra hstep
  obtain ⟨m, hm, hw⟩ := hbusy n ⟨l, hl, Option.ne_none_iff_isSome.mp hstep⟩
  exact hquiet m hm hw

end Behaviour

/-! ## Pools of jobs -/

section Jobs

variable {A ι α : Type} {r : A → A → Prop} [Fintype ι] [DecidableEq ι]

/-- A thread exchanges its only job for smaller ones, some of which it hands on. -/
theorem cutExpand_pool (jobs : α → Multiset A) (pool : ι → α) (k : ι) (x : α) {a : A}
    {rest rest' handed : Multiset A} (hjob : jobs (pool k) = {a})
    (hrest : rest' = rest + handed) (hlt : ∀ y ∈ jobs x + handed, r y a) :
    Relation.CutExpand r (rest' + ∑ j, jobs (Function.update pool k x j))
      (rest + ∑ j, jobs (pool j)) := by
  refine ⟨jobs x + handed, a, hlt, ?_⟩
  have hsum := sum_update_add jobs pool k x
  rw [hjob] at hsum
  calc rest' + ∑ j, jobs (Function.update pool k x j) + {a}
      = rest + handed + (∑ j, jobs (Function.update pool k x j) + {a}) := by
        rw [hrest, add_assoc]
    _ = rest + handed + (∑ j, jobs (pool j) + jobs x) := by rw [hsum]
    _ = rest + ∑ j, jobs (pool j) + (jobs x + handed) := by abel

/-- An idle thread takes a job and makes smaller ones of it. -/
theorem cutExpand_take (jobs : α → Multiset A) (pool : ι → α) (k : ι) (x : α) {a : A}
    {rest rest' : Multiset A} (hidle : jobs (pool k) = 0) (hrest : rest = rest' + {a})
    (hlt : ∀ y ∈ jobs x, r y a) :
    Relation.CutExpand r (rest' + ∑ j, jobs (Function.update pool k x j))
      (rest + ∑ j, jobs (pool j)) := by
  refine ⟨jobs x, a, hlt, ?_⟩
  have hsum := sum_update_add jobs pool k x
  rw [hidle, add_zero] at hsum
  rw [hsum, hrest]
  abel

end Jobs

end LinkScheduling.Framework
