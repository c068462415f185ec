import LinkScheduling.Framework.Pool
import LinkScheduling.Framework.Transition
import LinkScheduling.Model.Workload
import Mathlib.Data.Nat.Count

/-!
# How many requests a load issues

Every `fetch_add` hands out the next number, and a thread that gets a number below the limit
issues a request while one that gets a number from the limit on leaves. As long as the counter
stays in range the numbers below the limit are handed out once each. Each thread overshoots the
limit once, so with `N` requests and `T` threads the counter wraps when `N + T` exceeds `2 ^ 31`,
and then small numbers are handed out again.
-/

namespace LinkScheduling

open Framework

namespace Workload

variable {T : ℕ} {N : ℕ} {s u : Workload T}

/-! ## One step -/

/-- What a step of the load phase does. -/
inductive Moves (N : ℕ) (s : Workload T) : Workload T → Prop
  | create (h : s.created < T) : Moves N s { s with
      loader := Function.update s.loader ⟨s.created, h⟩ .fetching
      created := s.created + 1 }
  | fetchAdd {k : Fin T} : s.loader k = .fetching → Moves N s { s with
      next := int32 (s.next + 1)
      loader := Function.update s.loader k (.fetched s.next) }
  | leave {k : Fin T} {i : ℤ} : s.loader k = .fetched i → N ≤ i → Moves N s { s with
      loader := Function.update s.loader k .left }
  | issue {k : Fin T} {i : ℤ} : s.loader k = .fetched i → i < N → Moves N s { s with
      loader := Function.update s.loader k .requesting
      issued := s.issued + 1 }
  | request {k : Fin T} (failures : ℤ) : s.loader k = .requesting → Moves N s { s with
      failures := failures
      loader := Function.update s.loader k .fetching }
  | join (h : s.joined < T) : s.created = T → s.loader ⟨s.joined, h⟩ = .left →
      Moves N s { s with joined := s.joined + 1 }

theorem step_moves {l : Label T} (h : step N s l = some u) : Moves N s u := by
  cases l with
  | create =>
      simp only [step] at h
      split at h
      · cases h
        exact .create _
      · cases h
  | fetchAdd k =>
      simp only [step] at h
      split at h
      · rename_i hk
        cases h
        exact .fetchAdd hk
      · cases h
  | test k =>
      simp only [step] at h
      split at h
      · rename_i i hk
        split at h
        · rename_i hi
          cases h
          exact .leave hk hi
        · rename_i hi
          cases h
          exact .issue hk (not_le.mp hi)
      · cases h
  | request k code =>
      simp only [step] at h
      split at h
      · rename_i hk
        cases h
        exact .request _ hk
      · cases h
  | join =>
      simp only [step] at h
      split at h
      · rename_i hlt
        split at h
        · rename_i hleft
          cases h
          exact .join hlt.2 hlt.1 hleft
        · cases h
      · cases h

/-! ## Where the threads are -/

/-- The threads are created and joined in order. -/
structure Placed (s : Workload T) : Prop where
  created_le : s.created ≤ T
  joined_le : s.joined ≤ T
  uncreated : ∀ k : Fin T, s.loader k = .uncreated ↔ s.created ≤ k
  joined : ∀ k : Fin T, (k : ℕ) < s.joined → s.loader k = .left

/-- A created thread that has not left goes on. -/
theorem Placed.update (h : Placed s) {k : Fin T} {x y : Loader} (hk : s.loader k = y)
    (hy : y ≠ .uncreated) (hy' : y ≠ .left) (hx : x ≠ .uncreated) :
    (∀ j : Fin T, Function.update s.loader k x j = .uncreated ↔ s.created ≤ j) ∧
      ∀ j : Fin T, (j : ℕ) < s.joined → Function.update s.loader k x j = .left := by
  constructor
  · intro j
    by_cases hj : j = k
    · subst hj
      rw [Function.update_self, ← h.uncreated]
      exact iff_of_false hx (hk ▸ hy)
    · rw [Function.update_of_ne hj]
      exact h.uncreated j
  · intro j hjoined
    by_cases hj : j = k
    · subst hj
      exact absurd (h.joined j hjoined) (hk ▸ hy')
    · rw [Function.update_of_ne hj]
      exact h.joined j hjoined

theorem Moves.placed (h : Moves N s u) (hs : Placed s) : Placed u := by
  cases h with
  | create hlt =>
      have hnew : s.loader ⟨s.created, hlt⟩ = .uncreated := (hs.uncreated _).mpr le_rfl
      refine ⟨hlt, hs.joined_le, fun j => ?_, fun j hj => ?_⟩
      · change Function.update s.loader _ _ j = _ ↔ s.created + 1 ≤ j
        by_cases hj : j = ⟨s.created, hlt⟩
        · subst hj
          rw [Function.update_self]
          exact iff_of_false (by simp) (by simp)
        · have hne : (j : ℕ) ≠ s.created := fun heq => hj (Fin.ext heq)
          rw [Function.update_of_ne hj, hs.uncreated]
          omega
      · have hleft := hs.joined j hj
        have hne : j ≠ ⟨s.created, hlt⟩ := by
          rintro rfl
          rw [hnew] at hleft
          cases hleft
        exact (Function.update_of_ne hne _ _).trans hleft
  | fetchAdd hk =>
      obtain ⟨hun, hjoined⟩ := hs.update (x := .fetched s.next) hk (by simp) (by simp) (by simp)
      exact ⟨hs.created_le, hs.joined_le, hun, hjoined⟩
  | leave hk _ =>
      obtain ⟨hun, hjoined⟩ := hs.update (x := .left) hk (by simp) (by simp) (by simp)
      exact ⟨hs.created_le, hs.joined_le, hun, hjoined⟩
  | issue hk _ =>
      obtain ⟨hun, hjoined⟩ := hs.update (x := .requesting) hk (by simp) (by simp) (by simp)
      exact ⟨hs.created_le, hs.joined_le, hun, hjoined⟩
  | request _ hk =>
      obtain ⟨hun, hjoined⟩ := hs.update (x := .fetching) hk (by simp) (by simp) (by simp)
      exact ⟨hs.created_le, hs.joined_le, hun, hjoined⟩
  | join hlt _ hleft =>
      refine ⟨hs.created_le, hlt, hs.uncreated, fun j hj => ?_⟩
      rcases Nat.lt_or_ge j s.joined with hbefore | hafter
      · exact hs.joined j hbefore
      · have heq : j = ⟨s.joined, hlt⟩ := Fin.ext (le_antisymm (Nat.lt_succ_iff.mp hj) hafter)
        rw [heq]
        exact hleft

/-- A load phase without a step has ended. -/
theorem Placed.ended (hs : Placed s) (hstuck : ∀ l, step N s l = none) : s.Ended := by
  have hcreated : s.created = T := by
    apply le_antisymm hs.created_le
    by_contra hlt
    have h := hstuck .create
    rw [step, dif_pos (Nat.not_le.mp hlt)] at h
    cases h
  have hleft : ∀ k, s.loader k = .left := by
    intro k
    cases hk : s.loader k with
    | uncreated =>
        have h := (hs.uncreated k).mp hk
        have hlt := k.isLt
        omega
    | fetching =>
        have h := hstuck (.fetchAdd k)
        rw [step, if_pos hk] at h
        cases h
    | fetched i =>
        have h := hstuck (.test k)
        simp only [step, hk] at h
        split at h
        · cases h
        · cases h
    | requesting =>
        have h := hstuck (.request k 0)
        rw [step, if_pos hk] at h
        cases h
    | left => rfl
  refine ⟨?_, hleft⟩
  apply le_antisymm hs.joined_le
  by_contra hlt
  have h := hstuck .join
  rw [step, dif_pos ⟨hcreated, Nat.not_le.mp hlt⟩, if_pos (hleft _)] at h
  cases h

/-! ## Overshooting the limit -/

/-- How many of the first `f` numbers are not below the limit. -/
def overshoots (N f : ℕ) : ℕ := Nat.count (fun j : ℕ => (N : ℤ) ≤ int32 j) f

theorem overshoots_succ (N f : ℕ) :
    overshoots N (f + 1) = overshoots N f + if (N : ℤ) ≤ int32 f then 1 else 0 :=
  Nat.count_succ _ _

theorem overshoots_mono {f f' : ℕ} (h : f ≤ f') : overshoots N f ≤ overshoots N f' :=
  Nat.count_monotone _ h

theorem int32_succ (z : ℤ) : int32 (int32 z + 1) = int32 (z + 1) := by
  unfold int32
  omega

/-- Before the counter wraps, the numbers are what they look like. -/
theorem overshoots_eq {f : ℕ} (hf : f ≤ 2 ^ 31) : overshoots N f = f - N := by
  induction f with
  | zero => exact (Nat.zero_sub N).symm
  | succ f ih =>
      have hnumber : int32 f = f := by
        unfold int32
        omega
      rw [overshoots_succ, ih (by omega), hnumber]
      split
      · omega
      · omega

/-- The first number after the wrap is below the limit. -/
theorem overshoots_wrapped (hN : N ≤ 2 ^ 31) {f : ℕ} (hf : 2 ^ 31 + 1 ≤ f) :
    overshoots N f + N + 1 ≤ f := by
  induction f, hf using Nat.le_induction with
  | base =>
      have hwrap : ¬ (N : ℤ) ≤ int32 (2 ^ 31 : ℕ) := by
        unfold int32
        omega
      rw [overshoots_succ, if_neg hwrap, overshoots_eq le_rfl]
      omega
  | succ f _ ih =>
      rw [overshoots_succ]
      split
      · omega
      · omega

/-- Every pass over all numbers overshoots. -/
theorem overshoots_pass (hN : N ≤ 2 ^ 31 - 1) (m : ℕ) : m ≤ overshoots N (2 ^ 32 * m) := by
  induction m with
  | zero => exact Nat.zero_le _
  | succ m ih =>
      have hlast : (N : ℤ) ≤ int32 (2 ^ 32 * m + (2 ^ 31 - 1) : ℕ) := by
        unfold int32
        omega
      have hstart : overshoots N (2 ^ 32 * m) ≤ overshoots N (2 ^ 32 * m + (2 ^ 31 - 1)) :=
        overshoots_mono (Nat.le_add_right _ _)
      have hend : overshoots N (2 ^ 32 * m + (2 ^ 31 - 1) + 1) ≤ overshoots N (2 ^ 32 * (m + 1)) :=
        overshoots_mono (by omega)
      rw [overshoots_succ, if_pos hlast] at hend
      omega

/-! ## Counting the numbers -/

/-- A thread whose number is below the limit. -/
def toIssue (N : ℕ) : Loader → ℕ
  | .fetched i => if i < N then 1 else 0
  | _ => 0

/-- A thread whose number is not below the limit. -/
def toLeave (N : ℕ) : Loader → ℕ
  | .fetched i => if i < N then 0 else 1
  | .left => 1
  | _ => 0

/-- The numbers handed out so far. -/
def fetches (N : ℕ) (s : Workload T) : ℕ :=
  s.issued + ∑ k, toIssue N (s.loader k) + ∑ k, toLeave N (s.loader k)

structure Counted (N : ℕ) (s : Workload T) : Prop where
  next : s.next = int32 (s.fetches N)
  leaving : ∑ k, toLeave N (s.loader k) = overshoots N (s.fetches N)
  in_range : s.fetches N ≤ 2 ^ 31 ∨ 2 ^ 31 < N + T
  bounded : s.fetches N ≤ 2 ^ 32 * T

/-- One thread moves, and its weight changes from `a` to `b`. -/
theorem sum_move (weight : Loader → ℕ) {k : Fin T} {x y : Loader} {a b : ℕ} (hk : s.loader k = y)
    (ha : weight y = a) (hb : weight x = b) :
    ∑ j, weight (Function.update s.loader k x j) + a = ∑ j, weight (s.loader j) + b := by
  rw [← ha, ← hb, ← hk]
  exact sum_update_add weight s.loader k x

theorem toLeave_le_one (N : ℕ) (x : Loader) : toLeave N x ≤ 1 := by
  cases x with
  | fetched i =>
      simp only [toLeave]
      split
      · exact Nat.zero_le 1
      · exact le_rfl
  | left => exact le_rfl
  | _ => exact Nat.zero_le 1

theorem sum_toLeave_le (s : Workload T) : ∑ k, toLeave N (s.loader k) ≤ T := by
  refine (Finset.sum_le_card_nsmul _ _ 1 fun k _ => toLeave_le_one N _).trans (le_of_eq ?_)
  simp

/-- While a thread is in its loop, not all have overshot. -/
theorem sum_toLeave_lt {k : Fin T} (hk : s.loader k = .fetching) :
    ∑ k, toLeave N (s.loader k) < T := by
  have hsum := sum_move (toLeave N) hk (a := 0) rfl (show toLeave N .left = 1 from rfl)
  have hle := sum_toLeave_le (N := N) { s with loader := Function.update s.loader k .left }
  change ∑ j, toLeave N (Function.update s.loader k .left j) ≤ T at hle
  omega

/-- A step that hands out no number. -/
theorem Counted.same (h : Counted N s) (hnext : u.next = s.next)
    (hfetches : u.fetches N = s.fetches N)
    (hleave : ∑ k, toLeave N (u.loader k) = ∑ k, toLeave N (s.loader k)) : Counted N u := by
  refine ⟨?_, ?_, ?_, ?_⟩
  · rw [hnext, hfetches, h.next]
  · rw [hleave, hfetches, h.leaving]
  · rw [hfetches]
    exact h.in_range
  · rw [hfetches]
    exact h.bounded

/-- A step that hands out the next number. -/
theorem Counted.fetch (hN : N ≤ 2 ^ 31 - 1) (h : Counted N s) {k : Fin T}
    (hk : s.loader k = .fetching) : Counted N { s with
      next := int32 (s.next + 1)
      loader := Function.update s.loader k (.fetched s.next) } := by
  have hissue := sum_move (toIssue N) hk (a := 0) rfl
    (show toIssue N (.fetched s.next) = if s.next < N then 1 else 0 from rfl)
  have hleave := sum_move (toLeave N) hk (a := 0) rfl
    (show toLeave N (.fetched s.next) = if s.next < N then 0 else 1 from rfl)
  have hroom := sum_toLeave_lt (N := N) hk
  rw [Nat.add_zero] at hissue hleave
  have hfetches : fetches N { s with
      next := int32 (s.next + 1)
      loader := Function.update s.loader k (.fetched s.next) } = s.fetches N + 1 := by
    change s.issued + ∑ j, toIssue N (Function.update s.loader k (.fetched s.next) j) +
      ∑ j, toLeave N (Function.update s.loader k (.fetched s.next) j) = _
    rw [hissue, hleave, fetches]
    split
    · omega
    · omega
  have hover : overshoots N (s.fetches N) < T := h.leaving ▸ hroom
  refine ⟨?_, ?_, ?_, ?_⟩
  · rw [hfetches]
    change int32 (s.next + 1) = _
    rw [h.next, int32_succ]
    rfl
  · rw [hfetches, overshoots_succ, ← h.leaving, ← h.next]
    change ∑ j, toLeave N (Function.update s.loader k (.fetched s.next) j) = _
    rw [hleave]
    split
    · rw [if_neg (by omega)]
    · rw [if_pos (by omega)]
  · rw [hfetches]
    rcases h.in_range with hle | hlt
    · rcases Nat.lt_or_ge (s.fetches N) (2 ^ 31) with hlt | hge
      · exact Or.inl hlt
      · -- all numbers up to the end of the range are handed out
        have hend : s.fetches N = 2 ^ 31 := le_antisymm hle hge
        rw [hend, overshoots_eq le_rfl] at hover
        exact Or.inr (by omega)
    · exact Or.inr hlt
  · rw [hfetches]
    by_contra hlt
    have hpass := overshoots_pass hN T
    have hmono := overshoots_mono (N := N) (show 2 ^ 32 * T ≤ s.fetches N by omega)
    omega

theorem Moves.counted (hN : N ≤ 2 ^ 31 - 1) (h : Moves N s u) (hplaced : Placed s)
    (hs : Counted N s) : Counted N u := by
  cases h with
  | create hlt =>
      have hnew : s.loader ⟨s.created, hlt⟩ = .uncreated := (hplaced.uncreated _).mpr le_rfl
      have hissue := sum_move (toIssue N) hnew (a := 0) rfl (show toIssue N .fetching = 0 from rfl)
      have hleave := sum_move (toLeave N) hnew (a := 0) rfl (show toLeave N .fetching = 0 from rfl)
      refine hs.same rfl ?_ hleave
      simp only [fetches]
      omega
  | fetchAdd hk => exact hs.fetch hN hk
  | @leave k i hk hi =>
      have hissue := sum_move (toIssue N) hk (if_neg (not_lt.mpr hi))
        (show toIssue N .left = 0 from rfl)
      have hleave := sum_move (toLeave N) hk (if_neg (not_lt.mpr hi))
        (show toLeave N .left = 1 from rfl)
      refine hs.same rfl ?_ (Nat.add_right_cancel hleave)
      simp only [fetches]
      omega
  | @issue k i hk hi =>
      have hissue := sum_move (toIssue N) hk (if_pos hi) (show toIssue N .requesting = 0 from rfl)
      have hleave := sum_move (toLeave N) hk (if_pos hi) (show toLeave N .requesting = 0 from rfl)
      refine hs.same rfl ?_ hleave
      simp only [fetches]
      omega
  | @request k failures hk =>
      have hissue := sum_move (toIssue N) hk (a := 0) rfl (show toIssue N .fetching = 0 from rfl)
      have hleave := sum_move (toLeave N) hk (a := 0) rfl (show toLeave N .fetching = 0 from rfl)
      refine hs.same rfl ?_ hleave
      simp only [fetches]
      omega
  | join => exact hs.same rfl rfl rfl

/-! ## The end of the phase -/

/-- How far a thread is in one pass of its loop. -/
def stage : Loader → ℕ
  | .uncreated => 0
  | .fetching => 1
  | .fetched _ => 2
  | .requesting => 0
  | .left => 3

/-- Every step raises the rank by one. -/
def rank (s : Workload T) : ℕ := s.joined + 3 * s.issued + ∑ k, stage (s.loader k)

theorem Moves.rank_lt (h : Moves N s u) (hs : Placed s) : s.rank < u.rank := by
  cases h with
  | create hlt =>
      have hnew : s.loader ⟨s.created, hlt⟩ = .uncreated := (hs.uncreated _).mpr le_rfl
      have hstage := sum_move stage hnew (a := 0) rfl (show stage .fetching = 1 from rfl)
      simp only [rank]
      omega
  | fetchAdd hk =>
      have hstage := sum_move stage hk (a := 1) rfl (show stage (.fetched s.next) = 2 from rfl)
      simp only [rank]
      omega
  | leave hk _ =>
      have hstage := sum_move stage hk (a := 2) rfl (show stage .left = 3 from rfl)
      simp only [rank]
      omega
  | issue hk _ =>
      have hstage := sum_move stage hk (a := 2) rfl (show stage .requesting = 0 from rfl)
      simp only [rank]
      omega
  | request _ hk =>
      have hstage := sum_move stage hk (a := 0) rfl (show stage .fetching = 1 from rfl)
      simp only [rank]
      omega
  | join =>
      simp only [rank]
      omega

theorem stage_le (x : Loader) : stage x ≤ 3 := by
  cases x with
  | fetched i => exact Nat.le_succ 2
  | left => exact le_rfl
  | _ => decide

theorem rank_le (hplaced : Placed s) (hs : Counted N s) :
    s.rank ≤ T + 3 * (2 ^ 32 * T) + 3 * T := by
  have hstage : ∑ k, stage (s.loader k) ≤ T * 3 := by
    refine (Finset.sum_le_card_nsmul _ _ 3 fun k _ => stage_le _).trans (le_of_eq ?_)
    simp
  have hjoined := hplaced.joined_le
  have hbounded := hs.bounded
  unfold fetches at hbounded
  unfold rank
  omega

/-! ## Runs -/

/-- The start of the load phase. -/
def start (T : ℕ) : Workload T := {}

/-- What every reachable state keeps. -/
structure Kept (N : ℕ) (s : Workload T) : Prop where
  placed : Placed s
  counted : Counted N s

theorem start_kept (N T : ℕ) : Kept N (start T) := by
  have hfetches : (start T).fetches N = 0 := by simp [fetches, start, toIssue, toLeave]
  refine ⟨⟨Nat.zero_le _, Nat.zero_le _, fun k => iff_of_true rfl (Nat.zero_le _), fun k hk =>
    absurd hk (Nat.not_lt_zero _)⟩, ⟨?_, ?_, ?_, ?_⟩⟩
  · rw [hfetches]
    rfl
  · rw [hfetches]
    simp [start, toLeave, overshoots]
  · rw [hfetches]
    exact Or.inl (Nat.zero_le _)
  · rw [hfetches]
    exact Nat.zero_le _

theorem Kept.step (hN : N ≤ 2 ^ 31 - 1) {l : Label T} (hs : Kept N s)
    (h : step N s l = some u) : Kept N u :=
  ⟨(step_moves h).placed hs.placed, (step_moves h).counted hN hs.placed hs.counted⟩

theorem run_kept (hN : N ≤ 2 ^ 31 - 1) (h : Run (step N) (fun _ _ => True) (start T) s) :
    Kept N s :=
  h.invariant (Kept N) (start_kept N T) fun _ _ _ hs _ hstep => hs.step hN hstep

/-- At the end every thread has overshot once. -/
theorem Kept.fetches_ended (hs : Kept N s) (hend : s.Ended) :
    s.fetches N = s.issued + T ∧ overshoots N (s.fetches N) = T := by
  have hissue : ∑ k, toIssue N (s.loader k) = 0 :=
    Finset.sum_eq_zero fun k _ => by rw [hend.2 k]; rfl
  have hleave : ∑ k, toLeave N (s.loader k) = T := by
    rw [Finset.sum_congr rfl fun k _ => show toLeave N (s.loader k) = 1 by rw [hend.2 k]; rfl]
    simp
  constructor
  · rw [fetches, hissue, hleave]
    rfl
  · rw [← hs.counted.leaving, hleave]

theorem Kept.issued_eq (hT : 1 ≤ T) (hs : Kept N s) (hend : s.Ended) (h : N + T ≤ 2 ^ 31) :
    s.issued = N := by
  obtain ⟨hfetches, hover⟩ := hs.fetches_ended hend
  have hrange : s.fetches N ≤ 2 ^ 31 := hs.counted.in_range.resolve_right (Nat.not_lt.mpr h)
  rw [overshoots_eq hrange] at hover
  omega

theorem Kept.lt_issued (hN : N ≤ 2 ^ 31 - 1) (hs : Kept N s) (hend : s.Ended)
    (h : 2 ^ 31 < N + T) : N < s.issued := by
  obtain ⟨hfetches, hover⟩ := hs.fetches_ended hend
  rcases Nat.lt_or_ge (2 ^ 31) (s.fetches N) with hwrapped | hrange
  · have hless := overshoots_wrapped (hN.trans (Nat.sub_le _ _)) hwrapped
    omega
  · rw [overshoots_eq hrange] at hover
    omega

theorem exists_ended (hN : N ≤ 2 ^ 31 - 1) : ∃ s : Workload T,
    Run (step N) (fun _ _ => True) (start T) s ∧ (∀ l, step N s l = none) ∧ s.Ended := by
  have hinv : ∀ (s : Workload T) l t, Kept N s → step N s l = some t → Kept N t :=
    fun _ _ _ hs h => hs.step hN h
  obtain ⟨s, hrun, hstuck⟩ := Run.exists_stuck hinv (fun _ _ _ hs h => (step_moves h).rank_lt hs.placed)
    (fun _ hs => rank_le hs.placed hs.counted) (start_kept N T)
  exact ⟨s, hrun, hstuck, (run_kept hN hrun).placed.ended hstuck⟩

/-- Whatever the interleaving, the phase ends after every thread has left its loop, and `N`
requests have been issued. -/
def LoadsExactly (N T : ℕ) : Prop :=
  (¬ ∃ b : Behaviour (step (T := T) N), b.state 0 = start T) ∧
    ∀ s : Workload T, Run (step N) (fun _ _ => True) (start T) s → (∀ l, step N s l = none) →
      s.Ended ∧ s.issued = N

/-- **When a load issues `N` requests.** The load phase always ends with all threads past their
loops. They have issued exactly `N` requests if `N + T` is at most `2 ^ 31`, and more in every run
if it is not. -/
theorem loads_exactly_iff (hN : N ≤ 2 ^ 31 - 1) (hT : 1 ≤ T) :
    (LoadsExactly N T ↔ N + T ≤ 2 ^ 31) ∧
    (¬ ∃ b : Behaviour (step (T := T) N), b.state 0 = start T) ∧
    ∀ s : Workload T, Run (step N) (fun _ _ => True) (start T) s → (∀ l, step N s l = none) →
      s.Ended ∧ (2 ^ 31 < N + T → N < s.issued) := by
  have hends : ¬ ∃ b : Behaviour (step (T := T) N), b.state 0 = start T := by
    rintro ⟨b, hb⟩
    have hinv : ∀ (s : Workload T) l t, Kept N s → step N s l = some t → Kept N t :=
      fun _ _ _ hs h => hs.step hN h
    exact Behaviour.not_of_bounded hinv
      (fun _ _ _ hs h => (step_moves h).rank_lt hs.placed)
      (fun _ hs => rank_le hs.placed hs.counted) b (hb ▸ start_kept N T)
  refine ⟨⟨fun h => ?_, fun h => ⟨hends, fun s hrun hstuck => ?_⟩⟩, hends,
    fun s hrun hstuck => ?_⟩
  · by_contra hlt
    obtain ⟨s, hrun, hstuck, hend⟩ := exists_ended (T := T) hN
    have hmore := (run_kept hN hrun).lt_issued hN hend (Nat.not_le.mp hlt)
    exact absurd (h.2 s hrun hstuck).2 hmore.ne'
  · have hkept := run_kept hN hrun
    have hend := hkept.placed.ended hstuck
    exact ⟨hend, hkept.issued_eq hT hend h⟩
  · have hkept := run_kept hN hrun
    have hend := hkept.placed.ended hstuck
    exact ⟨hend, hkept.lt_issued hN hend⟩

theorem loads_exactly_three : LoadsExactly 3 2 :=
  (loads_exactly_iff (by decide) (by decide)).1.mpr (by decide)

/-- Two threads asked for `2 ^ 31 - 1` requests issue more. -/
theorem loads_more : ∃ s : Workload 2,
    Run (step (2147483647 : ℕ)) (fun _ _ => True) (start 2) s ∧ s.Ended ∧
      2147483647 < s.issued := by
  have hN : 2147483647 ≤ 2 ^ 31 - 1 := by decide
  obtain ⟨s, hrun, -, hend⟩ := exists_ended (T := 2) hN
  exact ⟨s, hrun, hend, (run_kept hN hrun).lt_issued hN hend (by decide)⟩

end Workload

end LinkScheduling
