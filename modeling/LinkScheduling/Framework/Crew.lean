import Mathlib.Data.List.Infix
import Mathlib.Logic.Relation
import LinkScheduling.Framework.Termination

/-!
# A crew that serves a line

Threads take from the front of a line and work on what they took until it is done. Whoever could
move at every later moment moves at one (weak fairness). Then every job comes to its end, and
everybody who stands in the line is taken, however many join behind.
-/

namespace LinkScheduling.Framework

variable {S L ι J O : Type} {step : S → L → Option S}

/-- Weak fairness for the threads `ι`, where `mover` tells whose step a label is. -/
def Behaviour.Fair (b : Behaviour step) (mover : L → Option ι) : Prop :=
  ∀ k n, (∀ m, n ≤ m → ∃ l, mover l = some k ∧ (step (b.state m) l).isSome = true) →
    ∃ m, n ≤ m ∧ mover (b.label m) = some k

/-- A thread that can move as long as it has not moves at last. -/
theorem Behaviour.Fair.moves {b : Behaviour step} {mover : L → Option ι} (h : b.Fair mover)
    {I : S → Prop} {n : ℕ} {k : ι} (hI : I (b.state n))
    (hstays : ∀ m, n ≤ m → I (b.state m) → mover (b.label m) ≠ some k → I (b.state (m + 1)))
    (hable : ∀ m, n ≤ m → I (b.state m) →
      ∃ l, mover l = some k ∧ (step (b.state m) l).isSome = true) :
    ∃ m, n ≤ m ∧ I (b.state m) ∧ mover (b.label m) = some k := by
  by_contra hnever
  push Not at hnever
  have hall : ∀ d, I (b.state (n + d)) := by
    intro d
    induction d with
    | zero => exact hI
    | succ d ih => exact hstays (n + d) (Nat.le_add_right _ _) ih (hnever _ (Nat.le_add_right _ _) ih)
  have hlater : ∀ m, n ≤ m → I (b.state m) := by
    intro m hm
    obtain ⟨d, rfl⟩ := Nat.exists_eq_add_of_le hm
    exact hall d
  obtain ⟨m, hm, hmover⟩ := h k n fun m hm => hable m hm (hlater m hm)
  exact hnever m hm (hlater m hm) hmover

/-- The threads of a fair behaviour and their jobs: a thread with a job can move, and its own
steps make the job smaller until it is done. -/
structure Crew (b : Behaviour step) (mover : L → Option ι) (lt : J → J → Prop)
    (job : S → ι → Option J) : Prop where
  wf : WellFounded lt
  frame : ∀ n k, mover (b.label n) ≠ some k → job (b.state (n + 1)) k = job (b.state n) k
  works : ∀ n k j j', mover (b.label n) = some k → job (b.state n) k = some j →
    job (b.state (n + 1)) k = some j' → lt j' j
  able : ∀ n k j, job (b.state n) k = some j →
    ∃ l, mover l = some k ∧ (step (b.state n) l).isSome = true
  fair : b.Fair mover

/-- The line the crew serves: `out` is what a step takes from its front. An idle thread can take
while there is somebody in the line, and does so with its next step. -/
structure Crew.Serves (b : Behaviour step) (mover : L → Option ι) (job : S → ι → Option J)
    (line : S → List O) (out : S → L → List O) : Prop where
  law : ∀ n, line (b.state n) <+: out (b.state n) (b.label n) ++ line (b.state (n + 1))
  takes : ∀ n k, mover (b.label n) = some k → job (b.state n) k = none →
    line (b.state n) ≠ [] → out (b.state n) (b.label n) ≠ []
  able : ∀ n k, job (b.state n) k = none → line (b.state n) ≠ [] →
    ∃ l, mover l = some k ∧ (step (b.state n) l).isSome = true

namespace Crew

variable {b : Behaviour step} {mover : L → Option ι} {lt : J → J → Prop} {job : S → ι → Option J}

/-- **A job comes to its end**, by a step of its thread. -/
theorem job_ends (h : Crew b mover lt job) {n : ℕ} {k : ι} {j : J}
    (hjob : job (b.state n) k = some j) :
    ∃ m j', n ≤ m ∧ Relation.ReflTransGen lt j' j ∧ mover (b.label m) = some k ∧
      job (b.state m) k = some j' ∧ job (b.state (m + 1)) k = none := by
  induction j using h.wf.induction generalizing n with
  | _ j ih =>
      obtain ⟨m, hm, hj, hmover⟩ := h.fair.moves (I := fun s => job s k = some j) hjob
        (fun m _ hj hmover => (h.frame m k hmover).trans hj) fun m _ hj => h.able m k j hj
      cases hnext : job (b.state (m + 1)) k with
      | none => exact ⟨m, j, hm, .refl, hmover, hj, hnext⟩
      | some j' =>
          have hlt := h.works m k j j' hmover hj hnext
          obtain ⟨m', j'', hm', hpath, hend⟩ := ih j' hlt hnext
          exact ⟨m', j'', by omega, hpath.tail hlt, hend⟩

/-- Somebody who stays in the line moves up by as many places as were served. -/
theorem place_eq [DecidableEq O] {line line' served : List O} {o : O}
    (h : line <+: served ++ line') (ho : o ∈ line) (hnot : o ∉ served) :
    line.idxOf o = served.length + line'.idxOf o := by
  obtain ⟨rest, hrest⟩ := h
  rw [← List.idxOf_append_of_notMem hnot, ← hrest, List.idxOf_append_of_mem ho]

/-! ## The wait -/

theorem place_unserved [DecidableEq O] {line : S → List O} {out : S → L → List O} {n : ℕ} {o : O}
    (hline : Serves b mover job line out) (ho : o ∈ line (b.state n))
    (hout : out (b.state n) (b.label n) = []) :
    (line (b.state (n + 1))).idxOf o = (line (b.state n)).idxOf o := by
  have heq := place_eq (hline.law n) ho (by rw [hout]; exact List.not_mem_nil)
  rw [hout, List.length_nil, zero_add] at heq
  exact heq.symm

def WaitLt (lt : J → J → Prop) : ℕ × Multiset J → ℕ × Multiset J → Prop :=
  Prod.Lex (· < ·) (Relation.CutExpand lt)

theorem waitLt_wellFounded (h : Crew b mover lt job) : WellFounded (WaitLt lt) :=
  WellFounded.prod_lex Nat.lt_wfRel.wf h.wf.cutExpand

section Wait

variable [Fintype ι]

/-- The jobs in hand. -/
def inHand (job : S → ι → Option J) (s : S) : Multiset J := ∑ k, (job s k).elim 0 fun j => {j}

theorem inHand_frame (h : Crew b mover lt job) {n : ℕ} (hmover : mover (b.label n) = none) :
    inHand job (b.state (n + 1)) = inHand job (b.state n) := by
  refine Finset.sum_congr rfl fun k _ => ?_
  rw [h.frame n k (by rw [hmover]; exact fun hk => by cases hk)]

theorem inHand_works [DecidableEq ι] (h : Crew b mover lt job) {n : ℕ} {k : ι} {j : J}
    (hmover : mover (b.label n) = some k) (hjob : job (b.state n) k = some j) :
    Relation.CutExpand lt (inHand job (b.state (n + 1))) (inHand job (b.state n)) := by
  have hupdate : job (b.state (n + 1)) =
      Function.update (job (b.state n)) k (job (b.state (n + 1)) k) := by
    funext k'
    by_cases hk : k' = k
    · rw [hk, Function.update_self]
    · rw [Function.update_of_ne hk]
      refine h.frame n k' fun hk' => hk ?_
      rw [hmover] at hk'
      exact (Option.some.inj hk').symm
  have hsmaller : ∀ y ∈ (job (b.state (n + 1)) k).elim (0 : Multiset J) (fun j => {j}) + 0,
      lt y j := by
    intro y hy
    cases hnext : job (b.state (n + 1)) k with
    | none => simp [hnext] at hy
    | some j' =>
        have hyj : y = j' := by simpa [hnext] using hy
        exact hyj ▸ h.works n k j j' hmover hjob hnext
  have hcut := cutExpand_pool
    (fun o : Option J => o.elim (0 : Multiset J) fun j => {j}) (job (b.state n)) k
    (job (b.state (n + 1)) k) (by rw [hjob]; rfl) (add_zero (0 : Multiset J)).symm hsmaller
  rw [← hupdate, zero_add, zero_add] at hcut
  exact hcut

variable [DecidableEq O] {line : S → List O} {out : S → L → List O} {n : ℕ} {o : O}

/-- How far `o` is from the front, and what is in hand. -/
def wait (job : S → ι → Option J) (line : S → List O) (o : O) (s : S) : ℕ × Multiset J :=
  ((line s).idxOf o, inHand job s)

/-- Whoever is served before `o` brings it forward. -/
theorem wait_served (hline : Serves b mover job line out) (ho : o ∈ line (b.state n))
    (hnot : o ∉ out (b.state n) (b.label n)) (hout : out (b.state n) (b.label n) ≠ []) :
    WaitLt lt (wait job line o (b.state (n + 1))) (wait job line o (b.state n)) := by
  have heq := place_eq (hline.law n) ho hnot
  have hpos := List.length_pos_iff.mpr hout
  refine Prod.Lex.left _ _ ?_
  omega

/-- A thread that moves serves somebody or gets on with its job. -/
theorem wait_moved [DecidableEq ι] (h : Crew b mover lt job)
    (hline : Serves b mover job line out) (ho : o ∈ line (b.state n))
    (hnot : o ∉ out (b.state n) (b.label n)) {k : ι} (hmover : mover (b.label n) = some k) :
    WaitLt lt (wait job line o (b.state (n + 1))) (wait job line o (b.state n)) := by
  by_cases hout : out (b.state n) (b.label n) = []
  · cases hjob : job (b.state n) k with
    | none => exact absurd hout (hline.takes n k hmover hjob (List.ne_nil_of_mem ho))
    | some j =>
        rw [wait, wait, place_unserved hline ho hout]
        exact Prod.Lex.right _ (h.inHand_works hmover hjob)
  · exact wait_served hline ho hnot hout

theorem wait_step [DecidableEq ι] (h : Crew b mover lt job)
    (hline : Serves b mover job line out) (ho : o ∈ line (b.state n))
    (hnot : o ∉ out (b.state n) (b.label n)) :
    wait job line o (b.state (n + 1)) = wait job line o (b.state n) ∨
      WaitLt lt (wait job line o (b.state (n + 1))) (wait job line o (b.state n)) := by
  cases hmover : mover (b.label n) with
  | some k => exact Or.inr (h.wait_moved hline ho hnot hmover)
  | none =>
      by_cases hout : out (b.state n) (b.label n) = []
      · exact Or.inl (by rw [wait, wait, place_unserved hline ho hout, h.inHand_frame hmover])
      · exact Or.inr (wait_served hline ho hnot hout)

end Wait

/-- **Everybody in the line is taken.** -/
theorem taken [Finite ι] [Nonempty ι] (h : Crew b mover lt job) {line : S → List O}
    {out : S → L → List O} (hline : Serves b mover job line out) {n : ℕ} {o : O}
    (ho : o ∈ line (b.state n)) : ∃ m, n ≤ m ∧ o ∈ out (b.state m) (b.label m) := by
  classical
  have := Fintype.ofFinite ι
  by_contra hnever
  push Not at hnever
  have hin : ∀ d, o ∈ line (b.state (n + d)) := by
    intro d
    induction d with
    | zero => exact ho
    | succ d ih =>
        have hmem := (hline.law (n + d)).subset ih
        exact (List.mem_append.mp hmem).resolve_left (hnever _ (Nat.le_add_right _ _))
  have hmem : ∀ m, n ≤ m → o ∈ line (b.state m) := by
    intro m hm
    obtain ⟨d, rfl⟩ := Nat.exists_eq_add_of_le hm
    exact hin d
  obtain ⟨n', hn', hquiet⟩ := b.quiesces h.waitLt_wellFounded (wait job line o)
    (fun s l => ∀ t, step s l = some t → WaitLt lt (wait job line o t) (wait job line o s)) n
    (fun m _ hworks => hworks _ (b.next m)) fun m hm hidle => by
      refine (h.wait_step hline (hmem m hm) (hnever m hm)).resolve_right fun hless =>
        hidle fun t ht => ?_
      rw [b.next m] at ht
      cases ht
      exact hless
  -- yet some thread moves again
  obtain ⟨k⟩ := ‹Nonempty ι›
  obtain ⟨m, hm, hmover⟩ := h.fair k n' fun m hm => by
    cases hjob : job (b.state m) k with
    | some j => exact h.able m k j hjob
    | none => exact hline.able m k hjob (List.ne_nil_of_mem (hmem m (by omega)))
  refine hquiet m hm fun t ht => ?_
  rw [b.next m] at ht
  cases ht
  exact h.wait_moved hline (hmem m (by omega)) (hnever m (by omega)) hmover

end Crew

end LinkScheduling.Framework
