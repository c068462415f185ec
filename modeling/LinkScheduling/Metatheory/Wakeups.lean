import LinkScheduling.Model.Monitor
import LinkScheduling.Metatheory.Steps

/-!
# No lost wakeup

While a request waits, some worker is on its way to the queue or a notification
is still owed; once the queue is closed and drained, a worker that sleeps has a
`close` notification coming. Both are invariants of the condition variable of
`RequestQueue`, over every interleaving.
-/

namespace LinkScheduling

open Framework

namespace Monitor

variable {W : ℕ} {S : Scheduler} {s t : Monitor W} {k : Fin W}

def holds : Waiter → ℕ
  | .holding _ => 1
  | _ => 0

/-- Closed, empty and nothing in flight: `wait_pop` returns `false`. -/
def Drained (q : RequestQueue) : Prop :=
  q.closed = true ∧ q.queue = [] ∧ q.inflight = 0

/-- Some worker comes back to the queue without being notified. -/
def Awake (worker : Fin W → Waiter) : Prop :=
  ∃ k, worker k ≠ .blocked ∧ worker k ≠ .exited

structure Inv (s : Monitor W) : Prop where
  inflight : s.queue.inflight = ∑ k, holds (s.worker k)
  exited : ∀ k, s.worker k = .exited → Drained s.queue
  waiting : s.queue.queue ≠ [] → Awake s.worker ∨ 0 < s.pushes ∨ 0 < s.closes
  drained : Drained s.queue → ∀ k, s.worker k = .blocked → 0 < s.closes

theorem init_inv (W : ℕ) : (init W).Inv where
  inflight := by simp [init, holds]
  exited := by simp [init]
  waiting := fun h => absurd rfl h
  drained := by simp [init]

/-! ## Notifications -/

theorem holds_wake (w : Waiter) : holds (wake w) = holds w := by
  cases w <;> rfl

theorem wake_ne_blocked (w : Waiter) : wake w ≠ .blocked := by
  cases w <;> simp [wake]

theorem wake_eq_exited {w : Waiter} : wake w = .exited ↔ w = .exited := by
  cases w <;> simp [wake]

/-- What a notification may do to the pool: some sleepers are woken. -/
structure Woken (worker worker' : Fin W → Waiter) : Prop where
  holds : ∀ k, Monitor.holds (worker' k) = Monitor.holds (worker k)
  exited : ∀ k, worker' k = .exited ↔ worker k = .exited
  blocked : ∀ k, worker' k = .blocked → worker k = .blocked
  same : ∀ k, worker k ≠ .blocked → worker' k = worker k

theorem woken_update {worker : Fin W → Waiter} (hk : worker k = .blocked) :
    Woken worker (Function.update worker k .ready) := by
  constructor <;> intro j <;> rcases eq_or_ne j k with rfl | hne <;> simp_all [Monitor.holds]

theorem woken_notifyAll (worker : Fin W → Waiter) : Woken worker (notifyAll worker) where
  holds k := holds_wake (worker k)
  exited k := wake_eq_exited
  blocked k h := absurd h (wake_ne_blocked (worker k))
  same k h := by
    show wake (worker k) = worker k
    cases hw : worker k <;> simp_all [wake]

theorem notifyOne_woken {worker worker' : Fin W → Waiter} {target : Option (Fin W)}
    (h : notifyOne worker target = some worker') : Woken worker worker' := by
  unfold notifyOne at h
  split at h
  · split at h
    · cases h
      exact woken_update ‹_›
    · cases h
  · split at h
    · cases h
      exact ⟨fun _ => rfl, fun _ => Iff.rfl, fun _ h => h, fun _ _ => rfl⟩
    · cases h

/-- After a notification somebody is awake, unless all workers have left. -/
theorem notifyOne_awake {worker worker' : Fin W → Waiter} {target : Option (Fin W)}
    (h : notifyOne worker target = some worker') (k : Fin W) (hk : worker k ≠ .exited) :
    Awake worker' := by
  unfold notifyOne at h
  split at h
  · rename_i j
    split at h
    · cases h
      exact ⟨j, by simp, by simp⟩
    · cases h
  · split at h
    · rename_i hnone
      cases h
      exact ⟨k, hnone k, hk⟩
    · cases h

theorem notifyAll_awake {worker : Fin W → Waiter} (k : Fin W) (hk : worker k ≠ .exited) :
    Awake (notifyAll worker) :=
  ⟨k, wake_ne_blocked (worker k), fun h => hk (wake_eq_exited.mp h)⟩

/-! ## The critical sections -/

/-- What the critical section of `wait_pop` leaves behind. -/
theorem waitPop_cases (S : Scheduler) (q : RequestQueue) :
    (∃ request q', waitPop S q = (.holding request, q') ∧ q.queue ≠ [] ∧
      q'.closed = q.closed ∧ q'.inflight = q.inflight + 1) ∨
    (waitPop S q = (.exited, q) ∧ Drained q) ∨
    (waitPop S q = (.blocked, q) ∧ q.queue = [] ∧ ¬ Drained q) := by
  unfold waitPop
  split
  · rename_i hpred
    split
    · rename_i d q' hnext
      obtain ⟨request, hpop, -⟩ := S.next_spec hnext
      refine Or.inl ⟨d.request, q', rfl, ?_, hpop.closed, hpop.inflight⟩
      intro hnil
      simpa [hnil] using hpop.perm.length_eq
    · rename_i hnext
      have hnil := S.next_eq_none hnext
      refine Or.inr (Or.inl ⟨rfl, ?_, hnil, ?_⟩) <;>
        simp_all [RequestQueue.waitPredicate]
  · rename_i hpred
    refine Or.inr (Or.inr ⟨rfl, ?_, ?_⟩)
    · simp_all [RequestQueue.waitPredicate]
    · rintro ⟨hc, hq, hi⟩
      simp_all [RequestQueue.waitPredicate]

namespace Inv

variable (hi : s.Inv)
include hi

theorem inflight_pos (k : Fin W) (r : Request) (hk : s.worker k = .holding r) :
    0 < s.queue.inflight := by
  have hle := le_sum_pool holds s.worker k
  rw [← hi.inflight, hk] at hle
  exact hle

/-- A held request keeps every worker from leaving. -/
theorem not_exited_of_holding (r : Request) (hk : s.worker k = .holding r) (j : Fin W) :
    s.worker j ≠ .exited := fun hj =>
  absurd (hi.exited j hj).2.2 (hi.inflight_pos k r hk).ne'

theorem not_exited_of_waiting (hq : s.queue.queue ≠ []) (j : Fin W) : s.worker j ≠ .exited :=
  fun hj => hq (hi.exited j hj).2.1

/-- A worker that gives up its request leaves one less in flight. -/
theorem inflight_release (r : Request) (hk : s.worker k = .holding r) (w : Waiter)
    (hw : holds w = 0) :
    (if s.queue.inflight > 0 then s.queue.inflight - 1 else s.queue.inflight) =
      ∑ j, holds (Function.update s.worker k w j) := by
  have hpos := hi.inflight_pos k r hk
  have hsum := sum_update_add holds s.worker k w
  have hone : holds (.holding r) = 1 := rfl
  rw [← hi.inflight, hk, hw, hone] at hsum
  rw [if_pos hpos]
  omega

end Inv

/-! ## The steps -/

theorem push_inv (hi : s.Inv) (request : Request)
    (h : step S s (.push request) = some t) : t.Inv := by
  by_cases hc : s.queue.closed = true
  · have hpush : s.queue.push request = (false, s.queue) := if_pos hc
    simp only [step, hpush] at h
    cases h
    exact hi
  · have hpush : s.queue.push request =
        (true, { s.queue with queue := s.queue.queue ++ [request] }) := if_neg hc
    simp only [step, hpush] at h
    cases h
    refine ⟨hi.inflight, fun k hk => ?_, fun _ => Or.inr (Or.inl (Nat.succ_pos _)), ?_⟩
    · exact absurd (hi.exited k hk).1 hc
    · rintro ⟨hc', -⟩
      exact absurd hc' hc

/-- A worker that changed its place is what it became, any other is what it was. -/
theorem update_eq_cases {worker : Fin W → Waiter} {w w' : Waiter} {j : Fin W}
    (h : Function.update worker k w j = w') : w = w' ∨ worker j = w' := by
  rcases eq_or_ne j k with rfl | hne
  · exact Or.inl (by simpa using h)
  · exact Or.inr (by simpa [Function.update_of_ne hne] using h)

/-- The number of held requests when a worker that holds none changes its place. -/
theorem Inv.sum_holds (hi : s.Inv) (hk : holds (s.worker k) = 0) (w : Waiter) :
    ∑ j, holds (Function.update s.worker k w j) = s.queue.inflight + holds w := by
  have hsum := sum_update_add holds s.worker k w
  rw [hk, ← hi.inflight] at hsum
  exact hsum

theorem waitPop_inv (hi : s.Inv) (h : step S s (.waitPop k) = some t) : t.Inv := by
  simp only [step] at h
  split at h
  swap
  · cases h
  rename_i hready
  have hsum := hi.sum_holds (k := k) (by rw [hready]; rfl)
  rcases waitPop_cases S s.queue with ⟨r, q', heq, hq, hcl, hin⟩ | ⟨heq, hd⟩ | ⟨heq, hq, hd⟩
  · -- popped: the request is in flight, so the queue is not drained
    simp only [heq, Option.some.injEq] at h
    subst h
    refine ⟨hin.trans (hsum (.holding r)).symm, fun j hj => ?_,
      fun _ => Or.inl ⟨k, by simp, by simp⟩, ?_⟩
    · rcases update_eq_cases hj with hj | hj
      · cases hj
      · exact absurd hj (hi.not_exited_of_waiting hq j)
    · rintro ⟨-, -, hzero : q'.inflight = 0⟩
      omega
  · simp only [heq, Option.some.injEq] at h
    subst h
    refine ⟨(hsum .exited).symm, fun _ _ => hd, fun hne => absurd hd.2.1 hne, fun hdr j hj => ?_⟩
    rcases update_eq_cases hj with hj | hj
    · cases hj
    · exact hi.drained hdr j hj
  · -- the predicate is false: the worker sleeps with the lock released
    simp only [heq, Option.some.injEq] at h
    subst h
    refine ⟨(hsum .blocked).symm, fun j hj => ?_, fun hne => absurd hq hne,
      fun hdr => absurd hdr hd⟩
    rcases update_eq_cases hj with hj | hj
    · cases hj
    · exact hi.exited j hj

/-- Waking sleepers without touching the queue keeps the invariant as long as
somebody stays awake. -/
theorem Inv.wake (hi : s.Inv) {worker : Fin W → Waiter} (hw : Woken s.worker worker) {p c : ℕ}
    (hawake : s.queue.queue ≠ [] → Awake worker)
    (hclose : ∀ k, worker k = .blocked → s.closes ≤ c) :
    Inv { s with worker := worker, pushes := p, closes := c } where
  inflight := by
    show s.queue.inflight = ∑ k, holds (worker k)
    rw [hi.inflight, Finset.sum_congr rfl fun k _ => hw.holds k]
  exited k hk := hi.exited k ((hw.exited k).mp hk)
  waiting hq := Or.inl (hawake hq)
  drained hd k hk := lt_of_lt_of_le (hi.drained hd k (hw.blocked k hk)) (hclose k hk)

theorem pushNotify_inv (hi : s.Inv) (hW : 0 < W) {target : Option (Fin W)}
    (h : step S s (.pushNotify target) = some t) : t.Inv := by
  simp only [step] at h
  split at h
  · cases h
  obtain ⟨worker, hn, rfl⟩ := Option.map_eq_some_iff.mp h
  refine hi.wake (notifyOne_woken hn) (fun hq => ?_) fun _ _ => le_rfl
  exact notifyOne_awake hn ⟨0, hW⟩ (hi.not_exited_of_waiting hq _)

theorem spuriousWake_inv (hi : s.Inv) (h : step S s (.spuriousWake k) = some t) : t.Inv := by
  simp only [step] at h
  split at h
  · cases h
    exact hi.wake (woken_update ‹_›) (fun _ => ⟨k, by simp, by simp⟩) fun _ _ => le_rfl
  · cases h

theorem closeNotify_inv (hi : s.Inv) (hW : 0 < W) (h : step S s .closeNotify = some t) :
    t.Inv := by
  simp only [step] at h
  split at h
  · cases h
  cases h
  refine hi.wake (woken_notifyAll s.worker) (fun hq => ?_) fun j hj => ?_
  · exact notifyAll_awake ⟨0, hW⟩ (hi.not_exited_of_waiting hq _)
  · exact absurd hj (wake_ne_blocked _)

theorem requeue_inv (hi : s.Inv) {request : Request}
    (h : step S s (.requeue k request) = some t) : t.Inv := by
  simp only [step] at h
  split at h
  swap
  · cases h
  rename_i r hk
  cases h
  refine ⟨hi.inflight_release r hk .notifying rfl, fun j hj => ?_,
    fun _ => Or.inl ⟨k, by simp, by simp⟩, ?_⟩
  · rcases update_eq_cases hj with hj | hj
    · cases hj
    · exact absurd hj (hi.not_exited_of_holding r hk j)
  · rintro ⟨-, hnil, -⟩
    simp [RequestQueue.requeue] at hnil

theorem requeueNotify_inv (hi : s.Inv) {target : Option (Fin W)}
    (h : step S s (.requeueNotify k target) = some t) : t.Inv := by
  simp only [step] at h
  split at h
  swap
  · cases h
  rename_i hk
  obtain ⟨worker, hn, rfl⟩ := Option.map_eq_some_iff.mp h
  have hw := notifyOne_woken hn
  have hwoken : Inv { s with worker := worker } :=
    hi.wake hw (fun _ => ⟨k, by rw [hw.same k (by simp [hk]), hk]; simp⟩) fun _ _ => le_rfl
  have hsum := hwoken.sum_holds (k := k)
    (by show holds (worker k) = 0; rw [hw.holds k, hk]; rfl) .ready
  refine ⟨hsum.symm, fun j hj => ?_, fun _ => Or.inl ⟨k, by simp, by simp⟩, fun hd j hj => ?_⟩
  · rcases update_eq_cases hj with hj | hj
    · cases hj
    · exact hwoken.exited j hj
  · rcases update_eq_cases hj with hj | hj
    · cases hj
    · exact hwoken.drained hd j hj

theorem complete_inv (hi : s.Inv) (h : step S s (.complete k) = some t) : t.Inv := by
  simp only [step] at h
  split at h
  swap
  · cases h
  rename_i r hk
  cases h
  refine ⟨?_, fun j hj => ?_, fun _ => Or.inl ?_, fun _ j hj => ?_⟩
  · have hrel := hi.inflight_release r hk .ready rfl
    refine hrel.trans (Finset.sum_congr rfl fun j _ => ?_)
    exact (holds_wake _).symm
  · rcases update_eq_cases (wake_eq_exited.mp hj) with hj | hj
    · cases hj
    · exact absurd hj (hi.not_exited_of_holding r hk j)
  · exact notifyAll_awake k (by simp)
  · exact absurd hj (wake_ne_blocked _)

theorem close_inv (hi : s.Inv) (h : step S s .close = some t) : t.Inv := by
  simp only [step] at h
  cases h
  refine ⟨hi.inflight, fun k hk => ?_, fun _ => Or.inr (Or.inr (Nat.succ_pos _)),
    fun _ _ _ => Nat.succ_pos _⟩
  have hd := hi.exited k hk
  exact ⟨rfl, hd.2⟩

theorem step_inv (hW : 0 < W) (hi : s.Inv) {l : Label W} (h : step S s l = some t) : t.Inv := by
  cases l with
  | push request => exact push_inv hi request h
  | pushNotify target => exact pushNotify_inv hi hW h
  | waitPop k => exact waitPop_inv hi h
  | spuriousWake k => exact spuriousWake_inv hi h
  | requeue k request => exact requeue_inv hi h
  | requeueNotify k target => exact requeueNotify_inv hi h
  | complete k => exact complete_inv hi h
  | close => exact close_inv hi h
  | closeNotify => exact closeNotify_inv hi hW h

theorem run_inv (hW : 0 < W) (h : Run (step S) (fun _ _ => True) (init W) s) : s.Inv :=
  h.invariant Inv (init_inv W) fun _ _ _ hi _ hs => step_inv hW hi hs

/-- **No lost wakeup.** Where no notification is owed, the workers do not all
sleep over a waiting request, and none sleeps over a closed and drained queue. -/
theorem no_lost_wakeup (S : Scheduler) (hW : 0 < W)
    (h : Run (step S) (fun _ _ => True) (init W) s) (hpending : ¬ s.Pending) :
    ¬ ((∀ k, s.worker k = .blocked) ∧ s.queue.queue ≠ []) ∧
      ¬ ((∃ k, s.worker k = .blocked) ∧ s.queue.closed = true ∧ s.queue.queue = [] ∧
        s.queue.inflight = 0) := by
  have hi := run_inv hW h
  have hp : ¬ (0 < s.pushes) := fun hp => hpending (Or.inl hp)
  have hc : ¬ (0 < s.closes) := fun hc => hpending (Or.inr (Or.inl hc))
  constructor
  · rintro ⟨hall, hq⟩
    rcases hi.waiting hq with ⟨k, hk, -⟩ | hp' | hc'
    · exact hk (hall k)
    · exact hp hp'
    · exact hc hc'
  · rintro ⟨⟨k, hk⟩, hd⟩
    exact hc (hi.drained hd k hk)

/-- Two workers sleep, a request is pushed and its notification wakes one of them. -/
theorem no_lost_wakeup_two_sleepers :
    ∃ s : Monitor 2, Run (step ⟨.FCFS, 0, by decide, by simp⟩) (fun _ _ => True) (init 2) s ∧
      s.queue.queue ≠ [] ∧ s.worker 1 = .blocked ∧ ¬ (∀ k, s.worker k = .blocked) := by
  have htrue : ∀ (s : Monitor 2) (l : Label 2), (fun _ _ => true) s l = true → True :=
    fun _ _ _ => trivial
  obtain ⟨s, hrun, hcheck⟩ := script_exists
    [.waitPop 0, .waitPop 1, .push {}, .pushNotify (some 0)]
    (fun s : Monitor 2 => decide (¬ s.Pending ∧ s.queue.queue ≠ [] ∧ s.worker 1 = .blocked)) htrue
    (show (script (step ⟨.FCFS, 0, by decide, by simp⟩) (fun _ _ => true) (init 2)
      [.waitPop 0, .waitPop 1, .push {}, .pushNotify (some 0)]).any _ = true by decide)
  obtain ⟨hp, hq, hblocked⟩ := of_decide_eq_true hcheck
  refine ⟨s, hrun, hq, hblocked, fun hall => ?_⟩
  exact (no_lost_wakeup _ (by decide) hrun hp).1 ⟨hall, hq⟩

end Monitor

end LinkScheduling
