import LinkScheduling.Metatheory.Fairness

/-!
# What the counters of the request queue say

The queue knows how many requests wait in it and how many were popped and not yet
put back or completed. Together with the history lists these numbers tell where all
requests are, and a worker that leaves its loop leaves no request behind.
-/

namespace LinkScheduling

open Framework

/-- The connection whose request the worker holds. -/
def Worker.held : Worker → Multiset Fd
  | .busy req true _ => {req.clientFd}
  | _ => 0

theorem Worker.count_held (w : Worker) (fd : Fd) : w.held.count fd = w.holds fd := by
  unfold held holds
  split
  · rw [Multiset.count_singleton]
    exact if_congr eq_comm rfl rfl
  · simp

theorem Worker.card_held (w : Worker) : w.held.card = w.holding := by
  unfold held holding
  split <;> simp

namespace Sys

variable {P W : ℕ} {cfg : Config} {dir : Directory} {s t : Sys P W}

/-- The queue, the workers and the list of finished requests share out the admitted
ones. -/
theorem WellFormed.shares (h : s.WellFormed) :
    (s.requestQueue.queue.map (·.clientFd) : Multiset Fd) + ∑ k, (s.worker k).held +
      (s.finished.map Prod.fst : Multiset Fd) =
    (s.admitted.map (·.clientFd) : Multiset Fd) := by
  ext fd
  rw [Multiset.count_add, Multiset.count_add, Multiset.count_sum', Multiset.coe_count,
    Multiset.coe_count, Multiset.coe_count,
    Finset.sum_congr rfl fun k _ => (s.worker k).count_held fd]
  exact h.placed fd

theorem WellFormed.size_eq (h : s.WellFormed) :
    s.requestQueue.size + s.holdingCount + s.finished.length = s.admitted.length := by
  have hcard := congrArg Multiset.card h.shares
  rw [Multiset.card_add, Multiset.card_add, Multiset.card_sum, Multiset.coe_card, Multiset.coe_card,
    Multiset.coe_card, List.length_map, List.length_map, List.length_map,
    Finset.sum_congr rfl fun k _ => (s.worker k).card_held] at hcard
  exact hcard

theorem WellFormed.distinct (h : s.WellFormed) : (s.admitted.map (·.clientFd)).Nodup := by
  apply List.nodup_iff_count_le_one.mpr
  intro fd
  have honce := h.once fd
  have hcount : (s.admitted.map (·.clientFd)).count fd = s.admittedCount fd := rfl
  omega

theorem WellFormed.place (h : s.WellFormed) {request : Request} (hmem : request ∈ s.admitted) :
    s.queuedCount request.clientFd + s.heldCount request.clientFd +
      s.finishedCount request.clientFd = 1 := by
  have hpos : 0 < s.admittedCount request.clientFd :=
    List.count_pos_iff.mpr (List.mem_map.mpr ⟨request, hmem, rfl⟩)
  have hplaced := h.placed request.clientFd
  have honce := h.once request.clientFd
  omega

/-- Nothing is held when `inflight_` is zero. -/
theorem WellFormed.none_held (h : s.WellFormed) (hzero : s.requestQueue.inflight = 0)
    {k : Fin W} {req : Request} {todo : Server Unit} : s.worker k ≠ .busy req true todo := by
  intro hk
  have hle : (s.worker k).holding ≤ s.holdingCount := le_sum_pool Worker.holding s.worker k
  rw [← h.inflight, hzero, hk] at hle
  exact Nat.not_succ_le_zero 0 hle

/-- Whoever puts back or completes a request holds one. -/
theorem WellFormed.releases (h : s.WellFormed) {l : Label P W} {fd : Fd} {call : Call}
    (hcall : s.callOf l = some (fd, call)) (hrel : call.eff.releases = true) :
    0 < s.requestQueue.inflight := by
  cases l with
  | parserCall k c =>
      simp only [callOf] at hcall
      split at hcall
      · rename_i fd' e next hbusy
        cases hcall
        obtain ⟨⟨-, hown⟩, -⟩ := h.parser_ok k _ _ hbusy
        cases e <;> first | exact hown.elim | cases hrel
      · cases hcall
  | workerCall k c =>
      simp only [callOf] at hcall
      split at hcall
      · rename_i req held e next hbusy
        cases hcall
        cases held with
        | true =>
            apply Nat.pos_of_ne_zero
            intro hzero
            exact h.none_held hzero hbusy
        | false =>
            have hclose : e = .closeSocket req.clientFd := (h.worker_ok k req false _ hbusy).1
            rw [hclose] at hrel
            cases hrel
      · cases hcall
  | _ => cases hcall

/-! ## After the first worker left -/

/-- The queue was closed and drained. -/
structure Drained (s : Sys P W) : Prop where
  closed : s.requestQueue.closed = true
  empty : s.requestQueue.queue = []
  inflight : s.requestQueue.inflight = 0

theorem Drained.step (hwf : s.WellFormed) (h : s.Drained) {l : Label P W}
    (hstep : s.step cfg l = some t) : t.Drained := by
  cases step_cases hstep with
  | parserCall k c fd e next hbusy =>
      obtain ⟨⟨-, hown⟩, -⟩ := hwf.parser_ok k fd _ hbusy
      have hqueue : e.onQueue s.requestQueue = s.requestQueue := by
        cases e with
        | push req => simp [Eff.onQueue, RequestQueue.push, h.closed]
        | requeue req => exact hown.elim
        | complete exit => exact hown.elim
        | _ => rfl
      constructor <;> simp only [setParser, perform, hqueue]
      · exact h.closed
      · exact h.empty
      · exact h.inflight
  | workerTake k d request q hidle hpop hreq hbudget hnext =>
      have hmem : request ∈ s.requestQueue.queue := hpop.perm.mem_iff.mpr List.mem_cons_self
      rw [h.empty] at hmem
      cases hmem
  | workerCall k c req held e next hbusy =>
      cases held with
      | true => exact absurd hbusy (hwf.none_held h.inflight)
      | false =>
          have hclose : e = .closeSocket req.clientFd := (hwf.worker_ok k req false _ hbusy).1
          subst hclose
          exact ⟨h.closed, h.empty, h.inflight⟩
  | closeQueue => exact ⟨rfl, h.empty, h.inflight⟩
  | _ => exact ⟨h.closed, h.empty, h.inflight⟩

/-- A worker leaves only when the queue is closed, nothing waits and nothing is held. -/
theorem workerExit_drained {k : Fin W} (hstep : s.step cfg (.workerExit k) = some t) :
    s.Drained := by
  cases step_cases hstep with
  | workerExit _ hidle hq hclosed hinflight => exact ⟨hclosed, hq, hinflight⟩

theorem setWorker_exited {k j : Fin W} {w : Worker} (hw : w ≠ .exited)
    (h : (s.setWorker k w).worker j = .exited) : s.worker j = .exited := by
  by_cases hjk : j = k
  · subst hjk
    simp only [setWorker, Function.update_self] at h
    exact absurd h hw
  · simpa [setWorker, Function.update_of_ne hjk] using h

theorem resume_ne_exited (req : Request) (held : Bool) (p : Server Unit) :
    Worker.resume req held p ≠ .exited := by
  cases p <;> simp [Worker.resume]

theorem run_drained (hrun : RunWhere cfg (fun _ _ => True) (init P W dir) t) {k : Fin W}
    (hk : t.worker k = .exited) : t.Drained := by
  refine (hrun.invariant (fun s => s.WellFormed ∧ ∀ k, s.worker k = .exited → s.Drained)
    ⟨init_wellFormed dir, by simp [init]⟩ ?_).2 k hk
  rintro u l v ⟨hwf, hu⟩ - hstep
  refine ⟨step_wellFormed hwf hstep, fun j hj => ?_⟩
  by_cases hex : ∃ i, u.worker i = .exited
  · obtain ⟨i, hi⟩ := hex
    exact (hu i hi).step hwf hstep
  · -- nobody had left before, so this step is the exit
    cases step_cases hstep with
    | workerTake i d request q hidle hpop hreq hbudget hnext =>
        exact absurd ⟨j, setWorker_exited (resume_ne_exited _ _ _) hj⟩ hex
    | workerCall i c req held e next hbusy =>
        have hj' := setWorker_exited (resume_ne_exited _ _ _) hj
        rw [worker_perform] at hj'
        exact absurd ⟨j, hj'⟩ hex
    | workerExit i hidle hq hclosed hinflight => exact ⟨hclosed, hq, hinflight⟩
    | parserCall i c fd e next hbusy =>
        have hj' : (u.perform fd e (u.answer c e)).worker j = .exited := hj
        rw [worker_perform] at hj'
        exact absurd ⟨j, hj'⟩ hex
    | _ => exact absurd ⟨j, hj⟩ hex

/-! ## The account -/

structure Accounting (cfg : Config) (s : Sys P W) : Prop where
  /-- A connection has at most one request. -/
  distinct : (s.admitted.map (·.clientFd)).Nodup
  /-- Once in the queue, or with one worker, or finished once. -/
  place : ∀ request ∈ s.admitted, s.queuedCount request.clientFd +
    s.heldCount request.clientFd + s.finishedCount request.clientFd = 1
  inflight : s.requestQueue.inflight = s.holdingCount
  size : s.requestQueue.size + s.holdingCount + s.finished.length = s.admitted.length
  /-- The guards `inflight_ > 0` hold. -/
  guards : ∀ l fd call, s.callOf l = some (fd, call) → call.eff.releases = true →
    s.requestQueue.inflight > 0
  /-- `wait_pop` returns `false` only when nothing is left to do. -/
  leaves : ∀ k t, s.step cfg (.workerExit k) = some t →
    s.requestQueue.closed = true ∧ s.requestQueue.queue = [] ∧ s.holdingCount = 0
  /-- When a worker has left, every request finished, with its metrics row. -/
  finished : ∀ k, s.worker k = .exited → ∀ request ∈ s.admitted,
    s.finishedCount request.clientFd = 1 ∧
      ∃ exit, (request.clientFd, exit) ∈ s.finished ∧
        s.rows request.clientFd = if exit = .completed then 1 else 0

/-- **The queue loses no request.** In every reachable state of any number of parsers
and workers the counters of the queue are exact. -/
theorem run_accounting (hrun : RunWhere cfg (fun _ _ => True) (init P W dir) t) :
    t.Accounting cfg := by
  have hwf := run_wellFormed (init_wellFormed dir) hrun
  constructor
  · exact hwf.distinct
  · exact fun request hmem => hwf.place hmem
  · exact hwf.inflight
  · exact hwf.size_eq
  · exact fun l fd call hcall hrel => hwf.releases hcall hrel
  · intro k u hstep
    have hdrained := workerExit_drained hstep
    exact ⟨hdrained.closed, hdrained.empty, hwf.inflight.symm.trans hdrained.inflight⟩
  · intro k hk request hmem
    have hdrained := run_drained hrun hk
    have hplace := hwf.place hmem
    have hqueued : t.queuedCount request.clientFd = 0 := by
      unfold queuedCount
      rw [hdrained.empty]
      rfl
    have hheld : t.heldCount request.clientFd = 0 := by
      apply Finset.sum_eq_zero
      intro j _
      cases hj : t.worker j with
      | busy req held todo =>
          cases held with
          | true => exact absurd hj (hwf.none_held hdrained.inflight)
          | false => rfl
      | _ => rfl
    have hfin : t.finishedCount request.clientFd = 1 := by omega
    have hpos : 0 < (t.finished.map Prod.fst).count request.clientFd := by
      unfold finishedCount at hfin
      omega
    obtain ⟨⟨fd, exit⟩, hexit, hfd⟩ := List.mem_map.mp (List.count_pos_iff.mp hpos)
    change fd = request.clientFd at hfd
    subst hfd
    exact ⟨hfin, exit, hexit, hwf.rows_finished _ exit hexit⟩

/-- An empty upload, after which the queue is closed and the worker leaves. -/
def drainedRun : List (Label 1 1) :=
  arrive 7 (ascii "PUT a 0\n") 3 ++ work 9 ++ [.closeQueue, .workerExit 0]

theorem run_accounting_drained : ∃ (t : Sys 1 1) (request : Request),
    t.worker 0 = .exited ∧ request ∈ t.admitted ∧
      t.Accounting (plainConfig .FCFS 1 (by decide) (by decide)) := by
  have hok : ∀ (s : Sys 1 1) (l : Label 1 1), (fun _ _ => true) s l = true → True :=
    fun _ _ _ => trivial
  obtain ⟨t, hrun, hcheck⟩ := script_exists drainedRun
    (fun t => t.admitted.any (fun r => r.clientFd = 7) &&
      match t.worker 0 with
      | .exited => true
      | _ => false) hok
    (show (script (step (plainConfig .FCFS 1 (by decide) (by decide))) (fun _ _ => true)
      (init 1 1 (oneFile [] .empty)) drainedRun).any _ = true by decide)
  obtain ⟨hadm, hexit⟩ := Bool.and_eq_true_iff.mp hcheck
  obtain ⟨request, hmem, -⟩ := List.any_eq_true.mp hadm
  refine ⟨t, request, ?_, hmem, run_accounting hrun⟩
  split at hexit
  · assumption
  · cases hexit

end Sys

end LinkScheduling
