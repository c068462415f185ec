import LinkScheduling.Framework.Pool
import LinkScheduling.Metatheory.Discipline

/-!
# What one step can do

`Sys.Step` lists the steps of the server with their guards and their effect;
`Sys.step_cases` inverts the step function into it once, and every invariant is
proved by cases on the list.
-/

namespace LinkScheduling

open Framework

/-! ## Popping a request -/

/-- A pop by either discipline removes one request and counts it as in flight. -/
structure Popped (q : RequestQueue) (request : Request) (q' : RequestQueue) : Prop where
  perm : q.queue.Perm (request :: q'.queue)
  closed : q'.closed = q.closed
  inflight : q'.inflight = q.inflight + 1

theorem RequestQueue.waitPop_popped {q q' : RequestQueue} {request : Request}
    (h : q.waitPop = some (request, q')) : Popped q request q' := by
  unfold waitPop at h
  cases hq : q.queue with
  | nil => simp [hq] at h
  | cons first rest =>
      simp only [hq, Option.some.injEq, Prod.mk.injEq] at h
      obtain ⟨rfl, rfl⟩ := h
      exact ⟨by rw [hq], rfl, rfl⟩

/-- The scan ends on a position of the queue and the request found there. -/
theorem RequestQueue.scanBest_getElem {compare : Request → Request → Bool}
    {all : List Request} :
    ∀ (rest : List Request) (best : ℕ × Request) (i : ℕ),
      all[best.1]? = some best.2 → all.drop i = rest →
        all[(scanBest compare best i rest).1]? = some (scanBest compare best i rest).2
  | [], best, _, hbest, _ => hbest
  | r :: rest, best, i, hbest, hrest => by
      unfold scanBest
      have hi : all[i]? = some r := by
        have := congrArg List.head? hrest
        simpa [List.head?_drop] using this
      have htail : all.drop (i + 1) = rest := by
        rw [← List.drop_drop, hrest]
        rfl
      refine scanBest_getElem rest _ (i + 1) ?_ htail
      split
      · exact hi
      · exact hbest

theorem RequestQueue.waitPopBest_popped {compare : Request → Request → Bool}
    {q q' : RequestQueue} {request : Request}
    (h : q.waitPopBest compare = some (request, q')) : Popped q request q' := by
  unfold waitPopBest at h
  cases hq : q.queue with
  | nil => simp [hq] at h
  | cons first rest =>
      simp only [hq, Option.some.injEq, Prod.mk.injEq] at h
      have hbest : (first :: rest)[(scanBest compare (0, first) 1 rest).1]? =
          some (scanBest compare (0, first) 1 rest).2 :=
        scanBest_getElem rest (0, first) 1 rfl rfl
      obtain ⟨rfl, rfl⟩ := h
      obtain ⟨hlt, hget⟩ := List.getElem?_eq_some_iff.mp hbest
      refine ⟨?_, rfl, rfl⟩
      rw [hq, ← hget]
      exact (List.getElem_cons_eraseIdx_perm hlt).symm

@[simp] theorem Scheduler.getBudget_same (S : Scheduler) (req : Request) :
    req.Same (S.getBudget req).1 := by
  unfold getBudget
  simp only
  split
  · exact .refl _
  · split
    · exact .refl _
    · exact .refl _
    · exact .refl _
    · exact ⟨rfl, rfl, rfl, rfl, rfl, rfl⟩

/-- `Scheduler::next` hands out a queued request with its budget. -/
theorem Scheduler.next_spec {S : Scheduler} {q q' : RequestQueue} {d : ScheduleDecision}
    (h : S.next q = some (d, q')) :
    ∃ request, Popped q request q' ∧ d.request = (S.getBudget request).1 ∧
      d.budget = (S.getBudget request).2 := by
  unfold next at h
  simp only [Option.map_eq_some_iff, Prod.exists, Prod.mk.injEq] at h
  obtain ⟨request, q'', hpop, rfl, rfl⟩ := h
  refine ⟨request, ?_, rfl, rfl⟩
  split at hpop
  · exact RequestQueue.waitPop_popped hpop
  · exact RequestQueue.waitPopBest_popped hpop
  · exact RequestQueue.waitPop_popped hpop
  · exact RequestQueue.waitPop_popped hpop

/-- `Scheduler::next` finds nothing only in an empty queue. -/
theorem Scheduler.next_eq_none {S : Scheduler} {q : RequestQueue} (h : S.next q = none) :
    q.queue = [] := by
  unfold next at h
  simp only [Option.map_eq_none_iff] at h
  cases hq : q.queue with
  | nil => rfl
  | cons first rest =>
      split at h <;> simp [RequestQueue.waitPop, RequestQueue.waitPopBest, hq] at h

/-! ## The steps -/

namespace Sys

variable {P W : ℕ}

inductive Step (cfg : Config) (s : Sys P W) : Label P W → Sys P W → Prop
  | accept (fd : Fd) (hnew : fd ∉ s.accepted) (hopen : s.fdQueue.closed = false) :
      Step cfg s (.accept fd)
        { s with
          fdQueue := { s.fdQueue with queue := s.fdQueue.queue ++ [fd] }
          accepted := s.accepted ++ [fd] }
  | stopAccepting : Step cfg s .stopAccepting { s with fdQueue := s.fdQueue.close }
  | parserTake (k : Fin P) (fd : Fd) (rest : List Fd) (hidle : s.parser k = .idle)
      (hq : s.fdQueue.queue = fd :: rest) :
      Step cfg s (.parserTake k)
        ({ s with fdQueue := { s.fdQueue with queue := rest } }.setParser k
          (.resume fd (parserClient cfg fd)))
  | parserExit (k : Fin P) (hidle : s.parser k = .idle) (hq : s.fdQueue.queue = [])
      (hclosed : s.fdQueue.closed = true) :
      Step cfg s (.parserExit k) (s.setParser k .exited)
  | parserCall (k : Fin P) (c : Choice) (fd : Fd) (e : Eff) (next : Resp e → Server Unit)
      (hbusy : s.parser k = .busy fd (.call e next)) :
      Step cfg s (.parserCall k c)
        ((s.perform fd e (s.answer c e)).setParser k (.resume fd (next (s.answer c e))))
  | workerTake (k : Fin W) (d : ScheduleDecision) (request : Request) (q : RequestQueue)
      (hidle : s.worker k = .idle) (hpop : Popped s.requestQueue request q)
      (hreq : d.request = (cfg.scheduler.getBudget request).1)
      (hbudget : d.budget = (cfg.scheduler.getBudget request).2)
      (hnext : cfg.scheduler.next s.requestQueue = some (d, q)) :
      Step cfg s (.workerTake k)
        ({ s with requestQueue := q }.setWorker k
          (.resume d.request true (workerRound cfg d)))
  | workerExit (k : Fin W) (hidle : s.worker k = .idle) (hq : s.requestQueue.queue = [])
      (hclosed : s.requestQueue.closed = true) (hinflight : s.requestQueue.inflight = 0) :
      Step cfg s (.workerExit k) (s.setWorker k .exited)
  | workerCall (k : Fin W) (c : Choice) (req : Request) (held : Bool) (e : Eff)
      (next : Resp e → Server Unit) (hbusy : s.worker k = .busy req held (.call e next)) :
      Step cfg s (.workerCall k c)
        ((s.perform req.clientFd e (s.answer c e)).setWorker k
          (.resume req (held && !e.releases) (next (s.answer c e))))
  | closeQueue : Step cfg s .closeQueue { s with requestQueue := s.requestQueue.close }

theorem step_cases {cfg : Config} {s t : Sys P W} {l : Label P W}
    (h : s.step cfg l = some t) : Step cfg s l t := by
  cases l with
  | accept fd =>
      simp only [step, Option.ite_none_left_eq_some, not_or, Bool.not_eq_true,
        Option.some.injEq] at h
      obtain ⟨⟨hnew, hopen⟩, rfl⟩ := h
      have hpush : (s.fdQueue.push fd).2 = { s.fdQueue with queue := s.fdQueue.queue ++ [fd] } := by
        simp [FdQueue.push, hopen]
      rw [hpush]
      exact .accept fd hnew hopen
  | stopAccepting =>
      cases h
      exact .stopAccepting
  | parserTake k =>
      simp only [step] at h
      split at h
      · rename_i fd q hidle hpop
        unfold FdQueue.waitPop at hpop
        split at hpop
        · cases hpop
        · rename_i first rest hq
          simp only [Option.some.injEq, Prod.mk.injEq] at hpop
          obtain ⟨rfl, rfl⟩ := hpop
          cases h
          exact .parserTake k first rest hidle hq
      · cases h
  | parserExit k =>
      simp only [step] at h
      split at h
      · rename_i hidle hpop
        have hq : s.fdQueue.queue = [] := by
          unfold FdQueue.waitPop at hpop
          split at hpop
          · assumption
          · cases hpop
        split at h
        · rename_i hpred
          cases h
          exact .parserExit k hidle hq (by simpa [FdQueue.waitPredicate, hq] using hpred)
        · cases h
      · cases h
  | parserCall k c =>
      simp only [step] at h
      split at h
      · rename_i fd e next hbusy
        cases h
        exact .parserCall k c fd e next hbusy
      · cases h
  | workerTake k =>
      simp only [step] at h
      split at h
      · rename_i d q hidle hnext
        obtain ⟨request, hpop, hreq, hbudget⟩ := Scheduler.next_spec hnext
        cases h
        exact .workerTake k d request q hidle hpop hreq hbudget hnext
      · cases h
  | workerExit k =>
      simp only [step] at h
      split at h
      · rename_i hidle hnext
        have hq := Scheduler.next_eq_none hnext
        split at h
        · rename_i hpred
          cases h
          have hp : s.requestQueue.closed = true ∧ s.requestQueue.inflight = 0 := by
            simpa [RequestQueue.waitPredicate, hq] using hpred
          exact .workerExit k hidle hq hp.1 hp.2
        · cases h
      · cases h
  | workerCall k c =>
      simp only [step] at h
      split at h
      · rename_i req held e next hbusy
        cases h
        exact .workerCall k c req held e next hbusy
      · cases h
  | closeQueue =>
      cases h
      exact .closeQueue

end Sys

end LinkScheduling
