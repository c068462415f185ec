import LinkScheduling.Framework.Traces
import LinkScheduling.Deficit.Fairness

/-!
# Waiting for a turn

Under FCFS, RR and DRR a worker takes the front of the queue, and what is pushed or put back
goes behind. So a request waits for exactly the requests that stand before it, each of them
once, however many parsers and workers there are and whatever they do.
-/

namespace LinkScheduling

open Framework

namespace Sys

variable {P W : ℕ} {cfg : Config} {dir : Directory} {s t : Sys P W}

/-- The connection whose request a step dispatches. -/
def dispatched (cfg : Config) (s : Sys P W) : Label P W → List Fd
  | .workerTake _ =>
      match cfg.scheduler.next s.requestQueue with
      | some (decision, _) => [decision.request.clientFd]
      | none => []
  | _ => []

/-- The connections whose requests wait, in the order of the queue. -/
def waitingLine (s : Sys P W) : List Fd := s.requestQueue.queue.map (·.clientFd)

theorem onQueue_extends (q : RequestQueue) (e : Eff) : q.queue <+: (e.onQueue q).queue := by
  cases e with
  | push req =>
      simp only [Eff.onQueue, RequestQueue.push]
      split
      · exact List.prefix_rfl
      · exact List.prefix_append _ _
  | requeue req => exact List.prefix_append _ _
  | _ => exact List.prefix_rfl

/-- A step serves the line from its front and lengthens it at its end. -/
theorem step_waitingLine (hpolicy : cfg.scheduler.policy ≠ .SJF) {l : Label P W}
    (hstep : s.step cfg l = some t) :
    s.waitingLine <+: s.dispatched cfg l ++ t.waitingLine := by
  cases step_cases hstep with
  | parserCall k c fd e next hbusy => exact (onQueue_extends s.requestQueue e).map _
  | workerCall k c req held e next hbusy => exact (onQueue_extends s.requestQueue e).map _
  | workerTake k d request q hidle hpop hreq hbudget hnext =>
      obtain ⟨first, hq, rfl⟩ := Scheduler.next_head hpolicy hnext
      have hfd : (cfg.scheduler.decision first).request.clientFd = first.clientFd :=
        (cfg.scheduler.getBudget_same first).clientFd
      have hout : s.dispatched cfg (.workerTake k) = [first.clientFd] := by
        simp [dispatched, hnext, hfd]
      rw [hout, waitingLine, hq]
      exact List.prefix_rfl
  | _ => exact List.prefix_rfl

/-- A connection waits at most once. -/
theorem WellFormed.waitingLine_nodup (h : s.WellFormed) : s.waitingLine.Nodup := by
  refine List.nodup_iff_count_le_one.mpr fun fd => ?_
  have hplaced := h.placed fd
  have honce := h.once fd
  change s.queuedCount fd ≤ 1
  omega

/-- **A request waits its turn.** From any moment at which a request stands at place `p` of the
queue, the next `p` dispatches are those of the requests before it, in their order and each
once, and the one after them is its own: nobody who joins later or is put back comes first.
Until then it moves up by one place with every dispatch. -/
theorem waits_its_turn (hpolicy : cfg.scheduler.policy ≠ .SJF)
    (hrun : RunWhere cfg (fun _ _ => True) (init P W dir) s) {served : List Fd}
    (htrace : Traced (step cfg) (dispatched cfg) (fun _ _ => True) s served t) {p : ℕ}
    {request : Request} (hplace : s.requestQueue.queue[p]? = some request) :
    s.waitingLine.Nodup ∧
    (served.length ≤ p → served = s.waitingLine.take served.length ∧
      t.waitingLine[p - served.length]? = some request.clientFd) ∧
    (p < served.length → served.take (p + 1) = s.waitingLine.take p ++ [request.clientFd]) := by
  have hline : s.waitingLine <+: served ++ t.waitingLine :=
    htrace.line_prefix waitingLine (fun _ => True) trivial (fun _ _ _ _ _ _ => trivial)
      fun _ _ _ _ _ hstep => step_waitingLine hpolicy hstep
  have hat : s.waitingLine[p]? = some request.clientFd := by
    rw [waitingLine, List.getElem?_map, hplace]
    rfl
  refine ⟨(run_wellFormed (init_wellFormed dir) hrun).waitingLine_nodup,
    prefix_waiting hline hat, fun hserved => ?_⟩
  rw [prefix_served hline hat hserved, List.take_add_one, hat]
  rfl

/-- Two connections ask for a file of three lines, and each has its first round. -/
theorem waits_its_turn_two : ∃ (s t : Sys 1 1) (served : List Fd) (request : Request),
    s.requestQueue.queue[1]? = some request ∧
    Traced (step (plainConfig .DRR 2 (by decide) (by decide)))
      (dispatched (plainConfig .DRR 2 (by decide) (by decide))) (fun _ _ => True) s served t ∧
    served.length = 3 ∧ served.take 2 = s.waitingLine.take 1 ++ [request.clientFd] := by
  have htrue : ∀ (s : Sys 1 1) (l : Label 1 1), (fun _ _ => true) s l = true →
      (fun _ _ => True) s l := fun _ _ _ => trivial
  obtain ⟨s, hs, hcheck⟩ := script_exists bothArrive
    (fun s => (s.requestQueue.queue[1]?).isSome &&
      (script (step (plainConfig .DRR 2 (by decide) (by decide))) (fun _ _ => true) s
        (work 8 ++ work 8 ++ [.workerTake 0])).isSome &&
      (scriptOut (step (plainConfig .DRR 2 (by decide) (by decide)))
        (dispatched (plainConfig .DRR 2 (by decide) (by decide))) s
        (work 8 ++ work 8 ++ [.workerTake 0])).length = 3) htrue
    (show (script (step (plainConfig .DRR 2 (by decide) (by decide))) (fun _ _ => true)
      (init 1 1 (oneFile (ascii "d/a") threeLines)) bothArrive).any _ = true by decide)
  simp only [Bool.and_eq_true, decide_eq_true_eq] at hcheck
  obtain ⟨⟨hplace, hrounds⟩, hlength⟩ := hcheck
  obtain ⟨request, hplace⟩ := Option.isSome_iff_exists.mp hplace
  obtain ⟨t, ht⟩ := Option.isSome_iff_exists.mp hrounds
  have htrace : Traced (step (plainConfig .DRR 2 (by decide) (by decide)))
      (dispatched (plainConfig .DRR 2 (by decide) (by decide))) (fun _ _ => True) s _ t :=
    script_traced htrue ht
  refine ⟨s, t, _, request, hplace, htrace, hlength, ?_⟩
  exact (waits_its_turn (by decide) hs htrace hplace).2.2 (by rw [hlength]; decide)

end Sys

end LinkScheduling
