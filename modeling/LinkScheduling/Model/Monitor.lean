import Mathlib.Logic.Function.Basic
import LinkScheduling.Framework.Transition
import LinkScheduling.Model.Scheduling

/-!
# The condition variable of `RequestQueue`

`Model.System` lets a worker take a request whenever there is one. Here the
sleeping and waking behind that is explicit: every critical section of
`queue.cpp` is one step, `cv_.wait` tests its predicate and blocks the worker
where it is false, and the notifications of `push`, `requeue` and `close`, made
after the lock is released, are later steps of their own. `complete` notifies
inside its critical section.

Parsers push at any time, so of a `push` only the notification it still owes is
kept; the same holds of `close`.
-/

namespace LinkScheduling

open Framework

/-- Where a worker is in its loop, as far as the queue is concerned. -/
inductive Waiter : Type where
  /-- About to lock the mutex and test the predicate. -/
  | ready
  /-- Inside `cv_.wait`, not notified since it last tested the predicate. -/
  | blocked
  /-- Serving the request it popped. -/
  | holding (request : Request)
  /-- Past the critical section of `requeue`, before its `notify_one`. -/
  | notifying
  | exited
deriving DecidableEq

structure Monitor (W : ℕ) where
  queue : RequestQueue := {}
  worker : Fin W → Waiter := fun _ => .ready
  /-- Calls of `push` that have yet to notify. -/
  pushes : ℕ := 0
  /-- Calls of `close` that have yet to notify. -/
  closes : ℕ := 0

namespace Monitor

/-- A step; `target` is the worker a `notify_one` wakes, if any is blocked. -/
inductive Label (W : ℕ) : Type where
  | push (request : Request)
  | pushNotify (target : Option (Fin W))
  | waitPop (k : Fin W)
  | spuriousWake (k : Fin W)
  | requeue (k : Fin W) (request : Request)
  | requeueNotify (k : Fin W) (target : Option (Fin W))
  | complete (k : Fin W)
  | close
  | closeNotify

variable {W : ℕ}

def init (W : ℕ) : Monitor W := {}

def wake : Waiter → Waiter
  | .blocked => .ready
  | w => w

/-- `notify_one`: one blocked worker is woken, whichever it is; without a blocked
worker nothing happens. -/
def notifyOne (worker : Fin W → Waiter) : Option (Fin W) → Option (Fin W → Waiter)
  | some j => if worker j = .blocked then some (Function.update worker j .ready) else none
  | none => if ∀ j, worker j ≠ .blocked then some worker else none

def notifyAll (worker : Fin W → Waiter) : Fin W → Waiter := fun k => wake (worker k)

/-- The critical section of `wait_pop` and `wait_pop_best`, up to the next time
the lock is released. -/
def waitPop (S : Scheduler) (q : RequestQueue) : Waiter × RequestQueue :=
  if q.waitPredicate then
    match S.next q with
    | some (decision, q) => (.holding decision.request, q)
    | none => (.exited, q)
  else (.blocked, q)

def step (S : Scheduler) (s : Monitor W) : Label W → Option (Monitor W)
  | .push request =>
      let (pushed, q) := s.queue.push request
      some { s with queue := q, pushes := if pushed then s.pushes + 1 else s.pushes }
  | .pushNotify target =>
      if s.pushes = 0 then none
      else (notifyOne s.worker target).map fun worker =>
        { s with worker := worker, pushes := s.pushes - 1 }
  | .waitPop k =>
      if s.worker k = .ready then
        let (w, q) := waitPop S s.queue
        some { s with queue := q, worker := Function.update s.worker k w }
      else none
  | .spuriousWake k =>
      if s.worker k = .blocked then
        some { s with worker := Function.update s.worker k .ready }
      else none
  | .requeue k request =>
      match s.worker k with
      | .holding _ => some { s with
          queue := (s.queue.requeue request).2
          worker := Function.update s.worker k .notifying }
      | _ => none
  | .requeueNotify k target =>
      if s.worker k = .notifying then
        (notifyOne s.worker target).map fun worker =>
          { s with worker := Function.update worker k .ready }
      else none
  | .complete k =>
      match s.worker k with
      | .holding _ => some { s with
          queue := s.queue.complete
          worker := notifyAll (Function.update s.worker k .ready) }
      | _ => none
  | .close => some { s with queue := s.queue.close, closes := s.closes + 1 }
  | .closeNotify =>
      if s.closes = 0 then none
      else some { s with worker := notifyAll s.worker, closes := s.closes - 1 }

/-- Some notification is owed. -/
def Pending (s : Monitor W) : Prop :=
  0 < s.pushes ∨ 0 < s.closes ∨ ∃ k, s.worker k = .notifying

instance (s : Monitor W) : Decidable s.Pending :=
  inferInstanceAs (Decidable (_ ∨ _ ∨ _))

end Monitor

end LinkScheduling
