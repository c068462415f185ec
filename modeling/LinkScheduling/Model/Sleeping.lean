import LinkScheduling.Framework.Condvar
import LinkScheduling.Model.Process

/-!
# The process with its condition variables

In `Model.Process` a thread takes from a queue whenever there is something. Here `cv_.wait` of
`FdQueue` and of `RequestQueue` puts the threads to sleep: a thread at the head of its loop whose
predicate is false may fall asleep, and asleep it takes nothing. `push`, `requeue` and `close`
notify after they released the lock, so what they owe comes in later steps; `complete` notifies
under the lock.
-/

namespace LinkScheduling

open Framework

structure Sleeping (P W : ℕ) where
  process : Process P W
  /-- `FdQueue::cv_`. -/
  parsers : Condvar (Fin P) := {}
  /-- `RequestQueue::cv_`. -/
  workers : Condvar (Fin W) := {}

namespace Sleeping

variable {P W : ℕ}

inductive Label (P W : ℕ) : Type where
  | run (l : Process.Label P W)
  | parserSleep (k : Fin P)
  | parserWake (k : Fin P)
  | parserNotifyOne (target : Option (Fin P))
  | parserNotifyAll
  | workerSleep (k : Fin W)
  | workerWake (k : Fin W)
  | workerNotifyOne (target : Option (Fin W))
  | workerNotifyAll

def start (P W : ℕ) (dir : Directory) : Sleeping P W where
  process := .start P W dir

/-- What a step of the process owes the threads that wait for a connection. -/
def owesParsers (s : Process P W) (v : Condvar (Fin P)) : Process.Label P W → Condvar (Fin P)
  | .push => if s.server.fdQueue.closed then v else v.oweOne
  | .leave => v.oweAll
  | _ => v

/-- What a call owes the threads that wait for a request. -/
def notifies (v : Condvar (Fin W)) : Call → Condvar (Fin W)
  | ⟨.push _, true⟩ => v.oweOne
  | ⟨.requeue _, _⟩ => v.oweOne
  | ⟨.complete _, _⟩ => v.wakeAll
  | _ => v

/-- What a step of the process owes them. -/
def owesWorkers (s : Process P W) (v : Condvar (Fin W)) : Process.Label P W → Condvar (Fin W)
  | .thread .closeQueue => v.oweAll
  | .thread l =>
      match s.server.callOf l with
      | some (_, call) => notifies v call
      | none => v
  | _ => v

/-- A sleeping thread does not look at its queue, and `main` closes the request queue once. -/
def permits (s : Sleeping P W) : Process.Label P W → Bool
  | .thread (.parserTake k) => !s.parsers.asleep k
  | .thread (.parserExit k) => !s.parsers.asleep k
  | .thread (.workerTake k) => !s.workers.asleep k
  | .thread (.workerExit k) => !s.workers.asleep k
  | .thread .closeQueue => !s.process.server.requestQueue.closed
  | _ => true

def step (cfg : Config) (s : Sleeping P W) : Label P W → Option (Sleeping P W)
  | .run l =>
      if s.permits l then
        (s.process.step cfg l).map fun process =>
          { process := process
            parsers := owesParsers s.process s.parsers l
            workers := owesWorkers s.process s.workers l }
      else none
  | .parserSleep k =>
      match s.process.server.parser k with
      | .idle =>
          if s.process.server.fdQueue.waitPredicate then none
          else some { s with parsers := s.parsers.sleep k }
      | _ => none
  | .parserWake k => some { s with parsers := s.parsers.wake k }
  | .parserNotifyOne target =>
      (s.parsers.notifyOne target).map fun parsers => { s with parsers := parsers }
  | .parserNotifyAll => s.parsers.notifyAll.map fun parsers => { s with parsers := parsers }
  | .workerSleep k =>
      match s.process.server.worker k with
      | .idle =>
          if s.process.server.requestQueue.waitPredicate then none
          else some { s with workers := s.workers.sleep k }
      | _ => none
  | .workerWake k => some { s with workers := s.workers.wake k }
  | .workerNotifyOne target =>
      (s.workers.notifyOne target).map fun workers => { s with workers := workers }
  | .workerNotifyAll => s.workers.notifyAll.map fun workers => { s with workers := workers }

end Sleeping

end LinkScheduling
