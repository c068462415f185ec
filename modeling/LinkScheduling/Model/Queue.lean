import LinkScheduling.Model.Calls

/-!
# `queue.h` and `queue.cpp`

Each function below is what one critical section of the source does; the
predicate of `cv_.wait` is a function of its own, and the notifications are
left to the model of the condition variable.
-/

namespace LinkScheduling

structure RequestQueue where
  queue : List Request := []
  closed : Bool := false
  inflight : ℕ := 0
deriving DecidableEq

namespace RequestQueue

def push (q : RequestQueue) (request : Request) : Bool × RequestQueue :=
  if q.closed then (false, q) else (true, { q with queue := q.queue ++ [request] })

/-- The predicate `cv_.wait` waits for. -/
def waitPredicate (q : RequestQueue) : Bool :=
  !q.queue.isEmpty || (q.closed && q.inflight == 0)

/-- `wait_pop` after the wait; `none` where it returns `false`. -/
def waitPop (q : RequestQueue) : Option (Request × RequestQueue) :=
  match q.queue with
  | [] => none
  | request :: rest => some (request, { q with queue := rest, inflight := q.inflight + 1 })

/-- The scan of `wait_pop_best`: position and value of the best request so far,
the position of the next one, and the requests still to look at. -/
def scanBest (compare : Request → Request → Bool) :
    ℕ × Request → ℕ → List Request → ℕ × Request
  | best, _, [] => best
  | best, i, r :: rest =>
      scanBest compare (if compare r best.2 then (i, r) else best) (i + 1) rest

/-- `wait_pop_best` after the wait. -/
def waitPopBest (compare : Request → Request → Bool) (q : RequestQueue) :
    Option (Request × RequestQueue) :=
  match q.queue with
  | [] => none
  | first :: rest =>
      let best := scanBest compare (0, first) 1 rest
      some (best.2,
        { q with queue := q.queue.eraseIdx best.1, inflight := q.inflight + 1 })

def requeue (q : RequestQueue) (request : Request) : Bool × RequestQueue :=
  (true, { q with
    inflight := if q.inflight > 0 then q.inflight - 1 else q.inflight
    queue := q.queue ++ [request] })

def complete (q : RequestQueue) : RequestQueue :=
  { q with inflight := if q.inflight > 0 then q.inflight - 1 else q.inflight }

def size (q : RequestQueue) : ℕ := q.queue.length

def close (q : RequestQueue) : RequestQueue := { q with closed := true }

end RequestQueue

structure FdQueue where
  queue : List Fd := []
  closed : Bool := false
deriving DecidableEq

namespace FdQueue

def push (q : FdQueue) (fd : Fd) : Bool × FdQueue :=
  if q.closed then (false, q) else (true, { q with queue := q.queue ++ [fd] })

def waitPredicate (q : FdQueue) : Bool := !q.queue.isEmpty || q.closed

def waitPop (q : FdQueue) : Option (Fd × FdQueue) :=
  match q.queue with
  | [] => none
  | fd :: rest => some (fd, { q with queue := rest })

def close (q : FdQueue) : FdQueue := { q with closed := true }

end FdQueue

end LinkScheduling
