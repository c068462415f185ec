import LinkScheduling.Model.Queue

/-!
# `scheduling.cpp`
-/

namespace LinkScheduling

inductive SchedulingPolicy : Type where
  | FCFS
  | SJF
  | RR
  | DRR
deriving DecidableEq

/-- The scheduler as its constructor lets it be built: RR and DRR have a
non-zero quantum, which is a `std::uint64_t`. -/
structure Scheduler where
  policy : SchedulingPolicy
  quantum : ℕ
  quantum_lt : quantum < 2 ^ 64
  quantum_pos : policy = .RR ∨ policy = .DRR → 0 < quantum

/-- `total_bytes - offset`, or `0` when nothing is left. -/
def Request.remaining (request : Request) : ℕ :=
  if request.totalBytes > request.offset then request.totalBytes - request.offset else 0

@[simp] theorem Request.remaining_eq (request : Request) :
    request.remaining = request.totalBytes - request.offset := by
  unfold remaining
  split <;> omega

/-- The order of the SJF lambda in `Scheduler::next`. -/
def sjfLess (a b : Request) : Bool :=
  if a.totalBytes != b.totalBytes then a.totalBytes < b.totalBytes
  else a.arrivalNs < b.arrivalNs

structure ScheduleDecision where
  request : Request
  budget : ℕ

namespace Scheduler

/-- The budget of the next round, and the request with its deficit topped up
under DRR. -/
def getBudget (S : Scheduler) (request : Request) : Request × ℕ :=
  let remaining := request.remaining
  if remaining = 0 then (request, 0)
  else match S.policy with
  | .FCFS => (request, remaining)
  | .SJF => (request, remaining)
  | .RR => (request, min remaining S.quantum)
  | .DRR =>
      let request := { request with deficit := u64 (request.deficit + S.quantum) }
      (request, min remaining request.deficit)

/-- `Scheduler::next` after the wait: the popped request with its budget. -/
def next (S : Scheduler) (q : RequestQueue) : Option (ScheduleDecision × RequestQueue) :=
  let popped := match S.policy with
    | .FCFS => q.waitPop
    | .SJF => q.waitPopBest sjfLess
    | .RR => q.waitPop
    | .DRR => q.waitPop
  popped.map fun (request, q) =>
    let (request, budget) := S.getBudget request
    ({ request := request, budget := budget }, q)

def account (S : Scheduler) (request : Request) (bytesProcessed : ℕ) : Request :=
  let request := { request with rounds := u64 (request.rounds + 1) }
  let actual := min bytesProcessed request.remaining
  let request := { request with offset := u64 (request.offset + actual) }
  if S.policy = .DRR then
    if actual ≥ request.deficit then { request with deficit := 0 }
    else { request with deficit := request.deficit - actual }
  else request

def shouldRequeue (_ : Scheduler) (request : Request) : Bool := request.remaining > 0

end Scheduler

end LinkScheduling
