import LinkScheduling.Model.Basic

/-!
# `client.cpp`: the load phase

`load_workload` after the seeding: the threads share the counter `next`, a 32-bit
`std::atomic<int>`, and `main` joins them. A label says which thread goes on and what its
request returns. Which file a thread picks, and whether it gets or puts it, is left out.
-/

namespace LinkScheduling

/-- Where a thread of the load phase is. -/
inductive Loader : Type where
  | uncreated
  /-- Before `next.fetch_add(1)`. -/
  | fetching
  /-- Before the test `i >= requests`. -/
  | fetched (i : ℤ)
  /-- In `get_file` or `put_file`. -/
  | requesting
  /-- Past the loop. -/
  | left
deriving DecidableEq

/-- The load phase of `T = client_threads` threads. `issued` is history: the requests made. -/
structure Workload (T : ℕ) where
  next : ℤ := 0
  failures : ℤ := 0
  loader : Fin T → Loader := fun _ => .uncreated
  created : ℕ := 0
  joined : ℕ := 0
  issued : ℕ := 0

namespace Workload

variable {T : ℕ}

inductive Label (T : ℕ) : Type where
  | create
  | fetchAdd (k : Fin T)
  | test (k : Fin T)
  /-- The request of thread `k` returns `code`. -/
  | request (k : Fin T) (code : ℕ)
  | join

/-- Every access to an atomic variable is a step of its own. -/
def step (requests : ℤ) (s : Workload T) : Label T → Option (Workload T)
  | .create =>
      if h : s.created < T then
        some { s with
          loader := Function.update s.loader ⟨s.created, h⟩ .fetching
          created := s.created + 1 }
      else none
  | .fetchAdd k =>
      if s.loader k = .fetching then
        some { s with
          next := int32 (s.next + 1)
          loader := Function.update s.loader k (.fetched s.next) }
      else none
  | .test k =>
      match s.loader k with
      | .fetched i =>
          if i ≥ requests then some { s with loader := Function.update s.loader k .left }
          else some { s with
            loader := Function.update s.loader k .requesting
            issued := s.issued + 1 }
      | _ => none
  | .request k code =>
      if s.loader k = .requesting then
        some { s with
          failures := if code ≠ 0 then int32 (s.failures + 1) else s.failures
          loader := Function.update s.loader k .fetching }
      else none
  | .join =>
      if h : s.created = T ∧ s.joined < T then
        if s.loader ⟨s.joined, h.2⟩ = .left then some { s with joined := s.joined + 1 } else none
      else none

/-- All threads are joined, and each has left its loop. -/
def Ended (s : Workload T) : Prop := s.joined = T ∧ ∀ k, s.loader k = .left

/-- What `load_workload` returns in the end. -/
def result (s : Workload T) : ℕ := if s.failures ≠ 0 then 1 else 0

end Workload

end LinkScheduling
