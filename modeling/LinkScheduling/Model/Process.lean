import LinkScheduling.Model.System

/-!
# The acceptor and the shutdown

`Model.System` takes a connection in by one step and lets both queues be closed at any
time. Here `acceptor_thread` and the end of `main` are explicit: the signal sets
`shutdown_flag`, the acceptor tests it at the head of its loop and after a failed call,
pushes what it accepted and closes the `FdQueue` when it leaves, and `main` closes the
request queue after it joined the acceptor and the parsers.
-/

namespace LinkScheduling

open Framework

/-- Where `acceptor_thread` is. -/
inductive Acceptor : Type where
  /-- At the test of `shutdown_flag` at the head of the loop. -/
  | polling
  /-- In `select` or in `accept_connection`. -/
  | waiting
  /-- Before `fd_queue.push`. -/
  | accepted (fd : Fd)
  /-- Before the `close_socket` of a connection that could not be pushed. -/
  | refused (fd : Fd)
  /-- Past the loop, before `fd_queue.close`. -/
  | leaving
  | exited
deriving DecidableEq

/-- The socket the acceptor has in its hands. -/
def Acceptor.holds : Acceptor → List Fd
  | .accepted fd => [fd]
  | .refused fd => [fd]
  | _ => []

/-- The whole process. `accepted` is history: what `accept_connection` returned. -/
structure Process (P W : ℕ) where
  server : Sys P W
  shutdownFlag : Bool := false
  acceptor : Acceptor := .polling
  accepted : List Fd := []

def Parser.isExited : Parser → Bool
  | .exited => true
  | _ => false

def Worker.isExited : Worker → Bool
  | .exited => true
  | _ => false

namespace Process

variable {P W : ℕ}

inductive Label (P W : ℕ) : Type where
  | signal
  | testFlag
  /-- `select` timed out, or a call failed while the flag was not set. -/
  | retry
  /-- A call failed and the flag is set. -/
  | giveUp
  | accept (fd : Fd)
  | push
  | refuse
  | leave
  /-- A step of a parser or a worker, or `main` closing the request queue. -/
  | thread (l : LinkScheduling.Label P W)

def start (P W : ℕ) (dir : Directory) : Process P W where
  server := .init P W dir

def acceptorJoined (s : Process P W) : Bool := s.acceptor = .exited

def parsersJoined (s : Process P W) : Bool := ∀ k, (s.server.parser k).isExited = true

/-- The steps of the threads that `main` permits. -/
def permits (s : Process P W) : LinkScheduling.Label P W → Bool
  | .accept _ => false
  | .stopAccepting => false
  | .closeQueue => s.acceptorJoined && s.parsersJoined
  | _ => true

def step (cfg : Config) (s : Process P W) : Label P W → Option (Process P W)
  | .signal => some { s with shutdownFlag := true }
  | .testFlag =>
      if s.acceptor = .polling then
        some { s with acceptor := if s.shutdownFlag then .leaving else .waiting }
      else none
  | .retry => if s.acceptor = .waiting then some { s with acceptor := .polling } else none
  | .giveUp =>
      if s.acceptor = .waiting ∧ s.shutdownFlag then some { s with acceptor := .leaving }
      else none
  | .accept fd =>
      if s.acceptor = .waiting ∧ fd ∉ s.accepted then
        some { s with acceptor := .accepted fd, accepted := s.accepted ++ [fd] }
      else none
  | .push =>
      match s.acceptor with
      | .accepted fd =>
          let (pushed, q) := s.server.fdQueue.push fd
          some (if pushed then
            { s with
              server := { s.server with fdQueue := q, accepted := s.server.accepted ++ [fd] }
              acceptor := .polling }
          else { s with acceptor := .refused fd })
      | _ => none
  | .refuse =>
      match s.acceptor with
      | .refused fd =>
          some { s with
            server := s.server.perform fd (.closeSocket fd) ()
            acceptor := .polling }
      | _ => none
  | .leave =>
      if s.acceptor = .leaving then
        some { s with
          server := { s.server with fdQueue := s.server.fdQueue.close }
          acceptor := .exited }
      else none
  | .thread l =>
      if s.permits l then (s.server.step cfg l).map fun server => { s with server := server }
      else none

/-- A run of the process from its start. -/
abbrev Reachable (cfg : Config) (dir : Directory) (s : Process P W) : Prop :=
  Run (step cfg) (fun _ _ => True) (start P W dir) s

/-- All threads have exited. -/
structure AllExited (s : Process P W) : Prop where
  acceptor : s.acceptor = .exited
  parser : ∀ k, s.server.parser k = .exited
  worker : ∀ k, s.server.worker k = .exited

end Process

end LinkScheduling
