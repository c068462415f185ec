import Mathlib.Logic.Function.Basic
import LinkScheduling.Framework.Transition
import LinkScheduling.Model.Metrics
import LinkScheduling.Model.Threads

/-!
# The running server

The whole server as a transition system: the acceptor, `P` parser threads, `W`
worker threads, the two queues, the metrics and the served directory. A parser
or a worker makes one call per step, so the calls of all threads interleave in
every order. Everything the operating system and the clients decide is in the
`Choice` of the step: whether a storage call or a send succeeds, what `recv`
delivers, how far the clock moved.

`accepted`, `admitted`, `finished` and `log` are history: connections accepted,
requests pushed, requests completed with their exit, and for every connection
the calls made on its behalf, oldest first.
-/

namespace LinkScheduling

open Framework

/-- The directory of the server: what the operating system finds under a path. -/
abbrev Directory : Type := Bytes → Option File

/-- `data` written at `off` over `b`. -/
def overlay (b : Bytes) (off : ℕ) (data : Bytes) : Bytes :=
  b.take off ++ List.replicate (off - b.length) 0 ++ data ++ b.drop (off + data.length)

/-- A write that would pass the largest file size leaves the file as it is. -/
def File.overlay (f : File) (off : ℕ) (data : Bytes) : File :=
  if h : (LinkScheduling.overlay f.bytes off data).length < 2 ^ 63 then ⟨_, h⟩ else f

def File.empty : File := ⟨[], by decide⟩

/-- What a call does to the directory, given its answer. `std::remove` and
`std::rename` take C strings, the streams pass `c_str()` on. -/
def Eff.onDir (d : Directory) : (e : Eff) → Resp e → Directory
  | .create path, ok => if ok then Function.update d (cstr path) (some .empty) else d
  | .write path off data, .good =>
      Function.update d (cstr path) ((d (cstr path)).map (·.overlay off data))
  | .write path off data, .bad stored =>
      Function.update d (cstr path) ((d (cstr path)).map (·.overlay off (data.take stored)))
  | .remove path, _ => Function.update d (cstr path) none
  | .rename src dst, ok =>
      if ok then Function.update (Function.update d (cstr src) none) (cstr dst) (d (cstr src))
      else d
  | _, _ => d

/-- What a call does to the request queue. -/
def Eff.onQueue (q : RequestQueue) : Eff → RequestQueue
  | .push req => (q.push req).2
  | .requeue req => (q.requeue req).2
  | .complete _ => q.complete
  | _ => q

inductive Parser : Type where
  | idle
  | busy (fd : Fd) (todo : Server Unit)
  | exited

/-- `held` tells whether the worker still holds the request it popped, that is,
whether it has yet to call `requeue` or `complete`. -/
inductive Worker : Type where
  | idle
  | busy (req : Request) (held : Bool) (todo : Server Unit)
  | exited

/-- A parser whose program returned is back at the head of its loop. -/
def Parser.resume (fd : Fd) : Server Unit → Parser
  | .ret _ => .idle
  | todo@(.call _ _) => .busy fd todo

def Worker.resume (req : Request) (held : Bool) : Server Unit → Worker
  | .ret _ => .idle
  | todo@(.call _ _) => .busy req held todo

/-- `requeue` and `complete` end the worker's hold on its request. -/
def Eff.releases : Eff → Bool
  | .requeue _ => true
  | .complete _ => true
  | _ => false

structure Sys (P W : ℕ) where
  dir : Directory
  clock : ℕ
  nextRequestId : ℤ
  fdQueue : FdQueue
  requestQueue : RequestQueue
  records : List (Fd × RequestMetrics)
  parser : Fin P → Parser
  worker : Fin W → Worker
  accepted : List Fd
  admitted : List Request
  finished : List (Fd × Exit)
  log : Fd → List Call

/-- The choices of one step. -/
structure Choice where
  ok : Bool := true
  data : Option Bytes := some []
  tick : ℕ := 0
  stored : ℕ := 0

inductive Label (P W : ℕ) : Type where
  | accept (fd : Fd)
  | stopAccepting
  | parserTake (k : Fin P)
  | parserExit (k : Fin P)
  | parserCall (k : Fin P) (c : Choice)
  | workerTake (k : Fin W)
  | workerExit (k : Fin W)
  | workerCall (k : Fin W) (c : Choice)
  | closeQueue

namespace Sys

variable {P W : ℕ}

/-- A server that was just started on a directory. -/
def init (P W : ℕ) (dir : Directory) : Sys P W where
  dir := dir
  clock := 1
  nextRequestId := 1
  fdQueue := {}
  requestQueue := {}
  records := []
  parser := fun _ => .idle
  worker := fun _ => .idle
  accepted := []
  admitted := []
  finished := []
  log := fun _ => []

/-- The answer to a call. Reading a file that is there succeeds; a path that is
not there can be neither opened for update nor renamed. -/
def answer (s : Sys P W) (c : Choice) : (e : Eff) → Resp e
  | .stat path => (s.dir (cstr path)).map File.size
  | .openRead path => s.dir (cstr path)
  | .create _ => c.ok
  | .openRW path => c.ok && (s.dir (cstr path)).isSome
  | .seekp _ _ => c.ok
  | .write _ off data => if c.ok && off + data.length < 2 ^ 63 then .good else .bad c.stored
  | .closeFile _ => ()
  | .remove _ => ()
  | .rename src _ => c.ok && (s.dir (cstr src)).isSome
  | .sendAll _ _ => c.ok
  | .recv _ size _ => c.data.map (List.take size)
  | .closeSocket _ => ()
  | .now => s.clock + c.tick
  | .fetchId => s.nextRequestId
  | .queueSize => s.requestQueue.size
  | .push req => (s.requestQueue.push req).1
  | .requeue req => (s.requestQueue.requeue req).1
  | .complete _ => ()
  | .record _ => ()

/-- The state after a call made for connection `fd` was answered, the calling
thread aside. -/
def perform (s : Sys P W) (fd : Fd) (e : Eff) (r : Resp e) : Sys P W :=
  { s with
    dir := e.onDir s.dir r
    clock := match e, r with
      | .now, t => t
      | _, _ => s.clock
    nextRequestId := match e with
      | .fetchId => int32 (s.nextRequestId + 1)
      | _ => s.nextRequestId
    requestQueue := e.onQueue s.requestQueue
    records := match e with
      | .record req => s.records ++ [(fd, .ofRequest req)]
      | _ => s.records
    admitted := match e, r with
      | .push req, true => s.admitted ++ [req]
      | _, _ => s.admitted
    finished := match e with
      | .complete exit => s.finished ++ [(fd, exit)]
      | _ => s.finished
    log := Function.update s.log fd (s.log fd ++ [⟨e, r⟩]) }

def setParser (s : Sys P W) (k : Fin P) (p : Parser) : Sys P W :=
  { s with parser := Function.update s.parser k p }

def setWorker (s : Sys P W) (k : Fin W) (w : Worker) : Sys P W :=
  { s with worker := Function.update s.worker k w }

/-- One step. `main` closes the request queue after the parsers are joined; the
model lets it happen at any time. -/
def step (cfg : Config) (s : Sys P W) : Label P W → Option (Sys P W)
  | .accept fd =>
      if fd ∈ s.accepted ∨ s.fdQueue.closed then none
      else some { s with fdQueue := (s.fdQueue.push fd).2, accepted := s.accepted ++ [fd] }
  | .stopAccepting => some { s with fdQueue := s.fdQueue.close }
  | .parserTake k =>
      match s.parser k, s.fdQueue.waitPop with
      | .idle, some (fd, q) =>
          some ({ s with fdQueue := q }.setParser k (.resume fd (parserClient cfg fd)))
      | _, _ => none
  | .parserExit k =>
      match s.parser k, s.fdQueue.waitPop with
      | .idle, none => if s.fdQueue.waitPredicate then some (s.setParser k .exited) else none
      | _, _ => none
  | .parserCall k c =>
      match s.parser k with
      | .busy fd (.call e next) =>
          let r := s.answer c e
          some ((s.perform fd e r).setParser k (.resume fd (next r)))
      | _ => none
  | .workerTake k =>
      match s.worker k, cfg.scheduler.next s.requestQueue with
      | .idle, some (decision, q) =>
          some ({ s with requestQueue := q }.setWorker k
            (.resume decision.request true (workerRound cfg decision)))
      | _, _ => none
  | .workerExit k =>
      match s.worker k, cfg.scheduler.next s.requestQueue with
      | .idle, none =>
          if s.requestQueue.waitPredicate then some (s.setWorker k .exited) else none
      | _, _ => none
  | .workerCall k c =>
      match s.worker k with
      | .busy req held (.call e next) =>
          let r := s.answer c e
          some ((s.perform req.clientFd e r).setWorker k
            (.resume req (held && !e.releases) (next r)))
      | _ => none
  | .closeQueue => some { s with requestQueue := s.requestQueue.close }

/-- The call a step makes, and the connection it is made for. -/
def callOf (s : Sys P W) : Label P W → Option (Fd × Call)
  | .parserCall k c =>
      match s.parser k with
      | .busy fd (.call e _) => some (fd, ⟨e, s.answer c e⟩)
      | _ => none
  | .workerCall k c =>
      match s.worker k with
      | .busy req _ (.call e _) => some (req.clientFd, ⟨e, s.answer c e⟩)
      | _ => none
  | _ => none

/-- The steps of a run all satisfy `P`. -/
abbrev RunWhere (cfg : Config) (P : Sys P' W → Label P' W → Prop) : Sys P' W → Sys P' W → Prop :=
  Framework.Run (step cfg) P

end Sys

end LinkScheduling
