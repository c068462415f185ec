import LinkScheduling.Framework.Interaction
import LinkScheduling.Model.Basic

/-!
# Requests and the calls a thread makes

`Request` is the record of `queue.h` that travels through the queue. `Eff`
lists every call a parser or a worker makes outside its own stack: system calls
on files and sockets, the clock, the shared counters, the metrics and the
request queue. `Resp` is what each call answers.
-/

namespace LinkScheduling

open Framework

/-- A client connection. The model numbers connections and never reuses a
number, so a number also names the connection after it was closed. -/
abbrev Fd : Type := ℕ

inductive Operation : Type where
  | GET
  | PUT
  | HEALTH
deriving DecidableEq

structure Request where
  requestId : ℤ := 0
  clientFd : Fd := 0
  op : Operation := .GET
  filename : Bytes := []
  totalBytes : ℕ := 0
  offset : ℕ := 0
  rounds : ℕ := 0
  forfeitedBytes : ℕ := 0
  deficit : ℕ := 0
  a14Events : ℕ := 0
  arrivalNs : ℕ := 0
  startNs : ℕ := 0
  finishNs : ℕ := 0
  pendingBytes : Bytes := []
  pendingOffset : ℕ := 0
  stagingFilename : Bytes := []
  responseSent : Bool := false
deriving DecidableEq

/-- A regular file. Sizes are `off_t`, so they stay below `2 ^ 63`. -/
structure File where
  bytes : Bytes
  size_lt : bytes.length < 2 ^ 63
deriving DecidableEq

def File.size (f : File) : ℕ := f.bytes.length

/-- The status of a stream after `write`: good, or bad with the number of
bytes of the chunk that had reached the file. -/
inductive WriteResult : Type where
  | good
  | bad (stored : ℕ)
deriving DecidableEq

/-- How a worker leaves the last round of a request: serving failed, the final
rename failed, or the request is complete. -/
inductive Exit : Type where
  | failed
  | commitFailed
  | completed
deriving DecidableEq

inductive Eff : Type where
  | stat (path : Bytes)
  | openRead (path : Bytes)
  | create (path : Bytes)
  | openRW (path : Bytes)
  | seekp (path : Bytes) (off : ℕ)
  | write (path : Bytes) (off : ℕ) (data : Bytes)
  | closeFile (path : Bytes)
  | remove (path : Bytes)
  | rename (src dst : Bytes)
  | sendAll (fd : Fd) (data : Bytes)
  | recv (fd : Fd) (size timeoutMs : ℕ)
  | closeSocket (fd : Fd)
  | now
  | fetchId
  | queueSize
  | push (req : Request)
  | requeue (req : Request)
  | complete (exit : Exit)      -- the exit is a label for the proofs
  | record (req : Request)
deriving DecidableEq

/-- Answers: `stat` the size if the path exists, `openRead` the file if the
stream is open, `recv` the bytes received (`none` for `-1`, `some []` for a
timeout or the end of the stream). -/
abbrev Resp : Eff → Type
  | .stat _ => Option ℕ
  | .openRead _ => Option File
  | .create _ => Bool
  | .openRW _ => Bool
  | .seekp _ _ => Bool
  | .write _ _ _ => WriteResult
  | .closeFile _ => Unit
  | .remove _ => Unit
  | .rename _ _ => Bool
  | .sendAll _ _ => Bool
  | .recv _ _ _ => Option Bytes
  | .closeSocket _ => Unit
  | .now => ℕ
  | .fetchId => ℤ
  | .queueSize => ℕ
  | .push _ => Bool
  | .requeue _ => Bool
  | .complete _ => Unit
  | .record _ => Unit

/-- The code of a server thread. -/
abbrev Server (α : Type) : Type := Prog Eff Resp α

abbrev Call : Type := Event Eff Resp

abbrev perform (e : Eff) : Server (Resp e) := Prog.perform e

end LinkScheduling
