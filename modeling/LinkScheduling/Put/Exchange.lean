import LinkScheduling.Metatheory.Sockets
import LinkScheduling.Model.Client

/-!
# A client and the server

One run of `put_file` over connection `fd`, beside a whole server with its other
connections. What goes over the connection are two byte streams: the server receives parts
of what the client has sent, the client receives parts of what was sent to it, cut anyhow.
A send that fails has put a part of its bytes on the stream.
-/

namespace LinkScheduling

open Framework

/-- The bytes the server has put on the stream of a connection. -/
def delivered (log : List Call) : List Bytes :=
  log.filterMap fun
    | ⟨.sendAll _ data, true⟩ => some data
    | _ => none

structure Exchange (P W : ℕ) where
  server : Sys P W
  /-- What is left of the client's program. -/
  client : Client ℕ
  /-- What the client has put on the stream. -/
  sent : Bytes := []
  /-- How much the client has received. -/
  taken : ℕ := 0

namespace Exchange

variable {P W : ℕ}

/-- `count` bytes go over the stream, if the client's call is about bytes. -/
inductive Label (P W : ℕ) : Type where
  | server (l : LinkScheduling.Label P W)
  | client (ok : Bool) (count : ℕ)

def start (P W : ℕ) (dir : Directory) (wireName data : Bytes) : Exchange P W where
  server := .init P W dir
  client := putFile wireName data

/-- What the client has yet to receive. -/
def stream (fd : Fd) (s : Exchange P W) : Bytes :=
  (delivered (s.server.log fd)).flatten.drop s.taken

def clientStep (fd : Fd) (s : Exchange P W) (ok : Bool) (count : ℕ) : Option (Exchange P W) :=
  match s.client with
  | .ret _ => none
  | .call .connect next => some { s with client := next ok }
  | .call (.sendAll data) next =>
      if ok then some { s with client := next true, sent := s.sent ++ data }
      else if count < data.length then
        some { s with client := next false, sent := s.sent ++ data.take count }
      else none
  | .call (.recv size) next =>
      if 0 < count ∧ count ≤ size ∧ count ≤ (s.stream fd).length then
        some { s with
          client := next (some ((s.stream fd).take count))
          taken := s.taken + count }
      else if s.stream fd = [] ∧ 0 < closes fd (s.server.log fd) then
        -- the end of the stream
        some { s with client := next (some []) }
      else none
  | .call .close next => some { s with client := next () }

def step (cfg : Config) (fd : Fd) (s : Exchange P W) : Label P W → Option (Exchange P W)
  | .server l =>
      (s.server.step cfg l).bind fun server =>
        -- the server receives what the client has sent
        if received (server.log fd) <+: s.sent then some { s with server := server }
        else none
  | .client ok count => s.clientStep fd ok count

/-- However the client's calls are answered from now on, it returns `v`. -/
inductive Settles (fd : Fd) (v : ℕ) : Exchange P W → Prop
  | done {s : Exchange P W} : s.client = .ret v → Settles fd v s
  | step {s : Exchange P W} :
      (∃ ok count t, s.clientStep fd ok count = some t) →
      (∀ ok count t, s.clientStep fd ok count = some t → Settles fd v t) → Settles fd v s

end Exchange

end LinkScheduling
