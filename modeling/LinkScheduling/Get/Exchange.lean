import LinkScheduling.Metatheory.Sockets
import LinkScheduling.Model.Download

/-!
# A download and the server

One run of `get_file` over connection `fd`, beside a whole server with its other connections.
The server receives parts of what the client has sent, and the client receives parts of what
the server has put on the stream, cut anyhow. A send that fails has put a part of its bytes on
the stream, and the connection carries nothing after it. A write that fails has stored a part,
and so may the closing of the output file, whose result `get_file` does not look at.
-/

namespace LinkScheduling

open Framework

structure Fetch (P W : ℕ) where
  server : Sys P W
  /-- What is left of the client's program. -/
  client : Download ℕ
  /-- What the client has put on the stream. -/
  sent : Bytes := []
  /-- What the server has put on the stream. -/
  wire : Bytes := []
  /-- A send of the server failed. -/
  broken : Bool := false
  /-- How much the client has received. -/
  taken : ℕ := 0
  /-- The output file. -/
  output : Option Bytes := none
  /-- Closing the output file lost a part of it. -/
  torn : Bool := false

namespace Fetch

variable {P W : ℕ}

/-- `count` bytes get through where a call fails, or are received. -/
inductive Label (P W : ℕ) : Type where
  | server (l : LinkScheduling.Label P W) (count : ℕ)
  | client (ok : Bool) (count : ℕ)

def start (P W : ℕ) (dir : Directory) (filename : Bytes) : Fetch P W where
  server := .init P W dir
  client := getFile filename true

/-- What the client has yet to receive. -/
def stream (s : Fetch P W) : Bytes := s.wire.drop s.taken

/-- What a call of the server puts on the stream. -/
def carry (fd : Fd) (s : Fetch P W) (count : ℕ) : Option (Fd × Call) → Fetch P W
  | some (fd', ⟨.sendAll _ data, ok⟩) =>
      if fd' ≠ fd ∨ s.broken then s
      else if ok then { s with wire := s.wire ++ data }
      else { s with wire := s.wire ++ data.take count, broken := true }
  | _ => s

def clientStep (fd : Fd) (s : Fetch P W) (ok : Bool) (count : ℕ) : Option (Fetch P W) :=
  match s.client with
  | .ret _ => none
  | .call (.net .connect) next => some { s with client := next ok }
  | .call (.net (.sendAll data)) next =>
      if ok then some { s with client := next true, sent := s.sent ++ data }
      else some { s with client := next false, sent := s.sent ++ data.take count }
  | .call (.net (.recv size)) next =>
      if ok then
        if 0 < count ∧ count ≤ size ∧ count ≤ s.stream.length then
          some { s with client := next (some (s.stream.take count)), taken := s.taken + count }
        else if s.stream = [] ∧ (s.broken ∨ 0 < closes fd (s.server.log fd)) then
          -- the end of the stream
          some { s with client := next (some []) }
        else none
      else some { s with client := next none }
  | .call (.net .close) next => some { s with client := next () }
  | .call (.openOutput _) next =>
      some { s with client := next ok, output := if ok then some [] else s.output }
  | .call (.write data) next =>
      some { s with
        client := next ok
        output := s.output.map (· ++ if ok then data else data.take count) }
  | .call .closeOutput next =>
      some { s with
        client := next ()
        output := if ok then s.output else s.output.map (List.take count)
        torn := s.torn || !ok }

def step (cfg : Config) (fd : Fd) (s : Fetch P W) : Label P W → Option (Fetch P W)
  | .server l count =>
      (s.server.step cfg l).bind fun server =>
        -- the server receives what the client has sent
        if received (server.log fd) <+: s.sent then
          some { s.carry fd count (s.server.callOf l) with server := server }
        else none
  | .client ok count => s.clientStep fd ok count

/-- The value of a client that returned. -/
def returned (s : Fetch P W) : Option ℕ :=
  match s.client with
  | .ret v => some v
  | .call _ _ => none

end Fetch

end LinkScheduling
