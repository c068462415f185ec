import LinkScheduling.Model.Calls

/-!
# `socket.cpp`

The socket functions of a server thread as programs over the system calls they make, and how
the kernel answers these.
-/

namespace LinkScheduling

open Framework

inductive SysCall : Type where
  | select (fd : Fd) (sec usec : ℕ)
  | recv (fd : Fd) (size : ℕ)
  | send (fd : Fd) (data : Bytes)
  | close (fd : Fd)
deriving DecidableEq

namespace SysCall

def fd : SysCall → Fd
  | .select fd _ _ => fd
  | .recv fd _ => fd
  | .send fd _ => fd
  | .close fd => fd

/-- Answers: `none` for `-1`; `select` whether the descriptor is ready, `recv` the bytes
received, `send` how many bytes it took. -/
abbrev Answer : SysCall → Type
  | .select _ _ _ => Option Bool
  | .recv _ _ => Option Bytes
  | .send _ _ => Option ℕ
  | .close _ => Unit

end SysCall

abbrev Socket (α : Type) : Type := Prog SysCall SysCall.Answer α

abbrev syscall (sc : SysCall) : Socket sc.Answer := Prog.perform sc

/-- The loop of `send_all`. The fuel bounds its rounds: `send` takes at least one byte of what
is left. -/
def sendAllLoop (fd : Fd) (data : Bytes) : ℕ → ℕ → Socket Bool
  | 0, _ => pure true
  | fuel + 1, bytesSent =>
      if bytesSent < data.length then do
        match ← syscall (.send fd (data.drop bytesSent)) with
        | none => pure false
        | some n => sendAllLoop fd data fuel (bytesSent + n)
      else pure true

def sendAll (fd : Fd) (data : Bytes) : Socket Bool := sendAllLoop fd data (data.length + 1) 0

/-- `recv_data_with_timeout`; a timeout is `0` like the end of the stream. -/
def recvDataWithTimeout (fd : Fd) (size timeoutMs : ℕ) : Socket (Option Bytes) := do
  match ← syscall (.select fd (timeoutMs / 1000) (timeoutMs % 1000 * 1000)) with
  | none => pure none
  | some false => pure (some [])
  | some true => syscall (.recv fd size)

def closeSocket (fd : Fd) : Socket Unit := syscall (.close fd)

/-- The function of `socket.cpp` behind a call of a server thread. -/
def socketFunction : (e : Eff) → Option (Socket (Resp e))
  | .sendAll fd data => some (sendAll fd data)
  | .recv fd size timeoutMs => some (recvDataWithTimeout fd size timeoutMs)
  | .closeSocket fd => some (closeSocket fd)
  | _ => none

/-! ## The kernel -/

/-- What the server did to one of its sockets. -/
structure Connection : Type where
  /-- The bytes the kernel took from the server. -/
  sent : Bytes := []
  /-- The bytes it gave to the server. -/
  got : Bytes := []
  isOpen : Bool := false
deriving DecidableEq

/-- The choices of the kernel: a call may fail, a descriptor may be ready or not, and at most
`count + 1` bytes are moved at once. -/
structure KernelChoice : Type where
  ok : Bool := true
  ready : Bool := true
  count : ℕ := 0

namespace Connection

/-- The answer to a call on a connection on which `arrived` has come in. A call on a closed
descriptor fails. -/
def answer (conn : Connection) (arrived : Bytes) (c : KernelChoice) : (sc : SysCall) → sc.Answer
  | .select _ _ _ => if conn.isOpen && c.ok then some c.ready else none
  | .recv _ size =>
      if conn.isOpen && c.ok then
        some ((arrived.drop conn.got.length).take (min size (c.count + 1)))
      else none
  | .send _ data => if conn.isOpen && c.ok then some (min (c.count + 1) data.length) else none
  | .close _ => ()

def after (conn : Connection) : (sc : SysCall) → sc.Answer → Connection
  | .send _ data, some n => { conn with sent := conn.sent ++ data.take n }
  | .recv _ _, some data => { conn with got := conn.got ++ data }
  | .close _, () => { conn with isOpen := false }
  | _, _ => conn

end Connection

end LinkScheduling
