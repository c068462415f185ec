import LinkScheduling.Model.Socket
import LinkScheduling.Model.System

/-!
# The server above the kernel

The whole server with its socket calls carried out by `socket.cpp`. A thread whose next call
is a socket call enters the function, makes its system calls one by one, and leaves with what
the function returns; between any two of its system calls all the other threads may go on.
The bytes of the clients arrive at any time.
-/

namespace LinkScheduling

open Framework

/-- A parser or a worker. -/
abbrev Thread (P W : ℕ) : Type := Fin P ⊕ Fin W

/-- A function of `socket.cpp` that a thread is inside of. -/
structure Inside : Type where
  call : Eff
  rest : Socket (Resp call)

structure Wired (P W : ℕ) where
  server : Sys P W
  inside : Thread P W → Option Inside
  connection : Fd → Connection
  arrived : Fd → Bytes

/-- The next call of a thread, with its connection. -/
def Sys.nextCall {P W : ℕ} (s : Sys P W) : Thread P W → Option (Fd × Eff)
  | .inl k =>
      match s.parser k with
      | .busy fd (.call e _) => some (fd, e)
      | _ => none
  | .inr k =>
      match s.worker k with
      | .busy req _ (.call e _) => some (req.clientFd, e)
      | _ => none

/-- The step makes a call that is carried out by `socket.cpp`. -/
def Sys.onSocket {P W : ℕ} (s : Sys P W) (l : Label P W) : Bool :=
  match s.callOf l with
  | some (_, ⟨e, _⟩) => (socketFunction e).isSome
  | none => false

/-- The step in which a thread makes its call. -/
def Thread.makes {P W : ℕ} (c : Choice) : Thread P W → Label P W
  | .inl k => .parserCall k c
  | .inr k => .workerCall k c

/-- The choice that gives a socket call this answer. -/
def Choice.giving : (e : Eff) → Resp e → Choice
  | .sendAll _ _, ok => { ok := ok }
  | .recv _ _ _, data => { data := data }
  | _, _ => {}

/-- The connections after a step of the server: `accept` opens the socket. -/
def Label.opens {P W : ℕ} (l : Label P W) (connection : Fd → Connection) : Fd → Connection :=
  match l with
  | .accept fd => Function.update connection fd { isOpen := true }
  | _ => connection

namespace Wired

variable {P W : ℕ}

inductive Label (P W : ℕ) : Type where
  | run (l : LinkScheduling.Label P W)
  | enter (k : Thread P W)
  | sysCall (k : Thread P W) (c : KernelChoice)
  | leave (k : Thread P W)
  | arrive (fd : Fd) (data : Bytes)

def start (P W : ℕ) (dir : Directory) : Wired P W where
  server := .init P W dir
  inside := fun _ => none
  connection := fun _ => {}
  arrived := fun _ => []

def step (cfg : Config) (s : Wired P W) : Label P W → Option (Wired P W)
  | .run l =>
      if s.server.onSocket l then none
      else (s.server.step cfg l).map fun server =>
        { s with server := server, connection := l.opens s.connection }
  | .enter k =>
      match s.inside k, s.server.nextCall k with
      | none, some (_, e) =>
          (socketFunction e).map fun body =>
            { s with inside := Function.update s.inside k (some ⟨e, body⟩) }
      | _, _ => none
  | .sysCall k c =>
      match s.inside k with
      | some ⟨e, .call sc next⟩ =>
          let r := (s.connection sc.fd).answer (s.arrived sc.fd) c sc
          some { s with
            inside := Function.update s.inside k (some ⟨e, next r⟩)
            connection :=
              Function.update s.connection sc.fd ((s.connection sc.fd).after sc r) }
      | _ => none
  | .leave k =>
      match s.inside k with
      | some ⟨e, .ret r⟩ =>
          (s.server.step cfg (Thread.makes (.giving e r) k)).map fun server =>
            { s with server := server, inside := Function.update s.inside k none }
      | _ => none
  | .arrive fd data =>
      some { s with arrived := Function.update s.arrived fd (s.arrived fd ++ data) }

end Wired

end LinkScheduling
