import LinkScheduling.Model.System

/-!
# Buffered writes

`std::fstream::write` leaves bytes in the buffer of the stream. They reach the file later, at
the latest in the flush of `close`, and `serve_put` does not look at the stream after `close`.
`Sys` stores at once; here the same threads run over streams with a buffer. A label also says
how many bytes of the buffer reach the file during the call; what `close` does not flush is
lost. Everything else, the directory a `stat` or an open sees included, is as in `Sys`.
-/

namespace LinkScheduling

open Framework

/-- Bytes in the buffer of a stream, with their place in the file. -/
structure Chunk where
  path : Bytes
  off : ℕ
  data : Bytes
  bound : off + data.length < 2 ^ 63

namespace Chunk

def store (c : Chunk) (d : Directory) : Directory :=
  Eff.onDir d (.write c.path c.off c.data) .good

/-- The first `k` bytes of a chunk. -/
def take (k : ℕ) (c : Chunk) : Chunk where
  path := c.path
  off := c.off
  data := c.data.take k
  bound := by
    have hbound := c.bound
    rw [List.length_take]
    omega

/-- The bytes of a chunk after its first `k`. -/
def drop (k : ℕ) (c : Chunk) (hk : k ≤ c.data.length) : Chunk where
  path := c.path
  off := c.off + k
  data := c.data.drop k
  bound := by
    have hbound := c.bound
    rw [List.length_drop]
    omega

end Chunk

/-- `k` bytes of a buffer reach the directory, oldest first; the others stay. -/
def flush : ℕ → List Chunk → Directory → Directory × List Chunk
  | _, [], d => (d, [])
  | 0, c :: cs, d => (d, c :: cs)
  | k + 1, c :: cs, d =>
      if h : c.data.length ≤ k + 1 then flush (k + 1 - c.data.length) cs (c.store d)
      else ((c.take (k + 1)).store d, c.drop (k + 1) (Nat.le_of_not_le h) :: cs)

/-- The buffer with the bytes of a write. No file reaches the offset `2 ^ 63`. -/
def accept (buffer : List Chunk) (path : Bytes) (off : ℕ) (data : Bytes) : List Chunk :=
  if h : off + data.length < 2 ^ 63 then buffer ++ [⟨path, off, data, h⟩] else buffer

/-- What a call does to the directory and to the buffer of its stream when `k` bytes of the
buffer are flushed during it. -/
def Call.onStorage (d : Directory) (buffer : List Chunk) (k : ℕ) : Call → Directory × List Chunk
  | ⟨.write path off data, _⟩ => flush k (accept buffer path off data) d
  | ⟨.closeFile _, _⟩ => ((flush k buffer d).1, [])
  | ⟨e, r⟩ => (e.onDir d r, buffer)

/-- The server over buffered streams. `committed` is history: what the last rename made for a
connection left under the new name. -/
structure Buffered (P W : ℕ) where
  sys : Sys P W
  buffer : Fd → List Chunk
  committed : Fd → Option File

namespace Buffered

variable {P W : ℕ}

def init (P W : ℕ) (dir : Directory) : Buffered P W where
  sys := Sys.init P W dir
  buffer := fun _ => []
  committed := fun _ => none

/-- What the rename of a call leaves under the new name, in the directory after it. -/
def commit (dir : Directory) (before : Option File) : Call → Option File
  | ⟨.rename _ dst, true⟩ => dir (cstr dst)
  | _ => before

/-- The state after a call, `t` being what the threads and queues are then. -/
def afterCall (s : Buffered P W) (t : Sys P W) (fd : Fd) (call : Call) (k : ℕ) :
    Buffered P W where
  sys := { t with dir := (call.onStorage s.sys.dir (s.buffer fd) k).1 }
  buffer := Function.update s.buffer fd (call.onStorage s.sys.dir (s.buffer fd) k).2
  committed := Function.update s.committed fd
    (commit (call.onStorage s.sys.dir (s.buffer fd) k).1 (s.committed fd) call)

def step (cfg : Config) (s : Buffered P W) (l : Label P W × ℕ) : Option (Buffered P W) :=
  (s.sys.step cfg l.1).map fun t =>
    match s.sys.callOf l.1 with
    | some (fd, call) => s.afterCall t fd call l.2
    | none => { s with sys := t }

end Buffered

end LinkScheduling
