import LinkScheduling.Model.Calls

/-!
# `file_io.cpp`

Name checks, the two uses of `stat`, and the line reader. `IStream` is the part
of `std::ifstream` the line reader uses: the bytes of the file that was opened,
the read position and the two status bits. Opening is the call `openRead`; the
stream keeps the file it opened, later commits under the same path do not reach
it.
-/

namespace LinkScheduling

open Framework

def isValidFilename (filename : Bytes) : Bool :=
  !filename.isEmpty && filename != ascii "." && filename != ascii ".." &&
    !filename.contains slash

/-- `file_dir + "/" + name`. -/
def filePath (fileDir name : Bytes) : Bytes := fileDir ++ slash :: name

def fileExists (filepath : Bytes) : Server Bool := do
  let buffer ← perform (.stat filepath)
  pure buffer.isSome

def getFileSize (filepath : Bytes) : Server ℕ := do
  let buffer ← perform (.stat filepath)
  pure (buffer.getD 0)

structure IStream where
  content : Bytes
  pos : ℕ := 0
  eofbit : Bool := false
  failbit : Bool := false

namespace IStream

def good (s : IStream) : Bool := !s.eofbit && !s.failbit

/-- The offset is cast to a signed `std::streamoff`; a negative one fails. -/
def seekg (s : IStream) (off : ℕ) : IStream :=
  if off < 2 ^ 63 then { s with pos := off } else { s with failbit := true }

/-- `std::getline`: bytes up to the next newline, which is taken off the
stream. Meeting the end of the file first sets `eofbit`, and taking nothing
off the stream sets `failbit`. -/
def getline (s : IStream) : IStream × Bytes :=
  if s.good then
    let rest := s.content.drop s.pos
    let line := rest.takeWhile (· ≠ newline)
    if line.length < rest.length then
      ({ s with pos := s.pos + line.length + 1 }, line)
    else
      ({ s with pos := s.pos + line.length, eofbit := true, failbit := line.isEmpty }, line)
  else ({ s with failbit := true }, [])

/-- `tellg` answers `-1` when a status bit is set. -/
def tellg (s : IStream) : Option ℕ := if s.good then some s.pos else none

end IStream

/-- Returns the new offset and the line, or `none` where the source returns
`false`. -/
def readFileLine (filepath : Bytes) (offset : ℕ) : Server (Option (ℕ × Bytes)) := do
  match ← perform (.openRead filepath) with
  | none => pure none
  | some file =>
      let s := ({ content := file.bytes } : IStream).seekg offset
      if !s.good then pure none
      else
        let (s, line) := s.getline
        if s.failbit then pure none
        else
          let offset ← match s.tellg with
            | none => getFileSize filepath
            | some newPosition => pure newPosition
          pure (some (offset, if !s.eofbit then line ++ [newline] else line))

end LinkScheduling
