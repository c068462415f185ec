import LinkScheduling.Model.Calls

/-!
# `protocol.cpp` and the header reader of `socket.cpp`
-/

namespace LinkScheduling

open Framework

/-- `std::isspace` in the C locale. -/
def isspace (c : UInt8) : Bool := c = 32 || (9 ≤ c && c ≤ 13)

/-- `std::toupper` in the C locale. -/
def toupper (c : UInt8) : UInt8 := if 97 ≤ c && c ≤ 122 then c - 32 else c

def isdigit (c : UInt8) : Bool := 48 ≤ c && c ≤ 57

/-- `iss >> token`: the token and what is left on the stream. -/
def extract (iss : Bytes) : Option (Bytes × Bytes) :=
  let iss := iss.dropWhile isspace
  let token := iss.takeWhile (!isspace ·)
  if token.isEmpty then none else some (token, iss.dropWhile (!isspace ·))

/-- The decimal value of a string of digits. -/
def digitsValue (digits : Bytes) : ℕ := digits.foldl (fun n d => 10 * n + (d.toNat - 48)) 0

/-- `std::stoull` on a non-empty string of digits, which throws above
`2 ^ 64 - 1`. -/
def stoull (digits : Bytes) : Option ℕ :=
  if digitsValue digits < 2 ^ 64 then some (digitsValue digits) else none

/-- Removes trailing CR and LF. -/
def stripLine (line : Bytes) : Bytes :=
  (line.reverse.dropWhile (fun c => c = newline || c = 13)).reverse

/-- `Except.error` carries the text of the exception. -/
def parseRequestHeader (headerLine : Bytes) (clientFd : Fd) : Except Bytes Request :=
  let line := stripLine headerLine
  if line.isEmpty then .error (ascii "empty request")
  else match extract line with
  | none => .error (ascii "missing operation")
  | some (op, iss) =>
      let op := op.map toupper
      if op = ascii "HEALTH" then
        match extract iss with
        | some _ => .error (ascii "HEALTH takes no arguments")
        | none => .ok { clientFd := clientFd, op := .HEALTH }
      else if op = ascii "GET" then
        match extract iss with
        | none => .error (ascii "GET requires filename")
        | some (filename, iss) =>
            match extract iss with
            | some _ => .error (ascii "GET takes exactly one filename")
            | none => .ok { clientFd := clientFd, op := .GET, filename := filename }
      else if op = ascii "PUT" then
        match extract iss with
        | none => .error (ascii "PUT requires filename")
        | some (filename, iss) =>
            match extract iss with
            | none => .error (ascii "PUT requires byte count")
            | some (byteString, iss) =>
                match extract iss with
                | some _ => .error (ascii "PUT takes filename and byte count only")
                | none =>
                    if byteString.isEmpty || !byteString.all isdigit then
                      .error (ascii "invalid byte count")
                    else match stoull byteString with
                    | none => .error (ascii "invalid byte count")
                    | some bytes =>
                        .ok { clientFd := clientFd, op := .PUT, filename := filename,
                              totalBytes := bytes }
      else .error (ascii "unknown operation: " ++ op)

/-- `"OK " + std::to_string(value) + "\n"`. -/
def okLine (value : ℕ) : Bytes := ascii "OK " ++ decimal value ++ [newline]

/-- `"ERR " + reason + "\n"`. -/
def errLine (reason : Bytes) : Bytes := ascii "ERR " ++ reason ++ [newline]

/-- A failed send is only reported on `stderr`. -/
def sendResponse (clientFd : Fd) (value : ℕ) : Server Unit := do
  let _ ← perform (.sendAll clientFd (okLine value))

def sendError (clientFd : Fd) (reason : Bytes) : Server Unit := do
  let _ ← perform (.sendAll clientFd (errLine reason))

/-- The copying loop of `read_header_line` over one received buffer: the line so
far and, once a newline was copied, the rest of the buffer. -/
def scanBuffer (line : Bytes) : Bytes → Bytes × Option Bytes
  | [] => (line, none)
  | c :: buffer =>
      if c = newline then (line ++ [c], some buffer) else scanBuffer (line ++ [c]) buffer

/-- The receiving loop. Every pass appends at least one byte, so `fuel = 8192`
passes reach the length test; running out of fuel and failing that test return
the same empty line. -/
def readHeaderLoop (fd : Fd) (deadline : ℕ) : ℕ → Bytes → Server (Bytes × Bytes)
  | 0, _ => pure ([], [])
  | fuel + 1, line =>
      if 8192 ≤ line.length then pure ([], [])
      else do
        let now ← perform .now
        if deadline ≤ now then pure ([], [])
        else
          let remaining := (deadline - now) / 1000000
          let remainingMs := if remaining > 0 then remaining else 1
          match ← perform (.recv fd 4096 remainingMs) with
          | none => pure ([], [])
          | some [] => pure ([], [])
          | some buffer =>
              match scanBuffer line buffer with
              | (line, some leftover) => pure (line, leftover)
              | (line, none) => readHeaderLoop fd deadline fuel line

/-- Returns the line and the leftover; an empty line means timeout or error. -/
def readHeaderLine (fd : Fd) (timeoutMs : ℕ) : Server (Bytes × Bytes) := do
  let start ← perform .now
  readHeaderLoop fd (start + timeoutMs * 1000000) 8192 []

end LinkScheduling
