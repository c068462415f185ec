import LinkScheduling.Model.Client

/-!
# `client.cpp`: downloading a file

`get_file` and the `recv_exact` it calls. What the client prints is left out, and with it the
`quiet` argument.
-/

namespace LinkScheduling

open Framework

/-- The calls of a download: those of every client, and the output file. -/
inductive DownloadEff : Type where
  | net (e : ClientEff)
  | openOutput (filename : Bytes)
  | write (data : Bytes)
  | closeOutput
deriving DecidableEq

/-- Opening and writing answer whether the stream is still good. -/
abbrev DownloadResp : DownloadEff → Type
  | .net e => ClientResp e
  | .openOutput _ => Bool
  | .write _ => Bool
  | .closeOutput => Unit

abbrev Download (α : Type) : Type := Prog DownloadEff DownloadResp α

abbrev output (e : DownloadEff) : Download (DownloadResp e) := Prog.perform e

/-- What the client does over the connection. -/
def net {α : Type} (p : Client α) : Download α := p.embed DownloadEff.net

/-- `std::stoull`: white space, a sign, then the digits that are there. It throws when there is
none and above `2 ^ 64 - 1`, and a minus sign negates modulo `2 ^ 64`. -/
def stoullText (text : Bytes) : Option ℕ :=
  let text := text.dropWhile isspace
  let negative := text.head? = some 45
  let text := if text.head? = some 45 ∨ text.head? = some 43 then text.tail else text
  let digits := text.takeWhile isdigit
  if digits.isEmpty then none
  else (stoull digits).map fun value => if negative then (2 ^ 64 - value) % 2 ^ 64 else value

/-- `out->write`, where there is an `out`, and the test of the stream after it. -/
def writeOut (out : Bool) (data : Bytes) : Download Bool :=
  if out then output (.write data) else pure true

/-- The first loop of `recv_exact`, over the bytes that came with the status line. Returns
`received`, or `none` where the source returns `false`. Every pass moves `prefixOff`, so as
many passes as there are bytes reach the test that ends the loop. -/
def copyPrefix (size : ℕ) (pre : Bytes) (out : Bool) : ℕ → ℕ → ℕ → Download (Option ℕ)
  | 0, received, _ => pure (some received)
  | fuel + 1, received, prefixOff =>
      if received < size ∧ prefixOff < pre.length then do
        let chunk := min (size - received) (pre.length - prefixOff)
        if ← writeOut out ((pre.drop prefixOff).take chunk) then
          copyPrefix size pre out fuel (received + chunk) (prefixOff + chunk)
        else pure none
      else pure (some received)

/-- The second loop of `recv_exact`. Every pass receives at least one byte, so `size` passes
reach the test that ends the loop. -/
def recvRest (size : ℕ) (out : Bool) : ℕ → ℕ → Download Bool
  | 0, _ => pure true
  | fuel + 1, received =>
      if received < size then do
        let chunk := min (size - received) 8192
        match ← net (request (.recv chunk)) with
        | none => pure false
        | some [] => pure false
        | some data =>
            if ← writeOut out data then recvRest size out fuel (received + data.length)
            else pure false
      else pure true

def recvExact (size : ℕ) (pre : Bytes) (out : Bool) : Download Bool := do
  match ← copyPrefix size pre out pre.length 0 0 with
  | none => pure false
  | some received => recvRest size out size received

/-- `"GET " + filename + "\n"`. -/
def getHeader (filename : Bytes) : Bytes := ascii "GET " ++ filename ++ [newline]

/-- `get_file` once the size is known. -/
def getBody (filename : Bytes) (fileSize : ℕ) (leftover : Bytes) (writeToDisk : Bool) :
    Download ℕ := do
  let opened ← if writeToDisk then output (.openOutput filename) else pure true
  if opened then
    let ok ← recvExact fileSize leftover writeToDisk
    if writeToDisk then output .closeOutput
    net (request .close)
    pure (if ok then 0 else 1)
  else net giveUp

/-- `get_file` and the value it returns. -/
def getFile (filename : Bytes) (writeToDisk : Bool) : Download ℕ := do
  if ← net (request .connect) then
    if ← net (request (.sendAll (getHeader filename))) then
      match ← net readStatusLine with
      | none => net giveUp
      | some (response, leftover) =>
          if ascii "OK " <+: response then
            match stoullText (response.drop 3) with
            | none => net giveUp
            | some fileSize => getBody filename fileSize leftover writeToDisk
          else net giveUp
    else net giveUp
  else pure 1

end LinkScheduling
