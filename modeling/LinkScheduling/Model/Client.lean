import LinkScheduling.Model.Protocol

/-!
# `client.cpp`: uploading a file

`put_file` from the point where the local file was read: `wireName` is the base name
of the local path and `data` the content. What the client prints is left out.
-/

namespace LinkScheduling

open Framework

/-- The calls of the client: the connection, and what goes over it. -/
inductive ClientEff : Type where
  | connect
  | sendAll (data : Bytes)
  | recv (size : ℕ)
  | close
deriving DecidableEq

/-- `recv` answers `none` for `-1` and `some []` at the end of the stream. -/
abbrev ClientResp : ClientEff → Type
  | .connect => Bool
  | .sendAll _ => Bool
  | .recv _ => Option Bytes
  | .close => Unit

/-- The code of the client. -/
abbrev Client (α : Type) : Type := Prog ClientEff ClientResp α

abbrev request (e : ClientEff) : Client (ClientResp e) := Prog.perform e

/-- The receiving loop of `read_status_line`: the line and the leftover, or `none`
where the source returns `false`. Every pass appends at least one byte, so the length
test ends the loop before the fuel does. -/
def readStatusLoop : ℕ → Bytes → Client (Option (Bytes × Bytes))
  | 0, _ => pure none
  | fuel + 1, line =>
      if 8192 ≤ line.length then pure none
      else do
        match ← request (.recv 4096) with
        | none => pure none
        | some [] => pure none
        | some buffer =>
            match scanBuffer line buffer with
            | (line, some leftover) => pure (some (line, leftover))
            | (line, none) => readStatusLoop fuel line

def readStatusLine : Client (Option (Bytes × Bytes)) := readStatusLoop 8192 []

/-- `"PUT " + wire_name + " " + std::to_string(data.size()) + "\n"`. -/
def putHeader (wireName : Bytes) (size : ℕ) : Bytes :=
  ascii "PUT " ++ wireName ++ ascii " " ++ decimal size ++ [newline]

/-- The check of the wire name. A base name holds no slash. -/
def isWireName (wireName : Bytes) : Bool :=
  !wireName.isEmpty && wireName != ascii "." && wireName != ascii ".." &&
    !wireName.contains slash

/-- The client gives up. -/
def giveUp : Client ℕ := do
  request .close
  pure 1

/-- `put_file` after the first status line. The leftover of the first line is dropped. -/
def putBody (data : Bytes) : Client ℕ := do
  let sent ← if data ≠ [] then request (.sendAll data) else pure true
  if sent then
    match ← readStatusLine with
    | none => giveUp
    | some (finalResponse, _) => do
        request .close
        pure (if finalResponse = ascii "OK 0\n" then 0 else 1)
  else giveUp

/-- `put_file` and the value it returns. -/
def putFile (wireName data : Bytes) : Client ℕ := do
  if !isWireName wireName then pure 1
  else if ← request .connect then
    if ← request (.sendAll (putHeader wireName data.length)) then
      match ← readStatusLine with
      | none => giveUp
      | some (initial, _) =>
          if ascii "OK " <+: initial then putBody data else giveUp
    else giveUp
  else pure 1

end LinkScheduling
