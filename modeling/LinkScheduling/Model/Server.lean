import LinkScheduling.Model.FileIO
import LinkScheduling.Model.Protocol

/-!
# `server.cpp`

One round of a GET and one round of a PUT. Both return whether the round
succeeded, the updated request and `bytes_processed`. The loops take a fuel
argument that bounds their passes: every pass of a loop consumes at least one
byte of the number it is called with, so the loop condition fails before the
fuel does.
-/

namespace LinkScheduling

open Framework

/-- The line selection of `serve_get`: `round_bytes` and `a14_events` after the
loop. -/
def selectLines (filepath : Bytes) (allowLongLineOverrun : Bool) (budget : ℕ) :
    ℕ → ℕ → ℕ → ℕ → Server (ℕ × ℕ)
  | 0, _, roundBytes, a14Events => pure (roundBytes, a14Events)
  | fuel + 1, lineOffset, roundBytes, a14Events =>
      if roundBytes < budget then do
        match ← readFileLine filepath lineOffset with
        | none => pure (roundBytes, a14Events)
        | some (lineOffset, line) =>
            if roundBytes = 0 ∧ line.length > budget then
              if allowLongLineOverrun then pure (line.length, u64 (a14Events + 1))
              else pure (roundBytes, a14Events)
            else if u64 (roundBytes + line.length) > budget then
              pure (roundBytes, a14Events)
            else
              selectLines filepath allowLongLineOverrun budget fuel lineOffset
                (u64 (roundBytes + line.length)) a14Events
      else pure (roundBytes, a14Events)

/-- The inner packetization loop; the first argument is `packetization` minus
`lines_in_packet`. Returns the packet, the new line offset and the bytes left of
the round, or `none` after an error was sent. -/
def gatherPacket (clientFd : Fd) (filepath : Bytes) :
    ℕ → ℕ → ℕ → Bytes → Server (Option (Bytes × ℕ × ℕ))
  | 0, lineOffset, remainingRound, packet => pure (some (packet, lineOffset, remainingRound))
  | linesLeft + 1, lineOffset, remainingRound, packet =>
      if remainingRound > 0 then do
        match ← readFileLine filepath lineOffset with
        | none => do
            sendError clientFd (ascii "file read error")
            pure none
        | some (lineOffset, line) =>
            if line.length > remainingRound then do
              sendError clientFd (ascii "packetization error")
              pure none
            else
              gatherPacket clientFd filepath linesLeft lineOffset
                (remainingRound - line.length) (packet ++ line)
      else pure (some (packet, lineOffset, remainingRound))

/-- The outer packetization loop: the result of the round and `bytes_processed`. -/
def sendPackets (clientFd : Fd) (filepath : Bytes) (packetization : ℕ) :
    ℕ → ℕ → ℕ → ℕ → Server (Bool × ℕ)
  | 0, _, _, bytesProcessed => pure (true, bytesProcessed)
  | fuel + 1, lineOffset, remainingRound, bytesProcessed =>
      if remainingRound > 0 then do
        match ← gatherPacket clientFd filepath packetization lineOffset remainingRound [] with
        | none => pure (false, bytesProcessed)
        | some (packet, lineOffset, remainingRound) => do
            if ← perform (.sendAll clientFd packet) then
              sendPackets clientFd filepath packetization fuel lineOffset remainingRound
                (u64 (bytesProcessed + packet.length))
            else pure (false, bytesProcessed)
      else pure (true, bytesProcessed)

/-- From the selected number of bytes to the end of `serve_get`. -/
def sendRound (req : Request) (filepath : Bytes) (roundBytes packetization : ℕ) :
    Server (Bool × Request × ℕ) :=
  if roundBytes = 0 then pure (true, req, 0)
  else do
    match ← perform (.openRead filepath) with
    | none => do
        sendError req.clientFd (ascii "cannot open file")
        pure (false, req, 0)
    | some file =>
        if (({ content := file.bytes } : IStream).seekg req.offset).good then do
          let (ok, bytesProcessed) ←
            sendPackets req.clientFd filepath packetization roundBytes req.offset roundBytes 0
          pure (ok, req, bytesProcessed)
        else do
          sendError req.clientFd (ascii "file seek error")
          pure (false, req, 0)

/-- `serve_get` once the header is out. -/
def serveGetBody (req : Request) (filepath : Bytes) (budget : ℕ)
    (allowLongLineOverrun : Bool) (packetization : ℤ) : Server (Bool × Request × ℕ) :=
  if req.offset ≥ req.totalBytes ∨ budget = 0 then pure (true, req, 0)
  else if packetization ≤ 0 then do
    sendError req.clientFd (ascii "invalid packetization")
    pure (false, req, 0)
  else if budget ≥ req.totalBytes - req.offset then
    -- the entire remaining request fits in this scheduling round
    sendRound req filepath (req.totalBytes - req.offset) packetization.toNat
  else do
    let (roundBytes, a14Events) ←
      selectLines filepath allowLongLineOverrun budget budget req.offset 0 req.a14Events
    sendRound { req with a14Events := a14Events } filepath roundBytes packetization.toNat

def serveGet (req : Request) (fileDir : Bytes) (budget : ℕ)
    (allowLongLineOverrun : Bool) (packetization : ℤ) : Server (Bool × Request × ℕ) :=
  if !isValidFilename req.filename then do
    sendError req.clientFd (ascii "invalid filename")
    pure (false, req, 0)
  else do
    let filepath := filePath fileDir req.filename
    if ← fileExists filepath then
      if req.responseSent then
        serveGetBody req filepath budget allowLongLineOverrun packetization
      else do
        sendResponse req.clientFd req.totalBytes
        serveGetBody { req with responseSent := true } filepath budget
          allowLongLineOverrun packetization
    else do
      sendError req.clientFd (ascii "file not found")
      pure (false, req, 0)

/-- `req.filename + ".upload." + std::to_string(req.request_id)`. -/
def stagingName (req : Request) : Bytes :=
  req.filename ++ ascii ".upload." ++ decimalInt req.requestId

/-- `file.close()`, the error line, and failure. -/
def failUpload {α : Type} (clientFd : Fd) (stagingPath : Bytes) (reason : String) :
    Server (Option α) := do
  perform (.closeFile stagingPath)
  sendError clientFd (ascii reason)
  pure none

/-- The first write loop: bytes that came with the header. Returns
`pending_offset`, `bytes_processed` and `remaining_round`. -/
def writePending (clientFd : Fd) (stagingPath : Bytes) (offset : ℕ) (pendingBytes : Bytes) :
    ℕ → ℕ → ℕ → ℕ → Server (Option (ℕ × ℕ × ℕ))
  | 0, pendingOffset, bytesProcessed, remainingRound =>
      pure (some (pendingOffset, bytesProcessed, remainingRound))
  | fuel + 1, pendingOffset, bytesProcessed, remainingRound =>
      if remainingRound > 0 ∧ pendingOffset < pendingBytes.length then do
        let available := pendingBytes.length - pendingOffset
        let chunk := min remainingRound available
        match ← perform (.write stagingPath (offset + bytesProcessed)
            ((pendingBytes.drop pendingOffset).take chunk)) with
        | .bad _ => failUpload clientFd stagingPath "file write error"
        | .good =>
            writePending clientFd stagingPath offset pendingBytes fuel
              (pendingOffset + chunk) (u64 (bytesProcessed + chunk)) (remainingRound - chunk)
      else pure (some (pendingOffset, bytesProcessed, remainingRound))

/-- The second write loop: bytes from the socket. Returns `bytes_processed`. -/
def receiveBody (clientFd : Fd) (stagingPath : Bytes) (offset bufferSize : ℕ) :
    ℕ → ℕ → ℕ → Server (Option ℕ)
  | 0, bytesProcessed, _ => pure (some bytesProcessed)
  | fuel + 1, bytesProcessed, remainingRound =>
      if remainingRound > 0 then do
        match ← perform (.recv clientFd (min bufferSize remainingRound) 5000) with
        | none => failUpload clientFd stagingPath "receive error"
        | some [] => failUpload clientFd stagingPath "incomplete upload"
        | some received =>
            match ← perform (.write stagingPath (offset + bytesProcessed) received) with
            | .bad _ => failUpload clientFd stagingPath "file write error"
            | .good =>
                receiveBody clientFd stagingPath offset bufferSize fuel
                  (u64 (bytesProcessed + received.length)) (remainingRound - received.length)
      else pure (some bytesProcessed)

/-- `serve_put` once the staging file exists. -/
def servePutBody (req : Request) (stagingPath : Bytes) (budget : ℕ) :
    Server (Bool × Request × ℕ) := do
  if ← perform (.openRW stagingPath) then
    if ← perform (.seekp stagingPath req.offset) then do
      let toReceive := min budget (req.totalBytes - req.offset)
      match ← writePending req.clientFd stagingPath req.offset req.pendingBytes
          toReceive req.pendingOffset 0 toReceive with
      | none => pure (false, req, 0)
      | some (pendingOffset, bytesProcessed, remainingRound) =>
          let req := { req with pendingOffset := pendingOffset }
          match ← receiveBody req.clientFd stagingPath req.offset (min 8192 toReceive)
              remainingRound bytesProcessed remainingRound with
          | none => pure (false, req, 0)
          | some bytesProcessed => do
              perform (.closeFile stagingPath)
              pure (true, req, bytesProcessed)
    else do
      let _ ← failUpload (α := Unit) req.clientFd stagingPath "file seek error"
      pure (false, req, 0)
  else do
    sendError req.clientFd (ascii "cannot open file")
    pure (false, req, 0)

/-- The first round of a PUT names its staging file. -/
def Request.withStaging (req : Request) : Request :=
  if req.offset = 0 then { req with stagingFilename := stagingName req } else req

/-- `serve_put` once the staging name is set. -/
def servePutStaged (req : Request) (stagingPath : Bytes) (budget : ℕ) :
    Server (Bool × Request × ℕ) :=
  if req.totalBytes = 0 then do
    -- a zero-byte PUT is valid
    let isOpen ← perform (.create stagingPath)
    pure (isOpen, req, 0)
  else if req.offset = 0 then do
    if ← perform (.create stagingPath) then servePutBody req stagingPath budget
    else do
      sendError req.clientFd (ascii "cannot create file")
      pure (false, req, 0)
  else servePutBody req stagingPath budget

def servePut (req : Request) (fileDir : Bytes) (budget : ℕ) :
    Server (Bool × Request × ℕ) :=
  if !isValidFilename req.filename then do
    sendError req.clientFd (ascii "invalid filename")
    pure (false, req, 0)
  else
    servePutStaged req.withStaging (filePath fileDir req.withStaging.stagingFilename) budget

end LinkScheduling
