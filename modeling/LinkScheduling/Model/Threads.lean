import LinkScheduling.Model.Scheduling
import LinkScheduling.Model.Server

/-!
# The thread bodies of `main.cpp`

One pass of the loops of `worker_thread` and `parser_thread`: what a worker
does with a scheduling decision and what a parser does with a connection.
-/

namespace LinkScheduling

open Framework

/-- What `main` passes to the threads after its argument checks. The file
directory comes from `argv`, so it holds no NUL byte. -/
structure Config where
  scheduler : Scheduler
  fileDir : Bytes
  packetization : ℤ
  fileDir_cstr : (0 : UInt8) ∉ fileDir
  packetization_pos : 0 < packetization

/-- The end of a completed request: `finish_ns`, the metrics row, `complete` and
the socket. -/
def finishRequest (req : Request) : Server Unit := do
  let finishNs ← perform .now
  perform (.record { req with finishNs := finishNs })
  perform (.complete .completed)
  perform (.closeSocket req.clientFd)

/-- The `!success` branch of `worker_thread`. -/
def abandonRequest (cfg : Config) (req : Request) : Server Unit := do
  if req.stagingFilename ≠ [] then
    perform (.remove (filePath cfg.fileDir req.stagingFilename))
  perform (.complete .failed)
  perform (.closeSocket req.clientFd)

/-- The end of the last round of a PUT: rename the staging file and answer. -/
def commitRequest (cfg : Config) (req : Request) : Server Unit := do
  if ← perform (.rename (filePath cfg.fileDir req.stagingFilename)
      (filePath cfg.fileDir req.filename)) then do
    sendResponse req.clientFd 0
    finishRequest req
  else do
    sendError req.clientFd (ascii "cannot commit file")
    perform (.complete .commitFailed)
    perform (.closeSocket req.clientFd)

/-- `worker_thread` after a successful round. -/
def settleRound (cfg : Config) (budget : ℕ) (req : Request) (bytesProcessed : ℕ) :
    Server Unit :=
  let req := cfg.scheduler.account req bytesProcessed
  if cfg.scheduler.shouldRequeue req then do
    let req :=
      if cfg.scheduler.policy = .RR ∧ req.op = .GET ∧ bytesProcessed < budget then
        { req with forfeitedBytes := u64 (req.forfeitedBytes + (budget - bytesProcessed)) }
      else req
    if ← perform (.requeue req) then pure ()
    else perform (.closeSocket req.clientFd)
  else if req.op = .PUT then commitRequest cfg req
  else finishRequest req

/-- The dispatch on `req.op` in `worker_thread`. -/
def serveRound (cfg : Config) (budget : ℕ) (req : Request) : Server (Bool × Request × ℕ) :=
  match req.op with
  | .GET =>
      serveGet req cfg.fileDir budget (cfg.scheduler.policy = .RR) cfg.packetization
  | .PUT => do
      if req.offset = 0 then sendResponse req.clientFd 0
      servePut req cfg.fileDir budget
  | .HEALTH => pure (false, req, 0)

/-- The first round of a request stamps `start_ns`. -/
def stampStart (req : Request) : Server Request :=
  if req.startNs = 0 then do
    let startNs ← perform .now
    pure { req with startNs := startNs }
  else pure req

/-- Serve the round, then account for it or drop the request. -/
def dispatchRound (cfg : Config) (budget : ℕ) (req : Request) : Server Unit := do
  let (success, req, bytesProcessed) ← serveRound cfg budget req
  if success then settleRound cfg budget req bytesProcessed
  else abandonRequest cfg req

/-- One pass of the loop of `worker_thread`, from the decision on. -/
def workerRound (cfg : Config) (decision : ScheduleDecision) : Server Unit := do
  let req ← stampStart decision.request
  dispatchRound cfg decision.budget req

/-- `send_error` and `close_socket`, the common exit of `parser_thread`. -/
def rejectClient (fd : Fd) (reason : Bytes) : Server Unit := do
  sendError fd reason
  perform (.closeSocket fd)

/-- Stamping and pushing an accepted request. -/
def admitRequest (fd : Fd) (req : Request) : Server Unit := do
  let requestId ← perform .fetchId
  let arrivalNs ← perform .now
  if ← perform (.push { req with requestId := requestId, arrivalNs := arrivalNs }) then pure ()
  else rejectClient fd (ascii "server shutting down")

/-- One pass of the loop of `parser_thread`. The `catch` around `get_file_size`
is left out: that function throws nothing. -/
def parserClient (cfg : Config) (fd : Fd) : Server Unit := do
  let (header, leftover) ← readHeaderLine fd 1000
  if header.isEmpty then rejectClient fd (ascii "timeout or invalid request")
  else match parseRequestHeader header fd with
  | .error text => rejectClient fd text
  | .ok req =>
      let req := { req with pendingBytes := leftover }
      if req.op = .HEALTH then do
        let depth ← perform .queueSize
        sendResponse fd depth
        perform (.closeSocket fd)
      else if !isValidFilename req.filename then rejectClient fd (ascii "invalid filename")
      else if req.op = .GET then do
        let path := filePath cfg.fileDir req.filename
        if ← fileExists path then do
          let totalBytes ← getFileSize path
          admitRequest fd { req with totalBytes := totalBytes }
        else rejectClient fd (ascii "file not found")
      else admitRequest fd req

end LinkScheduling
