import LinkScheduling.Put.Upload

/-!
# A PUT from admission to its end

The rounds of an upload put together. Between two rounds the staging file holds the
first `offset` bytes of the body (`PutWaiting`); the last round renames the staging
file over the final name, and a round that fails removes it. Nothing is assumed of
the answers: the lifecycle `putLife` holds in every run.
-/

namespace LinkScheduling

open Framework

/-- No round has touched the directory yet; `answers` were sent. -/
structure Unstarted (cfg : Config) (request : Request) (answers : List Bytes)
    (log : List Call) : Prop where
  orderly : PutLog cfg request log
  headed : Headed log
  payload_eq : payload log = request.pendingBytes
  rounds : requeues log = 0
  sent : sends log = answers
  unsettled : ∀ call ∈ log, ¬ call.eff.settles

/-- The record of a PUT between two rounds. -/
structure PutWaiting (cfg : Config) (request req : Request) (log : List Call) : Prop where
  same : request.Same req
  op : request.op = .PUT
  valid : isValidFilename request.filename = true
  small : request.totalBytes < 2 ^ 64
  pendingOffset : req.pendingOffset = min req.offset req.pendingBytes.length
  rounds : requeues log ≤ req.offset
  count : req.rounds = requeues log
  deficit : cfg.scheduler.policy = .DRR → req.deficit = 0
  pace : cfg.scheduler.policy = .RR ∨ cfg.scheduler.policy = .DRR →
    req.offset = requeues log * cfg.scheduler.quantum
  stage : req.offset = 0 ∧ Unstarted cfg request [] log ∨
    0 < req.offset ∧ req.offset < request.totalBytes ∧
      req.stagingFilename = stagingName request ∧ Uploaded cfg request req.offset log

/-- Under RR and DRR a request of `total` bytes that is done after `rounds` requeues took
one quantum a round. -/
def Scheduler.Quota (S : Scheduler) (total rounds : ℕ) : Prop :=
  S.policy = .RR ∨ S.policy = .DRR →
    total ≤ (rounds + 1) * S.quantum ∧ (rounds = 0 ∨ rounds * S.quantum < total)

/-- How a PUT ends: with the rename and the second response, with a failed rename and an
error line, or with the removal of the staging file. -/
def PutOver (cfg : Config) (request : Request) : Exit → List Call → Prop
  | .completed, log => ∃ before ok after row, Stored cfg request request.totalBytes before ∧
      log = before ++ ⟨.rename (stagingPath cfg request) (finalPath cfg request), true⟩ ::
        ⟨.sendAll request.clientFd (okLine 0), ok⟩ :: after ∧
      Ending after ∧ ⟨.record row, ()⟩ ∈ after ∧ row.rounds = requeues before + 1 ∧
      cfg.scheduler.Quota request.totalBytes (requeues before)
  | .commitFailed, log => ∃ before reason ok after, Stored cfg request request.totalBytes before ∧
      log = before ++ ⟨.rename (stagingPath cfg request) (finalPath cfg request), false⟩ ::
        ⟨.sendAll request.clientFd (errLine reason), ok⟩ :: after ∧ Ending after
  | .failed, log => ∃ before after, Lost cfg request before ∧
      log = before ++ ⟨.remove (stagingPath cfg request), ()⟩ :: after ∧ Ending after

section Round

variable {cfg : Config} {request : Request} {L : Lifecycle} {log : List Call}

theorem PutWaiting.orderly {req : Request} (h : PutWaiting cfg request req log) :
    PutLog cfg request log := by
  rcases h.stage with ⟨-, h⟩ | ⟨-, -, -, h⟩
  · exact h.orderly
  · exact h.orderly

theorem Unstarted.now {answers : List Bytes} (h : Unstarted cfg request answers log) (t : ℕ) :
    Unstarted cfg request answers (log ++ [⟨.now, t⟩]) := by
  refine ⟨h.orderly.aside trivial, h.headed.append _, ?_, ?_, ?_, unsettled_snoc h.unsettled id⟩
  · rw [h.headed.payload_append]
    simpa [Call.received] using h.payload_eq
  · simpa [Eff.requeued] using h.rounds
  · simpa [Eff.sent] using h.sent

theorem Unstarted.greet (h : Unstarted cfg request [] log) (fd : Fd) (ok : Bool) :
    Unstarted cfg request [okLine 0] (log ++ [⟨.sendAll fd (okLine 0), ok⟩]) := by
  refine ⟨h.orderly.snoc (Or.inl ⟨h.sent, rfl⟩) rfl, h.headed.append _, ?_, ?_, ?_,
    unsettled_snoc h.unsettled id⟩
  · rw [h.headed.payload_append]
    simpa [Call.received] using h.payload_eq
  · simpa [Eff.requeued] using h.rounds
  · simp [Eff.sent, h.sent]

theorem Unstarted.create_proper (h : Unstarted cfg request [okLine 0] log) (ok : Bool) :
    PutLog cfg request (log ++ [⟨.create (stagingPath cfg request), ok⟩]) :=
  h.orderly.snoc ⟨rfl, h.sent⟩ rfl

/-- An empty staging file. -/
theorem Unstarted.create (h : Unstarted cfg request [okLine 0] log) :
    Uploaded cfg request 0 (log ++ [⟨.create (stagingPath cfg request), true⟩]) := by
  have hpay : payload (log ++ [⟨.create (stagingPath cfg request), true⟩]) =
      request.pendingBytes := by
    rw [h.headed.payload_append]
    simpa [Call.received] using h.payload_eq
  refine ⟨⟨h.create_proper true, h.headed.append _, Nat.zero_le _, Nat.zero_le _, ?_, by simp,
    unsettled_snoc h.unsettled id, .empty, staged_create _ _, rfl⟩, ?_, ?_⟩
  · simpa [Eff.sent] using h.sent
  · rw [hpay]
  · rw [hpay, Nat.max_zero]

/-- What a round of a PUT leaves. -/
def PutResult (cfg : Config) (request req : Request) (budget : ℕ)
    (res : Bool × Request × ℕ) (log : List Call) : Prop :=
  if res.1 = true then
    res.2.2 = min budget (request.totalBytes - req.offset) ∧
    res.2.1 = { req with
      stagingFilename := stagingName request
      pendingOffset := min (req.offset + res.2.2) req.pendingBytes.length } ∧
    Uploaded cfg request (req.offset + res.2.2) log
  else res.2.1.stagingFilename = stagingName request ∧ Lost cfg request log

variable (hL : ∀ log, PutLog cfg request log → L.always log)

include hL

theorem servePutBody_uploaded {req : Request} {budget : ℕ} (hsame : request.Same req)
    (hpos : request.totalBytes ≠ 0) (hsmall : request.totalBytes < 2 ^ 64)
    (hstaging : req.stagingFilename = stagingName request)
    (hpending : req.pendingOffset = min req.offset req.pendingBytes.length)
    (h : Uploaded cfg request req.offset log) :
    (servePutBody req (stagingPath cfg request) budget).wp L.contract
      (PutResult cfg request req budget) log := by
  have hfd : req.clientFd = request.clientFd := hsame.clientFd
  have hbytes : req.pendingBytes = request.pendingBytes := hsame.pendingBytes
  have htotal : req.totalBytes = request.totalBytes := hsame.totalBytes
  have hbound := h.bound
  have hfailed : ∀ {log' : List Call} {res : Request × ℕ}, res.1.stagingFilename =
      req.stagingFilename → Lost cfg request log' →
      PutResult cfg request req budget (false, res) log' := by
    intro log' res hres hlost
    exact ⟨hres.trans hstaging, hlost⟩
  simp only [servePutBody, perform, Prog.wp_bind, Prog.wp_perform, hfd]
  refine ⟨⟨hL _ h.orderly, trivial⟩, ?_⟩
  rintro (_ | _) -
  · -- the staging file could not be opened
    obtain ⟨hopen, hunsettled, hsent⟩ := h.toStored.failed
      (show Proper cfg request log ⟨.openRW (stagingPath cfg request), false⟩ from trivial) rfl
    simp only [Bool.false_eq_true, ↓reduceIte, sendError, perform, Prog.wp_bind,
      Prog.wp_perform, Prog.wp_pure]
    exact ⟨⟨hL _ hopen, trivial⟩, fun ok _ => hfailed rfl (hopen.lost hunsettled hsent hpos
      ⟨_, List.mem_append_right _ (List.mem_singleton.mpr rfl), rfl⟩)⟩
  have hopen : Uploaded cfg request req.offset
      (log ++ [⟨.openRW (stagingPath cfg request), true⟩]) := h.aside trivial
  simp only [↓reduceIte, Prog.wp_bind, Prog.wp_perform]
  refine ⟨⟨hL _ hopen.orderly, trivial⟩, ?_⟩
  rintro (_ | _) -
  · -- the seek failed
    simp only [Bool.false_eq_true, ↓reduceIte, Prog.wp_bind]
    exact failUpload_lost hL "file seek error" hopen.toStored trivial rfl hpos
      (fun log' hlost => hfailed rfl hlost)
  have hseek : Uploaded cfg request req.offset
      (log ++ [⟨.openRW (stagingPath cfg request), true⟩] ++
        [⟨.seekp (stagingPath cfg request) req.offset, true⟩]) := hopen.aside trivial
  simp only [↓reduceIte, Prog.wp_bind, hbytes, htotal]
  generalize hreceive : min budget (request.totalBytes - req.offset) = toReceive
  have hwrite := writePending_uploaded hL req.offset hpos hsmall toReceive req.pendingOffset 0 toReceive
    _ le_rfl (by omega) (by rw [hpending, hbytes, Nat.add_zero]) hseek
  -- first what came with the header, then what is still to be received
  refine Prog.wp_mono hwrite ?_
  rintro (_ | ⟨pendingOffset, bytesProcessed, remaining⟩) log₁
  · exact hfailed rfl
  rintro ⟨huploaded, hsum, hpo, hused⟩
  simp only [Prog.wp_bind]
  refine Prog.wp_mono (receiveBody_uploaded hL req.offset _ hpos hsmall remaining bytesProcessed remaining
    log₁ le_rfl (by omega) hused huploaded) ?_
  rintro (_ | total) log₂
  · exact hfailed rfl
  rintro ⟨htotal', hdone⟩
  simp only [Prog.wp_bind, Prog.wp_perform, Prog.wp_pure]
  refine ⟨⟨hL _ hdone.orderly, trivial⟩, fun _ _ => ?_⟩
  have hclose : Uploaded cfg request (req.offset + total)
      (log₂ ++ [⟨.closeFile (stagingPath cfg request), ()⟩]) := hdone.aside trivial
  have hprocessed : total = toReceive := by omega
  subst hprocessed
  refine ⟨hreceive.symm, ?_, hclose⟩
  have hend : pendingOffset = min (req.offset + total) req.pendingBytes.length := by
    rw [hbytes]
    rcases Nat.eq_zero_or_pos remaining with hzero | hmore
    · omega
    · have := hused hmore
      omega
  rw [← hstaging, ← hend, hfd, htotal, hbytes]

/-- The first round of a PUT. -/
theorem servePut_first {req : Request} {budget : ℕ} (hsame : request.Same req)
    (hvalid : isValidFilename request.filename = true) (hsmall : request.totalBytes < 2 ^ 64)
    (hzero : req.offset = 0) (hpending : req.pendingOffset = 0)
    (h : Unstarted cfg request [okLine 0] log) :
    (servePut req cfg.fileDir budget).wp L.contract (PutResult cfg request req budget) log := by
  have htotal : req.totalBytes = request.totalBytes := hsame.totalBytes
  have hname : stagingName req = stagingName request := by
    unfold stagingName
    rw [hsame.filename, hsame.requestId]
  have hstaging : req.withStaging = { req with stagingFilename := stagingName request } := by
    unfold Request.withStaging
    rw [if_pos hzero, hname]
  have hvalid' : ¬ (!isValidFilename req.filename) = true := by
    rw [hsame.filename, hvalid]
    decide
  unfold servePut
  rw [if_neg hvalid', hstaging]
  change (servePutStaged { req with stagingFilename := stagingName request }
    (stagingPath cfg request) budget).wp L.contract _ log
  unfold servePutStaged
  split
  · -- an empty upload
    rename_i hempty
    have hempty : request.totalBytes = 0 := htotal.symm.trans hempty
    simp only [perform, Prog.wp_bind, Prog.wp_perform, Prog.wp_pure]
    refine ⟨⟨hL _ h.orderly, trivial⟩, ?_⟩
    rintro (_ | _) -
    · refine ⟨rfl, h.create_proper false, unsettled_snoc h.unsettled id,
        ⟨_, List.mem_append_right _ (List.mem_singleton.mpr rfl), rfl⟩, ?_⟩
      rw [if_pos hempty]
      simpa [Lifecycle.contract, Eff.sent] using h.sent
    · refine ⟨?_, ?_, ?_⟩
      · change 0 = min budget (request.totalBytes - req.offset)
        omega
      · simp [hzero, hpending]
      · change Uploaded cfg request (req.offset + 0) _
        rw [hzero]
        exact h.create
  · rename_i hpos
    have hpos : request.totalBytes ≠ 0 := fun heq => hpos (htotal.trans heq)
    simp only [perform, Prog.wp_bind, Prog.wp_perform]
    refine ⟨⟨hL _ h.orderly, trivial⟩, ?_⟩
    rintro (_ | _) -
    · simp only [Bool.false_eq_true, ↓reduceIte, sendError, perform, Prog.wp_bind,
        Prog.wp_perform, Prog.wp_pure]
      refine ⟨⟨hL _ (h.create_proper false), trivial⟩, fun ok _ => ⟨rfl, ?_⟩⟩
      refine (h.create_proper false).lost (unsettled_snoc h.unsettled id) ?_ hpos
        ⟨_, List.mem_append_right _ (List.mem_singleton.mpr rfl), rfl⟩
      simpa [Eff.sent] using h.sent
    · have hcreated : Uploaded cfg request req.offset
          (log ++ [⟨.create (stagingPath cfg request), true⟩]) := by
        rw [hzero]
        exact h.create
      have hsame' : request.Same { req with stagingFilename := stagingName request } :=
        hsame.trans ⟨rfl, rfl, rfl, rfl, rfl, rfl⟩
      have hpending' : req.pendingOffset = min req.offset req.pendingBytes.length := by omega
      exact servePutBody_uploaded hL hsame' hpos hsmall rfl hpending' hcreated

/-- A later round of a PUT. -/
theorem servePut_later {req : Request} {budget : ℕ} (hsame : request.Same req)
    (hvalid : isValidFilename request.filename = true) (hsmall : request.totalBytes < 2 ^ 64)
    (hoff : 0 < req.offset) (hstaging : req.stagingFilename = stagingName request)
    (hpending : req.pendingOffset = min req.offset req.pendingBytes.length)
    (h : Uploaded cfg request req.offset log) :
    (servePut req cfg.fileDir budget).wp L.contract (PutResult cfg request req budget) log := by
  have htotal : req.totalBytes = request.totalBytes := hsame.totalBytes
  have hbound := h.bound
  have hvalid' : ¬ (!isValidFilename req.filename) = true := by
    rw [hsame.filename, hvalid]
    decide
  have hkeep : req.withStaging = req := if_neg (by omega)
  unfold servePut
  rw [if_neg hvalid', hkeep, hstaging]
  change (servePutStaged req (stagingPath cfg request) budget).wp L.contract _ log
  unfold servePutStaged
  rw [if_neg (by omega), if_neg (by omega)]
  exact servePutBody_uploaded hL hsame (by omega) hsmall hstaging hpending h

end Round

/-! ## The lifecycle -/

def putLife (cfg : Config) (request : Request) : Lifecycle where
  allowed _ _ := True
  always := PutLog cfg request
  queued := PutWaiting cfg request
  ended := PutOver cfg request

section Life

variable {cfg : Config} {request : Request} {log : List Call}

theorem now_calls {F : List Call → Prop} (hnow : ∀ log t, F log → F (log ++ [⟨.now, t⟩])) :
    ∀ {calls : List Call}, (∀ call ∈ calls, call.eff = .now) → F log → F (log ++ calls) := by
  intro calls
  induction calls using List.reverseRecOn with
  | nil => simp
  | append_singleton calls call ih =>
      intro hcalls h
      have hlast := hcalls call (by simp)
      rcases call with ⟨e, r⟩
      cases hlast
      rw [← List.append_assoc]
      exact hnow _ r (ih (fun c hc => hcalls c (by simp [hc])) h)

theorem PutLog.ending (h : PutLog cfg request log) :
    ∀ {calls : List Call}, Ending calls → PutLog cfg request (log ++ calls) := by
  intro calls
  induction calls using List.reverseRecOn with
  | nil => exact fun _ => by simpa using h
  | append_singleton calls call ih =>
      intro hcalls
      have hlast := hcalls call (by simp)
      rw [← List.append_assoc]
      refine (ih fun c hc => hcalls c (by simp [hc])).snoc ?_ ?_
      · rcases call with ⟨e, r⟩
        cases e <;> first | exact hlast.elim | trivial
      · rcases call with ⟨e, r⟩
        cases e <;> first | exact hlast.elim | rfl

theorem stagingName_ne_nil (req : Request) : stagingName req ≠ [] := by
  unfold stagingName
  simp [ascii]

theorem serveRound_put {budget : ℕ} {req : Request} (h : req.op = .PUT) :
    serveRound cfg budget req = (do
      if req.offset = 0 then sendResponse req.clientFd 0
      servePut req cfg.fileDir budget) := by
  unfold serveRound
  rw [h]

/-- The rename and the second response. -/
theorem commitRequest_put {later : Request} (hsame : request.Same later)
    (hstaging : later.stagingFilename = stagingName request)
    (hcount : later.rounds = requeues log + 1)
    (hquota : cfg.scheduler.Quota request.totalBytes (requeues log))
    (h : Uploaded cfg request request.totalBytes log) :
    (commitRequest cfg later).wp (putLife cfg request).contract
      (fun _ => PutLog cfg request) log := by
  have hfd : later.clientFd = request.clientFd := hsame.clientFd
  have hsrc : filePath cfg.fileDir later.stagingFilename = stagingPath cfg request := by
    rw [hstaging]
    rfl
  have hdst : filePath cfg.fileDir later.filename = finalPath cfg request := by
    rw [hsame.filename]
    rfl
  have hrename : ∀ ok, PutLog cfg request
      (log ++ [⟨.rename (stagingPath cfg request) (finalPath cfg request), ok⟩]) := fun ok =>
    h.orderly.snoc ⟨rfl, rfl, h.sent, h.reach, h.staged⟩ rfl
  have hsent : ∀ ok, sends
      (log ++ [⟨.rename (stagingPath cfg request) (finalPath cfg request), ok⟩]) =
        [okLine 0] := fun ok => by simp [Eff.sent, h.sent]
  unfold commitRequest
  rw [hsrc, hdst]
  simp only [perform, Prog.wp_bind, Prog.wp_perform]
  refine ⟨⟨h.orderly, trivial⟩, ?_⟩
  rintro (_ | _) -
  · -- the rename failed: an error line, no row, and the staging file stays
    have hanswer : ∀ ok, PutLog cfg request
        (log ++ [⟨.rename (stagingPath cfg request) (finalPath cfg request), false⟩] ++
          [⟨.sendAll later.clientFd (errLine (ascii "cannot commit file")), ok⟩]) := fun ok =>
      (hrename false).snoc (Or.inr ⟨hsent false, Or.inl ⟨_, rfl⟩⟩) rfl
    simp only [Bool.false_eq_true, ↓reduceIte, sendError, perform, Prog.wp_bind,
      Prog.wp_perform, Prog.wp_pure]
    have hend : ∀ ok calls, Ending calls → PutLog cfg request
        (log ++ [⟨.rename (stagingPath cfg request) (finalPath cfg request), false⟩] ++
          [⟨.sendAll later.clientFd (errLine (ascii "cannot commit file")), ok⟩] ++ calls) :=
      fun ok calls hcalls => (hanswer ok).ending hcalls
    refine ⟨⟨hrename false, trivial⟩, fun ok _ => ⟨⟨hanswer ok, log,
      ascii "cannot commit file", ok, [⟨.complete .commitFailed, ()⟩], h.toStored, ?_, ?_⟩,
      fun _ _ => ⟨⟨hend ok [⟨.complete .commitFailed, ()⟩] (by simp [Ending, Eff.ending]),
        trivial⟩, fun _ _ => ?_⟩⟩⟩
    · simp [Lifecycle.contract, hfd]
    · simp [Ending, Eff.ending]
    · have := hend ok [⟨.complete .commitFailed, ()⟩, ⟨.closeSocket later.clientFd, ()⟩]
        (by simp [Ending, Eff.ending])
      simpa [Lifecycle.contract] using this
  · have hanswer : ∀ ok, PutLog cfg request
        (log ++ [⟨.rename (stagingPath cfg request) (finalPath cfg request), true⟩] ++
          [⟨.sendAll later.clientFd (okLine 0), ok⟩]) := fun ok =>
      (hrename true).snoc (Or.inr ⟨hsent true, Or.inr ⟨rfl, by simp⟩⟩) rfl
    simp only [↓reduceIte, sendResponse, perform, Prog.wp_bind, Prog.wp_perform, Prog.wp_pure]
    refine ⟨⟨hrename true, trivial⟩, fun ok _ => finishRequest_rule (fun calls hcalls => ?_) ?_⟩
    · exact (hanswer ok).ending hcalls
    · rintro calls ⟨hcalls, finish, hrow⟩
      refine ⟨log, ok, calls, { later with finishNs := finish }, h.toStored, ?_, hcalls, hrow,
        hcount, hquota⟩
      simp [Lifecycle.contract, hfd]

/-- The end of a failed upload. -/
theorem abandonRequest_put {req : Request} (hstaging : req.stagingFilename = stagingName request)
    (h : Lost cfg request log) :
    (abandonRequest cfg req).wp (putLife cfg request).contract
      (fun _ => PutLog cfg request) log := by
  have hne : req.stagingFilename ≠ [] := by
    rw [hstaging]
    exact stagingName_ne_nil request
  have hpath : filePath cfg.fileDir req.stagingFilename = stagingPath cfg request := by
    rw [hstaging]
    rfl
  have hremove : PutLog cfg request (log ++ [⟨.remove (stagingPath cfg request), ()⟩]) :=
    h.orderly.snoc rfl rfl
  unfold abandonRequest
  rw [if_pos hne, hpath]
  simp only [perform, Prog.wp_bind, Prog.wp_perform]
  have hend : ∀ calls, Ending calls →
      PutLog cfg request (log ++ [⟨.remove (stagingPath cfg request), ()⟩] ++ calls) :=
    fun calls hcalls => hremove.ending hcalls
  refine ⟨⟨h.orderly, trivial⟩, fun _ _ => ⟨⟨hremove, log, [⟨.complete .failed, ()⟩], h, ?_, ?_⟩,
    fun _ _ => ⟨⟨hend [⟨.complete .failed, ()⟩] ?_, trivial⟩, fun _ _ => ?_⟩⟩⟩
  · simp [Lifecycle.contract]
  · simp [Ending, Eff.ending]
  · simp [Ending, Eff.ending]
  · have := hend [⟨.complete .failed, ()⟩, ⟨.closeSocket req.clientFd, ()⟩]
      (by simp [Ending, Eff.ending])
    simpa [Lifecycle.contract] using this

/-- The budget of a round of a PUT: at least one byte, and under RR and DRR the quantum
unless less is left. -/
theorem getBudget_put {S : Scheduler} {req : Request} (hmore : req.offset < req.totalBytes)
    (hdeficit : S.policy = .DRR → req.deficit = 0) :
    0 < (S.getBudget req).2 ∧ (S.getBudget req).2 ≤ req.totalBytes - req.offset ∧
      (S.policy = .DRR → (S.getBudget req).1.deficit = S.quantum) ∧
      (S.policy = .RR ∨ S.policy = .DRR →
        (S.getBudget req).2 = min (req.totalBytes - req.offset) S.quantum) := by
  have hQ := S.quantum_pos
  have hu : u64 S.quantum = S.quantum := u64_of_lt S.quantum_lt
  unfold Scheduler.getBudget
  simp only [Request.remaining_eq]
  rw [if_neg (by omega)]
  cases hpolicy : S.policy with
  | DRR =>
      have hpos := hQ (Or.inr hpolicy)
      simp only [hdeficit hpolicy, Nat.zero_add, hu]
      exact ⟨by omega, by omega, fun _ => trivial, fun _ => trivial⟩
  | RR =>
      have hpos := hQ (Or.inl hpolicy)
      simp only [reduceCtorEq, false_implies, or_false, forall_const, and_true]
      omega
  | _ =>
      simp only [reduceCtorEq, false_implies, or_false, and_true]
      omega

/-- The number of rounds does not overflow. -/
theorem PutWaiting.nextRounds {req : Request} (h : PutWaiting cfg request req log) {rounds : ℕ}
    (hrounds : rounds = u64 (req.rounds + 1)) : rounds = requeues log + 1 := by
  have hlt := h.orderly.rounds
  have hsmall := h.small
  rw [hrounds, h.count]
  exact u64_of_lt (by omega)

/-- A successful round that leaves bytes to come puts a waiting record back. -/
theorem PutWaiting.next {req later : Request} {log' : List Call} {start m : ℕ}
    (h : PutWaiting cfg request req log) (hrounds : requeues log' = requeues log)
    (hm : m = min (cfg.scheduler.getBudget req).2 (request.totalBytes - req.offset))
    (hmore : req.offset + m < request.totalBytes)
    (hup : Uploaded cfg request (req.offset + m) log')
    (hacc : Accounted cfg.scheduler { cfg.scheduler.started req start with
      stagingFilename := stagingName request
      pendingOffset := min (req.offset + m) req.pendingBytes.length } m later) :
    PutWaiting cfg request later (log' ++ [⟨.requeue later, true⟩]) := by
  have htotal : req.totalBytes = request.totalBytes := h.same.totalBytes
  have hleft : req.offset < req.totalBytes := by omega
  obtain ⟨hpos, hle, hdrr, hbudget⟩ := getBudget_put hleft h.deficit
  have hoff : later.offset = req.offset + m := hacc.offset
  have hbytes : later.pendingBytes = req.pendingBytes := hacc.same.pendingBytes
  have hreq : requeues (log' ++ [⟨.requeue later, true⟩]) = requeues log + 1 := by
    simp [hrounds, Eff.requeued]
  have hold := h.rounds
  have hlog : PutLog cfg request (log' ++ [⟨.requeue later, true⟩]) := by
    constructor
    · exact hup.orderly.trail.snoc trivial
    · rw [hreq]
      omega
  obtain ⟨file, hfile, hstored⟩ := hup.staged
  have hpay : payload (log' ++ [⟨.requeue later, true⟩]) = payload log' := by
    rw [hup.headed.payload_append]
    simp [Call.received]
  have hsame : req.Same later :=
    ⟨hacc.same.requestId, hacc.same.clientFd, hacc.same.op, hacc.same.filename,
      hacc.same.totalBytes, hacc.same.pendingBytes⟩
  refine ⟨h.same.trans hsame, h.op, h.valid, h.small, ?_, ?_, ?_, ?_, ?_,
    Or.inr ⟨?_, ?_, hacc.stagingFilename, ?_⟩⟩
  · rw [hoff, hbytes]
    exact hacc.pendingOffset
  · rw [hreq, hoff]
    omega
  · rw [hreq]
    exact h.nextRounds hacc.rounds
  · intro hpolicy
    have hd : later.deficit = (cfg.scheduler.getBudget req).1.deficit - m := hacc.deficit hpolicy
    have := hdrr hpolicy
    have := hbudget (Or.inr hpolicy)
    omega
  · intro hpolicy
    have hpace := h.pace hpolicy
    have := hbudget hpolicy
    rw [hreq, hoff, Nat.succ_mul]
    omega
  · omega
  · omega
  · rw [hoff]
    refine ⟨⟨hlog, hup.headed.append _, hup.bound, ?_, ?_, List.mem_append_left _ hup.created,
      unsettled_snoc hup.unsettled id, file, hfile.unchanged id, ?_⟩, ?_, ?_⟩
    · rw [hpay]
      exact hup.reach
    · simpa [Eff.sent] using hup.sent
    · rw [hpay]
      exact hstored
    · rw [hpay]
      exact hup.leads
    · rw [hpay]
      exact hup.length

/-- A round that processes the rest ends a request that took a quantum a round. -/
theorem PutWaiting.quota {req : Request} {n : ℕ} (h : PutWaiting cfg request req log)
    (hn : n = min (cfg.scheduler.getBudget req).2 (request.totalBytes - req.offset))
    (hall : req.offset + n = request.totalBytes) :
    cfg.scheduler.Quota request.totalBytes (requeues log) := by
  intro hpolicy
  have hpace := h.pace hpolicy
  have htotal : req.totalBytes = request.totalBytes := h.same.totalBytes
  rcases Nat.eq_or_lt_of_le (Nat.le.intro hall) with hzero | hmore
  · -- an empty upload
    rcases h.stage with ⟨hoff, hfresh⟩ | ⟨-, hlt, -⟩
    · rw [← hzero, hoff]
      exact ⟨Nat.zero_le _, Or.inl hfresh.rounds⟩
    · omega
  · have hleft : req.offset < req.totalBytes := by omega
    obtain ⟨-, -, -, hbudget⟩ := getBudget_put hleft h.deficit
    have := hbudget hpolicy
    rw [Nat.succ_mul, ← hpace]
    exact ⟨by omega, Or.inr hmore⟩

/-- A waiting record as its next round starts with it. -/
theorem PutWaiting.start {req : Request} {calls : List Call} (h : PutWaiting cfg request req log)
    (hcalls : ∀ call ∈ calls, call.eff = .now) :
    req.offset = 0 ∧ Unstarted cfg request [] (log ++ calls) ∨
      0 < req.offset ∧ req.offset < request.totalBytes ∧
        req.stagingFilename = stagingName request ∧
        Uploaded cfg request req.offset (log ++ calls) := by
  rcases h.stage with ⟨hzero, hfresh⟩ | ⟨hoff, hmore, hstaging, hup⟩
  · exact Or.inl ⟨hzero, now_calls (fun _ t h => h.now t) hcalls hfresh⟩
  · have hnow : ∀ log t, Uploaded cfg request req.offset log →
        Uploaded cfg request req.offset (log ++ [⟨.now, t⟩]) := fun log t h =>
      h.aside trivial
    exact Or.inr ⟨hoff, hmore, hstaging, now_calls hnow hcalls hup⟩

/-- The serving of a round of a PUT, with the first response. -/
theorem serveRound_result {req : Request} {calls : List Call} {start : ℕ}
    (h : PutWaiting cfg request req log) (hcalls : ∀ call ∈ calls, call.eff = .now) :
    (serveRound cfg (cfg.scheduler.getBudget req).2 (cfg.scheduler.started req start)).wp
      (putLife cfg request).contract
      (PutResult cfg request (cfg.scheduler.started req start) (cfg.scheduler.getBudget req).2)
      (log ++ calls) := by
  have hL : ∀ log, PutLog cfg request log → (putLife cfg request).always log := fun _ h => h
  have hsame : request.Same (cfg.scheduler.started req start) :=
    h.same.trans ⟨rfl, rfl, rfl, rfl, rfl, rfl⟩
  have hop : (cfg.scheduler.started req start).op = .PUT := h.same.op.trans h.op
  have hpending := h.pendingOffset
  rw [serveRound_put hop]
  rcases h.start hcalls with ⟨hzero, hfresh⟩ | ⟨hoff, hmore, hstaging, hup⟩
  · have hzero' : (cfg.scheduler.started req start).offset = 0 := hzero
    have hpending' : (cfg.scheduler.started req start).pendingOffset = 0 := by
      change req.pendingOffset = 0
      omega
    rw [if_pos hzero']
    simp only [sendResponse, perform, Prog.wp_bind, Prog.wp_perform, Prog.wp_pure]
    refine ⟨⟨hfresh.orderly, trivial⟩, fun ok _ => ?_⟩
    exact servePut_first hL hsame h.valid h.small hzero' hpending' (hfresh.greet _ ok)
  · have hoff' : (cfg.scheduler.started req start).offset ≠ 0 := Nat.ne_of_gt hoff
    rw [if_neg hoff']
    exact servePut_later hL hsame h.valid h.small hoff hstaging hpending hup

theorem serveRound_requeues {budget : ℕ} {req : Request} (hop : req.op = .PUT) :
    (serveRound cfg budget req).Only (fun e => e.requeued = 0) (fun _ => True) := by
  have hput : (servePut req cfg.fileDir budget).Only (fun e => e.requeued = 0)
      (fun _ => True) := by
    refine servePut_only.mono (fun e he => ?_) (fun _ _ => trivial)
    cases e <;> first | rfl | exact he.elim
  rw [serveRound_put hop]
  split
  · simpa [Eff.requeued] using hput
  · exact hput

/-- **One round of a PUT.** From a waiting record a worker pass ends the request or puts
a waiting record back into the queue. -/
theorem putRound {req : Request} (h : PutWaiting cfg request req log) :
    (workerRound cfg (cfg.scheduler.decision req)).wp (putLife cfg request).contract
      (fun _ => PutLog cfg request) log := by
  have htotal : req.totalBytes = request.totalBytes := h.same.totalBytes
  have hsmall := h.small
  have hbound : req.offset ≤ request.totalBytes := by
    rcases h.stage with ⟨hzero, -⟩ | ⟨-, hmore, -⟩ <;> omega
  refine workerRound_rule h.orderly fun start calls hcalls => ?_
  have hop : (cfg.scheduler.started req start).op = .PUT := h.same.op.trans h.op
  unfold dispatchRound
  rw [Prog.wp_bind]
  refine Prog.wp_mono (footprint_rule (serveRound_requeues hop)
    (serveRound_result h hcalls)) ?_
  rintro ⟨success, later, n⟩ log' ⟨hres, made, rfl, hmade⟩
  have hrounds : requeues (log ++ calls ++ made) = requeues log := by
    simp [(now_quiet hcalls).2, requeues_eq_zero hmade]
  cases success with
  | false => exact abandonRequest_put hres.1 hres.2
  | true =>
      obtain ⟨hn, hreq, hup⟩ := hres
      simp only at hn hreq hup
      change n = min _ (request.totalBytes - req.offset) at hn
      subst hreq
      refine settleRound_rule (m := n) ?_ ?_ ?_ hup.orderly ?_ ?_ ?_
      · change min n (req.totalBytes - req.offset) = n
        omega
      · change req.offset ≤ req.totalBytes
        omega
      · change req.totalBytes < 2 ^ 64
        omega
      · intro hmore later hacc
        have hnext := h.next hrounds hn (by rw [← htotal]; exact hmore) hup hacc
        exact ⟨hnext, hnext.orderly⟩
      · intro hall _ later hacc
        have hall : req.offset + n = request.totalBytes := by
          rw [← htotal]
          exact hall
        refine commitRequest_put (h.same.trans ?_) hacc.stagingFilename ?_ ?_ (hall ▸ hup)
        · exact ⟨hacc.same.requestId, hacc.same.clientFd, hacc.same.op, hacc.same.filename,
            hacc.same.totalBytes, hacc.same.pendingBytes⟩
        · rw [hrounds]
          exact h.nextRounds hacc.rounds
        · rw [hrounds]
          exact h.quota hn hall
      · intro _ hne
        exact absurd hop hne

theorem putWaiting_of_admissible (h : Admissible cfg request log) (hput : request.op = .PUT) :
    PutWaiting cfg request request (log ++ [⟨.push request, true⟩]) := by
  obtain ⟨header, base, hheader, hreceived, hparse, hop, -, htotal⟩ := h.header
  have hfresh := h.fresh
  have hsmall : request.totalBytes < 2 ^ 64 := by
    have hwords := parseRequestHeader_words hparse
    rw [Request.HeaderWords, hop, hput] at hwords
    obtain ⟨-, -, -, -, -, -, hsmall⟩ := hwords
    rwa [← htotal hput]
  have hcalls : ∀ call ∈ log ++ [⟨.push request, true⟩],
      (∀ before, Proper cfg request before call) ∧ ¬ call.eff.settles := by
    rintro ⟨e, r⟩ hmem
    rcases List.mem_append.mp hmem with hmem | hmem
    · have hcall := h.calls _ hmem
      cases e <;> first | exact hcall.elim | exact ⟨fun _ => trivial, id⟩
    · cases List.mem_singleton.mp hmem
      exact ⟨fun _ => trivial, id⟩
  have hreq : requeues (log ++ [⟨.push request, true⟩]) = 0 := by
    simp [h.requeues, Eff.requeued]
  have hrec : received (log ++ [⟨.push request, true⟩]) = header ++ request.pendingBytes := by
    simpa [Call.received] using hreceived
  have hheaded : Headed (log ++ [⟨.push request, true⟩]) := by
    obtain ⟨text, -, rfl⟩ := hheader
    unfold Headed
    rw [hrec]
    simp
  have hlog : PutLog cfg request (log ++ [⟨.push request, true⟩]) := by
    constructor
    · intro before call after heq
      exact (hcalls call (by rw [heq]; simp)).1 before
    · rw [hreq]
      exact Nat.lt_of_lt_of_le Nat.zero_lt_one (Nat.le_max_left _ _)
  have hsent : sends (log ++ [⟨.push request, true⟩]) = [] := by
    simp [Eff.sent, h.sends]
  refine ⟨.refl _, hput, h.valid, hsmall, ?_, ?_, ?_,
    fun _ => hfresh.deficit, fun _ => ?_, Or.inl ⟨hfresh.offset, hlog, hheaded,
      payload_of_header hheader hrec, hreq, hsent, fun call hmem => (hcalls call hmem).2⟩⟩
  · rw [hfresh.pendingOffset, hfresh.offset, Nat.zero_min]
  · rw [hreq]
    exact Nat.zero_le _
  · rw [hreq, hfresh.rounds]
  · rw [hreq, hfresh.offset, Nat.zero_mul]

theorem PutOver.close {exit : Exit} {fd : Fd} (h : PutOver cfg request exit log) :
    PutOver cfg request exit (log ++ [⟨.closeSocket fd, ()⟩]) := by
  have hclose : (Eff.closeSocket fd).ending := trivial
  cases exit with
  | completed =>
      obtain ⟨before, ok, after, row, hstored, rfl, hend, hrow, hcount, hquota⟩ := h
      exact ⟨before, ok, after ++ [⟨.closeSocket fd, ()⟩], row, hstored, by simp,
        hend.snoc hclose, List.mem_append_left _ hrow, hcount, hquota⟩
  | commitFailed =>
      obtain ⟨before, reason, ok, after, hstored, rfl, hend⟩ := h
      exact ⟨before, reason, ok, after ++ [⟨.closeSocket fd, ()⟩], hstored, by simp,
        hend.snoc hclose⟩
  | failed =>
      obtain ⟨before, after, hlost, rfl, hend⟩ := h
      exact ⟨before, after ++ [⟨.closeSocket fd, ()⟩], hlost, by simp, hend.snoc hclose⟩

/-- What a completed PUT sent, and that it renamed. -/
theorem PutOver.sends_completed (h : PutOver cfg request .completed log) :
    sends log = [okLine 0, okLine 0] ∧
      ⟨.rename (stagingPath cfg request) (finalPath cfg request), true⟩ ∈ log := by
  obtain ⟨before, ok, after, row, hstored, rfl, hend, -⟩ := h
  exact ⟨by simp [Eff.sent, hstored.sent, hend.sends], by simp⟩

theorem putLife_soundFor (hput : request.op = .PUT) :
    (putLife cfg request).SoundFor cfg request where
  enter _ hadm _ := ⟨(putWaiting_of_admissible hadm hput).orderly, putWaiting_of_admissible hadm hput⟩
  round _ _ _ h := putRound h
  close _ _ h := h.close

end Life

/-- What the lifecycle of a PUT says in every run. -/
theorem Sys.run_putLife {P W : ℕ} {cfg : Config} {dir : Directory} {t : Sys P W}
    {A : Sys P W → Label P W → Prop} {request : Request} (hput : request.op = .PUT)
    (hrun : RunWhere cfg A (init P W dir) t) (hmem : request ∈ t.admitted) :
    (putLife cfg request).HoldsFor request t :=
  Lifecycle.run_holdsFor (putLife_soundFor hput) (hrun.mono fun _ _ _ _ _ => trivial) hmem

end LinkScheduling
