import LinkScheduling.Metatheory.Reading
import LinkScheduling.Model.System

/-!
# What the thread bodies call

Which calls the rounds of a GET and of a PUT may make, and the discipline every
worker and every parser follows whatever the answers are: a worker releases the
request it popped exactly once, by `requeue` or `complete`, records one metrics
row exactly when it completes it, and touches only its own connection; a parser
pushes at most one request and stops there when the push succeeds.
-/

namespace LinkScheduling

open Framework

/-- `b` is a later record of the request `a`. -/
structure Request.Same (a b : Request) : Prop where
  requestId : b.requestId = a.requestId
  clientFd : b.clientFd = a.clientFd
  op : b.op = a.op
  filename : b.filename = a.filename
  totalBytes : b.totalBytes = a.totalBytes
  pendingBytes : b.pendingBytes = a.pendingBytes

theorem Request.Same.refl (a : Request) : a.Same a := ⟨rfl, rfl, rfl, rfl, rfl, rfl⟩

theorem Request.Same.trans {a b c : Request} (h : a.Same b) (h' : b.Same c) : a.Same c :=
  ⟨h'.1.trans h.1, h'.2.trans h.2, h'.3.trans h.3, h'.4.trans h.4, h'.5.trans h.5,
    h'.6.trans h.6⟩

/-! ## The calls of one round -/

/-- Calls of a GET round. -/
def Eff.getCall (fd : Fd) (path : Bytes) : Eff → Prop
  | .stat p => p = path
  | .openRead p => p = path
  | .sendAll f _ => f = fd
  | _ => False

/-- Calls of a PUT round. -/
def Eff.putCall (fd : Fd) (path : Bytes) : Eff → Prop
  | .create p => p = path
  | .openRW p => p = path
  | .seekp p _ => p = path
  | .write p _ _ => p = path
  | .closeFile p => p = path
  | .sendAll f _ => f = fd
  | .recv f _ _ => f = fd
  | _ => False

@[simp] theorem sendError_only {P : Eff → Prop} {fd : Fd} {reason : Bytes} {Q : Unit → Prop} :
    (sendError fd reason).Only P Q ↔ P (.sendAll fd (errLine reason)) ∧ Q () := by
  simp [sendError]

@[simp] theorem sendResponse_only {P : Eff → Prop} {fd : Fd} {n : ℕ} {Q : Unit → Prop} :
    (sendResponse fd n).Only P Q ↔ P (.sendAll fd (okLine n)) ∧ Q () := by
  simp [sendResponse]

/-- A line that was read is not empty. -/
theorem readFileLine_only {fd : Fd} {path : Bytes} (offset : ℕ) :
    (readFileLine path offset).Only (Eff.getCall fd path)
      (fun res => ∀ off line, res = some (off, line) → 0 < line.length ∧ line.length < 2 ^ 63) := by
  rw [Prog.only_iff_wp]
  refine readFileLine_wp rfl ?_ ?_ ?_
  · intro r _ _ off line h
    cases h
  · rintro file - hoff _ _ ⟨⟩
    exact lineAt_bounds hoff
  · refine fun file _ hoff _ => ⟨rfl, ?_⟩
    rintro st - _ _ ⟨⟩
    exact lineAt_bounds hoff

/-- The selection never gives bytes back and passes the budget only by a long line. -/
theorem selectLines_only {fd : Fd} {path : Bytes} {allow : Bool} {budget : ℕ} :
    ∀ fuel lineOffset roundBytes a14,
      (selectLines path allow budget fuel lineOffset roundBytes a14).Only
        (Eff.getCall fd path) (fun res => roundBytes ≤ budget → budget < 2 ^ 63 →
          roundBytes ≤ res.1 ∧ res.1 < 2 ^ 63 ∧ (allow = true ∨ res.1 ≤ budget))
  | 0, _, roundBytes, _ => fun h hb => ⟨le_rfl, Nat.lt_of_le_of_lt h hb, Or.inr h⟩
  | fuel + 1, lineOffset, roundBytes, a14 => by
      have hstay : roundBytes ≤ budget → budget < 2 ^ 63 →
          roundBytes ≤ roundBytes ∧ roundBytes < 2 ^ 63 ∧ (allow = true ∨ roundBytes ≤ budget) :=
        fun h hb => ⟨le_rfl, Nat.lt_of_le_of_lt h hb, Or.inr h⟩
      unfold selectLines
      split
      · rw [Prog.only_bind]
        refine (readFileLine_only lineOffset).mono (fun _ h => h) fun res hres => ?_
        rcases res with _ | ⟨off, line⟩
        · exact hstay
        · obtain ⟨hpos, hsmall⟩ := hres off line rfl
          dsimp only
          split
          · rename_i hlong
            split
            · rename_i hallow
              exact fun _ _ => ⟨hlong.1 ▸ Nat.zero_le _, hsmall, Or.inl hallow⟩
            · exact hstay
          · split
            · exact hstay
            · rename_i hfits
              refine (selectLines_only fuel _ _ _).mono (fun _ h => h) fun res h hle hb => ?_
              have hu : u64 (roundBytes + line.length) = roundBytes + line.length :=
                u64_of_lt (by omega)
              rw [hu] at h hfits
              obtain ⟨h1, h2, h3⟩ := h (by omega) hb
              exact ⟨by omega, h2, h3⟩
      · exact hstay

/-- Every byte of a packet is taken off the round. -/
theorem gatherPacket_only {fd : Fd} {path : Bytes} :
    ∀ linesLeft lineOffset remaining packet,
      (gatherPacket fd path linesLeft lineOffset remaining packet).Only
        (Eff.getCall fd path) (fun res => ∀ packet' off left, res = some (packet', off, left) →
          packet'.length + left = packet.length + remaining ∧ left ≤ remaining ∧
            (0 < linesLeft → 0 < remaining → left < remaining))
  | 0, _, _, _ => by
      rintro _ _ _ ⟨⟩
      exact ⟨rfl, le_rfl, by simp⟩
  | linesLeft + 1, lineOffset, remaining, packet => by
      unfold gatherPacket
      split
      · rw [Prog.only_bind]
        refine (readFileLine_only lineOffset).mono (fun _ h => h) fun res hres => ?_
        rcases res with _ | ⟨off, line⟩
        · simp [Eff.getCall]
        · obtain ⟨hpos, -⟩ := hres off line rfl
          dsimp only
          split
          · simp [Eff.getCall]
          · refine (gatherPacket_only linesLeft _ _ _).mono (fun _ h => h) ?_
            intro res h packet' off' left hsome
            obtain ⟨h1, h2, -⟩ := h packet' off' left hsome
            rw [List.length_append] at h1
            exact ⟨by omega, by omega, fun _ _ => by omega⟩
      · rename_i hrem
        rintro _ _ _ ⟨⟩
        exact ⟨rfl, le_rfl, fun _ h => absurd h hrem⟩

/-- A round that was sent was sent in full. -/
theorem sendPackets_only {fd : Fd} {path : Bytes} {packetization : ℕ} :
    ∀ fuel lineOffset remaining bytesProcessed,
      (sendPackets fd path packetization fuel lineOffset remaining bytesProcessed).Only
        (Eff.getCall fd path) (fun res => 0 < packetization → remaining ≤ fuel →
          bytesProcessed + remaining < 2 ^ 64 → res.1 = true →
            res.2 = bytesProcessed + remaining)
  | 0, _, remaining, bytesProcessed => by
      intro _ hfuel _ _
      change bytesProcessed = bytesProcessed + remaining
      omega
  | fuel + 1, lineOffset, remaining, bytesProcessed => by
      unfold sendPackets
      split
      · rename_i hrem
        rw [Prog.only_bind]
        refine (gatherPacket_only packetization lineOffset remaining []).mono
          (fun _ h => h) fun res hres => ?_
        rcases res with _ | ⟨packet, off, left⟩
        · intro _ _ _ h
          cases h
        · obtain ⟨hsum, -, hless⟩ := hres packet off left rfl
          simp only [List.length_nil, Nat.zero_add] at hsum
          simp only [perform, Prog.only_bind, Prog.only_perform, Eff.getCall, true_and]
          rintro (_ | _)
          · intro _ _ _ h
            cases h
          · refine (sendPackets_only fuel _ _ _).mono (fun _ h => h) ?_
            intro res h hpack hfuel hsmall hok
            have hu : u64 (bytesProcessed + packet.length) = bytesProcessed + packet.length :=
              u64_of_lt (by omega)
            have := hless hpack hrem
            rw [hu] at h
            have := h hpack (by omega) (by omega) hok
            omega
      · rename_i hrem
        intro _ _ _ _
        change bytesProcessed = bytesProcessed + remaining
        omega

theorem sendRound_only (req : Request) {path : Bytes} {roundBytes packetization : ℕ} :
    (sendRound req path roundBytes packetization).Only (Eff.getCall req.clientFd path)
      (fun res => res.2.1 = req ∧ (0 < packetization → roundBytes < 2 ^ 64 → res.1 = true →
        res.2.2 = roundBytes)) := by
  unfold sendRound
  split
  · rename_i hzero
    exact ⟨rfl, fun _ _ _ => hzero.symm⟩
  · simp only [perform, Prog.only_bind, Prog.only_perform, Eff.getCall, true_and]
    rintro (_ | file)
    · simp [Eff.getCall]
    · dsimp only
      split
      · rw [Prog.only_bind]
        refine (sendPackets_only _ _ _ _).mono (fun _ h => h) fun res h => ⟨rfl, ?_⟩
        intro hpack hsmall hok
        have := h hpack le_rfl (by omega) hok
        simpa using this
      · simp [Eff.getCall]

/-- The result of a GET round: on success the header is out, all that was left was
sent if the budget covered it, and otherwise the budget was kept unless a long line
may pass it. -/
structure GetResult (req : Request) (allow : Bool) (budget : ℕ) (packetization : ℤ)
    (ok : Bool) (later : Request) (n : ℕ) : Prop where
  same : req.Same later
  stagingFilename : later.stagingFilename = req.stagingFilename
  fields : ok = true → ∃ a14, later = { req with responseSent := true, a14Events := a14 }
  whole : 0 < packetization → req.totalBytes < 2 ^ 63 → ok = true →
    req.totalBytes - req.offset ≤ budget → n = req.totalBytes - req.offset
  within : 0 < packetization → req.totalBytes < 2 ^ 63 → ok = true →
    budget < req.totalBytes - req.offset → allow = true ∨ n ≤ budget

theorem serveGetBody_only (req : Request) {path : Bytes} {budget : ℕ} {allow : Bool}
    {packetization : ℤ} (hresp : req.responseSent = true) :
    (serveGetBody req path budget allow packetization).Only (Eff.getCall req.clientFd path)
      (fun res => GetResult req allow budget packetization res.1 res.2.1 res.2.2) := by
  have hself : ∃ a14, req = { req with responseSent := true, a14Events := a14 } :=
    ⟨req.a14Events, by rw [← hresp]⟩
  unfold serveGetBody
  split
  · rename_i hskip
    refine ⟨.refl _, rfl, fun _ => hself, fun _ _ _ h => ?_, fun _ _ _ _ => Or.inr ?_⟩
    · change 0 = req.totalBytes - req.offset
      omega
    · exact Nat.zero_le _
  split
  · rename_i hbad
    simp only [Prog.only_bind, sendError_only, Eff.getCall, true_and, Prog.only_pure]
    exact ⟨.refl _, rfl, by simp, fun h => absurd hbad (by omega),
      fun h => absurd hbad (by omega)⟩
  split
  · rename_i hwhole
    refine (sendRound_only req).mono (fun _ h => h) ?_
    rintro ⟨ok, later, n⟩ ⟨hreq, hn⟩
    simp only at hreq hn ⊢
    subst hreq
    refine ⟨.refl _, rfl, fun _ => hself, fun hpack hsmall hok _ => ?_,
      fun _ _ _ h => absurd hwhole (by omega)⟩
    exact hn (by omega) (by omega) hok
  · rename_i hskip hpos hpart
    rw [Prog.only_bind]
    refine (selectLines_only _ _ _ _).mono (fun _ h => h) fun sel hsel => ?_
    refine (sendRound_only { req with a14Events := sel.2 }).mono (fun _ h => h) ?_
    rintro ⟨ok, later, n⟩ ⟨hreq, hn⟩
    simp only at hreq hn ⊢
    subst hreq
    refine ⟨⟨rfl, rfl, rfl, rfl, rfl, rfl⟩, rfl, fun _ => ⟨sel.2, by rw [← hresp]⟩,
      fun _ _ _ h => absurd h (by omega), fun hpack hsmall hok hlt => ?_⟩
    obtain ⟨-, h2, h3⟩ := hsel (Nat.zero_le _) (by omega)
    have := hn (by omega) (by omega) hok
    exact h3.imp id (by omega)

/-- A GET round only stats and opens its own file and sends on its own
connection. -/
theorem serveGet_only {req : Request} {fileDir : Bytes} {budget : ℕ} {allow : Bool}
    {packetization : ℤ} :
    (serveGet req fileDir budget allow packetization).Only
      (Eff.getCall req.clientFd (filePath fileDir req.filename))
      (fun res => GetResult req allow budget packetization res.1 res.2.1 res.2.2) := by
  have hfail : GetResult req allow budget packetization false req 0 :=
    ⟨.refl _, rfl, by simp, by simp, by simp⟩
  unfold serveGet
  split
  · simpa [Eff.getCall] using hfail
  · simp only [fileExists, perform, Prog.only_bind, Prog.only_perform, Prog.only_pure,
      Eff.getCall, true_and]
    intro found
    split
    · split
      · rename_i hresp
        exact serveGetBody_only req hresp
      · simp only [Prog.only_bind, sendResponse_only, Eff.getCall, true_and]
        refine (serveGetBody_only { req with responseSent := true } rfl).mono (fun _ h => h) ?_
        intro res h
        have hs := h.same
        exact ⟨⟨hs.1, hs.2, hs.3, hs.4, hs.5, hs.6⟩, h.stagingFilename, h.fields, h.whole,
          h.within⟩
    · simpa [Eff.getCall] using hfail

theorem failUpload_only {α : Type} {fd : Fd} {path : Bytes} {reason : String} :
    (failUpload (α := α) fd path reason).Only (Eff.putCall fd path) (fun _ => True) := by
  simp [failUpload, Eff.putCall]

theorem writePending_only {fd : Fd} {path : Bytes} {offset : ℕ} {pending : Bytes} :
    ∀ fuel pendingOffset bytesProcessed remaining,
      (writePending fd path offset pending fuel pendingOffset bytesProcessed remaining).Only
        (Eff.putCall fd path) (fun _ => True)
  | 0, _, _, _ => trivial
  | fuel + 1, pendingOffset, bytesProcessed, remaining => by
      unfold writePending
      split
      · simp only [perform, Prog.only_bind, Prog.only_perform, Eff.putCall, true_and]
        rintro (_ | stored)
        · exact writePending_only fuel _ _ _
        · exact failUpload_only
      · trivial

theorem receiveBody_only {fd : Fd} {path : Bytes} {offset bufferSize : ℕ} :
    ∀ fuel bytesProcessed remaining,
      (receiveBody fd path offset bufferSize fuel bytesProcessed remaining).Only
        (Eff.putCall fd path) (fun _ => True)
  | 0, _, _ => trivial
  | fuel + 1, bytesProcessed, remaining => by
      unfold receiveBody
      split
      · simp only [perform, Prog.only_bind, Prog.only_perform, Eff.putCall, true_and]
        rintro (_ | _ | ⟨b, received⟩)
        · exact failUpload_only
        · exact failUpload_only
        · simp only [Prog.only_bind, Prog.only_perform, Eff.putCall, true_and]
          rintro (_ | stored)
          · exact receiveBody_only fuel _ _
          · exact failUpload_only
      · trivial

theorem servePutBody_only {req : Request} {path : Bytes} {budget : ℕ} :
    (servePutBody req path budget).Only (Eff.putCall req.clientFd path)
      (fun res => req.Same res.2.1 ∧ res.2.1.stagingFilename = req.stagingFilename ∧
        res.2.1.forfeitedBytes = req.forfeitedBytes) := by
  unfold servePutBody
  simp only [perform, Prog.only_bind, Prog.only_perform, Eff.putCall, true_and]
  rintro (_ | _)
  · simpa [Eff.putCall] using Request.Same.refl _
  · simp only [↓reduceIte, Prog.only_bind, Prog.only_perform, Eff.putCall, true_and]
    rintro (_ | _)
    · simp only [Bool.false_eq_true, ↓reduceIte, Prog.only_bind, Prog.only_pure]
      exact failUpload_only.mono (fun _ h => h) fun _ _ => ⟨.refl _, trivial, trivial⟩
    · simp only [↓reduceIte, Prog.only_bind]
      refine (writePending_only _ _ _ _).mono (fun _ h => h) fun res _ => ?_
      rcases res with _ | ⟨po, bp, left⟩
      · exact ⟨.refl _, rfl, rfl⟩
      · simp only [Prog.only_bind]
        refine (receiveBody_only _ _ _).mono (fun _ h => h) fun res _ => ?_
        rcases res with _ | bp
        · exact ⟨⟨rfl, rfl, rfl, rfl, rfl, rfl⟩, rfl, rfl⟩
        · simp only [Prog.only_bind, Prog.only_perform, Prog.only_pure, Eff.putCall, true_and]
          exact fun _ => ⟨⟨rfl, rfl, rfl, rfl, rfl, rfl⟩, trivial⟩

theorem Request.same_withStaging (req : Request) : req.Same req.withStaging := by
  unfold withStaging
  split
  · exact ⟨rfl, rfl, rfl, rfl, rfl, rfl⟩
  · exact .refl _

theorem Request.forfeitedBytes_withStaging (req : Request) :
    req.withStaging.forfeitedBytes = req.forfeitedBytes := by
  unfold withStaging
  split <;> rfl

theorem servePutStaged_only {req : Request} {path : Bytes} {budget : ℕ} :
    (servePutStaged req path budget).Only (Eff.putCall req.clientFd path)
      (fun res => req.Same res.2.1 ∧ res.2.1.stagingFilename = req.stagingFilename ∧
        res.2.1.forfeitedBytes = req.forfeitedBytes) := by
  unfold servePutStaged
  split
  · simpa [Eff.putCall] using Request.Same.refl _
  · split
    · simp only [perform, Prog.only_bind, Prog.only_perform, Eff.putCall, true_and]
      rintro (_ | _)
      · simpa [Eff.putCall] using Request.Same.refl _
      · exact servePutBody_only
    · exact servePutBody_only

/-- A PUT round only works on its staging file and its own connection. -/
theorem servePut_only {req : Request} {fileDir : Bytes} {budget : ℕ} :
    (servePut req fileDir budget).Only
      (Eff.putCall req.clientFd (filePath fileDir req.withStaging.stagingFilename))
      (fun res => req.Same res.2.1 ∧
        (res.2.1.stagingFilename = req.stagingFilename ∨
          res.2.1.stagingFilename = req.withStaging.stagingFilename) ∧
        res.2.1.forfeitedBytes = req.forfeitedBytes) := by
  unfold servePut
  split
  · simpa [Eff.putCall] using Request.Same.refl _
  · rw [← req.same_withStaging.clientFd]
    exact servePutStaged_only.mono (fun _ h => h)
      fun _ ⟨hsame, hstaging, hfree⟩ => ⟨req.same_withStaging.trans hsame, Or.inr hstaging,
        hfree.trans req.forfeitedBytes_withStaging⟩

/-! ## The worker -/

/-- Where a worker is with the request it popped; `rows` counts the metrics rows
of the request. -/
inductive Stage : Type where
  | serving (rows : ℕ)
  | requeued
  | completed

/-- What a worker may call while it holds `req`. -/
def Eff.servingCall (req : Request) (rows : ℕ) : Eff → Prop
  | .sendAll f _ => f = req.clientFd
  | .recv f _ _ => f = req.clientFd
  | .closeSocket _ => False
  | .fetchId => False
  | .queueSize => False
  | .push _ => False
  | .requeue later => req.Same later ∧ rows = 0
  | .complete exit => rows = if exit = .completed then 1 else 0
  | .record _ => rows = 0
  | _ => True

def workerContract (req : Request) : Contract Eff Resp Stage where
  guarantee
    | .serving rows, e => e.servingCall req rows
    | .requeued, _ => False
    | .completed, e => e = .closeSocket req.clientFd
  rely _ e r := match e, r with
    | .requeue _, ok => ok = true
    | _, _ => True
  next
    | .serving rows, .record _, _ => .serving (rows + 1)
    | .serving _, .requeue _, _ => .requeued
    | .serving _, .complete _, _ => .completed
    | stage, _, _ => stage

/-- The worker let go of the request. -/
def Stage.released : Stage → Prop
  | .serving _ => False
  | _ => True

section Worker

variable {cfg : Config} {orig req : Request}

theorem Eff.getCall_quiet {path : Bytes} {e : Eff} (h : e.getCall orig.clientFd path) :
    (workerContract orig).guarantee (.serving 0) e ∧
      ∀ r, (workerContract orig).next (.serving 0) e r = .serving 0 := by
  cases e <;> simp_all [Eff.getCall, workerContract, Eff.servingCall]

theorem Eff.putCall_quiet {path : Bytes} {e : Eff} (h : e.putCall orig.clientFd path) :
    (workerContract orig).guarantee (.serving 0) e ∧
      ∀ r, (workerContract orig).next (.serving 0) e r = .serving 0 := by
  cases e <;> simp_all [Eff.putCall, workerContract, Eff.servingCall]

theorem serveRound_disciplined {budget : ℕ} (h : orig.Same req) :
    (serveRound cfg budget req).wp (workerContract orig)
      (fun res stage => orig.Same res.2.1 ∧ stage = .serving 0) (.serving 0) := by
  have hfd : req.clientFd = orig.clientFd := h.clientFd
  unfold serveRound
  split
  · refine Prog.wp_mono (serveGet_only.wp (fun e he => (Eff.getCall_quiet (hfd ▸ he)).1)
      (fun e r he => (Eff.getCall_quiet (hfd ▸ he)).2 r)) ?_
    rintro res stage ⟨hres, rfl⟩
    exact ⟨h.trans hres.same, rfl⟩
  · have hput : (servePut req cfg.fileDir budget).wp (workerContract orig)
        (fun res stage => orig.Same res.2.1 ∧ stage = .serving 0) (.serving 0) := by
      refine Prog.wp_mono (servePut_only.wp (fun e he => (Eff.putCall_quiet (hfd ▸ he)).1)
        (fun e r he => (Eff.putCall_quiet (hfd ▸ he)).2 r)) ?_
      rintro res stage ⟨⟨hsame, -⟩, rfl⟩
      exact ⟨h.trans hsame, rfl⟩
    split
    · simp only [sendResponse, perform, Prog.wp_bind, Prog.wp_perform, Prog.wp_pure]
      exact ⟨hfd, fun _ _ => hput⟩
    · simpa using hput
  · exact ⟨h, rfl⟩

theorem finishRequest_disciplined (h : orig.Same req) :
    (finishRequest req).wp (workerContract orig) (fun _ stage => stage.released)
      (.serving 0) := by
  simp [finishRequest, perform, workerContract, Eff.servingCall, Stage.released, h.clientFd]

theorem abandonRequest_disciplined (h : orig.Same req) :
    (abandonRequest cfg req).wp (workerContract orig) (fun _ stage => stage.released)
      (.serving 0) := by
  unfold abandonRequest
  split <;> simp [perform, workerContract, Eff.servingCall, Stage.released, h.clientFd]

theorem commitRequest_disciplined (h : orig.Same req) :
    (commitRequest cfg req).wp (workerContract orig) (fun _ stage => stage.released)
      (.serving 0) := by
  simp only [commitRequest, perform, Prog.wp_bind, Prog.wp_perform]
  refine ⟨trivial, ?_⟩
  rintro (_ | _) -
  · simp [sendError, perform, workerContract, Eff.servingCall, Stage.released, h.clientFd]
  · simp only [↓reduceIte, sendResponse, perform, Prog.wp_bind, Prog.wp_perform, Prog.wp_pure]
    exact ⟨h.clientFd, fun _ _ => finishRequest_disciplined h⟩

theorem Scheduler.account_same (S : Scheduler) (req : Request) (n : ℕ) :
    req.Same (S.account req n) := by
  unfold account
  simp only
  split <;> [split; skip] <;> exact ⟨rfl, rfl, rfl, rfl, rfl, rfl⟩

theorem settleRound_disciplined {budget n : ℕ} (h : orig.Same req) :
    (settleRound cfg budget req n).wp (workerContract orig)
      (fun _ stage => stage.released) (.serving 0) := by
  have hacc := h.trans (cfg.scheduler.account_same req n)
  unfold settleRound
  simp only
  split
  · simp only [perform, Prog.wp_bind, Prog.wp_perform]
    refine ⟨⟨?_, rfl⟩, ?_⟩
    · split
      · exact hacc.trans ⟨rfl, rfl, rfl, rfl, rfl, rfl⟩
      · exact hacc
    · rintro r hr
      change r = true at hr
      subst hr
      trivial
  · split
    · exact commitRequest_disciplined hacc
    · exact finishRequest_disciplined hacc

theorem dispatchRound_disciplined {budget : ℕ} (h : orig.Same req) :
    (dispatchRound cfg budget req).wp (workerContract orig)
      (fun _ stage => stage.released) (.serving 0) := by
  unfold dispatchRound
  rw [Prog.wp_bind]
  refine Prog.wp_mono (serveRound_disciplined h) ?_
  rintro ⟨success, req', n⟩ stage ⟨hsame, rfl⟩
  cases success
  · exact abandonRequest_disciplined hsame
  · exact settleRound_disciplined hsame

/-- **Worker discipline.** Whatever the answers, a worker pass releases its
request exactly once, with one metrics row when it completes it and none
otherwise, and calls nothing but its own connection. -/
theorem workerRound_disciplined {d : ScheduleDecision} :
    (workerRound cfg d).wp (workerContract d.request)
      (fun _ stage => stage.released) (.serving 0) := by
  unfold workerRound stampStart
  rw [Prog.wp_bind]
  split
  · simp only [perform, Prog.wp_bind, Prog.wp_perform, Prog.wp_pure]
    exact ⟨trivial, fun t _ => dispatchRound_disciplined ⟨rfl, rfl, rfl, rfl, rfl, rfl⟩⟩
  · exact dispatchRound_disciplined (.refl _)

end Worker

/-! ## The parser -/

/-- What a parser may call for connection `fd`. -/
def Eff.parserCall (fd : Fd) : Eff → Prop
  | .stat _ => True
  | .sendAll f _ => f = fd
  | .recv f _ _ => f = fd
  | .closeSocket f => f = fd
  | .now => True
  | .fetchId => True
  | .queueSize => True
  | .push req => req.clientFd = fd
  | _ => False

/-- The ghost state tells whether the request was pushed. -/
def parserContract (fd : Fd) : Contract Eff Resp Bool where
  guarantee pushed e := pushed = false ∧ e.parserCall fd
  rely _ _ _ := True
  next pushed e r := match e, r with
    | .push _, ok => ok
    | _, _ => pushed

/-- Only a push changes the ghost state of a parser. -/
theorem parserContract_next {fd : Fd} {e : Eff} (h : ∀ req, e ≠ .push req) (pushed : Bool)
    (r : Resp e) : (parserContract fd).next pushed e r = pushed := by
  cases e with
  | push req => exact absurd rfl (h req)
  | _ => rfl

theorem readHeaderLoop_only {fd : Fd} {deadline : ℕ} :
    ∀ fuel line, (readHeaderLoop fd deadline fuel line).Only
      (fun e => e = .now ∨ ∃ n t, e = .recv fd n t) (fun _ => True)
  | 0, _ => trivial
  | fuel + 1, line => by
      unfold readHeaderLoop
      split
      · trivial
      · simp only [perform, Prog.only_bind, Prog.only_perform, true_or, true_and]
        intro now
        split
        · trivial
        · simp only [Prog.only_bind, Prog.only_perform]
          refine ⟨Or.inr ⟨_, _, rfl⟩, ?_⟩
          rintro (_ | _ | ⟨b, buffer⟩)
          · trivial
          · trivial
          · simp only
            split
            · trivial
            · exact readHeaderLoop_only fuel _

theorem rejectClient_disciplined {fd : Fd} {reason : Bytes} :
    (rejectClient fd reason).wp (parserContract fd) (fun _ _ => True) false := by
  simp [rejectClient, sendError, perform, parserContract, Eff.parserCall]

theorem admitRequest_disciplined (req : Request) :
    (admitRequest req.clientFd req).wp (parserContract req.clientFd) (fun _ _ => True) false := by
  simp only [admitRequest, perform, Prog.wp_bind, Prog.wp_perform]
  refine ⟨⟨rfl, trivial⟩, fun id _ => ⟨⟨rfl, trivial⟩, fun t _ => ⟨⟨rfl, rfl⟩, ?_⟩⟩⟩
  rintro (_ | _) -
  · exact rejectClient_disciplined
  · trivial

@[simp] theorem parseRequestHeader_clientFd {header : Bytes} {fd : Fd} {req : Request}
    (h : parseRequestHeader header fd = .ok req) : req.clientFd = fd := by
  unfold parseRequestHeader at h
  simp only at h
  repeat' split at h
  all_goals first
    | (cases h; done)
    | (cases h; rfl)

/-- **Parser discipline.** A parser pass pushes at most one request, the one of
its own connection, and makes no call after a successful push. -/
theorem parserClient_disciplined {cfg : Config} {fd : Fd} :
    (parserClient cfg fd).wp (parserContract fd) (fun _ _ => True) false := by
  have hread : (readHeaderLine fd 1000).wp (parserContract fd)
      (fun _ pushed => True ∧ pushed = false) false := by
    simp only [readHeaderLine, perform, Prog.wp_bind, Prog.wp_perform]
    refine ⟨⟨rfl, trivial⟩, fun start _ => ?_⟩
    refine (readHeaderLoop_only 8192 []).wp ?_ ?_
    · rintro e (rfl | ⟨n, t, rfl⟩)
      · exact ⟨rfl, trivial⟩
      · exact ⟨rfl, rfl⟩
    · rintro e r (rfl | ⟨n, t, rfl⟩) <;> rfl
  unfold parserClient
  rw [Prog.wp_bind]
  refine Prog.wp_mono hread ?_
  rintro ⟨header, leftover⟩ pushed ⟨-, rfl⟩
  simp only
  split
  · exact rejectClient_disciplined
  · split
    · exact rejectClient_disciplined
    · rename_i req hreq
      have hfd := parseRequestHeader_clientFd hreq
      subst hfd
      split
      · simp [sendResponse, perform, parserContract, Eff.parserCall]
      · split
        · exact rejectClient_disciplined
        · split
          · simp only [fileExists, getFileSize, perform, Prog.wp_bind, Prog.wp_perform,
              Prog.wp_pure]
            refine ⟨⟨rfl, trivial⟩, fun found _ => ?_⟩
            split
            · simp only [Prog.wp_bind, Prog.wp_perform, Prog.wp_pure]
              exact ⟨⟨rfl, trivial⟩, fun size _ => admitRequest_disciplined
                { req with pendingBytes := leftover, totalBytes := size.getD 0 }⟩
            · exact rejectClient_disciplined
          · exact admitRequest_disciplined { req with pendingBytes := leftover }

end LinkScheduling
