import LinkScheduling.Get.Copy
import LinkScheduling.Metatheory.Numbers
import LinkScheduling.Put.Verdict

/-!
# An acknowledged upload is stored

`put_file` beside the server, over the network of `Get.Exchange`. The client returns 0 when the
second status line it reads is `OK 0`. It drops whatever came with the first one, so the second
line may be cut out of something else the server sent; no line of an upload leaves room for that.
What the server renamed before it sent the second `OK 0` is what the client was asked to upload.
-/

namespace LinkScheduling

open Framework

/-! ## The client alone -/

/-- What the client has sent, as long as no call failed, and what it received. -/
structure Parley where
  sent : Option Bytes
  got : Bytes

/-- What an answer brings. -/
def heardFrom : (e : ClientEff) → ClientResp e → Bytes
  | .recv _, some part => part
  | _, _ => []

/-- The client sends the header and then the body, and has no output file. -/
def parleying (header data : Bytes) : Contract DownloadEff DownloadResp Parley where
  guarantee g
    | .net e => (sending header data).guarantee g.sent e
    | _ => False
  rely _ _ _ := True
  next g e r := match e, r with
    | .net e, r => ⟨(sending header data).next g.sent e r, g.got ++ heardFrom e r⟩
    | _, _ => g

/-- Two status lines, and between them what was dropped. -/
def Acknowledged (got : Bytes) : Prop :=
  ∃ line dropped rest, HeaderLine line ∧ ascii "OK " <+: line ∧
    got = line ++ dropped ++ okLine 0 ++ rest

section Parleying

variable {header data : Bytes} {g : Parley}

/-- The client over its connection. -/
abbrev parley (header data : Bytes) : Contract ClientEff ClientResp Parley :=
  (parleying header data).restrict DownloadEff.net

theorem giveUp_parleys :
    giveUp.wp (parley header data) (fun v g => v = 0 → Acknowledged g.got) g := by
  simp only [giveUp, request, Prog.wp_bind, Prog.wp_perform, Prog.wp_pure]
  refine ⟨?_, fun _ _ h => by cases h⟩
  rintro part ⟨⟩

/-- A status line, behind what was received before. -/
theorem readStatusLine_parleys (sent : Option Bytes) (base : Bytes) :
    readStatusLine.wp (parley header data)
      (fun res g => ∃ got, g = ⟨sent, got⟩ ∧ ∀ line leftover,
        res = some (line, leftover) → HeaderLine line ∧ got = base ++ line ++ leftover)
      ⟨sent, base⟩ := by
  have h := readStatusLoop_reads (C := parley header data) (G := fun got => Parley.mk sent got)
    (fun _ _ part hpart => by cases hpart) (fun _ _ _ => rfl)
    (fun got _ => congrArg (Parley.mk sent) (List.append_nil got)) base 8192 [] (by simp)
  rwa [List.append_nil] at h

theorem finalStatus_parleys {sent : Option Bytes} {line leftover : Bytes} (hline : HeaderLine line)
    (hok : ascii "OK " <+: line) {f : Option (Bytes × Bytes) → Client ℕ} (hnone : f none = giveUp)
    (hsome : ∀ finalResponse leftover, f (some (finalResponse, leftover)) =
      request .close >>= fun _ => pure (if finalResponse = ascii "OK 0\n" then 0 else 1)) :
    (readStatusLine >>= f).wp (parley header data) (fun v g => v = 0 → Acknowledged g.got)
      ⟨sent, line ++ leftover⟩ := by
  rw [Prog.wp_bind]
  refine Prog.wp_mono (readStatusLine_parleys sent (line ++ leftover)) ?_
  rintro (_ | ⟨finalResponse, leftover'⟩) g ⟨got, rfl, hread⟩
  · rw [hnone]
    exact giveUp_parleys
  · obtain ⟨-, rfl⟩ := hread finalResponse leftover' rfl
    simp only [hsome, request, Prog.wp_bind, Prog.wp_perform, Prog.wp_pure]
    refine ⟨(fun part hpart => by cases hpart), fun _ _ hcode => ?_⟩
    split at hcode
    · rename_i hfinal
      obtain rfl : finalResponse = okLine 0 := hfinal
      exact ⟨line, leftover, leftover', hline, hok, List.append_nil _⟩
    · cases hcode

theorem putBody_parleys {line leftover : Bytes} (hline : HeaderLine line)
    (hok : ascii "OK " <+: line) :
    (putBody data).wp (parley header data) (fun v g => v = 0 → Acknowledged g.got)
      ⟨some header, line ++ leftover⟩ := by
  unfold putBody
  split
  · simp only [request, Prog.wp_bind, Prog.wp_perform]
    refine ⟨?_, ?_⟩
    · rintro part ⟨⟩
      exact ⟨header, rfl, List.prefix_rfl⟩
    rintro (_ | _) -
    · exact giveUp_parleys
    · change Prog.wp _ _ _ (Parley.mk _ (line ++ leftover ++ []))
      rw [List.append_nil]
      exact finalStatus_parleys hline hok rfl fun _ _ => rfl
  · exact finalStatus_parleys hline hok rfl fun _ _ => rfl

/-- **The client alone.** It returns 0 only when it read both status lines. -/
theorem putFile_parleys (wireName : Bytes) :
    (putFile wireName data).wp (parley (putHeader wireName data.length) data)
      (fun v g => v = 0 → Acknowledged g.got) ⟨some [], []⟩ := by
  unfold putFile
  split
  · exact fun h => by cases h
  simp only [request, Prog.wp_bind, Prog.wp_perform]
  refine ⟨(fun part hpart => by cases hpart), ?_⟩
  rintro (_ | _) -
  · exact fun h => by cases h
  simp only [↓reduceIte, Prog.wp_bind, Prog.wp_perform]
  refine ⟨?_, ?_⟩
  · rintro part ⟨⟩
    exact ⟨[], rfl, List.prefix_append _ _⟩
  rintro (_ | _) -
  · exact giveUp_parleys
  simp only [↓reduceIte, Prog.wp_bind]
  refine Prog.wp_mono (readStatusLine_parleys (some (putHeader wireName data.length)) []) ?_
  rintro (_ | ⟨initial, leftover⟩) g ⟨got, rfl, hread⟩
  · exact giveUp_parleys
  · obtain ⟨hline, rfl⟩ := hread initial leftover rfl
    simp only
    split
    · rename_i hok
      exact putBody_parleys hline hok
    · exact giveUp_parleys

end Parleying

/-! ## The lines of an upload -/

/-- `OK 0`, or an error whose reason has no letter `O`. -/
def UploadLine (line : Bytes) : Prop :=
  line = okLine 0 ∨ ∃ reason, (79 : UInt8) ∉ reason ∧ line = errLine reason

def Eff.uploadLine : Eff → Prop
  | .sendAll _ data => UploadLine data
  | _ => True

theorem failUpload_lines {α : Type} {fd : Fd} {path : Bytes} {reason : String}
    (h : (79 : UInt8) ∉ ascii reason) :
    (failUpload (α := α) fd path reason).Only Eff.uploadLine (fun _ => True) :=
  ⟨trivial, fun _ => ⟨Or.inr ⟨ascii reason, h, rfl⟩, fun _ => trivial⟩⟩

theorem writePending_lines {fd : Fd} {path : Bytes} {offset : ℕ} {pending : Bytes} :
    ∀ fuel pendingOffset bytesProcessed remaining,
      (writePending fd path offset pending fuel pendingOffset bytesProcessed remaining).Only
        Eff.uploadLine (fun _ => True)
  | 0, _, _, _ => trivial
  | fuel + 1, pendingOffset, bytesProcessed, remaining => by
      unfold writePending
      split
      · refine ⟨trivial, ?_⟩
        rintro (_ | stored)
        · exact writePending_lines fuel _ _ _
        · exact failUpload_lines (by decide)
      · trivial

theorem receiveBody_lines {fd : Fd} {path : Bytes} {offset bufferSize : ℕ} :
    ∀ fuel bytesProcessed remaining,
      (receiveBody fd path offset bufferSize fuel bytesProcessed remaining).Only
        Eff.uploadLine (fun _ => True)
  | 0, _, _ => trivial
  | fuel + 1, bytesProcessed, remaining => by
      unfold receiveBody
      split
      · refine ⟨trivial, ?_⟩
        rintro (_ | _ | ⟨b, received⟩)
        · exact failUpload_lines (by decide)
        · exact failUpload_lines (by decide)
        · refine ⟨trivial, ?_⟩
          rintro (_ | stored)
          · exact receiveBody_lines fuel _ _
          · exact failUpload_lines (by decide)
      · trivial

theorem servePutBody_lines {req : Request} {path : Bytes} {budget : ℕ} :
    (servePutBody req path budget).Only Eff.uploadLine (fun _ => True) := by
  unfold servePutBody
  simp only [perform, Prog.only_bind, Prog.only_perform, Eff.uploadLine, true_and]
  rintro (_ | _)
  · exact ⟨Or.inr ⟨ascii "cannot open file", by decide, rfl⟩, fun _ => trivial⟩
  · simp only [↓reduceIte, Prog.only_bind, Prog.only_perform, Eff.uploadLine, true_and]
    rintro (_ | _)
    · exact ⟨trivial, fun _ => ⟨Or.inr ⟨ascii "file seek error", by decide, rfl⟩, fun _ => trivial⟩⟩
    · simp only [↓reduceIte, Prog.only_bind]
      refine (writePending_lines _ _ _ _).mono (fun _ h => h) fun res _ => ?_
      rcases res with _ | ⟨pendingOffset, bytesProcessed, remaining⟩
      · trivial
      · simp only [Prog.only_bind]
        refine (receiveBody_lines _ _ _).mono (fun _ h => h) fun res _ => ?_
        rcases res with _ | bytesProcessed
        · trivial
        · exact ⟨trivial, fun _ => trivial⟩

theorem servePut_lines {req : Request} {fileDir : Bytes} {budget : ℕ} :
    (servePut req fileDir budget).Only Eff.uploadLine (fun _ => True) := by
  unfold servePut servePutStaged
  split
  · exact ⟨Or.inr ⟨ascii "invalid filename", by decide, rfl⟩, fun _ => trivial⟩
  split
  · exact ⟨trivial, fun _ => trivial⟩
  split
  · refine ⟨trivial, ?_⟩
    rintro (_ | _)
    · exact ⟨Or.inr ⟨ascii "cannot create file", by decide, rfl⟩, fun _ => trivial⟩
    · exact servePutBody_lines
  · exact servePutBody_lines

/-- After the round a worker sends `OK 0`, one error or nothing. -/
theorem settleRound_lines {cfg : Config} {budget n : ℕ} {req : Request} :
    (settleRound cfg budget req n).Only Eff.uploadLine (fun _ => True) := by
  unfold settleRound commitRequest finishRequest
  simp only
  split
  · simp [Eff.uploadLine]
  · split
    · refine ⟨trivial, ?_⟩
      rintro (_ | _)
      · exact ⟨Or.inr ⟨ascii "cannot commit file", by decide, rfl⟩, fun _ =>
          ⟨trivial, fun _ => ⟨trivial, fun _ => trivial⟩⟩⟩
      · exact ⟨Or.inl rfl, fun _ => ⟨trivial, fun _ => ⟨trivial, fun _ => ⟨trivial, fun _ =>
          ⟨trivial, fun _ => trivial⟩⟩⟩⟩⟩
    · simp [Eff.uploadLine]

theorem workerRound_lines {cfg : Config} {d : ScheduleDecision} (hput : d.request.op = .PUT) :
    (workerRound cfg d).Only Eff.uploadLine (fun _ => True) := by
  have hdispatch : ∀ req : Request, req.op = .PUT →
      (dispatchRound cfg d.budget req).Only Eff.uploadLine (fun _ => True) := by
    intro req hop
    have hserve : (serveRound cfg d.budget req).Only Eff.uploadLine (fun _ => True) := by
      unfold serveRound
      rw [hop]
      simp only
      split
      · exact ⟨Or.inl rfl, fun _ => servePut_lines⟩
      · exact servePut_lines
    refine Prog.only_bind.mpr (hserve.mono (fun _ h => h) ?_)
    rintro ⟨success, req', n⟩ -
    simp only
    split
    · exact settleRound_lines
    · unfold abandonRequest
      split <;> simp [Eff.uploadLine]
  unfold workerRound stampStart
  split
  · exact ⟨trivial, fun _ => hdispatch _ hput⟩
  · exact hdispatch _ hput

/-- All lines of a log are lines of an upload. -/
def UploadLines (log : List Call) : Prop := ∀ call ∈ log, call.eff.uploadLine

theorem UploadLines.snoc {log : List Call} {call : Call} (h : UploadLines log)
    (hcall : call.eff.uploadLine) : UploadLines (log ++ [call]) := by
  intro call' hmem
  rcases List.mem_append.mp hmem with hmem | hmem
  · exact h call' hmem
  · exact List.mem_singleton.mp hmem ▸ hcall

theorem UploadLines.sends {log : List Call} (h : UploadLines log) {line : Bytes}
    (hmem : line ∈ sends log) : UploadLine line := by
  obtain ⟨⟨e, r⟩, hcall, hsent⟩ := List.mem_flatMap.mp hmem
  have hline := h _ hcall
  cases e with
  | sendAll fd data => exact List.mem_singleton.mp hsent ▸ hline
  | _ => cases hsent

def lineLife : Lifecycle where
  allowed _ _ := True
  always := UploadLines
  queued _ := UploadLines
  ended _ := UploadLines

theorem lineLife_soundFor {cfg : Config} {request : Request} (hput : request.op = .PUT) :
    lineLife.SoundFor cfg request where
  enter log hadm _ := by
    have hlog : UploadLines log := by
      rintro ⟨e, r⟩ hmem
      have hcall := hadm.calls _ hmem
      cases e with
      | sendAll fd data => exact hcall.elim
      | _ => trivial
    exact ⟨hlog.snoc trivial, hlog.snoc trivial⟩
  round req log hsame h := by
    have hbudget := hsame.trans (cfg.scheduler.getBudget_same req)
    have hlines : (workerRound cfg (cfg.scheduler.decision req)).Only Eff.uploadLine
        (fun _ => True) := workerRound_lines (hbudget.op.trans hput)
    refine Prog.wp_mono (hlines.wp_inv (I := UploadLines) (fun log e hlog he => ⟨hlog, ?_⟩)
      (fun log e r hlog he => hlog.snoc he) h) fun _ _ h => h.2
    cases e <;> first | trivial | exact hlog.snoc trivial
  close _ _ h := h.snoc trivial

/-! ## The server -/

section Header

variable {wireName : Bytes} {n : ℕ} {fd : Fd}

theorem putHeader_line (hno : newline ∉ wireName) (n : ℕ) : HeaderLine (putHeader wireName n) := by
  refine ⟨ascii "PUT" ++ 32 :: (wireName ++ 32 :: decimal n), ?_, ?_⟩
  · have hdigits : newline ∉ decimal n := decimal_notMem (by decide)
    have hput : newline ∉ ascii "PUT" := by decide
    have hblank : newline ≠ 32 := by decide
    simp [hno, hdigits, hput, hblank]
  · rw [putHeader_eq]
    simp

/-- A header that is accepted asks for an upload of this size under the one word of the name. -/
theorem parse_putHeader_words {base : Request}
    (h : parseRequestHeader (putHeader wireName n) fd = .ok base) :
    base.op = .PUT ∧ words isspace wireName = [base.filename] ∧ base.totalBytes = n := by
  have hwords := parseRequestHeader_words h
  rw [putHeader_words, Request.HeaderWords] at hwords
  split at hwords
  · obtain ⟨op, heq, hop⟩ := hwords
    rw [← (List.cons.inj heq).1] at hop
    exact absurd hop (by decide)
  · obtain ⟨op, heq, hop⟩ := hwords
    rw [← (List.cons.inj heq).1] at hop
    exact absurd hop (by decide)
  · rename_i hput
    obtain ⟨op, digits, heq, -, -, hvalue, -⟩ := hwords
    have htail : words isspace wireName ++ [decimal n] = [base.filename] ++ [digits] :=
      (List.cons.inj heq).2
    obtain ⟨hname, hdigits⟩ := List.append_inj' htail rfl
    rw [← (List.cons.inj hdigits).1, digitsValue_decimal] at hvalue
    exact ⟨hput, hname, hvalue.symm⟩

end Header

section Answered

variable {got : Bytes}

/-- Nothing that begins with an error line acknowledges an upload. -/
theorem Acknowledged.not_error {reason : Bytes} (h : Acknowledged got) :
    ¬ got <+: errLine reason := by
  obtain ⟨line, dropped, rest, -, hok, rfl⟩ := h
  intro hpre
  obtain ⟨more, hmore⟩ := hok.trans (((List.prefix_append _ _).trans
    ((List.prefix_append _ _).trans (List.prefix_append _ _))).trans hpre)
  have hfirst := congrArg List.head? hmore
  simp [ascii, errLine] at hfirst

/-- What is behind the first `OK 0` holds another one. -/
theorem Acknowledged.second {wire : Bytes} (h : Acknowledged got) (hgot : got <+: okLine 0 ++ wire) :
    ∃ dropped, dropped ++ okLine 0 <+: wire := by
  obtain ⟨line, dropped, rest, hline, -, rfl⟩ := h
  obtain ⟨more, hmore⟩ := hgot
  rw [List.append_assoc, List.append_assoc, List.append_assoc] at hmore
  obtain ⟨-, hwire⟩ := hline.unique (Fetch.okLine_headerLine 0) hmore
  refine ⟨dropped, rest ++ more, ?_⟩
  rw [List.append_assoc]
  exact hwire

/-- An error line of an upload has no `OK 0` in it. -/
theorem no_ok_in_error {reason dropped : Bytes} (h : (79 : UInt8) ∉ reason) :
    ¬ dropped ++ okLine 0 <+: errLine reason := by
  intro hpre
  have hmem : (79 : UInt8) ∈ dropped ++ okLine 0 :=
    List.mem_append_right _ (by decide)
  have hin := hpre.subset hmem
  rw [errLine, List.mem_append, List.mem_append] at hin
  rcases hin with (hin | hin) | hin
  · exact absurd hin (by decide)
  · exact h hin
  · exact absurd hin (by decide)

end Answered

namespace Sys

variable {P W : ℕ} {cfg : Config} {dir : Directory} {t : Sys P W} {request : Request} {fd : Fd}
  {wireName data got : Bytes}

/-- What the server admits of such a client. -/
theorem admitted_upload (hno : newline ∉ wireName)
    (hrun : RunWhere cfg (fun _ _ => True) (init P W dir) t) (hmem : request ∈ t.admitted)
    (hheard : received (t.log request.clientFd) <+: putHeader wireName data.length ++ data) :
    request.op = .PUT ∧ words isspace wireName = [request.filename] ∧
      request.totalBytes = data.length := by
  obtain ⟨before, after, hlog, hadm⟩ := (run_tracked hrun hmem).admitted
  obtain ⟨header, base, hline, hreceived, hparse, hop, hname, hsize⟩ := hadm.header
  rw [hlog, received_append, hreceived, List.append_assoc] at hheard
  obtain ⟨more, hmore⟩ := hheard
  rw [List.append_assoc] at hmore
  obtain ⟨rfl, -⟩ := hline.unique (putHeader_line hno data.length) hmore
  obtain ⟨hput, hwords, htotal⟩ := parse_putHeader_words hparse
  rw [hop] at hput
  exact ⟨hput, hname ▸ hwords, (hsize hput).symm.trans htotal⟩

/-- A client that is not admitted reads no acknowledgement. -/
theorem acknowledged_admitted (hno : newline ∉ wireName)
    (hrun : RunWhere cfg (fun _ _ => True) (init P W dir) t)
    (hheard : received (t.log fd) <+: putHeader wireName data.length ++ data)
    (hgot : got <+: (sends (t.log fd)).flatten) (hack : Acknowledged got) :
    ∃ request ∈ t.admitted, request.clientFd = fd := by
  by_contra hnone
  have hcount : t.admittedCount fd = 0 := by
    refine List.count_eq_zero.mpr fun hmem => hnone ?_
    obtain ⟨request, hreq, hfd⟩ := List.mem_map.mp hmem
    exact ⟨request, hreq, hfd⟩
  rcases run_replied hrun hcount with ⟨hsilent, -⟩ | ⟨before, line, hbefore, hanswer, hsent⟩
  · rw [hsilent] at hgot
    exact hack.not_error (hgot.trans (List.nil_prefix (l := errLine [])))
  · rw [hsent, List.flatten_singleton] at hgot
    cases hanswer with
    | health hheader hparse hop hmem =>
        obtain ⟨after, hafter⟩ := hbefore
        obtain ⟨more, hmore⟩ := hheader.received
        rw [← hafter, received_append, ← hmore, List.append_assoc] at hheard
        obtain ⟨rest, hrest⟩ := hheard
        rw [List.append_assoc] at hrest
        obtain ⟨rfl, -⟩ := hheader.line.unique (putHeader_line hno data.length) hrest
        rw [(parse_putHeader_words hparse).1] at hop
        cases hop
    | _ => exact hack.not_error hgot

/-- An upload whose client read both status lines was renamed. -/
theorem acknowledged_renamed (hput : request.op = .PUT)
    (hrun : RunWhere cfg (fun _ _ => True) (init P W dir) t) (hmem : request ∈ t.admitted)
    (hgot : got <+: (sends (t.log request.clientFd)).flatten) (hack : Acknowledged got) :
    ⟨.rename (stagingPath cfg request) (finalPath cfg request), true⟩ ∈
      t.log request.clientFd := by
  have hlines : UploadLines (t.log request.clientFd) :=
    (Lifecycle.run_holdsFor (lineLife_soundFor hput) (hrun.mono fun _ _ _ _ _ => trivial)
      hmem).always
  rcases (run_putLife hput hrun hmem).always.trail.answers with
    hsends | hsends | ⟨reason, hsends⟩ | ⟨-, hrename⟩
  · rw [hsends] at hgot
    exact absurd (hgot.trans (List.nil_prefix (l := errLine []))) hack.not_error
  · rw [hsends, List.flatten_cons] at hgot
    obtain ⟨dropped, hpre⟩ := hack.second hgot
    have hempty := List.prefix_nil.mp hpre
    exact absurd (List.append_eq_nil_iff.mp hempty).2 (by decide)
  · rw [hsends, List.flatten_cons, List.flatten_singleton] at hgot
    obtain ⟨dropped, hpre⟩ := hack.second hgot
    have hmem : errLine reason ∈ sends (t.log request.clientFd) := by simp [hsends]
    rcases hlines.sends hmem with heq | ⟨text, htext, heq⟩
    · exact absurd heq.symm (okLine_ne_errLine 0 reason)
    · rw [heq] at hpre
      exact absurd hpre (no_ok_in_error htext)
  · exact hrename

/-- In a run from the start to `t` the upload of `request` was renamed, and at that moment `data`
was under its name. -/
def StoredAs (cfg : Config) (dir : Directory) (request : Request) (data : Bytes) (t : Sys P W) :
    Prop :=
  ∃ u l v file, RunWhere cfg (fun _ _ => True) (init P W dir) u ∧ u.step cfg l = some v ∧
    RunWhere cfg (fun _ _ => True) v t ∧ u.callOf l = some (request.clientFd,
      ⟨.rename (stagingPath cfg request) (finalPath cfg request), true⟩) ∧
    v.dir (cstr (finalPath cfg request)) = some file ∧ file.bytes = data

/-- What was renamed is what the client sent, if no other upload works on its staging file. -/
theorem renamed_stored (hput : request.op = .PUT) (hnul : (0 : UInt8) ∉ request.filename)
    (htotal : request.totalBytes = data.length) (hno : newline ∉ wireName)
    (hrun : RunWhere cfg (fun _ _ => True) (init P W dir) t) (hmem : request ∈ t.admitted)
    (hheard : received (t.log request.clientFd) <+: putHeader wireName data.length ++ data)
    (hfew : t.accepted.length ≤ 2 ^ 32)
    (hnames : ∀ b ∈ t.admitted, b.op = .PUT → cstr b.filename ≠ stagingName request)
    (hrename : ⟨.rename (stagingPath cfg request) (finalPath cfg request), true⟩ ∈
      t.log request.clientFd) : StoredAs cfg dir request data t := by
  have hown := run_ownStaging hrun hfew hmem hnul hnames
  obtain ⟨before, after, hlog⟩ := List.append_of_mem hrename
  obtain ⟨u, l, hmoment, hadmitted⟩ := moment_admitted hown hmem hlog id (by simp)
  obtain ⟨v, hstep, hrest⟩ := hmoment.after
  have hstream : received (u.log request.clientFd) <+: putHeader wireName data.length ++ data := by
    obtain ⟨tail, htail⟩ := run_log_extends
      (Run.trans (.tail (.refl u) hmoment.allowed hstep) hrest) request.clientFd
    rw [← htail, received_append] at hheard
    exact (List.prefix_append _ _).trans hheard
  obtain ⟨-, file, hfile, hbytes⟩ := rename_stores hput (putHeader_line hno data.length) hstream
    hmoment.before hadmitted hstep hmoment.call
  refine ⟨u, l, v, file, hmoment.before.mono fun _ _ _ => trivial, hstep,
    hrest.mono fun _ _ _ => trivial, hmoment.call, hfile, ?_⟩
  rw [hbytes, htotal, List.take_length]

end Sys

/-! ## Both together -/

namespace Fetch

variable {P W : ℕ} {cfg : Config} {dir : Directory} {fd : Fd} {wireName data : Bytes}
  {s t : Fetch P W}

/-- `put_file` on the network of a download. -/
def startPut (P W : ℕ) (dir : Directory) (wireName data : Bytes) : Fetch P W where
  server := .init P W dir
  client := net (putFile wireName data)

/-- The client is where its contract says. -/
structure Parleys (wireName data : Bytes) (g : Parley) (t : Fetch P W) : Prop where
  client : t.client.wp (parleying (putHeader wireName data.length) data)
    (fun v g => v = 0 → Acknowledged g.got) g
  got : g.got = t.wire.take t.taken
  taken : t.taken ≤ t.wire.length
  sent : t.sent <+: putHeader wireName data.length ++ data
  sending : ∀ sent, g.sent = some sent → sent = t.sent

theorem start_parleys :
    Parleys wireName data ⟨some [], []⟩ (startPut P W dir wireName data) where
  client := Prog.wp_embed.mpr (putFile_parleys wireName)
  got := rfl
  taken := le_rfl
  sent := List.nil_prefix
  sending _ h := (Option.some.inj h).symm

theorem clientStep_parleys {g : Parley} (h : Parleys wireName data g s)
    (hstep : ClientStep fd s t) : ∃ g', Parleys wireName data g' t := by
  have hclient := h.client
  cases hstep with
  | connect ok next hcall =>
      rw [hcall] at hclient
      refine ⟨_, hclient.2 ok trivial, ?_, h.taken, h.sent, fun sent hsent => ?_⟩
      · exact (List.append_nil _).trans h.got
      · cases ok with
        | true => exact h.sending sent hsent
        | false => cases hsent
  | sent part piece ok next hcall hpart hok =>
      rw [hcall] at hclient
      obtain ⟨sent, hsent, hpre⟩ := hclient.1 part rfl
      obtain rfl := h.sending sent hsent
      refine ⟨_, hclient.2 ok trivial, (List.append_nil _).trans h.got, h.taken, ?_,
        fun sent' hsent' => ?_⟩
      · exact ((List.prefix_append_right_inj s.sent).mpr hpart).trans hpre
      · cases ok with
        | true =>
            change g.sent.map (· ++ part) = some sent' at hsent'
            rw [hsent] at hsent'
            rw [hok rfl]
            exact (Option.some.inj hsent').symm
        | false => cases hsent'
  | received size count next hcall hsize hcount =>
      rw [hcall] at hclient
      refine ⟨_, hclient.2 (some (s.stream.take count)) trivial, ?_, ?_, h.sent, h.sending⟩
      · change g.got ++ s.stream.take count = s.wire.take (s.taken + count)
        rw [h.got, stream, List.take_add]
      · rw [stream, List.length_drop] at hcount
        have htaken := h.taken
        change s.taken + count ≤ s.wire.length
        omega
  | ended size next hcall =>
      rw [hcall] at hclient
      exact ⟨_, hclient.2 none trivial, (List.append_nil _).trans h.got, h.taken, h.sent,
        h.sending⟩
  | close next hcall =>
      rw [hcall] at hclient
      exact ⟨_, hclient.2 () trivial, (List.append_nil _).trans h.got, h.taken, h.sent, h.sending⟩
  | opened name ok next hcall =>
      rw [hcall] at hclient
      exact hclient.1.elim
  | wrote data part ok next hcall hpart hok =>
      rw [hcall] at hclient
      exact hclient.1.elim
  | closed ok count next hcall =>
      rw [hcall] at hclient
      exact hclient.1.elim

theorem Parleys.more {g : Parley} (h : Parleys wireName data g s) (server : Sys P W) (wire : Bytes)
    (broken : Bool) : Parleys wireName data g
      { s with server := server, wire := s.wire ++ wire, broken := broken } := by
  refine ⟨h.client, h.got.trans ?_, h.taken.trans ?_, h.sent, h.sending⟩
  · exact (List.take_append_of_le_length h.taken).symm
  · exact (List.prefix_append s.wire wire).length_le

/-- What is on the stream the server has sent. -/
structure Sent (fd : Fd) (t : Fetch P W) : Prop where
  wire : t.wire <+: (sends (t.server.log fd)).flatten
  whole : t.broken = false → t.wire = (sends (t.server.log fd)).flatten

theorem serverStep_sent {server : Sys P W} {l : LinkScheduling.Label P W} {count : ℕ}
    (h : Sent fd s) (hstep : s.server.step cfg l = some server) :
    Sent fd { s.carry fd count (s.server.callOf l) with server := server } := by
  have hextends : (sends (s.server.log fd)).flatten <+: (sends (server.log fd)).flatten := by
    rw [Sys.step_log hstep, sends_append, List.flatten_append]
    exact List.prefix_append _ _
  by_cases hsend : s.broken = false ∧
      ∃ fd' data ok, s.server.callOf l = some (fd, ⟨.sendAll fd' data, ok⟩)
  · obtain ⟨hbroken, fd', data, ok, hcall⟩ := hsend
    have hsends : (sends (server.log fd)).flatten = s.wire ++ data := by
      rw [Sys.callOf_log hcall hstep, h.whole hbroken, sends_append, List.flatten_append]
      simp [Eff.sent]
    rw [hcall]
    cases ok with
    | true =>
        simp only [carry, hbroken, ne_eq, not_true_eq_false, Bool.false_eq_true, or_self,
          if_false, if_true]
        exact ⟨hsends ▸ List.prefix_rfl, fun _ => hsends.symm⟩
    | false =>
        simp only [carry, hbroken, ne_eq, not_true_eq_false, Bool.false_eq_true, or_self,
          if_false]
        refine ⟨hsends ▸ ?_, fun h => by cases h⟩
        exact (List.prefix_append_right_inj s.wire).mpr (List.take_prefix _ _)
  · rw [carry_eq_self]
    · refine ⟨h.wire.trans hextends, fun hbroken => (h.whole hbroken).trans ?_⟩
      rw [sends_step hstep fun fd' data ok heq => hsend ⟨hbroken, fd', data, ok, heq⟩]
    · cases hbroken : s.broken with
      | true => exact Or.inl rfl
      | false => exact Or.inr fun fd' data ok heq => hsend ⟨hbroken, fd', data, ok, heq⟩

/-- An upload and the server, from the start on. -/
structure Uploads (cfg : Config) (dir : Directory) (fd : Fd) (wireName data : Bytes)
    (t : Fetch P W) : Prop where
  server : Sys.RunWhere cfg (fun _ _ => True) (.init P W dir) t.server
  heard : received (t.server.log fd) <+: t.sent
  parleys : ∃ g, Parleys wireName data g t
  sent : Sent fd t

theorem run_uploads
    (hrun : Run (step cfg fd) (fun _ _ => True) (startPut P W dir wireName data) t) :
    Uploads cfg dir fd wireName data t := by
  refine hrun.invariant (Uploads cfg dir fd wireName data)
    ⟨.refl _, List.nil_prefix, ⟨_, start_parleys⟩, List.nil_prefix, fun _ => rfl⟩ ?_
  intro s l u h _ hstep
  obtain ⟨g, hparleys⟩ := h.parleys
  cases l with
  | server l count =>
      obtain ⟨server, hserver, hrest⟩ := Option.bind_eq_some_iff.mp hstep
      split at hrest
      · rename_i hheard
        cases hrest
        have hsent : Sent fd { s.carry fd count (s.server.callOf l) with server := server } :=
          serverStep_sent h.sent hserver
        obtain ⟨wire, broken, hcarry⟩ := carry_frame fd s count (s.server.callOf l)
        rw [hcarry] at hsent ⊢
        exact ⟨.tail h.server trivial hserver, hheard, ⟨g, hparleys.more server wire broken⟩, hsent⟩
      · cases hrest
  | client ok count =>
      have hclient := clientStep_cases hstep
      obtain ⟨hserver, hwire, hbroken⟩ := hclient.frame
      refine ⟨hserver ▸ h.server, ?_, clientStep_parleys hparleys hclient, ?_, ?_⟩
      · rw [hserver]
        exact h.heard.trans hclient.sent_extends
      · rw [hwire, hserver]
        exact h.sent.wire
      · rw [hwire, hserver, hbroken]
        exact h.sent.whole

/-- The first status line comes in two pieces, and the body in two. -/
def twoBytes : List (Label 1 1) :=
  let before : List (LinkScheduling.Label 1 1) := arrive 7 (ascii "PUT a 2\n") 3 ++ work 2
  let after : List (LinkScheduling.Label 1 1) := List.replicate 3 (.workerCall 0 {}) ++
    [.workerCall 0 { data := some (ascii "x") }, .workerCall 0 {},
      .workerCall 0 { data := some (ascii "y") }] ++ List.replicate 8 (.workerCall 0 {})
  [.client true 0, .client true 0] ++ before.map (.server · 0) ++
    [.client true 2, .client true 3, .client true 0] ++ after.map (.server · 0) ++
    [.client true 5, .client true 0]

end Fetch

end LinkScheduling
