import LinkScheduling.Metatheory.Fairness
import LinkScheduling.Metatheory.Tracking
import LinkScheduling.Put.Service

/-!
# A PUT stores what the client sends

A client that sends `PUT name n`, then a body, is admitted under this name and size
unless the connection breaks, the header comes too late or the server shuts down. The
bytes stored for it are the first `n` bytes after the header line, in order, and the
rename puts exactly these under the name.
-/

namespace LinkScheduling

open Framework

/-! ## The stream of a client -/

theorem putHeader_headerLine {name : Bytes} (hspace : ∀ c ∈ name, isspace c = false) (n : ℕ) :
    HeaderLine (putHeader name n) := by
  refine ⟨ascii "PUT" ++ 32 :: (name ++ 32 :: decimal n), ?_, ?_⟩
  · have hname : newline ∉ name := fun h => absurd (hspace _ h) (by decide)
    have hdigits : newline ∉ decimal n := decimal_notMem (by decide)
    have hput : newline ∉ ascii "PUT" := by decide
    have hblank : newline ≠ 32 := by decide
    simp [hname, hdigits, hput, hblank]
  · rw [putHeader_eq]
    simp

/-- What follows the header line of a stream. -/
theorem payload_of_received {header rest : Bytes} {log : List Call} (h : HeaderLine header)
    (hlog : received log <+: header ++ rest) : payload log <+: rest := by
  rcases List.prefix_or_prefix_of_prefix hlog (List.prefix_append header rest) with hpre | hpre
  · obtain ⟨text, hno, rfl⟩ := h
    rcases List.prefix_concat_iff.mp hpre with heq | hpre
    · rw [payload_of_header ⟨text, hno, rfl⟩ (heq.trans (List.append_nil _).symm)]
      exact List.nil_prefix
    · -- the header line is not complete yet
      have hall : ∀ c ∈ received log, decide (c ≠ newline) = true := by
        intro c hc
        simp only [ne_eq, decide_eq_true_eq]
        rintro rfl
        exact hno (hpre.subset hc)
      rw [payload, List.dropWhile_eq_nil_iff.mpr hall]
      exact List.nil_prefix
  · obtain ⟨tail, htail⟩ := hpre
    rw [payload_of_header h htail.symm]
    rw [← htail] at hlog
    exact (List.prefix_append_right_inj header).mp hlog

theorem payload_length {header rest : Bytes} {log : List Call} (h : HeaderLine header)
    (hlog : received log <+: header ++ rest) (hheaded : Headed log) :
    (received log).length = header.length + (payload log).length := by
  rcases List.prefix_or_prefix_of_prefix hlog (List.prefix_append header rest) with hpre | hpre
  · obtain ⟨text, hno, rfl⟩ := h
    rcases List.prefix_concat_iff.mp hpre with heq | hpre
    · rw [payload_of_header ⟨text, hno, rfl⟩ (heq.trans (List.append_nil _).symm), heq]
      rfl
    · exact absurd (hpre.subset hheaded) hno
  · obtain ⟨tail, htail⟩ := hpre
    rw [payload_of_header h htail.symm, ← htail, List.length_append]

/-- Why the parser may refuse a well-formed upload: the connection failed or ended, the
header came too late, or the queue was closed. -/
def Interrupted (log : List Call) : Prop :=
  (∃ fd size timeout, ⟨.recv fd size timeout, none⟩ ∈ log) ∨
  (∃ fd size timeout, ⟨.recv fd size timeout, some []⟩ ∈ log) ∨
  (∃ start now, log.head? = some ⟨.now, start⟩ ∧ ⟨.now, now⟩ ∈ log ∧
    start + 1000 * 1000000 ≤ now) ∨
  ∃ req, ⟨.push req, false⟩ ∈ log

theorem Interrupted.mono {before log : List Call} (h : Interrupted before) (hpre : before <+: log) :
    Interrupted log := by
  rcases h with ⟨fd, size, timeout, h⟩ | ⟨fd, size, timeout, h⟩ | ⟨start, now, hhead, hnow, h⟩ |
    ⟨req, h⟩
  · exact Or.inl ⟨fd, size, timeout, hpre.subset h⟩
  · exact Or.inr (Or.inl ⟨fd, size, timeout, hpre.subset h⟩)
  · refine Or.inr (Or.inr (Or.inl ⟨start, now, ?_, hpre.subset hnow, h⟩))
    obtain ⟨after, rfl⟩ := hpre
    rw [List.head?_append, hhead]
    rfl
  · exact Or.inr (Or.inr (Or.inr ⟨req, hpre.subset h⟩))

section Stream

variable {cfg : Config} {fd : Fd} {name rest : Bytes} {n : ℕ} {log : List Call}
  (hvalid : isValidFilename name = true) (hspace : ∀ c ∈ name, isspace c = false)
  (hn : n < 2 ^ 63)

include hvalid in
theorem name_ne_nil : name ≠ [] := by
  rintro rfl
  cases hvalid

include hvalid hspace hn

/-- A parser refuses a well-formed upload only when it is interrupted. -/
theorem Refused.interrupted (hshort : (putHeader name n).length ≤ 8192)
    (hlog : received log <+: putHeader name n ++ rest) (h : Refused cfg fd log) :
    Interrupted log := by
  have hline := putHeader_headerLine hspace n
  have hparse := parse_putHeader fd (name_ne_nil hvalid) hspace (Nat.lt_trans hn (by decide))
  have hheader : ∀ header tail, received log = header ++ tail → HeaderLine header →
      header = putHeader name n := by
    intro header tail hrec hheader
    obtain ⟨more, hmore⟩ := hlog
    rw [hrec, List.append_assoc] at hmore
    exact (hheader.unique hline hmore).1
  cases h with
  | unread h =>
      cases h with
      | failed fd size timeout h => exact Or.inl ⟨fd, size, timeout, h⟩
      | ended fd size timeout h => exact Or.inr (Or.inl ⟨fd, size, timeout, h⟩)
      | late start now hhead hnow h =>
          exact Or.inr (Or.inr (Or.inl ⟨start, now, hhead, hnow, h⟩))
      | long hlong hno =>
          -- the newline of the header is among the first 8192 bytes
          have hpre : putHeader name n <+: received log :=
            List.prefix_of_prefix_length_le (List.prefix_append _ _) hlog
              (Nat.le_trans hshort hlong)
          obtain ⟨text, -, heq⟩ := hline
          refine absurd (hpre.subset ?_) hno
          rw [heq]
          simp
  | header header tail hrec hheader' hinvalid =>
      rw [hheader header tail hrec hheader'] at hinvalid
      have := hinvalid _ hparse (by simp)
      rw [hvalid] at this
      cases this
  | missing header tail path base hrec hheader' hbase hget _ =>
      rw [hheader header tail hrec hheader', hparse] at hbase
      cases hbase
      cases hget
  | closed req h => exact Or.inr (Or.inr (Or.inr ⟨req, h⟩))

/-- What is admitted from the stream is the upload the client asks for. -/
theorem Tracked.putHeader {request : Request} (h : Tracked cfg request log)
    (hlog : received log <+: putHeader name n ++ rest) :
    request.op = .PUT ∧ request.filename = name ∧ request.totalBytes = n := by
  obtain ⟨before, after, rfl, hadm⟩ := h.admitted
  obtain ⟨header, base, hheader, hrec, hparse, hop, hname, hsize⟩ := hadm.header
  obtain ⟨more, hmore⟩ := hlog
  rw [received_append, hrec, List.append_assoc, List.append_assoc] at hmore
  have heq := (hheader.unique (putHeader_headerLine hspace n) hmore).1
  rw [heq, parse_putHeader request.clientFd (name_ne_nil hvalid) hspace
    (Nat.lt_trans hn (by decide))] at hparse
  cases hparse
  exact ⟨hop.symm, hname.symm, (hsize hop.symm).symm⟩

end Stream

/-! ## The log of an upload -/

theorem Along.init {F : List Call → Call → Prop} {log : List Call} {call : Call}
    (h : Along F (log ++ [call])) : Along F log ∧ F log call := by
  refine ⟨fun before call' after heq => h before call' (after ++ [call]) ?_, h log call [] rfl⟩
  rw [heq]
  simp

/-- What an upload of `rest` has done so far: it answers before it stores, stores only the
bytes of the body at their place, and renames once all of them were received. -/
structure Uploading (cfg : Config) (request : Request) (rest : Bytes) (log : List Call) :
    Prop where
  creates : ∀ before path ok after, log = before ++ ⟨.create path, ok⟩ :: after →
    path = stagingPath cfg request ∧ sends before = [okLine 0]
  stores : ∀ before path off data r after, log = before ++ ⟨.write path off data, r⟩ :: after →
    path = stagingPath cfg request ∧ sends before = [okLine 0] ∧
      off + data.length ≤ request.totalBytes ∧ data <+: rest.drop off
  renames : ∀ before src dst ok after, log = before ++ ⟨.rename src dst, ok⟩ :: after →
    src = stagingPath cfg request ∧ dst = finalPath cfg request ∧ sends before = [okLine 0] ∧
      request.totalBytes ≤ (payload before).length
  answers : sends log = [] ∨ sends log = [okLine 0] ∨
    (∃ reason, sends log = [okLine 0, errLine reason]) ∨
    sends log = [okLine 0, okLine 0] ∧
      ⟨.rename (stagingPath cfg request) (finalPath cfg request), true⟩ ∈ log

section Log

variable {cfg : Config} {request : Request} {log : List Call}

theorem Along.answers (h : Along (Proper cfg request) log) :
    sends log = [] ∨ sends log = [okLine 0] ∨
      (∃ reason, sends log = [okLine 0, errLine reason]) ∨
      sends log = [okLine 0, okLine 0] ∧
        ⟨.rename (stagingPath cfg request) (finalPath cfg request), true⟩ ∈ log := by
  induction log using List.reverseRecOn with
  | nil => exact Or.inl rfl
  | append_singleton log call ih =>
      obtain ⟨htrail, hcall⟩ := h.init
      rw [sends_append, sends_cons, sends_nil, List.append_nil]
      by_cases hsend : ∃ fd data ok, call = ⟨.sendAll fd data, ok⟩
      · obtain ⟨fd, data, ok, rfl⟩ := hsend
        rcases hcall with ⟨hnone, rfl⟩ | ⟨hone, ⟨reason, rfl⟩ | ⟨rfl, hrename⟩⟩
        · rw [hnone]
          exact Or.inr (Or.inl rfl)
        · rw [hone]
          exact Or.inr (Or.inr (Or.inl ⟨reason, rfl⟩))
        · rw [hone]
          exact Or.inr (Or.inr (Or.inr ⟨rfl, List.mem_append_left _ hrename⟩))
      · have hquiet : call.eff.sent = [] := by
          rcases call with ⟨e, r⟩
          cases e with
          | sendAll fd data => exact absurd ⟨fd, data, r, rfl⟩ hsend
          | _ => rfl
        rw [hquiet, List.append_nil]
        refine (ih htrail).imp_right (Or.imp_right (Or.imp_right fun h => ?_))
        exact ⟨h.1, List.mem_append_left _ h.2⟩

theorem Along.uploading {header rest : Bytes} (h : Along (Proper cfg request) log)
    (hheader : HeaderLine header) (hlog : received log <+: header ++ rest) :
    Uploading cfg request rest log where
  creates before path ok after heq := h before _ after heq
  stores before path off data r after heq := by
    obtain ⟨hpath, hsends, hle, hdata⟩ := h before _ after heq
    refine ⟨hpath, hsends, hle, hdata.trans ?_⟩
    have hbefore : received before <+: header ++ rest := by
      rw [heq, received_append] at hlog
      exact (List.prefix_append _ _).trans hlog
    exact (payload_of_received hheader hbefore).drop off
  renames before src dst ok after heq := by
    obtain ⟨hsrc, hdst, hsends, hle, -⟩ := h before _ after heq
    exact ⟨hsrc, hdst, hsends, hle⟩
  answers := h.answers

theorem Admissible.headed (h : Admissible cfg request log) : Headed log := by
  obtain ⟨header, -, ⟨text, -, rfl⟩, hrec, -⟩ := h.header
  rw [Headed, hrec]
  simp

/-- A rename finds all of the body among what was received. -/
theorem Uploading.rename_received {header rest : Bytes} (h : Uploading cfg request rest log)
    (htracked : Tracked cfg request log) (hheader : HeaderLine header)
    (hlog : received log <+: header ++ rest) {src dst : Bytes} {ok : Bool}
    (hmem : ⟨.rename src dst, ok⟩ ∈ log) :
    header.length + request.totalBytes ≤ (received log).length := by
  obtain ⟨before, after, hsplit⟩ := List.append_of_mem hmem
  have hle := (h.renames before src dst ok after hsplit).2.2.2
  obtain ⟨first, more, hbefore, hadm⟩ := htracked.admitted_before hsplit id (by simp)
  have hheaded : Headed before := by
    rw [hbefore]
    exact hadm.headed.append _
  rw [payload_length hheader hlog (hsplit ▸ hheaded.append _), hsplit,
    hheaded.payload_append, List.length_append]
  omega

end Log

/-! ## Runs -/

namespace Sys

variable {P W : ℕ} {cfg : Config} {dir : Directory} {s t : Sys P W} {request : Request}

/-- What connection `fd` receives is a part, from the start, of `stream`. -/
def Streams (fd : Fd) (stream : Bytes) (s : Sys P W) (l : Label P W) : Prop :=
  ∀ call, s.callOf l = some (fd, call) → received (s.log fd) ++ call.received <+: stream

/-- No other connection changes what is under `p`. -/
def Alone (p : Bytes) (fd : Fd) (s : Sys P W) (l : Label P W) : Prop :=
  ∀ fd' call, s.callOf l = some (fd', call) → fd' ≠ fd → ¬ call.Changes p

/-- Storage calls succeed and receives deliver bytes. -/
def Flawless (fd : Fd) (s : Sys P W) (l : Label P W) : Prop :=
  ∀ call, s.callOf l = some (fd, call) →
    ¬ call.Fails ∧ ∀ src dst, call ≠ ⟨.rename src dst, false⟩

theorem run_streams {fd : Fd} {stream : Bytes}
    (hrun : RunWhere cfg (Streams fd stream) (init P W dir) t) :
    received (t.log fd) <+: stream := by
  refine hrun.invariant (fun t : Sys P W => received (t.log fd) <+: stream) List.nil_prefix ?_
  intro t l u ih hp hstep
  rw [step_log hstep fd, received_append]
  unfold newCalls
  split
  · rename_i fd' call hcall
    split
    · rename_i hfd
      subst hfd
      simpa using hp call hcall
    · simpa using ih
  · simpa using ih

/-- Every call of a log was made by an allowed step. -/
theorem run_call {A : Sys P W → Label P W → Prop} {fd : Fd} {call : Call}
    (hrun : RunWhere cfg A (init P W dir) t) (hmem : call ∈ t.log fd) :
    ∃ u l, A u l ∧ u.callOf l = some (fd, call) := by
  obtain ⟨before, after, hlog⟩ := List.append_of_mem hmem
  obtain ⟨u, l, hmoment, -⟩ := run_moment hrun hlog rfl
  exact ⟨u, l, hmoment.allowed, hmoment.call⟩

/-- The request itself never renames onto its staging path. -/
theorem run_ownPath (hput : request.op = .PUT) (hnul : (0 : UInt8) ∉ request.filename)
    (hrun : RunWhere cfg (Alone (cstr (stagingPath cfg request)) request.clientFd)
      (init P W dir) t) (hmem : request ∈ t.admitted) :
    RunWhere cfg (OwnPath (cstr (stagingPath cfg request)) request.clientFd)
      (init P W dir) t := by
  refine hrun.mono_reach fun u l v hu halone hstep hrest => ?_
  intro fd call hcall
  refine ⟨halone fd call hcall, ?_⟩
  rintro rfl honto
  obtain ⟨after, hafter⟩ := run_log_extends hrest request.clientFd
  rw [callOf_log hcall hstep, List.append_assoc] at hafter
  have hproper := (run_putLife hput hrun hmem).always.trail _ _ _ hafter.symm
  rcases call with ⟨e, r⟩
  cases e with
  | rename src dst =>
      obtain ⟨-, hdst, -⟩ := hproper
      obtain ⟨-, honto⟩ := honto
      rw [hdst] at honto
      exact stagingPath_ne_finalPath.mpr hnul honto.symm
  | _ => exact honto

/-- The rename of an upload puts the first `n` bytes after the header under the name. -/
theorem rename_stores {header rest : Bytes} (hput : request.op = .PUT)
    (hheader : HeaderLine header) (hstream : received (t.log request.clientFd) <+: header ++ rest)
    (hrun : RunWhere cfg (OwnPath (cstr (stagingPath cfg request)) request.clientFd)
      (init P W dir) t) (hmem : request ∈ t.admitted) {l : Label P W} {v : Sys P W}
    {src dst : Bytes} (hstep : t.step cfg l = some v)
    (hcall : t.callOf l = some (request.clientFd, ⟨.rename src dst, true⟩)) :
    request.totalBytes ≤ rest.length ∧ ∃ file, v.dir (cstr (finalPath cfg request)) = some file ∧
      file.bytes = rest.take request.totalBytes := by
  have hall : RunWhere cfg (fun _ _ => True) (init P W dir) v :=
    .tail (hrun.mono fun _ _ _ => trivial) trivial hstep
  have hmem' : request ∈ v.admitted := (step_history hstep).1.subset hmem
  have hlog := callOf_log hcall hstep
  obtain ⟨rfl, rfl, -, hle, file, hstaged, hbytes⟩ :=
    (run_putLife hput hall hmem').always.trail _ _ [] hlog
  have hpayload := payload_of_received hheader hstream
  refine ⟨hle.trans hpayload.length_le, file, ?_, ?_⟩
  · have hfile := run_fileAt hrun
    rw [hstaged] at hfile
    rw [step_dir hstep, hcall]
    simp [Eff.onDir, hfile]
  · rw [hbytes]
    obtain ⟨more, rfl⟩ := hpayload
    rw [List.take_append_of_le_length hle]

theorem rename_commits {header rest : Bytes} (hput : request.op = .PUT)
    (hnul : (0 : UInt8) ∉ request.filename) (hheader : HeaderLine header)
    (hrun : RunWhere cfg (fun s l => Streams request.clientFd (header ++ rest) s l ∧
      Alone (cstr (stagingPath cfg request)) request.clientFd s l) (init P W dir) t)
    (hmem : request ∈ t.admitted) {l : Label P W} {v : Sys P W} {src dst : Bytes}
    (hstep : t.step cfg l = some v)
    (hcall : t.callOf l = some (request.clientFd, ⟨.rename src dst, true⟩)) :
    request.totalBytes ≤ rest.length ∧ ∃ file, v.dir (cstr (finalPath cfg request)) = some file ∧
      file.bytes = rest.take request.totalBytes :=
  rename_stores hput hheader (run_streams (hrun.mono fun _ _ h => h.1))
    (run_ownPath hput hnul (hrun.mono fun _ _ h => h.2) hmem) hmem hstep hcall

/-- Without failures an upload that finished is complete. -/
theorem finished_completed (hput : request.op = .PUT) {exit : Exit}
    (hrun : RunWhere cfg (Flawless request.clientFd) (init P W dir) t)
    (hmem : request ∈ t.admitted) (hfin : (request.clientFd, exit) ∈ t.finished) :
    exit = .completed := by
  have hover := (run_putLife hput hrun hmem).finished exit hfin
  cases exit with
  | completed => rfl
  | commitFailed =>
      obtain ⟨before, reason, ok, after, -, hlog, -⟩ := hover
      have hrename : ⟨.rename (stagingPath cfg request) (finalPath cfg request), false⟩ ∈
          t.log request.clientFd := by
        rw [hlog]
        simp
      obtain ⟨u, l, hflawless, hcall⟩ := run_call hrun hrename
      exact absurd rfl ((hflawless _ hcall).2 _ _)
  | failed =>
      obtain ⟨before, after, hlost, hlog, -⟩ := hover
      obtain ⟨call, hcallmem, hfails⟩ := hlost.failed
      have hmem' : call ∈ t.log request.clientFd := by
        rw [hlog]
        exact List.mem_append_left _ hcallmem
      obtain ⟨u, l, hflawless, hcall⟩ := run_call hrun hmem'
      exact absurd hfails (hflawless _ hcall).1

/-- When an entry of a log was made in a behaviour. -/
theorem behaviour_moment (b : Behaviour (step (P := P) (W := W) cfg)) {fd : Fd} {call : Call}
    (hnew : (b.state 0).log fd = []) :
    ∀ {m : ℕ}, call ∈ (b.state m).log fd →
      ∃ k, k < m ∧ (b.state k).callOf (b.label k) = some (fd, call) := by
  intro m
  induction m with
  | zero =>
      intro hmem
      rw [hnew] at hmem
      cases hmem
  | succ m ih =>
      intro hmem
      rw [step_log (b.next m) fd, List.mem_append] at hmem
      rcases hmem with hmem | hmem
      · obtain ⟨k, hk, hcall⟩ := ih hmem
        exact ⟨k, Nat.lt_succ_of_lt hk, hcall⟩
      · refine ⟨m, Nat.lt_succ_self m, ?_⟩
        unfold newCalls at hmem
        split at hmem
        · rename_i fd' call' hcall
          split at hmem
          · rename_i hfd
            subst hfd
            rw [hcall, List.mem_singleton.mp hmem]
          · cases hmem
        · cases hmem

/-- A request that renames was admitted before. -/
theorem admitted_of_renamed {A : Sys P W → Label P W → Prop}
    (b : Behaviour (step (P := P) (W := W) cfg))
    (hrun : ∀ k, RunWhere cfg A (init P W dir) (b.state k)) {m : ℕ}
    (hmem : request ∈ (b.state m).admitted) {k : ℕ} (hk : k < m) {src dst : Bytes} {ok : Bool}
    (hcall : (b.state k).callOf (b.label k) =
      some (request.clientFd, ⟨.rename src dst, ok⟩)) :
    request ∈ (b.state k).admitted := by
  obtain ⟨d, hd⟩ := Nat.exists_eq_add_of_le hk
  obtain ⟨after, hafter⟩ := run_log_extends (behaviour_run b (k + 1) d) request.clientFd
  rw [callOf_log hcall (b.next k), List.append_assoc, ← hd] at hafter
  obtain ⟨first, more, hbefore, -⟩ :=
    (run_tracked (hrun m) hmem).admitted_before hafter.symm id (by simp)
  have hpushed : Pushed request ((b.state k).log request.clientFd) := by
    rw [hbefore]
    simp [Pushed]
  exact run_pushed (hrun k) hpushed

/-- An upload without failures is completed in the end. -/
theorem eventually_completed {A : Sys P W → Label P W → Prop} (hput : request.op = .PUT)
    (b : Behaviour (step (P := P) (W := W) cfg)) (hinit : b.state 0 = init P W dir)
    (hrun : ∀ k, RunWhere cfg A (init P W dir) (b.state k))
    (hflawless : ∀ s l, A s l → Flawless request.clientFd s l)
    (hfair : FairFor b request.clientFd) {m : ℕ} (hmem : request ∈ (b.state m).admitted) :
    ∃ k, m ≤ k ∧ (request.clientFd, .completed) ∈ (b.state k).finished := by
  obtain ⟨k, hk, exit, hexit⟩ := eventually_finished b (hinit ▸ init_wellFormed dir) hfair rfl
    hmem fun k hk => (run_putLife hput (hrun k) (behaviour_admitted b hk hmem)).always.rounds
  have hcompleted := finished_completed hput ((hrun k).mono hflawless)
    (behaviour_admitted b hk hmem) hexit
  exact ⟨k, hk, hcompleted ▸ hexit⟩

/-- **A PUT commits what the client sent.** A client sends `PUT name n`, then `rest`.
What the server admits from it is this upload, and it refuses it only when interrupted.
The upload answers `OK 0` before it stores anything, stores only the first `n` bytes of
`rest`, at their place, and answers `OK 0` again after the rename, which puts exactly
these bytes under the name; before `n` bytes were received there is no rename. Without
failures every fair behaviour reaches the rename and the end of the request. -/
theorem put_commits {fd : Fd} {name rest : Bytes} {n : ℕ} (hvalid : isValidFilename name = true)
    (hspace : ∀ c ∈ name, isspace c = false) (hnul : (0 : UInt8) ∉ name) (hn : n < 2 ^ 63)
    (hshort : (putHeader name n).length ≤ 8192) :
    (∀ t : Sys P W, RunWhere cfg (Streams fd (putHeader name n ++ rest)) (init P W dir) t →
      (∀ request ∈ t.admitted, request.clientFd = fd →
        request.op = .PUT ∧ request.filename = name ∧ request.totalBytes = n) ∧
      (sends (t.log fd) ≠ [] →
        (∃ request ∈ t.admitted, request.clientFd = fd) ∨ Interrupted (t.log fd))) ∧
    (∀ (t : Sys P W) (request : Request), request.clientFd = fd →
      RunWhere cfg (fun s l => Streams fd (putHeader name n ++ rest) s l ∧
        Alone (cstr (stagingPath cfg request)) fd s l) (init P W dir) t → request ∈ t.admitted →
      Uploading cfg request rest (t.log fd) ∧
      ((received (t.log fd)).length < (putHeader name n).length + n →
        ∀ src dst ok, ⟨.rename src dst, ok⟩ ∉ t.log fd) ∧
      (∀ l v src dst, t.step cfg l = some v →
        t.callOf l = some (fd, ⟨.rename src dst, true⟩) → n ≤ rest.length ∧
          ∃ file, v.dir (cstr (filePath cfg.fileDir name)) = some file ∧
            file.bytes = rest.take n) ∧
      ((fd, .completed) ∈ t.finished → sends (t.log fd) = [okLine 0, okLine 0] ∧
        ⟨.rename (stagingPath cfg request) (filePath cfg.fileDir name), true⟩ ∈ t.log fd)) ∧
    (∀ (b : Behaviour (step (P := P) (W := W) cfg)) (request : Request),
      b.state 0 = init P W dir → request.clientFd = fd →
      (∀ m, Streams fd (putHeader name n ++ rest) (b.state m) (b.label m) ∧
        Alone (cstr (stagingPath cfg request)) fd (b.state m) (b.label m) ∧
        Flawless fd (b.state m) (b.label m)) →
      FairFor b fd → ∀ m, request ∈ (b.state m).admitted →
      (∃ k file, (b.state (k + 1)).dir (cstr (filePath cfg.fileDir name)) = some file ∧
        file.bytes = rest.take n ∧ (b.state k).callOf (b.label k) = some (fd,
          ⟨.rename (stagingPath cfg request) (filePath cfg.fileDir name), true⟩)) ∧
      ∃ k, (fd, .completed) ∈ (b.state k).finished ∧
        sends ((b.state k).log fd) = [okLine 0, okLine 0]) := by
  have hheader := putHeader_headerLine hspace n
  have hasked : ∀ {t : Sys P W} {request : Request},
      RunWhere cfg (Streams fd (putHeader name n ++ rest)) (init P W dir) t →
      request ∈ t.admitted → request.clientFd = fd →
      request.op = .PUT ∧ request.filename = name ∧ request.totalBytes = n := by
    rintro t request hrun hmem rfl
    exact (run_tracked hrun hmem).putHeader hvalid hspace hn (run_streams hrun)
  have hdone : ∀ {t : Sys P W} {request : Request},
      RunWhere cfg (Streams fd (putHeader name n ++ rest)) (init P W dir) t →
      request ∈ t.admitted → request.clientFd = fd → (fd, .completed) ∈ t.finished →
      sends (t.log fd) = [okLine 0, okLine 0] ∧
        ⟨.rename (stagingPath cfg request) (filePath cfg.fileDir name), true⟩ ∈ t.log fd := by
    rintro t request hrun hmem rfl hfin
    obtain ⟨hput, rfl, -⟩ := hasked hrun hmem rfl
    exact ((run_putLife hput hrun hmem).finished _ hfin).sends_completed
  refine ⟨fun t hrun => ⟨fun request hmem hfd => hasked hrun hmem hfd, fun hsent => ?_⟩, ?_, ?_⟩
  · rcases run_answered hrun fd with ⟨request, hfd, hpushed⟩ | hnone | ⟨before, hpre, hrefused⟩
    · exact Or.inl ⟨request, run_pushed hrun hpushed, hfd⟩
    · exact absurd hnone hsent
    · have hbefore : received before <+: putHeader name n ++ rest := by
        obtain ⟨after, hafter⟩ := hpre
        have hlog := run_streams hrun
        rw [← hafter, received_append] at hlog
        exact (List.prefix_append _ _).trans hlog
      exact Or.inr ((hrefused.interrupted hvalid hspace hn hshort hbefore).mono hpre)
  · rintro t request rfl hrun hmem
    have hstream := hrun.mono fun _ _ h => h.1
    obtain ⟨hput, rfl, rfl⟩ := hasked hstream hmem rfl
    have htrail := (run_putLife hput hrun hmem).always.trail
    have hup := htrail.uploading hheader (run_streams hstream)
    refine ⟨hup, ?_, ?_, hdone hstream hmem rfl⟩
    · intro hless src dst ok hrename
      have hreceived := hup.rename_received (run_tracked hrun hmem) hheader
        (run_streams hstream) hrename
      omega
    · intro l v src dst hstep hcall
      exact rename_commits hput hnul hheader hrun hmem hstep hcall
  · rintro b request hinit rfl hb hfair m hmem
    have hrun : ∀ k, RunWhere cfg (fun s l =>
        Streams request.clientFd (putHeader name n ++ rest) s l ∧
        Alone (cstr (stagingPath cfg request)) request.clientFd s l ∧
        Flawless request.clientFd s l) (init P W dir) (b.state k) := by
      intro k
      rw [← hinit]
      exact b.run hb k
    have hstream : ∀ k, RunWhere cfg (Streams request.clientFd (putHeader name n ++ rest))
        (init P W dir) (b.state k) := fun k => (hrun k).mono fun _ _ h => h.1
    obtain ⟨hput, rfl, rfl⟩ := hasked (hstream m) hmem rfl
    obtain ⟨k, hk, hexit⟩ := eventually_completed hput b hinit hrun (fun _ _ h => h.2.2)
      hfair hmem
    have hlate := behaviour_admitted b hk hmem
    obtain ⟨hsends, hrename⟩ := hdone (hstream k) hlate rfl hexit
    refine ⟨?_, k, hexit, hsends⟩
    obtain ⟨j, hj, hcall⟩ := behaviour_moment b (by rw [hinit]; rfl) hrename
    obtain ⟨-, file, hfile, hbytes⟩ := rename_commits hput hnul hheader
      ((hrun j).mono fun _ _ h => ⟨h.1, h.2.1⟩) (admitted_of_renamed b hrun hlate hj hcall)
      (b.next j) hcall
    exact ⟨j, file, hfile, hbytes, hcall⟩

/-- The call succeeds where it may fail. -/
def smoothCall : Call → Bool
  | ⟨.create _, ok⟩ => ok
  | ⟨.openRW _, ok⟩ => ok
  | ⟨.seekp _ _, ok⟩ => ok
  | ⟨.write _ _ _, r⟩ => r = .good
  | ⟨.recv _ _ _, r⟩ => r.any (!·.isEmpty)
  | ⟨.rename _ _, ok⟩ => ok
  | _ => true

theorem flawless_of_smoothCall {call : Call} (h : smoothCall call = true) :
    ¬ call.Fails ∧ ∀ src dst, call ≠ ⟨.rename src dst, false⟩ := by
  constructor
  · rcases call with ⟨e, r⟩
    cases e with
    | write path off data =>
        have hgood : r = .good := by simpa [smoothCall] using h
        subst hgood
        exact id
    | recv fd size timeout =>
        cases r with
        | none => cases h
        | some data =>
            rintro rfl
            cases h
    | create path => simpa [smoothCall, Call.Fails] using h
    | openRW path => simpa [smoothCall, Call.Fails] using h
    | seekp path off => simpa [smoothCall, Call.Fails] using h
    | _ => exact id
  · rintro src dst rfl
    cases h

/-- Only connection `fd` makes a call, it receives from `stream`, and the call succeeds. -/
def smooth (fd : Fd) (stream : Bytes) (s : Sys P W) (l : Label P W) : Bool :=
  match s.callOf l with
  | none => true
  | some (fd', call) => fd' = fd && smoothCall call &&
      (received (s.log fd) ++ call.received).isPrefixOf stream

theorem of_smooth {fd : Fd} {stream : Bytes} (p : Bytes) (s : Sys P W) (l : Label P W)
    (h : smooth fd stream s l = true) :
    Streams fd stream s l ∧ Alone p fd s l ∧ Flawless fd s l := by
  unfold smooth at h
  refine ⟨fun call hcall => ?_, fun fd' call hcall hne => ?_, fun call hcall => ?_⟩
  · rw [hcall] at h
    simp only [Bool.and_eq_true, List.isPrefixOf_iff_prefix] at h
    exact h.2
  · rw [hcall] at h
    simp only [Bool.and_eq_true, decide_eq_true_eq] at h
    exact absurd h.1.1 hne
  · rw [hcall] at h
    simp only [Bool.and_eq_true] at h
    exact flawless_of_smoothCall h.1.2

/-- Three bytes in two rounds, cut into three pieces, with one more byte to follow. -/
def threeBytes : List (Label 1 1) :=
  arrive 7 (ascii "PUT a 3\nx") 3 ++ work 6 ++ .workerCall 0 { data := some (ascii "y") } ::
    List.replicate 3 (.workerCall 0 {}) ++ work 2 ++
    .workerCall 0 { data := some (ascii "z") } :: List.replicate 8 (.workerCall 0 {}) ++
    [.stopAccepting]

theorem put_commits_two_rounds :
    ∃ (b : Behaviour (step (P := 1) (W := 1) (plainConfig .RR 2 (by decide) (by decide))))
      (request : Request), request ∈ (b.state 8).admitted ∧
        Uploading (plainConfig .RR 2 (by decide) (by decide)) request (ascii "xyz!")
          ((b.state 30).log 7) ∧
        ∃ k file, (b.state (k + 1)).dir (ascii "d/a") = some file ∧ file.bytes = ascii "xyz" := by
  have hvalid : isValidFilename (ascii "a") = true := by decide
  have hspace : ∀ c ∈ ascii "a", isspace c = false := by decide
  have hnul : (0 : UInt8) ∉ ascii "a" := by decide
  have hn : 3 < 2 ^ 63 := by decide
  have hshort : (putHeader (ascii "a") 3).length ≤ 8192 := by decide
  have hok : ∀ (s : Sys 1 1) (l : Label 1 1),
      smooth 7 (putHeader (ascii "a") 3 ++ ascii "xyz!") s l = true →
      ∀ p, Streams 7 (putHeader (ascii "a") 3 ++ ascii "xyz!") s l ∧ Alone p 7 s l ∧
        Flawless 7 s l := fun s l h p => of_smooth p s l h
  obtain ⟨b, hinit, hsmooth, hfair, hstate⟩ := exists_fair
    (plainConfig .RR 2 (by decide) (by decide)) (init 1 1 (fun _ => none)) 7 threeBytes 29 0 {}
    hok (fun s p => of_smooth p s .stopAccepting rfl)
    (by decide +kernel) rfl (by decide +kernel) (by decide +kernel)
  have hadm : (script (step (plainConfig .RR 2 (by decide) (by decide)))
      (smooth 7 (putHeader (ascii "a") 3 ++ ascii "xyz!")) (init 1 1 (fun _ => none))
      (threeBytes.take 8)).any (·.admitted.any (fun r => r.clientFd = 7)) = true := by
    decide +kernel
  rw [hstate 8 (by decide), Option.any_some] at hadm
  obtain ⟨request, hmem, hreq⟩ := List.any_eq_true.mp hadm
  have hfd : request.clientFd = 7 := of_decide_eq_true hreq
  have hb := fun m =>
    hsmooth m (cstr (stagingPath (plainConfig .RR 2 (by decide) (by decide)) request))
  have hrun : RunWhere (plainConfig .RR 2 (by decide) (by decide)) (fun s l =>
      Streams 7 (putHeader (ascii "a") 3 ++ ascii "xyz!") s l ∧
      Alone (cstr (stagingPath (plainConfig .RR 2 (by decide) (by decide)) request)) 7 s l)
      (init 1 1 (fun _ => none)) (b.state 30) := by
    rw [← hinit]
    exact b.run (fun m => ⟨(hb m).1, (hb m).2.1⟩) 30
  have hpath : cstr (filePath (ascii "d") (ascii "a")) = ascii "d/a" := by decide
  obtain ⟨k, file, hfile, hbytes, -⟩ :=
    ((put_commits hvalid hspace hnul hn hshort).2.2 b request hinit hfd hb hfair 8 hmem).1
  refine ⟨b, request, hmem, ((put_commits hvalid hspace hnul hn hshort).2.1 _ request hfd hrun
    (behaviour_admitted b (by decide) hmem)).1, k, file, ?_, hbytes⟩
  rw [← hpath]
  exact hfile

end Sys

end LinkScheduling
