import LinkScheduling.Deficit.Fairness
import LinkScheduling.Metatheory.Admission
import LinkScheduling.Metatheory.Sockets
import LinkScheduling.Metatheory.Tracking

/-!
# What a client is told that is not admitted

A parser that does not admit its connection sends one line and closes the socket. `Answer` says
which line: one for each way out of `parser_thread`.
-/

namespace LinkScheduling

open Framework

/-- The client's stream began with `header`. -/
structure Heard (header : Bytes) (log : List Call) : Prop where
  line : HeaderLine header
  received : header <+: received log

theorem Heard.mono {header : Bytes} {log log' : List Call} (h : Heard header log)
    (hlog : log <+: log') : Heard header log' := by
  obtain ⟨calls, rfl⟩ := hlog
  refine ⟨h.line, h.received.trans ?_⟩
  rw [received_append]
  exact List.prefix_append _ _

/-- The line that a parser sends itself, after the calls of `log`. -/
inductive Answer (cfg : Config) (fd : Fd) (log : List Call) : Bytes → Prop
  | unread : Unread log → Answer cfg fd log (errLine (ascii "timeout or invalid request"))
  | malformed {header text : Bytes} : Heard header log →
      parseRequestHeader header fd = .error text → Answer cfg fd log (errLine text)
  | health {header : Bytes} {req : Request} {depth : ℕ} : Heard header log →
      parseRequestHeader header fd = .ok req → req.op = .HEALTH → ⟨.queueSize, depth⟩ ∈ log →
      Answer cfg fd log (okLine depth)
  | invalid {header : Bytes} {req : Request} : Heard header log →
      parseRequestHeader header fd = .ok req → req.op ≠ .HEALTH →
      isValidFilename req.filename = false →
      Answer cfg fd log (errLine (ascii "invalid filename"))
  | missing {header : Bytes} {req : Request} : Heard header log →
      parseRequestHeader header fd = .ok req → req.op = .GET →
      ⟨.stat (filePath cfg.fileDir req.filename), none⟩ ∈ log →
      Answer cfg fd log (errLine (ascii "file not found"))
  | closed {req : Request} : ⟨.push req, false⟩ ∈ log →
      Answer cfg fd log (errLine (ascii "server shutting down"))

/-- One answer, and only then the socket is closed. -/
def answering (cfg : Config) (fd : Fd) : Contract Eff Resp (List Call) where
  guarantee log e := match e with
    | .sendAll _ data => sends log = [] ∧ Answer cfg fd log data
    | .closeSocket _ => sends log ≠ []
    | .push req => req.clientFd = fd
    | _ => True
  rely _ e r := Call.Possible ⟨e, r⟩
  next log e r := log ++ [⟨e, r⟩]

@[simp] theorem answering_next (cfg : Config) (fd : Fd) (log : List Call) (e : Eff) (r : Resp e) :
    (answering cfg fd).next log e r = log ++ [⟨e, r⟩] := rfl

/-- Nothing was sent yet. -/
def Silent (log : List Call) : Prop := sends log = []

theorem Silent.snoc {log : List Call} {e : Eff} (r : Resp e) (h : Silent log)
    (he : e.sent = []) : Silent (log ++ [⟨e, r⟩]) := by
  rw [Silent, sends_append, h, sends_cons, he]
  rfl

section Parser

variable {cfg : Config} {fd : Fd}

theorem rejectClient_answers {reason : Bytes} {log : List Call} (hsilent : Silent log)
    (h : Answer cfg fd log (errLine reason)) :
    (rejectClient fd reason).wp (answering cfg fd) (fun _ _ => True) log := by
  simp only [rejectClient, sendError, perform, Prog.wp_bind, Prog.wp_perform, Prog.wp_pure]
  refine ⟨⟨hsilent, h⟩, fun _ _ => ⟨?_, fun _ _ => trivial⟩⟩
  change sends (log ++ _) ≠ []
  rw [sends_append]
  exact fun hnil => List.cons_ne_nil _ _ (List.append_eq_nil_iff.mp hnil).2

theorem admitRequest_answers (req : Request) {log : List Call} (hsilent : Silent log) :
    (admitRequest req.clientFd req).wp (answering cfg req.clientFd) (fun _ _ => True) log := by
  simp only [admitRequest, perform, Prog.wp_bind, Prog.wp_perform]
  refine ⟨trivial, fun number _ => ⟨trivial, fun arrival _ => ⟨rfl, ?_⟩⟩⟩
  rintro (_ | _) -
  · refine rejectClient_answers ?_ (.closed (List.mem_append_right _ List.mem_cons_self))
    exact ((hsilent.snoc (e := .fetchId) _ rfl).snoc (e := .now) _ rfl).snoc (e := .push _) _ rfl
  · trivial

theorem silent_of_reading {log : List Call} (h : ∀ call ∈ log, call.eff.reading) :
    Silent log := by
  simp only [Silent, sends, List.flatMap_eq_nil_iff]
  rintro ⟨e, r⟩ hmem
  have hcall := h _ hmem
  cases e <;> first | rfl | exact hcall.elim

/-- Reading the header, under the contract of the answers. -/
theorem readHeaderLine_answers :
    (readHeaderLine fd 1000).wp (answering cfg fd)
      (fun res log => HeaderRead res log ∧ Silent log) [] := by
  have hreads : (readHeaderLine fd 1000).Only Eff.reading (fun _ => True) := by
    simp only [readHeaderLine, perform, Prog.only_bind, Prog.only_perform]
    refine ⟨trivial, fun start => (readHeaderLoop_only 8192 []).mono ?_ fun _ h => h⟩
    rintro e (rfl | ⟨n, time, rfl⟩) <;> trivial
  refine Prog.wp_mono (hreads.wp_transfer (C := admission cfg fd) readHeaderLine_reads ?_
    (fun _ _ _ _ h => h) fun _ _ _ _ => rfl) fun res log h => ⟨h.1, silent_of_reading h.2⟩
  intro log e he
  cases e with
  | sendAll f data => exact he.elim
  | closeSocket f => exact he.elim
  | push req => exact he.elim
  | _ => trivial

theorem parserClient_answers :
    (parserClient cfg fd).wp (answering cfg fd) (fun _ _ => True) [] := by
  unfold parserClient
  rw [Prog.wp_bind]
  refine Prog.wp_mono readHeaderLine_answers ?_
  rintro ⟨header, leftover⟩ log ⟨hread, hsilent⟩
  simp only
  split
  · -- no header line came in time
    rename_i hempty
    rcases hread with ⟨-, hun⟩ | ⟨hline, -⟩
    · exact rejectClient_answers hsilent (.unread hun)
    · exact absurd (List.isEmpty_iff.mp hempty) hline.ne_nil
  rename_i hne
  have hheard : Heard header log := by
    rcases hread with ⟨hempty, -⟩ | ⟨hline, hrec⟩
    · exact absurd (List.isEmpty_iff.mpr hempty) hne
    · exact ⟨hline, hrec ▸ List.prefix_append _ _⟩
  have hlater : ∀ calls, Heard header (log ++ calls) := fun calls =>
    hheard.mono (List.prefix_append _ _)
  split
  · rename_i text hparse
    exact rejectClient_answers hsilent (.malformed hheard hparse)
  rename_i req hparse
  have hfd := parseRequestHeader_clientFd hparse
  subst hfd
  split
  · rename_i hop
    simp only [sendResponse, perform, Prog.wp_bind, Prog.wp_perform, Prog.wp_pure]
    refine ⟨trivial, fun depth _ => ⟨⟨hsilent.snoc (e := .queueSize) _ rfl, ?_⟩,
      fun _ _ => ⟨?_, fun _ _ => trivial⟩⟩⟩
    · exact .health (hlater _) hparse hop (List.mem_append_right _ List.mem_cons_self)
    · change sends (_ ++ _) ≠ []
      rw [sends_append]
      exact fun hnil => List.cons_ne_nil _ _ (List.append_eq_nil_iff.mp hnil).2
  rename_i hop
  split
  · rename_i hinvalid
    exact rejectClient_answers hsilent (.invalid hheard hparse hop (by simpa using hinvalid))
  split
  · rename_i hget
    simp only [fileExists, getFileSize, perform, Prog.wp_bind, Prog.wp_perform, Prog.wp_pure]
    refine ⟨trivial, fun found _ => ?_⟩
    have hsilent' : Silent (log ++ [⟨.stat (filePath cfg.fileDir req.filename), found⟩]) :=
      hsilent.snoc (e := .stat _) _ rfl
    cases found with
    | none =>
        exact rejectClient_answers hsilent'
          (.missing (hlater _) hparse hget (List.mem_append_right _ List.mem_cons_self))
    | some _ =>
        simp only [Option.isSome_some, ↓reduceIte, Prog.wp_bind, Prog.wp_perform, Prog.wp_pure]
        refine ⟨trivial, fun size _ => ?_⟩
        exact admitRequest_answers
          { req with pendingBytes := leftover, totalBytes := size.getD 0 }
          (hsilent'.snoc (e := .stat _) _ rfl)
  · exact admitRequest_answers { req with pendingBytes := leftover } hsilent

/-! ## Runs -/

/-- Nothing was sent and the socket is open, or one answer was sent. -/
def Replied (cfg : Config) (fd : Fd) (log : List Call) : Prop :=
  Silent log ∧ closes fd log = 0 ∨
    ∃ before line, before <+: log ∧ Answer cfg fd before line ∧ sends log = [line]

theorem Replied.snoc {log : List Call} {e : Eff} (r : Resp e) (h : Replied cfg fd log)
    (hguarantee : (answering cfg fd).guarantee log e) : Replied cfg fd (log ++ [⟨e, r⟩]) := by
  cases e with
  | sendAll f data =>
      obtain ⟨hsilent, hanswer⟩ := hguarantee
      refine Or.inr ⟨log, data, List.prefix_append _ _, hanswer, ?_⟩
      rw [sends_append, hsilent]
      rfl
  | closeSocket f =>
      rcases h with ⟨hsilent, -⟩ | ⟨before, line, hpre, hanswer, hsent⟩
      · exact absurd hsilent hguarantee
      · refine Or.inr ⟨before, line, hpre.trans (List.prefix_append _ _), hanswer, ?_⟩
        rw [sends_append, hsent]
        rfl
  | _ =>
      rcases h with ⟨hsilent, hopen⟩ | ⟨before, line, hpre, hanswer, hsent⟩
      · refine Or.inl ⟨hsilent.snoc _ rfl, ?_⟩
        rw [closes_snoc, hopen, if_neg (by simp)]
      · refine Or.inr ⟨before, line, hpre.trans (List.prefix_append _ _), hanswer, ?_⟩
        rw [sends_append, hsent]
        rfl

def replyLife (cfg : Config) (fd : Fd) : Lifecycle where
  allowed _ _ := True
  always log := (∃ req : Request, req.clientFd = fd ∧ Pushed req log) ∨ Replied cfg fd log
  queued _ log := ∃ req : Request, req.clientFd = fd ∧ Pushed req log
  ended _ log := ∃ req : Request, req.clientFd = fd ∧ Pushed req log

theorem replied_of_pushed {req : Request} (hfd : req.clientFd = fd) {p : Server Unit} :
    ∀ {log : List Call}, Pushed req log →
      p.wp (replyLife cfg fd).contract (fun _ => (replyLife cfg fd).always) log := by
  induction p with
  | ret a => exact fun h => Or.inl ⟨req, hfd, h⟩
  | call e next ih =>
      intro log h
      refine ⟨⟨Or.inl ⟨req, hfd, h⟩, ?_⟩, fun r _ => ih r (pushed_append h _)⟩
      cases e <;> first | trivial | exact ⟨req, hfd, pushed_append h _⟩

theorem parse_replied {p : Server Unit} {log : List Call}
    (hanswer : p.wp (answering cfg fd) (fun _ _ => True) log)
    (hdisc : p.wp (parserContract fd) (fun _ _ => True) false) (h : Replied cfg fd log) :
    p.wp (replyLife cfg fd).contract (fun _ => (replyLife cfg fd).always) log := by
  induction p generalizing log with
  | ret a => exact Or.inr h
  | call e next ih =>
      obtain ⟨hguarantee, hanswer⟩ := hanswer
      refine ⟨⟨Or.inr h, ?_⟩, fun r hr => ?_⟩
      · cases e with
        | push req =>
            exact ⟨req, hguarantee, List.mem_append_right _ (List.mem_singleton_self _)⟩
        | requeue later => exact hdisc.1.2.elim
        | complete exit => exact hdisc.1.2.elim
        | _ => trivial
      · by_cases hpush : ∃ req, e = .push req
        · obtain ⟨req, rfl⟩ := hpush
          cases r with
          | false =>
              exact ih false (hanswer false hr.1) (hdisc.2 false trivial) (h.snoc _ hguarantee)
          | true =>
              exact replied_of_pushed hguarantee
                (List.mem_append_right _ (List.mem_singleton_self _))
        · have hne : ∀ req, e ≠ .push req := fun req he => hpush ⟨req, he⟩
          have hd := hdisc.2 r trivial
          rw [parserContract_next hne] at hd
          exact ih r (hanswer r hr.1) hd (h.snoc _ hguarantee)

theorem replyLife_sound : (replyLife cfg fd).Sound cfg fd where
  parse := parse_replied parserClient_answers parserClient_disciplined (Or.inl ⟨rfl, rfl⟩)
  round _ _ _ h := by
    obtain ⟨pushed, hfd, h⟩ := h
    exact replied_of_pushed hfd h
  close _ _ h := by
    obtain ⟨pushed, hfd, h⟩ := h
    exact ⟨pushed, hfd, pushed_append h _⟩

end Parser

namespace Sys

variable {P W : ℕ} {cfg : Config} {dir : Directory} {t : Sys P W} {A : Sys P W → Label P W → Prop}

theorem run_replied (hrun : RunWhere cfg A (init P W dir) t) {fd : Fd}
    (hnone : t.admittedCount fd = 0) : Replied cfg fd (t.log fd) := by
  have hsound : (replyLife cfg fd).Sound cfg fd := replyLife_sound
  have hholds := Lifecycle.run_holds hsound (hrun.mono fun _ _ _ _ _ => trivial)
  refine hholds.always.resolve_left ?_
  rintro ⟨req, rfl, hpushed⟩
  have hmem := run_pushed hrun hpushed
  have hpos : 0 < t.admittedCount req.clientFd :=
    List.count_pos_iff.mpr (List.mem_map.mpr ⟨req, hmem, rfl⟩)
  omega

/-- What was answered in the log was so in some state of the run. -/
theorem answered_moment (hrun : RunWhere cfg A (init P W dir) t) {fd : Fd} {e : Eff} {r : Resp e}
    (hmem : ⟨e, r⟩ ∈ t.log fd) :
    ∃ u c, RunWhere cfg A (init P W dir) u ∧ RunWhere cfg A u t ∧ r = u.answer c e := by
  obtain ⟨before, after, hlog⟩ := List.append_of_mem hmem
  obtain ⟨u, l, hm, -⟩ := run_moment hrun hlog rfl
  obtain ⟨c, hres⟩ := callOf_answer hm.call
  obtain ⟨v, hstep, hafter⟩ := hm.after
  have hut : RunWhere cfg A u t := Run.trans (.tail (.refl u) hm.allowed hstep) hafter
  exact ⟨u, c, hm.before, hut, hres⟩

/-- The line that a client gets that is not admitted, in a run from `s` to `t`. What the line
says of the server was so in a state `u` of the run. -/
inductive Told (cfg : Config) (A : Sys P W → Label P W → Prop) (s t : Sys P W) (fd : Fd) :
    Bytes → Prop
  | unread {before : List Call} : before <+: t.log fd → Unread before →
      Told cfg A s t fd (errLine (ascii "timeout or invalid request"))
  | malformed {header text : Bytes} : Heard header (t.log fd) →
      parseRequestHeader header fd = .error text → Told cfg A s t fd (errLine text)
  | health {header : Bytes} {req : Request} {u : Sys P W} : Heard header (t.log fd) →
      parseRequestHeader header fd = .ok req → req.op = .HEALTH →
      RunWhere cfg A s u → RunWhere cfg A u t →
      Told cfg A s t fd (okLine u.requestQueue.size)
  | invalid {header : Bytes} {req : Request} : Heard header (t.log fd) →
      parseRequestHeader header fd = .ok req → req.op ≠ .HEALTH →
      isValidFilename req.filename = false →
      Told cfg A s t fd (errLine (ascii "invalid filename"))
  | missing {header : Bytes} {req : Request} {u : Sys P W} : Heard header (t.log fd) →
      parseRequestHeader header fd = .ok req → req.op = .GET →
      RunWhere cfg A s u → RunWhere cfg A u t →
      u.dir (cstr (filePath cfg.fileDir req.filename)) = none →
      Told cfg A s t fd (errLine (ascii "file not found"))
  | closed {u : Sys P W} : RunWhere cfg A s u → RunWhere cfg A u t →
      u.requestQueue.closed = true →
      Told cfg A s t fd (errLine (ascii "server shutting down"))

theorem told_of_answer (hrun : RunWhere cfg A (init P W dir) t) {fd : Fd} {before : List Call}
    {line : Bytes} (hbefore : before <+: t.log fd) (h : Answer cfg fd before line) :
    Told cfg A (init P W dir) t fd line := by
  cases h with
  | unread hun => exact .unread hbefore hun
  | malformed hheard hparse => exact .malformed (hheard.mono hbefore) hparse
  | health hheard hparse hop hmem =>
      obtain ⟨u, c, hu, hut, rfl⟩ := answered_moment hrun (hbefore.subset hmem)
      exact .health (hheard.mono hbefore) hparse hop hu hut
  | invalid hheard hparse hop hinvalid =>
      exact .invalid (hheard.mono hbefore) hparse hop hinvalid
  | missing hheard hparse hget hmem =>
      obtain ⟨u, c, hu, hut, hnone⟩ := answered_moment hrun (hbefore.subset hmem)
      refine .missing (hheard.mono hbefore) hparse hget hu hut ?_
      exact Option.map_eq_none_iff.mp hnone.symm
  | @closed req hmem =>
      obtain ⟨u, c, hu, hut, hpush⟩ := answered_moment hrun (hbefore.subset hmem)
      refine .closed hu hut ?_
      have hfalse : (u.requestQueue.push req).1 = false := hpush.symm
      unfold RequestQueue.push at hfalse
      split at hfalse
      · assumption
      · cases hfalse

end Sys

end LinkScheduling
