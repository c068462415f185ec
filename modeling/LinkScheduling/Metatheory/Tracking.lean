import LinkScheduling.Metatheory.Requests

/-!
# What the log of an admitted request is about

Whatever the answers are, the log of an admitted request starts with its admission,
looks at the file of its name only, and puts back records of this request only.
-/

namespace LinkScheduling

open Framework

/-- Calls that look at a file look at `path`. -/
def Eff.looksAt (path : Bytes) : Eff → Prop
  | .stat p => p = path
  | .openRead p => p = path
  | _ => True

structure Tracked (cfg : Config) (request : Request) (log : List Call) : Prop where
  admitted : ∃ before after, log = before ++ ⟨.push request, true⟩ :: after ∧
    Admissible cfg request before
  looks : ∀ call ∈ log, call.eff.looksAt (filePath cfg.fileDir request.filename)
  records : ∀ call ∈ log, ∀ req, call.eff = .push req ∨ call.eff = .requeue req →
    request.Same req

section

variable {cfg : Config} {request : Request} {log : List Call}

theorem Admissible.tracked (h : Admissible cfg request log) :
    Tracked cfg request (log ++ [⟨.push request, true⟩]) := by
  have hcalls : ∀ call ∈ log, call.eff.looksAt (filePath cfg.fileDir request.filename) ∧
      ∀ req, call.eff = .push req ∨ call.eff = .requeue req → request.Same req := by
    rintro ⟨e, r⟩ hmem
    have hcall := h.calls _ hmem
    cases e <;> first | exact hcall.elim | exact ⟨hcall, by simp⟩
  refine ⟨⟨log, [], rfl, h⟩, ?_, ?_⟩
  · intro call hmem
    rcases List.mem_append.mp hmem with hmem | hmem
    · exact (hcalls call hmem).1
    · rw [List.mem_singleton.mp hmem]
      trivial
  · intro call hmem req hreq
    rcases List.mem_append.mp hmem with hmem | hmem
    · exact (hcalls call hmem).2 req hreq
    · rw [List.mem_singleton.mp hmem] at hreq
      rcases hreq with hreq | hreq
      · cases hreq
        exact .refl _
      · cases hreq

theorem Tracked.snoc {call : Call} (h : Tracked cfg request log)
    (hlook : call.eff.looksAt (filePath cfg.fileDir request.filename))
    (hrecord : ∀ req, call.eff = .push req ∨ call.eff = .requeue req → request.Same req) :
    Tracked cfg request (log ++ [call]) := by
  obtain ⟨before, after, rfl, hadm⟩ := h.admitted
  refine ⟨⟨before, after ++ [call], by simp, hadm⟩, ?_, ?_⟩
  · intro call' hmem
    rcases List.mem_append.mp hmem with hmem | hmem
    · exact h.looks call' hmem
    · rwa [List.mem_singleton.mp hmem]
  · intro call' hmem
    rcases List.mem_append.mp hmem with hmem | hmem
    · exact h.records call' hmem
    · rwa [List.mem_singleton.mp hmem]

/-- The push comes before every call that does not belong to the admission. -/
theorem Tracked.admitted_before (h : Tracked cfg request log) {call : Call}
    {before after : List Call} (hlog : log = before ++ call :: after)
    (hcall : ¬ call.eff.admitting (filePath cfg.fileDir request.filename))
    (hpush : call ≠ ⟨.push request, true⟩) :
    ∃ first more, before = first ++ ⟨.push request, true⟩ :: more ∧
      Admissible cfg request first := by
  obtain ⟨pre, post, hpre, hadm⟩ := h.admitted
  rw [hpre] at hlog
  rcases List.append_eq_append_iff.mp hlog with ⟨mid, hbefore, hmid⟩ | ⟨mid, hpre', hmid⟩
  · cases mid with
    | nil =>
        rw [List.nil_append] at hmid
        exact absurd (List.cons.inj hmid).1.symm hpush
    | cons first mid =>
        rw [List.cons_append] at hmid
        rw [hbefore, ← (List.cons.inj hmid).1]
        exact ⟨pre, mid, rfl, hadm⟩
  · cases mid with
    | nil =>
        rw [List.nil_append] at hmid
        exact absurd (List.cons.inj hmid).1 hpush
    | cons first mid =>
        rw [List.cons_append] at hmid
        refine absurd (hadm.calls call ?_) hcall
        rw [hpre', ← (List.cons.inj hmid).1]
        simp

theorem serveRound_looks {budget : ℕ} {req : Request} :
    (serveRound cfg budget req).Only (Eff.looksAt (filePath cfg.fileDir req.filename))
      (fun res => req.Same res.2.1) := by
  unfold serveRound
  split
  · refine serveGet_only.mono (fun e he => ?_) fun _ h => h.same
    cases e <;> first | exact he | trivial
  · have hput : (servePut req cfg.fileDir budget).Only
        (Eff.looksAt (filePath cfg.fileDir req.filename)) (fun res => req.Same res.2.1) := by
      refine servePut_only.mono (fun e he => ?_) fun _ h => h.1
      cases e <;> first | exact he.elim | trivial
    split
    · simpa [Eff.looksAt] using hput
    · simpa using hput
  · exact Request.Same.refl req

/-- A worker pass looks at no other file. -/
theorem workerRound_looks {d : ScheduleDecision} :
    (workerRound cfg d).Only (Eff.looksAt (filePath cfg.fileDir d.request.filename))
      (fun _ => True) := by
  have hdispatch : ∀ req : Request, req.filename = d.request.filename →
      (dispatchRound cfg d.budget req).Only
        (Eff.looksAt (filePath cfg.fileDir d.request.filename)) (fun _ => True) := by
    intro req hname
    unfold dispatchRound
    rw [Prog.only_bind]
    refine serveRound_looks.mono (fun e he => by rwa [← hname]) ?_
    rintro ⟨success, req', n⟩ -
    simp only
    split
    · unfold settleRound commitRequest finishRequest
      simp only
      split
      · simp [Eff.looksAt]
      · split <;> simp [Eff.looksAt]
    · unfold abandonRequest
      split <;> simp [Eff.looksAt]
  unfold workerRound stampStart
  rw [Prog.only_bind]
  split
  · simp only [perform, Prog.only_bind, Prog.only_perform, Prog.only_pure]
    exact ⟨trivial, fun _ => hdispatch _ rfl⟩
  · exact hdispatch _ rfl

/-- The lifecycle of the log's own facts: nothing is assumed of the answers. -/
def trackLife (cfg : Config) (request : Request) : Lifecycle where
  allowed _ _ := True
  always := Tracked cfg request
  queued _ := Tracked cfg request
  ended _ := Tracked cfg request

theorem round_tracked {orig : Request} {p : Server Unit} {stage : Stage}
    {Q : Unit → Stage → Prop} (hdisc : p.wp (workerContract orig) Q stage)
    (hlooks : p.Only (Eff.looksAt (filePath cfg.fileDir request.filename)) (fun _ => True))
    (hsame : request.Same orig) (h : Tracked cfg request log) :
    p.wp (trackLife cfg request).contract (fun _ => Tracked cfg request) log := by
  induction p generalizing stage log with
  | ret a => exact h
  | call e next ih =>
      have hrecord : ∀ req, e = .push req ∨ e = .requeue req → request.Same req := by
        have hguar := hdisc.1
        rintro req (rfl | rfl)
        · cases stage with
          | completed => cases hguar
          | _ => exact hguar.elim
        · cases stage with
          | serving rows => exact hsame.trans hguar.1
          | requeued => exact hguar.elim
          | completed => cases hguar
      have hsnoc : ∀ r, Tracked cfg request (log ++ [⟨e, r⟩]) :=
        fun r => h.snoc hlooks.1 hrecord
      refine ⟨⟨h, ?_⟩, fun r hr => ?_⟩
      · cases e <;> first | trivial | exact hsnoc _
      · refine ih r (hdisc.2 r ?_) (hlooks.2 r) (hsnoc r)
        cases e <;> first | trivial | exact hr.1

theorem trackLife_soundFor : (trackLife cfg request).SoundFor cfg request where
  enter _ hadm _ := ⟨hadm.tracked, hadm.tracked⟩
  round req log hsame h := by
    have hbudget := hsame.trans (cfg.scheduler.getBudget_same req)
    have hlooks : (workerRound cfg (cfg.scheduler.decision req)).Only
        (Eff.looksAt (filePath cfg.fileDir request.filename)) (fun _ => True) := by
      rw [← hbudget.filename]
      exact workerRound_looks (d := cfg.scheduler.decision req)
    exact round_tracked workerRound_disciplined hlooks hbudget h
  close _ _ h := h.snoc trivial (by simp)

end

namespace Sys

variable {P W : ℕ} {cfg : Config} {dir : Directory} {s t : Sys P W}
  {A : Sys P W → Label P W → Prop} {request : Request}

/-- In every run the log of an admitted request is about this request. -/
theorem run_tracked (hrun : RunWhere cfg A (init P W dir) t) (hmem : request ∈ t.admitted) :
    Tracked cfg request (t.log request.clientFd) :=
  (Lifecycle.run_holdsFor trackLife_soundFor (hrun.mono fun _ _ _ _ _ => trivial) hmem).always

/-- The answer of a call comes from the state it is made in. -/
theorem callOf_answer {l : Label P W} {fd : Fd} {call : Call} (h : s.callOf l = some (fd, call)) :
    ∃ c, call.res = s.answer c call.eff := by
  cases l with
  | parserCall k c =>
      simp only [callOf] at h
      split at h
      · cases h
        exact ⟨c, rfl⟩
      · cases h
  | workerCall k c =>
      simp only [callOf] at h
      split at h
      · cases h
        exact ⟨c, rfl⟩
      · cases h
  | _ => cases h

theorem callOf_log {l : Label P W} {fd : Fd} {call : Call} (h : s.callOf l = some (fd, call))
    (hstep : s.step cfg l = some t) : t.log fd = s.log fd ++ [call] := by
  rw [step_log hstep fd]
  simp [newCalls, h]

/-- The steps of a run that leads to the admission of `request` look, for its
connection, at its file only. -/
theorem run_looks (hrun : RunWhere cfg A (init P W dir) t) (hmem : request ∈ t.admitted) :
    RunWhere cfg (fun s l => A s l ∧ ∀ call, s.callOf l = some (request.clientFd, call) →
      call ∈ t.log request.clientFd ∧
        call.eff.looksAt (filePath cfg.fileDir request.filename)) (init P W dir) t := by
  refine hrun.mono_reach fun u l v _ hA hstep hafter => ⟨hA, fun call hcall => ?_⟩
  have hin : call ∈ t.log request.clientFd := by
    refine (run_log_extends hafter _).subset ?_
    rw [callOf_log hcall hstep]
    simp
  exact ⟨hin, (run_tracked hrun hmem).looks call hin⟩

/-- The size of an admitted GET is what a look at its file found before it was
admitted. -/
theorem run_size (hrun : RunWhere cfg A (init P W dir) t) (hmem : request ∈ t.admitted)
    (hget : request.op = .GET) : ∃ u l,
      Moment cfg A (init P W dir) t request.clientFd
        ⟨.stat (filePath cfg.fileDir request.filename),
          (u.dir (cstr (filePath cfg.fileDir request.filename))).map File.size⟩ u l ∧
      u.admittedCount request.clientFd = 0 ∧
      request.totalBytes =
        ((u.dir (cstr (filePath cfg.fileDir request.filename))).map File.size).getD 0 := by
  obtain ⟨before, after, hlog, hadm⟩ := (run_tracked hrun hmem).admitted
  obtain ⟨size, hstat, htotal, -⟩ := hadm.size hget
  obtain ⟨pre, post, hbefore⟩ := List.append_of_mem hstat
  rw [hbefore, List.append_assoc, List.cons_append] at hlog
  obtain ⟨u, l, hm, hu⟩ := run_moment hrun hlog rfl
  obtain ⟨c, hc⟩ := callOf_answer hm.call
  have hsize : size = (u.dir (cstr (filePath cfg.fileDir request.filename))).map File.size := hc
  subst hsize
  refine ⟨u, l, hm, List.count_eq_zero.mpr ?_, htotal⟩
  intro hcount
  obtain ⟨req, hreq, hfd⟩ := List.mem_map.mp hcount
  have hpushed := run_admitted hm.before hreq
  rw [hfd, hu] at hpushed
  exact hadm.calls _ (hbefore ▸ List.mem_append_left _ hpushed)

/-- A call no parser makes for admission was made after the admission. -/
theorem moment_admitted (hrun : RunWhere cfg A (init P W dir) t) (hmem : request ∈ t.admitted)
    {call : Call} {before after : List Call}
    (hlog : t.log request.clientFd = before ++ call :: after)
    (hcall : ¬ call.eff.admitting (filePath cfg.fileDir request.filename))
    (hpush : call ≠ ⟨.push request, true⟩) :
    ∃ u l, Moment cfg A (init P W dir) t request.clientFd call u l ∧ request ∈ u.admitted := by
  obtain ⟨u, l, hm, hu⟩ := run_moment hrun hlog rfl
  obtain ⟨first, more, hbefore, -⟩ := (run_tracked hrun hmem).admitted_before hlog hcall hpush
  have hpushed : Pushed request (u.log request.clientFd) := by
    rw [hu, hbefore]
    simp [Pushed]
  exact ⟨u, l, hm, run_pushed hm.before hpushed⟩

end Sys

end LinkScheduling
