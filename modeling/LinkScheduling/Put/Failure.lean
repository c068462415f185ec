import LinkScheduling.Put.Commit

/-!
# A PUT that fails

A failed upload should leave nothing behind: no staging file, the final name untouched,
no metrics row, and one error line for the client. It does, with three exceptions: a
rename that fails leaves the staging file, an empty upload whose staging file cannot be
created gets no error line, and a NUL byte in the name makes the staging path the path
of the served file.
-/

namespace LinkScheduling

open Framework

/-- Calls that leave `p` alone leave the file under it. -/
theorem fileAt_append_unchanged {p : Bytes} {file : Option File} {log calls : List Call}
    (h : ∀ call ∈ calls, ¬ call.Changes p) :
    fileAt p file (log ++ calls) = fileAt p file log := by
  induction calls using List.reverseRecOn with
  | nil => rw [List.append_nil]
  | append_singleton calls call ih =>
      have hcall : ¬ call.Changes p := h call (by simp)
      have hcalls := ih fun call' hmem => h call' (List.mem_append_left _ hmem)
      rw [← List.append_assoc, fileAt_snoc, hcalls]
      have honto : ¬ call.RenamesOnto p := by
        rcases call with ⟨e, r⟩
        cases e with
        | rename src dst => exact fun honto => hcall ⟨honto.1, Or.inr honto.2⟩
        | _ => exact id
      have hdir := Call.onDir_eq_onFile honto (fun _ => fileAt p file log)
      rw [← hdir, Call.onDir_of_not_changes hcall]

theorem Ending.unchanged {calls : List Call} (h : Ending calls) (p : Bytes) :
    ∀ call ∈ calls, ¬ call.Changes p := by
  rintro ⟨e, r⟩ hmem
  have hcall := h _ hmem
  cases e <;> first | exact hcall.elim | exact id

theorem okLine_ne_errLine (n : ℕ) (reason : Bytes) : okLine n ≠ errLine reason := by
  intro h
  have hok : ascii "OK " = 79 :: ascii "K " := by decide
  have herr : ascii "ERR " = 69 :: ascii "RR " := by decide
  rw [okLine, errLine, hok, herr] at h
  simp only [List.cons_append, List.cons.injEq] at h
  exact absurd h.1 (by decide)

section Log

variable {cfg : Config} {request : Request} {log : List Call}

/-- The calls of an upload that was not renamed change no path but the staging path. -/
theorem unchanged_of_unsettled (htrail : Along (Proper cfg request) log)
    (hrename : ∀ src dst, ⟨.rename src dst, true⟩ ∉ log) {p : Bytes}
    (hp : p ≠ cstr (stagingPath cfg request)) : ∀ call ∈ log, ¬ call.Changes p := by
  intro call hmem hchanges
  obtain ⟨before, after, hlog⟩ := List.append_of_mem hmem
  rcases (htrail before call after hlog).changes hchanges with hstaging | ⟨-, rfl⟩
  · exact hp hstaging
  · exact hrename _ _ hmem

theorem Lost.no_rename (h : Lost cfg request log) {calls : List Call} (hend : Ending calls)
    (src dst : Bytes) (ok : Bool) :
    (⟨.rename src dst, ok⟩ : Call) ∉
      log ++ ⟨.remove (stagingPath cfg request), ()⟩ :: calls := by
  intro hmem
  rcases List.mem_append.mp hmem with hmem | hmem
  · exact h.unsettled _ hmem trivial
  · rcases List.mem_cons.mp hmem with heq | hmem
    · cases heq
    · exact hend _ hmem

end Log

/-! ## Clean failures -/

namespace Sys

variable {P W : ℕ} {cfg : Config} {dir : Directory} {t : Sys P W} {request : Request}

/-- The request left nothing behind: whatever was under its staging path before, its calls
leave no file there; they do not change what is under the final path; there is no metrics
row; and at most one `OK 0` was sent, then one error line. -/
structure CleanFailure (cfg : Config) (request : Request) (t : Sys P W) : Prop where
  staging : ∀ file, fileAt (cstr (stagingPath cfg request)) file (t.log request.clientFd) = none
  final : ∀ call ∈ t.log request.clientFd, ¬ call.Changes (cstr (finalPath cfg request))
  rows : t.rows request.clientFd = 0
  answers : ∃ reason, sends (t.log request.clientFd) = [errLine reason] ∨
    sends (t.log request.clientFd) = [okLine 0, errLine reason]

/-- An upload that did not complete never renamed. -/
theorem failed_no_rename {exit : Exit} {log : List Call} (h : PutOver cfg request exit log)
    (hexit : exit ≠ .completed) (src dst : Bytes) : (⟨.rename src dst, true⟩ : Call) ∉ log := by
  cases exit with
  | completed => exact absurd rfl hexit
  | commitFailed =>
      obtain ⟨before, reason, ok, after, hstored, rfl, hend⟩ := h
      intro hmem
      simp only [List.mem_append, List.mem_cons] at hmem
      rcases hmem with hmem | heq | heq | hmem
      · exact hstored.unsettled _ hmem trivial
      · cases heq
      · cases heq
      · exact hend _ hmem
  | failed =>
      obtain ⟨before, after, hlost, rfl, hend⟩ := h
      exact hlost.no_rename hend src dst true

/-- A commit whose rename failed leaves its file under the staging path. -/
theorem commitFailed_staged {log : List Call} (h : PutOver cfg request .commitFailed log) :
    fileAt (cstr (stagingPath cfg request)) none log ≠ none ∧
      ⟨.rename (stagingPath cfg request) (finalPath cfg request), false⟩ ∈ log := by
  obtain ⟨before, reason, ok, after, hstored, rfl, hend⟩ := h
  refine ⟨?_, by simp⟩
  obtain ⟨file, hfile, -⟩ := hstored.staged
  rw [fileAt_append_unchanged, hfile none]
  · exact Option.some_ne_none _
  · intro call hcall
    rcases List.mem_cons.mp hcall with rfl | hcall
    · exact fun h => Bool.false_ne_true h.1
    · rcases List.mem_cons.mp hcall with rfl | hcall
      · exact id
      · exact hend.unchanged _ call hcall

/-- The removal of a failed upload leaves no file under the staging path. -/
theorem failed_removed {log : List Call} (h : PutOver cfg request .failed log)
    (file : Option File) : fileAt (cstr (stagingPath cfg request)) file log = none := by
  obtain ⟨before, after, hlost, rfl, hend⟩ := h
  have hsplit : before ++ ⟨.remove (stagingPath cfg request), ()⟩ :: after =
      before ++ [⟨.remove (stagingPath cfg request), ()⟩] ++ after := by simp
  rw [hsplit, fileAt_append_unchanged (hend.unchanged _), fileAt_snoc]
  exact if_pos rfl

theorem failed_sends {log : List Call} (h : PutOver cfg request .failed log) :
    if request.totalBytes = 0 then sends log = [okLine 0]
    else ∃ reason, sends log = [okLine 0, errLine reason] := by
  obtain ⟨before, after, hlost, rfl, hend⟩ := h
  have hsends : sends (before ++ ⟨.remove (stagingPath cfg request), ()⟩ :: after) =
      sends before := by
    simp [Eff.sent, hend.sends]
  rw [hsends]
  exact hlost.sent

/-- A failed upload was not renamed, so where it is alone on its staging path the directory
holds there what its calls left. -/
theorem fileAt_of_alone (hexit : ∀ src dst, ⟨.rename src dst, true⟩ ∉ t.log request.clientFd)
    (halone : RunWhere cfg (Alone (cstr (stagingPath cfg request)) request.clientFd)
      (init P W dir) t) :
    t.dir (cstr (stagingPath cfg request)) = fileAt (cstr (stagingPath cfg request))
      (dir (cstr (stagingPath cfg request))) (t.log request.clientFd) := by
  refine run_fileAt (halone.mono_reach fun u l v _ halone hstep hrest => ?_)
  intro fd call hcall
  refine ⟨halone fd call hcall, ?_⟩
  rintro rfl honto
  have hpre := run_log_extends hrest request.clientFd
  rw [callOf_log hcall hstep] at hpre
  have hmem : call ∈ t.log request.clientFd := hpre.subset (by simp)
  rcases call with ⟨e, r⟩
  cases e with
  | rename src dst =>
      obtain ⟨rfl, -⟩ := honto
      exact hexit src dst hmem
  | _ => exact honto

/-- **When a failed PUT is clean.** Exactly when its name holds no NUL byte, its size is
not zero and it was not the final rename that failed. Where no other connection touches
the staging path, the directory holds there what the calls of the request left. -/
theorem put_failure {A : Sys P W → Label P W → Prop} (hput : request.op = .PUT)
    (hrun : RunWhere cfg A (init P W dir) t) (hmem : request ∈ t.admitted) {exit : Exit}
    (hfin : (request.clientFd, exit) ∈ t.finished) (hexit : exit ≠ .completed) :
    (CleanFailure cfg request t ↔ (0 : UInt8) ∉ request.filename ∧ request.totalBytes ≠ 0 ∧
      ∀ src dst, ⟨.rename src dst, false⟩ ∉ t.log request.clientFd) ∧
    (RunWhere cfg (Alone (cstr (stagingPath cfg request)) request.clientFd) (init P W dir) t →
      t.dir (cstr (stagingPath cfg request)) = fileAt (cstr (stagingPath cfg request))
        (dir (cstr (stagingPath cfg request))) (t.log request.clientFd)) := by
  have hlife := run_putLife hput hrun hmem
  have hover := hlife.finished exit hfin
  have htrue := failed_no_rename hover hexit
  refine ⟨?_, fileAt_of_alone htrue⟩
  cases exit with
  | completed => exact absurd rfl hexit
  | commitFailed =>
      -- neither side holds: the staging file is still there, and the rename failed
      obtain ⟨hstaged, hrename⟩ := commitFailed_staged hover
      exact ⟨fun hclean => absurd (hclean.staging none) hstaged,
        fun ⟨_, _, hno⟩ => absurd hrename (hno _ _)⟩
  | failed =>
      have hsends := failed_sends hover
      constructor
      · intro hclean
        obtain ⟨before, after, hlost, hlog, hend⟩ := hover
        refine ⟨fun hnul => ?_, fun hzero => ?_, fun src dst => ?_⟩
        · -- the removal hits the file under the final name
          refine hclean.final ⟨.remove (stagingPath cfg request), ()⟩ (by rw [hlog]; simp) ?_
          by_contra hne
          exact stagingPath_ne_finalPath.mp hne hnul
        · rw [if_pos hzero] at hsends
          obtain ⟨reason, hone | htwo⟩ := hclean.answers
          · rw [hsends] at hone
            exact okLine_ne_errLine _ _ (List.cons.inj hone).1
          · rw [hsends] at htwo
            cases htwo
        · rw [hlog]
          exact hlost.no_rename hend src dst false
      · rintro ⟨hnul, hpos, -⟩
        rw [if_neg hpos] at hsends
        refine ⟨failed_removed hover, ?_, ?_, ?_⟩
        · exact unchanged_of_unsettled hlife.always.trail htrue
            (Ne.symm (stagingPath_ne_finalPath.mpr hnul))
        · exact (run_wellFormed (init_wellFormed dir) hrun).rows_finished _ _ hfin
        · obtain ⟨reason, hsends⟩ := hsends
          exact ⟨reason, Or.inr hsends⟩

def isRename : Eff → Bool
  | .rename _ _ => true
  | _ => false

/-- An upload of one byte that never comes. -/
def cutUpload : List (Label 1 1) := arrive 7 (ascii "PUT a 1\n") 3 ++ work 11

theorem put_failure_cut : ∃ (t : Sys 1 1) (request : Request), request ∈ t.admitted ∧
    (request.clientFd, .failed) ∈ t.finished ∧
    CleanFailure (plainConfig .RR 2 (by decide) (by decide)) request t := by
  have htrue : ∀ (s : Sys 1 1) (l : Label 1 1), (fun _ _ => true) s l = true → True :=
    fun _ _ _ => trivial
  obtain ⟨t, hrun, hcheck⟩ := script_exists cutUpload
    (fun t => t.admitted.any (fun r => r.op = .PUT ∧ r.clientFd = 7 ∧ r.filename = ascii "a" ∧
      r.totalBytes = 1) && t.finished = [(7, .failed)] &&
      (t.log 7).all (fun call => !isRename call.eff)) htrue
    (show (script (step (plainConfig .RR 2 (by decide) (by decide))) (fun _ _ => true)
      (init 1 1 (fun _ => none)) cutUpload).any _ = true by decide)
  simp only [Bool.and_eq_true, decide_eq_true_eq, List.any_eq_true, List.all_eq_true] at hcheck
  obtain ⟨⟨⟨request, hmem, hput, hfd, hname, htotal⟩, hfin⟩, hcalls⟩ := hcheck
  have hfin' : (request.clientFd, .failed) ∈ t.finished := by
    rw [hfin, hfd]
    simp
  refine ⟨t, request, hmem, hfin', (put_failure hput hrun hmem hfin' (by simp)).1.mpr ⟨?_, ?_, ?_⟩⟩
  · rw [hname]
    decide
  · rw [htotal]
    decide
  · intro src dst hrename
    rw [hfd] at hrename
    have := hcalls _ hrename
    cases this

/-- An empty upload whose staging file cannot be created. -/
def uncreated : List (Label 1 1) :=
  arrive 7 (ascii "PUT a 0\n") 3 ++ work 2 ++ [.workerCall 0 { ok := false },
    .workerCall 0 {}, .workerCall 0 {}, .workerCall 0 {}]

theorem put_failure_silent : ∃ (t : Sys 1 1) (request : Request),
    RunWhere (plainConfig .RR 2 (by decide) (by decide)) (fun _ _ => True)
      (init 1 1 (fun _ => none)) t ∧
    request ∈ t.admitted ∧ request.op = .PUT ∧ (request.clientFd, .failed) ∈ t.finished ∧
    ¬ CleanFailure (plainConfig .RR 2 (by decide) (by decide)) request t := by
  have htrue : ∀ (s : Sys 1 1) (l : Label 1 1), (fun _ _ => true) s l = true → True :=
    fun _ _ _ => trivial
  obtain ⟨t, hrun, hcheck⟩ := script_exists uncreated
    (fun t => t.admitted.any (fun r => r.op = .PUT ∧ r.clientFd = 7) &&
      t.finished = [(7, .failed)] && sends (t.log 7) = [okLine 0]) htrue
    (show (script (step (plainConfig .RR 2 (by decide) (by decide))) (fun _ _ => true)
      (init 1 1 (fun _ => none)) uncreated).any _ = true by decide)
  simp only [Bool.and_eq_true, decide_eq_true_eq, List.any_eq_true] at hcheck
  obtain ⟨⟨⟨request, hmem, hput, hfd⟩, hfin⟩, hsends⟩ := hcheck
  refine ⟨t, request, hrun, hmem, hput, by simp [hfin, hfd], fun hclean => ?_⟩
  obtain ⟨reason, hone | htwo⟩ := hclean.answers
  · rw [hfd, hsends] at hone
    exact okLine_ne_errLine 0 reason (List.cons.inj hone).1
  · rw [hfd, hsends] at htwo
    cases htwo

end Sys

end LinkScheduling
