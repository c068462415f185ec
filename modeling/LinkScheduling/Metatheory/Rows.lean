import LinkScheduling.Metatheory.Arrival
import LinkScheduling.Metatheory.Rounds
import LinkScheduling.Metatheory.Tracking

/-!
# What the metrics say

A row is written once its request is completed. It names the request as it was admitted, its
three stamps are looks at the clock in their order, and `rounds` counts the dispatches. So the
tests for stamps in the wrong order in the summary never fire.
-/

namespace LinkScheduling

open Framework

/-! ## The clock -/

namespace Sys

variable {P W : ℕ} {cfg : Config} {dir : Directory} {s t : Sys P W}

/-- All stamps lie in the past. -/
structure Past (s : Sys P W) : Prop where
  clock_pos : 0 < s.clock
  past : ∀ fd time, ⟨.now, time⟩ ∈ s.log fd → 0 < time ∧ time ≤ s.clock

theorem Past.perform (h : s.Past) (fd : Fd) (c : Choice) (e : Eff) :
    (s.perform fd e (s.answer c e)).Past := by
  have hclock := clock_perform_le s fd c e
  refine ⟨lt_of_lt_of_le h.clock_pos hclock, fun fd' time hmem => ?_⟩
  rw [log_perform] at hmem
  rcases List.mem_append.mp hmem with hmem | hmem
  · obtain ⟨hpos, hle⟩ := h.past fd' time hmem
    exact ⟨hpos, hle.trans hclock⟩
  · split at hmem
    · cases List.mem_singleton.mp hmem
      exact ⟨lt_of_lt_of_le h.clock_pos hclock, le_rfl⟩
    · cases hmem

theorem step_past {l : Label P W} (h : s.Past) (hstep : s.step cfg l = some t) : t.Past := by
  cases step_cases hstep with
  | parserCall k c fd e next hbusy => exact ⟨(h.perform fd c e).1, (h.perform fd c e).2⟩
  | workerCall k c req held e next hbusy =>
      exact ⟨(h.perform req.clientFd c e).1, (h.perform req.clientFd c e).2⟩
  | _ => exact ⟨h.1, h.2⟩

end Sys

/-! ## The arrival -/

/-- Whatever was pushed carries a look at the clock as its arrival. -/
def Arrived (log : List Call) : Prop := ∀ req, Pushed req log → ⟨.now, req.arrivalNs⟩ ∈ log

theorem Arrived.snoc {log : List Call} {e : Eff} (r : Resp e) (h : Arrived log)
    (hpush : ∀ req, e = .push req → ⟨.now, req.arrivalNs⟩ ∈ log) : Arrived (log ++ [⟨e, r⟩]) := by
  intro req hpushed
  refine List.mem_append_left _ ?_
  rcases List.mem_append.mp hpushed with hpushed | hpushed
  · exact h req hpushed
  · cases List.mem_singleton.mp hpushed
    exact hpush req rfl

def arrivalLife : Lifecycle where
  allowed _ _ := True
  always := Arrived
  queued _ := Arrived
  ended _ := Arrived

theorem arrived_of_stamping {p : Server Unit} {g : Option ℕ} {log : List Call}
    (h : p.wp stamping (fun _ _ => True) g) (hg : ∀ time, g = some time → ⟨.now, time⟩ ∈ log)
    (hlog : Arrived log) : p.wp arrivalLife.contract (fun _ => Arrived) log := by
  induction p generalizing g log with
  | ret a => exact hlog
  | call e next ih =>
      have hsnoc : ∀ r, Arrived (log ++ [⟨e, r⟩]) := by
        refine fun r => hlog.snoc r ?_
        rintro req rfl
        exact hg _ h.1
      refine ⟨⟨hlog, by cases e <;> first | trivial | exact hsnoc _⟩, fun r _ => ?_⟩
      refine ih r (h.2 r trivial) (fun time htime => ?_) (hsnoc r)
      cases e with
      | now =>
          cases htime
          exact List.mem_append_right _ List.mem_cons_self
      | _ => cases htime

/-- Workers push nothing. -/
theorem workerContract_pushless {orig req : Request} {stage : Stage} :
    ¬ (workerContract orig).guarantee stage (.push req) := by
  intro h
  cases stage with
  | completed => cases h
  | _ => exact h.elim

theorem arrived_of_disciplined {orig : Request} {p : Server Unit} {stage : Stage}
    {Q : Unit → Stage → Prop} {log : List Call} (h : p.wp (workerContract orig) Q stage)
    (hlog : Arrived log) : p.wp arrivalLife.contract (fun _ => Arrived) log := by
  induction p generalizing stage log with
  | ret a => exact hlog
  | call e next ih =>
      have hsnoc : ∀ r, Arrived (log ++ [⟨e, r⟩]) := by
        refine fun r => hlog.snoc r ?_
        rintro req rfl
        exact absurd h.1 workerContract_pushless
      refine ⟨⟨hlog, by cases e <;> first | trivial | exact hsnoc _⟩, fun r hr => ?_⟩
      refine ih r (h.2 r ?_) (hsnoc r)
      cases e <;> first | trivial | exact hr.1

theorem arrivalLife_sound (cfg : Config) (fd : Fd) : arrivalLife.Sound cfg fd where
  parse := arrived_of_stamping (parserClient_stamping cfg fd) (fun _ h => by cases h)
    fun _ h => by cases h
  round _ _ _ h := arrived_of_disciplined workerRound_disciplined h
  close _ _ h := h.snoc _ fun _ he => by cases he

/-- A look at the clock is not before those the connection has seen, nor before the arrival of
its request. -/
def TimesRise (log : List Call) (call : Call) : Prop :=
  ∀ time, call = ⟨.now, time⟩ → 0 < time ∧ (∀ earlier, ⟨.now, earlier⟩ ∈ log → earlier ≤ time) ∧
    ∀ req, Pushed req log → req.arrivalNs ≤ time

namespace Sys

variable {P W : ℕ} {cfg : Config} {dir : Directory} {t : Sys P W} {A : Sys P W → Label P W → Prop}

theorem run_arrived (hrun : RunWhere cfg A (init P W dir) t) (fd : Fd) : Arrived (t.log fd) :=
  (Lifecycle.run_holds (arrivalLife_sound cfg fd) (hrun.mono fun _ _ _ _ _ => trivial)).always

theorem run_past (hrun : RunWhere cfg A (init P W dir) t) : t.Past :=
  hrun.invariant Past ⟨Nat.one_pos, fun _ _ hmem => by cases hmem⟩
    fun _ _ _ h _ hstep => step_past h hstep

/-- Every run reads a rising clock. -/
theorem run_timesRise (hrun : RunWhere cfg A (init P W dir) t) :
    RunWhere cfg (fun s l => ∀ fd call, s.callOf l = some (fd, call) →
      TimesRise (s.log fd) call) (init P W dir) t := by
  refine hrun.mono_reach fun u l v hu _ _ _ fd call hcall => ?_
  have hpast := run_past hu
  rintro time rfl
  obtain ⟨c, hc⟩ := callOf_answer hcall
  change time = u.clock + c.tick at hc
  have hle : u.clock ≤ time := hc ▸ Nat.le_add_right _ _
  exact ⟨lt_of_lt_of_le hpast.clock_pos hle,
    fun earlier hearlier => (hpast.past fd earlier hearlier).2.trans hle,
    fun req hpushed => (hpast.past fd _ (run_arrived hu fd req hpushed)).2.trans hle⟩

end Sys

/-! ## The stamps of a request -/

/-- `b` is a later record of `a` with the same stamps and counters. -/
structure Request.SameStamps (a b : Request) : Prop where
  same : a.Same b
  arrivalNs : b.arrivalNs = a.arrivalNs
  startNs : b.startNs = a.startNs
  rounds : b.rounds = a.rounds
  forfeitedBytes : b.forfeitedBytes = a.forfeitedBytes

theorem Request.SameStamps.refl (a : Request) : a.SameStamps a := ⟨.refl a, rfl, rfl, rfl, rfl⟩

theorem Request.SameStamps.trans {a b c : Request} (h : a.SameStamps b) (h' : b.SameStamps c) :
    a.SameStamps c :=
  ⟨h.1.trans h'.1, h'.2.trans h.2, h'.3.trans h.3, h'.4.trans h.4, h'.5.trans h.5⟩

/-- The calls of serving a round. -/
def Eff.serving : Eff → Prop
  | .now => False
  | .push _ => False
  | .requeue _ => False
  | .complete _ => False
  | .record _ => False
  | _ => True

theorem getCall_serving {fd : Fd} {path : Bytes} {e : Eff} (h : e.getCall fd path) : e.serving := by
  cases e <;> trivial

theorem putCall_serving {fd : Fd} {path : Bytes} {e : Eff} (h : e.putCall fd path) : e.serving := by
  cases e <;> trivial

theorem servePutBody_stamps {req : Request} {path : Bytes} {budget : ℕ} :
    (servePutBody req path budget).Only Eff.serving (fun res => req.SameStamps res.2.1) := by
  have hfail : ∀ {α : Type} {reason : String},
      (failUpload (α := α) req.clientFd path reason).Only Eff.serving (fun _ => True) :=
    failUpload_only.mono (fun _ => putCall_serving) fun _ h => h
  unfold servePutBody
  simp only [perform, Prog.only_bind, Prog.only_perform]
  refine ⟨trivial, fun opened => ?_⟩
  split
  · simp only [Prog.only_bind, Prog.only_perform]
    refine ⟨trivial, fun good => ?_⟩
    split
    · simp only [Prog.only_bind]
      refine (writePending_only _ _ _ _).mono (fun _ => putCall_serving) fun res _ => ?_
      rcases res with _ | ⟨pendingOffset, bytesProcessed, left⟩
      · exact .refl req
      · simp only [Prog.only_bind]
        refine (receiveBody_only _ _ _).mono (fun _ => putCall_serving) fun res _ => ?_
        rcases res with _ | bytesProcessed
        · exact ⟨⟨rfl, rfl, rfl, rfl, rfl, rfl⟩, rfl, rfl, rfl, rfl⟩
        · exact ⟨trivial, fun _ => ⟨⟨rfl, rfl, rfl, rfl, rfl, rfl⟩, rfl, rfl, rfl, rfl⟩⟩
    · simp only [Prog.only_bind]
      exact hfail.mono (fun _ h => h) fun _ _ => .refl req
  · simp only [Prog.only_bind, sendError_only]
    exact ⟨trivial, .refl req⟩

theorem Request.withStaging_stamps (req : Request) : req.SameStamps req.withStaging := by
  unfold withStaging
  split
  · exact ⟨⟨rfl, rfl, rfl, rfl, rfl, rfl⟩, rfl, rfl, rfl, rfl⟩
  · exact .refl req

theorem servePut_stamps {req : Request} {fileDir : Bytes} {budget : ℕ} :
    (servePut req fileDir budget).Only Eff.serving (fun res => req.SameStamps res.2.1) := by
  have hbody : ∀ path, (servePutBody req.withStaging path budget).Only Eff.serving
      (fun res => req.SameStamps res.2.1) := fun path =>
    servePutBody_stamps.mono (fun _ h => h) fun _ h => req.withStaging_stamps.trans h
  unfold servePut
  split
  · simp only [Prog.only_bind, sendError_only]
    exact ⟨trivial, .refl req⟩
  unfold servePutStaged
  split
  · simp only [perform, Prog.only_bind, Prog.only_perform]
    exact ⟨trivial, fun _ => req.withStaging_stamps⟩
  split
  · simp only [perform, Prog.only_bind, Prog.only_perform]
    refine ⟨trivial, fun created => ?_⟩
    split
    · exact hbody _
    · simp only [Prog.only_bind, sendError_only]
      exact ⟨trivial, req.withStaging_stamps⟩
  · exact hbody _

/-- Serving a round leaves the stamps alone, if it succeeds. -/
theorem serveRound_stamps {cfg : Config} {budget : ℕ} {req : Request} :
    (serveRound cfg budget req).Only Eff.serving
      (fun res => res.1 = true → req.SameStamps res.2.1) := by
  unfold serveRound
  split
  · refine serveGet_only.mono (fun _ => getCall_serving) fun res h hok => ?_
    obtain ⟨a14, hfields⟩ := h.fields hok
    exact ⟨h.same, by rw [hfields], by rw [hfields], by rw [hfields], by rw [hfields]⟩
  · have hput : (servePut req cfg.fileDir budget).Only Eff.serving
        (fun res => res.1 = true → req.SameStamps res.2.1) :=
      servePut_stamps.mono (fun _ h => h) fun _ h _ => h
    split
    · simp only [Prog.only_bind, sendResponse_only]
      exact ⟨trivial, hput⟩
    · simpa using hput
  · exact fun h => by cases h

/-- What a row says of its request, after `rounds` dispatches. -/
structure Documents (request row : Request) (rounds : ℕ) : Prop where
  same : request.Same row
  arrivalNs : row.arrivalNs = request.arrivalNs
  started : row.arrivalNs ≤ row.startNs
  finished : row.startNs ≤ row.finishNs
  rounds : row.rounds = u64 rounds
  forfeited : row.forfeitedBytes < 2 ^ 64

section Life

variable {cfg : Config} {request req : Request} {rounds : ℕ} {log : List Call}

/-- The record of a request that is on its way, after `rounds` dispatches, and the stamp of its
first round. -/
structure Waits (request req : Request) (rounds : ℕ) (log : List Call) : Prop where
  same : request.Same req
  pushed : Pushed request log
  arrivalNs : req.arrivalNs = request.arrivalNs
  rounds : req.rounds = u64 rounds
  unrecorded : ∀ row, ⟨.record row, ()⟩ ∉ log
  started : req.startNs = 0 ∨ req.arrivalNs ≤ req.startNs ∧ ⟨.now, req.startNs⟩ ∈ log
  forfeited : req.forfeitedBytes < 2 ^ 64

structure Runs (request req : Request) (rounds : ℕ) (log : List Call) : Prop
    extends Waits request req rounds log where
  running : req.arrivalNs ≤ req.startNs ∧ ⟨.now, req.startNs⟩ ∈ log

/-- Every row in the log documents the request. -/
def Documented (request : Request) (log : List Call) : Prop :=
  ∀ row, ⟨.record row, ()⟩ ∈ log →
    Documents request row (requeues log + 1) ∧ ⟨.now, row.finishNs⟩ ∈ log

theorem Waits.documented (h : Waits request req rounds log) : Documented request log :=
  fun row hrow => absurd hrow (h.unrecorded row)

/-- Calls that are no round of their own and write no row. -/
def Eff.plain : Eff → Prop
  | .requeue _ => False
  | .record _ => False
  | _ => True

theorem requeues_plain {calls : List Call} (h : ∀ call ∈ calls, call.eff.plain) :
    requeues calls = 0 := by
  refine requeues_eq_zero fun call hmem => ?_
  have hplain := h call hmem
  obtain ⟨e, r⟩ := call
  cases e <;> first | rfl | exact hplain.elim

theorem record_plain {calls : List Call} (h : ∀ call ∈ calls, call.eff.plain) (row : Request) :
    ⟨.record row, ()⟩ ∉ calls := fun hmem => h _ hmem

theorem Waits.plain {calls : List Call} (h : Waits request req rounds log)
    (hcalls : ∀ call ∈ calls, call.eff.plain) : Waits request req rounds (log ++ calls) where
  same := h.same
  pushed := pushed_append h.pushed calls
  arrivalNs := h.arrivalNs
  rounds := h.rounds
  unrecorded row hrow := by
    rcases List.mem_append.mp hrow with hrow | hrow
    · exact h.unrecorded row hrow
    · exact record_plain hcalls row hrow
  started := h.started.imp id fun h => ⟨h.1, List.mem_append_left _ h.2⟩
  forfeited := h.forfeited

theorem Runs.plain {calls : List Call} (h : Runs request req rounds log)
    (hcalls : ∀ call ∈ calls, call.eff.plain) : Runs request req rounds (log ++ calls) where
  toWaits := h.toWaits.plain hcalls
  running := ⟨h.running.1, List.mem_append_left _ h.running.2⟩

/-- The calls of the running round. -/
theorem Runs.after {calls : List Call} {n : ℕ} (h : Runs request req (requeues log + n) log)
    (hcalls : ∀ call ∈ calls, call.eff.plain) :
    Runs request req (requeues (log ++ calls) + n) (log ++ calls) := by
  rw [requeues_append, requeues_plain hcalls, Nat.add_zero]
  exact h.plain hcalls

theorem Documented.plain {calls : List Call} (h : Documented request log)
    (hcalls : ∀ call ∈ calls, call.eff.plain) : Documented request (log ++ calls) := by
  intro row hrow
  rw [requeues_append, requeues_plain hcalls, Nat.add_zero]
  rcases List.mem_append.mp hrow with hrow | hrow
  · exact ⟨(h row hrow).1, List.mem_append_left _ (h row hrow).2⟩
  · exact absurd hrow (record_plain hcalls row)

/-- One more call of that kind. -/
theorem Documented.snoc {e : Eff} (h : Documented request log) (he : e.plain) (r : Resp e) :
    Documented request (log ++ [⟨e, r⟩]) :=
  h.plain fun call hmem => by rw [List.mem_singleton.mp hmem]; exact he

theorem Runs.snoc {e : Eff} {n : ℕ} (h : Runs request req (requeues log + n) log) (he : e.plain)
    (r : Resp e) : Runs request req (requeues (log ++ [⟨e, r⟩]) + n) (log ++ [⟨e, r⟩]) :=
  h.after fun call hmem => by rw [List.mem_singleton.mp hmem]; exact he

def rowLife (request : Request) : Lifecycle where
  allowed := TimesRise
  always := Documented request
  queued req log := Waits request req (requeues log) log
  ended _ := Documented request

/-- The row that is written when the clock shows `finish`. -/
theorem Runs.record {finish : ℕ} (h : Runs request req (requeues log + 1) log)
    (hrise : TimesRise log ⟨.now, finish⟩) :
    Documented request (log ++ [⟨.now, finish⟩] ++
      [⟨.record { req with finishNs := finish }, ()⟩]) := by
  intro row hrow
  have hlog := h.snoc (e := .now) trivial finish
  rcases List.mem_append.mp hrow with hrow | hrow
  · exact absurd hrow (hlog.unrecorded row)
  · cases List.mem_singleton.mp hrow
    have hsame := h.same
    refine ⟨⟨⟨hsame.1, hsame.2, hsame.3, hsame.4, hsame.5, hsame.6⟩, h.arrivalNs, h.running.1,
      (hrise finish rfl).2.1 _ h.running.2, by simpa [requeues, Eff.requeued] using h.rounds,
      h.forfeited⟩, ?_⟩
    exact List.mem_append_left _ (List.mem_append_right _ List.mem_cons_self)

/-- The last calls of a completed request. -/
theorem finishRequest_documented (h : Runs request req (requeues log + 1) log) :
    (finishRequest req).wp (rowLife request).contract (fun _ => Documented request) log := by
  simp only [finishRequest, perform, Prog.wp_bind, Prog.wp_perform]
  refine ⟨⟨h.documented, trivial⟩, ?_⟩
  rintro finish ⟨-, hrise⟩
  have hnow : Documented request (log ++ [⟨.now, finish⟩]) := h.documented.snoc (e := .now) trivial finish
  have hrecord := h.record hrise
  have hcomplete := hrecord.snoc (e := .complete .completed) trivial ()
  exact ⟨⟨hnow, trivial⟩, fun _ _ => ⟨⟨hrecord, hcomplete⟩, fun _ _ => ⟨⟨hcomplete, trivial⟩,
    fun _ _ => hcomplete.snoc (e := .closeSocket req.clientFd) trivial ()⟩⟩⟩

theorem commitRequest_documented (h : Runs request req (requeues log + 1) log) :
    (commitRequest cfg req).wp (rowLife request).contract (fun _ => Documented request) log := by
  simp only [commitRequest, sendResponse, sendError, perform, Prog.wp_bind, Prog.wp_perform]
  refine ⟨⟨h.documented, trivial⟩, fun renamed _ => ?_⟩
  have hrename := h.snoc (e := .rename (filePath cfg.fileDir req.stagingFilename)
    (filePath cfg.fileDir req.filename)) trivial renamed
  split
  · simp only [Prog.wp_bind, Prog.wp_perform, Prog.wp_pure]
    refine ⟨⟨hrename.documented, trivial⟩, fun sent _ => finishRequest_documented ?_⟩
    have hsend := hrename.snoc (e := .sendAll req.clientFd (okLine 0)) trivial sent
    exact hsend
  · simp only [Prog.wp_bind, Prog.wp_perform, Prog.wp_pure]
    refine ⟨⟨hrename.documented, trivial⟩, fun sent _ => ?_⟩
    have hsend := hrename.documented.snoc
      (e := .sendAll req.clientFd (errLine (ascii "cannot commit file"))) trivial sent
    have hcomplete := hsend.snoc (e := .complete .commitFailed) trivial ()
    exact ⟨⟨hsend, hcomplete⟩, fun _ _ => ⟨⟨hcomplete, trivial⟩, fun _ _ =>
      hcomplete.snoc (e := .closeSocket req.clientFd) trivial ()⟩⟩

theorem abandonRequest_documented (h : Documented request log) :
    (abandonRequest cfg req).wp (rowLife request).contract (fun _ => Documented request) log := by
  have hend : ∀ {log : List Call}, Documented request log →
      (do perform (.complete .failed); perform (.closeSocket req.clientFd) : Server Unit).wp
        (rowLife request).contract (fun _ => Documented request) log := by
    intro log h
    have hcomplete := h.snoc (e := .complete .failed) trivial ()
    exact ⟨⟨h, hcomplete⟩, fun _ _ => ⟨⟨hcomplete, trivial⟩, fun _ _ =>
      hcomplete.snoc (e := .closeSocket req.clientFd) trivial ()⟩⟩
  unfold abandonRequest
  split
  · simp only [perform, Prog.wp_bind, Prog.wp_perform]
    exact ⟨⟨h, trivial⟩, fun _ _ => hend (h.snoc
      (e := .remove (filePath cfg.fileDir req.stagingFilename)) trivial ())⟩
  · simpa using hend h

/-! ## A round -/

theorem Scheduler.account_stamps (S : Scheduler) (req : Request) (n : ℕ) :
    req.Same (S.account req n) ∧ (S.account req n).arrivalNs = req.arrivalNs ∧
      (S.account req n).startNs = req.startNs ∧
      (S.account req n).rounds = u64 (req.rounds + 1) ∧
      (S.account req n).forfeitedBytes = req.forfeitedBytes := by
  unfold account
  simp only
  split
  · split <;> exact ⟨⟨rfl, rfl, rfl, rfl, rfl, rfl⟩, rfl, rfl, rfl, rfl⟩
  · exact ⟨⟨rfl, rfl, rfl, rfl, rfl, rfl⟩, rfl, rfl, rfl, rfl⟩

theorem u64_succ (n : ℕ) : u64 (u64 n + 1) = u64 (n + 1) := by
  simp [u64]

/-- A request on its way, with the same stamps. -/
theorem Runs.later {later : Request} (h : Runs request req rounds log)
    (hlater : req.SameStamps later) : Runs request later rounds log := by
  obtain ⟨hsame, harrival, hstart, hrounds, hforfeited⟩ := hlater
  exact ⟨⟨h.same.trans hsame, h.pushed, harrival.trans h.arrivalNs, hrounds.trans h.rounds,
    h.unrecorded, by rw [harrival, hstart]; exact h.started, hforfeited ▸ h.forfeited⟩,
    by rw [harrival, hstart]; exact h.running⟩

theorem Runs.account (h : Runs request req rounds log) (n : ℕ) :
    Runs request (cfg.scheduler.account req n) (rounds + 1) log := by
  obtain ⟨hsame, harrival, hstart, hrounds, hforfeited⟩ := cfg.scheduler.account_stamps req n
  refine ⟨⟨h.same.trans hsame, h.pushed, harrival.trans h.arrivalNs, ?_, h.unrecorded,
    by rw [harrival, hstart]; exact h.started, hforfeited ▸ h.forfeited⟩,
    by rw [harrival, hstart]; exact h.running⟩
  rw [hrounds, h.rounds, u64_succ]

/-- Back into the queue, with one dispatch more. -/
theorem Runs.requeue (h : Runs request req (requeues log + 1) log) :
    Waits request req (requeues (log ++ [⟨.requeue req, true⟩]))
      (log ++ [⟨.requeue req, true⟩]) where
  same := h.same
  pushed := List.mem_append_left _ h.pushed
  arrivalNs := h.arrivalNs
  rounds := by
    rw [requeues_append]
    exact h.rounds
  unrecorded row hrow := by
    rcases List.mem_append.mp hrow with hrow | hrow
    · exact h.unrecorded row hrow
    · cases List.mem_singleton.mp hrow
  started := Or.inr ⟨h.running.1, List.mem_append_left _ h.running.2⟩
  forfeited := h.forfeited

/-- Bytes forfeited on a 64-bit counter. -/
theorem Runs.forfeit (h : Runs request req rounds log) (n : ℕ) :
    Runs request { req with forfeitedBytes := u64 n } rounds log :=
  have hsame := h.same
  ⟨⟨⟨hsame.1, hsame.2, hsame.3, hsame.4, hsame.5, hsame.6⟩, h.pushed, h.arrivalNs, h.rounds,
    h.unrecorded, h.started, Nat.mod_lt _ (by decide)⟩, h.running⟩

theorem settleRound_documented {budget n : ℕ} (h : Runs request req (requeues log) log) :
    (settleRound cfg budget req n).wp (rowLife request).contract
      (fun _ => Documented request) log := by
  have hnext : Runs request (cfg.scheduler.account req n) (requeues log + 1) log := h.account n
  unfold settleRound
  simp only
  split
  · have hrequeue : ∀ later, Runs request later (requeues log + 1) log →
        (do if ← perform (.requeue later) then pure ()
            else perform (.closeSocket later.clientFd) : Server Unit).wp
          (rowLife request).contract (fun _ => Documented request) log := by
      intro later hlater
      have hwaits := hlater.requeue
      exact requeue_rule later h.documented hwaits hwaits.documented
    apply hrequeue
    split
    · exact hnext.forfeit _
    · exact hnext
  · split
    · exact commitRequest_documented hnext
    · exact finishRequest_documented hnext

theorem serving_inside {e : Eff} (h : e.serving) : e.inside := by
  cases e <;> trivial

theorem serving_plain {e : Eff} (h : e.serving) : e.plain := by
  cases e <;> trivial

theorem dispatchRound_documented {budget : ℕ} (h : Runs request req (requeues log) log) :
    (dispatchRound cfg budget req).wp (rowLife request).contract
      (fun _ => Documented request) log := by
  unfold dispatchRound
  rw [Prog.wp_bind]
  refine Prog.wp_mono (only_rule serveRound_stamps (fun _ => serving_inside)
    fun calls hcalls => ?_) ?_
  · exact h.documented.plain fun call hmem => serving_plain (hcalls call hmem)
  · rintro ⟨success, later, n⟩ _ ⟨hlater, calls, rfl, hcalls⟩
    have hplain : ∀ call ∈ calls, call.eff.plain := fun call hmem => serving_plain (hcalls call hmem)
    dsimp only
    split
    · rename_i hok
      have hruns := h.later (hlater hok)
      exact settleRound_documented (hruns.after (n := 0) hplain)
    · exact abandonRequest_documented (h.documented.plain hplain)

/-- The stamp of the first round, if this is the first. -/
theorem workerRound_documented (h : Waits request req (requeues log) log) :
    (workerRound cfg (cfg.scheduler.decision req)).wp (rowLife request).contract
      (fun _ => Documented request) log := by
  have hbudget : ∀ {start : ℕ} {log : List Call}, Runs request { req with startNs := start }
      (requeues log) log → Runs request (cfg.scheduler.started req start) (requeues log) log :=
    fun hruns => hruns.later ⟨⟨rfl, rfl, rfl, rfl, rfl, rfl⟩, rfl, rfl, rfl, rfl⟩
  unfold workerRound stampStart Scheduler.decision
  rw [Prog.wp_bind]
  simp only
  rw [cfg.scheduler.getBudget_eq req]
  split
  · simp only [perform, Prog.wp_bind, Prog.wp_perform, Prog.wp_pure]
    refine ⟨⟨h.documented, trivial⟩, ?_⟩
    rintro start ⟨-, hrise⟩
    have hnow : requeues (log ++ [⟨.now, start⟩]) = requeues log := requeues_append _ _
    have hwaits : Waits request req (requeues (log ++ [⟨.now, start⟩])) (log ++ [⟨.now, start⟩]) := by
      rw [hnow]
      refine h.plain fun call hmem => ?_
      rw [List.mem_singleton.mp hmem]
      trivial
    have hstart : req.arrivalNs ≤ start ∧ ⟨.now, start⟩ ∈ log ++ [⟨.now, start⟩] := by
      refine ⟨?_, List.mem_append_right _ List.mem_cons_self⟩
      rw [h.arrivalNs]
      exact (hrise start rfl).2.2 request h.pushed
    have hsame := h.same
    apply dispatchRound_documented
    apply hbudget
    exact ⟨⟨⟨hsame.1, hsame.2, hsame.3, hsame.4, hsame.5, hsame.6⟩, hwaits.pushed,
      hwaits.arrivalNs, hwaits.rounds, hwaits.unrecorded, Or.inr hstart, h.forfeited⟩, hstart⟩
  · rename_i hstarted
    apply dispatchRound_documented
    exact hbudget ⟨h, h.started.resolve_left hstarted⟩

theorem rowLife_soundFor : (rowLife request).SoundFor cfg request where
  enter log hadm _ := by
    have hplain : ∀ call ∈ log ++ [⟨.push request, true⟩], call.eff.plain := by
      intro call hmem
      rcases List.mem_append.mp hmem with hmem | hmem
      · have hcall := hadm.calls call hmem
        obtain ⟨e, r⟩ := call
        cases e <;> trivial
      · rw [List.mem_singleton.mp hmem]
        trivial
    have hwaits : Waits request request (requeues (log ++ [⟨.push request, true⟩]))
        (log ++ [⟨.push request, true⟩]) := by
      refine ⟨.refl _, List.mem_append_right _ List.mem_cons_self, rfl, ?_,
        record_plain hplain, Or.inl hadm.fresh.startNs, ?_⟩
      · rw [requeues_plain hplain, hadm.fresh.rounds]
        rfl
      · rw [hadm.fresh.forfeitedBytes]
        decide
    exact ⟨hwaits.documented, hwaits⟩
  round _ _ _ h := workerRound_documented h
  close _ _ h := h.snoc (e := .closeSocket request.clientFd) trivial ()

end Life

/-! ## The rows of a run -/

namespace Sys

variable {P W : ℕ} {cfg : Config} {dir : Directory} {t : Sys P W} {A : Sys P W → Label P W → Prop}

/-- Every row was recorded by a call for its connection. -/
theorem run_rowLogged (hrun : RunWhere cfg A (init P W dir) t) :
    ∀ {fd : Fd} {row : RequestMetrics}, (fd, row) ∈ t.records →
      ∃ req, ⟨.record req, ()⟩ ∈ t.log fd ∧ row = .ofRequest req := by
  refine hrun.invariant (fun s => ∀ {fd : Fd} {row : RequestMetrics}, (fd, row) ∈ s.records →
    ∃ req, ⟨.record req, ()⟩ ∈ s.log fd ∧ row = .ofRequest req) (fun h => by cases h) ?_
  intro u l v h _ hstep fd row hmem
  have hperform : ∀ (fd' : Fd) (e : Eff) (r : Resp e),
      (fd, row) ∈ (u.perform fd' e r).records →
      ∃ req, ⟨.record req, ()⟩ ∈ (u.perform fd' e r).log fd ∧ row = .ofRequest req := by
    intro fd' e r hr
    have hold : (fd, row) ∈ u.records →
        ∃ req, ⟨.record req, ()⟩ ∈ (u.perform fd' e r).log fd ∧ row = .ofRequest req := by
      intro hr
      obtain ⟨req, hreq, hrow⟩ := h hr
      exact ⟨req, by rw [log_perform]; exact List.mem_append_left _ hreq, hrow⟩
    cases e with
    | record req =>
        rcases List.mem_append.mp hr with hr | hr
        · exact hold hr
        · cases List.mem_singleton.mp hr
          exact ⟨req, by rw [log_perform, if_pos rfl]; exact List.mem_append_right _ (by simp), rfl⟩
    | _ => exact hold hr
  cases step_cases hstep with
  | parserCall k c fd' e next hbusy => exact hperform fd' e _ hmem
  | workerCall k c req held e next hbusy => exact hperform req.clientFd e _ hmem
  | _ => exact h hmem

/-- A connection with a row had a request admitted. -/
theorem WellFormed.admitted_of_row {s : Sys P W} (h : s.WellFormed) {fd : Fd}
    {row : RequestMetrics} (hmem : (fd, row) ∈ s.records) :
    ∃ request ∈ s.admitted, request.clientFd = fd := by
  have hrows : 0 < s.rows fd := List.count_pos_iff.mpr (List.mem_map.mpr ⟨_, hmem, rfl⟩)
  have hserved : 0 < s.admittedCount fd := by
    have hplaced := h.placed fd
    by_contra hnone
    have := h.rows_unserved fd (by omega) (by omega)
    omega
  exact List.mem_map.mp (List.count_pos_iff.mp hserved)

/-- What a row of the metrics says of an admitted request that was dispatched `rounds` times. -/
structure Describes (request : Request) (rounds clock : ℕ) (row : RequestMetrics) : Prop where
  requestId : row.requestId = request.requestId
  op : row.op = request.op
  filename : row.filename = request.filename
  totalBytes : row.totalBytes = request.totalBytes
  arrivalNs : row.arrivalNs = request.arrivalNs
  rounds : row.rounds = u64 rounds
  forfeited : row.forfeitedBytes < 2 ^ 64
  arrived : 0 < row.arrivalNs
  started : row.arrivalNs ≤ row.startNs
  finished : row.startNs ≤ row.finishNs
  past : row.finishNs ≤ clock

theorem rowDescribed (hrun : RunWhere cfg A (init P W dir) t) {fd : Fd} {row : RequestMetrics}
    (hmem : (fd, row) ∈ t.records) :
    ∃ request ∈ t.admitted, request.clientFd = fd ∧
      Describes request (requeues (t.log fd) + 1) t.clock row := by
  obtain ⟨req, hlogged, rfl⟩ := run_rowLogged hrun hmem
  obtain ⟨request, hadm, rfl⟩ :=
    (run_wellFormed (init_wellFormed dir) hrun).admitted_of_row hmem
  have hrise : RunWhere cfg ((rowLife request).Permits request.clientFd) (init P W dir) t :=
    (run_timesRise hrun).mono fun _ _ h => h request.clientFd
  obtain ⟨hdoc, hfinish⟩ := (Lifecycle.run_holdsFor rowLife_soundFor hrise hadm).always req hlogged
  have hpast := run_past hrun
  refine ⟨request, hadm, rfl, hdoc.same.requestId, hdoc.same.op, hdoc.same.filename,
    hdoc.same.totalBytes, hdoc.arrivalNs, hdoc.rounds, hdoc.forfeited, ?_, hdoc.started,
    hdoc.finished, (hpast.past _ _ hfinish).2⟩
  show 0 < req.arrivalNs
  rw [hdoc.arrivalNs]
  exact (hpast.past _ _ (run_arrived hrun _ _ (run_admitted hrun hadm))).1

/-- **The metrics describe the requests.** In every run every row is about the one admitted
request of its connection: it has that request's number, operation, name, size and arrival, its
three stamps are in order and in the past, and it counts the dispatches of the request. -/
theorem rows_describe (hrun : RunWhere cfg A (init P W dir) t) :
    ∀ entry ∈ t.records, ∃ request ∈ t.admitted, request.clientFd = entry.1 ∧
      Describes request (requeues (t.log entry.1) + 1) t.clock entry.2 :=
  fun _ hmem => rowDescribed hrun hmem

/-- An upload of one byte in one round. -/
theorem rows_describe_upload : ∃ (t : Sys 1 1) (entry : Fd × RequestMetrics),
    entry ∈ t.records ∧ ∃ request ∈ t.admitted,
      Describes request (requeues (t.log entry.1) + 1) t.clock entry.2 := by
  have htrue : ∀ (s : Sys 1 1) (l : Label 1 1), (fun _ _ => true) s l = true → True :=
    fun _ _ _ => trivial
  obtain ⟨t, hrun, hcheck⟩ := script_exists (arrive 7 (ascii "PUT a 1\nx") 3 ++ work 11)
    (fun t => !t.records.isEmpty) htrue
    (show (script (step (plainConfig .FCFS 1 (by decide) (by decide))) (fun _ _ => true)
      (init 1 1 fun _ => none) (arrive 7 (ascii "PUT a 1\nx") 3 ++ work 11)).any _ = true by decide)
  obtain ⟨entry, hentry⟩ := List.exists_mem_of_ne_nil _ (by simpa using hcheck)
  obtain ⟨request, hmem, -, hdescribes⟩ := rows_describe hrun entry hentry
  exact ⟨t, entry, hentry, request, hmem, hdescribes⟩

end Sys

end LinkScheduling
