import LinkScheduling.Deficit.Accounting
import LinkScheduling.Framework.Rotation
import LinkScheduling.Metatheory.Accounting

/-!
# Fairness of DRR with one worker

With one worker the request it holds, followed by the queue, is a line: a push joins it, a
requeue is a turn, a completed request leaves it. So two requests that stay take their
rounds alternately, each round gives each a quantum, and of that a GET keeps back less than
a line.
-/

namespace LinkScheduling

open Framework

/-- The connection of the request the worker holds. -/
def Worker.heldFd : Worker → List Fd
  | .busy req true _ => [req.clientFd]
  | _ => []

theorem Worker.heldFd_count (w : Worker) (fd : Fd) : w.heldFd.count fd = w.holds fd := by
  cases w with
  | busy req held todo => cases held <;> simp [heldFd, holds, List.count_singleton]
  | _ => rfl

theorem Worker.heldFd_released (req : Request) (p : Server Unit) :
    (Worker.resume req false p).heldFd = [] := by
  cases p <;> rfl

theorem Worker.heldFd_serving {req : Request} {p : Server Unit} {rows : ℕ}
    (h : p.wp (workerContract req) (fun _ stage => stage.released) (.serving rows)) :
    (Worker.resume req true p).heldFd = [req.clientFd] := by
  rw [Worker.resume_serving h]
  rfl

namespace Sys

variable {P : ℕ} {cfg : Config} {dir : Directory} {s t : Sys P 1}

/-- The connections in service order. -/
def line (s : Sys P 1) : List Fd :=
  (s.worker 0).heldFd ++ s.requestQueue.queue.map (·.clientFd)

theorem line_count (s : Sys P 1) (fd : Fd) :
    s.line.count fd = s.heldCount fd + s.queuedCount fd := by
  have hheld : s.heldCount fd = (s.worker 0).holds fd := by
    simp [heldCount]
  rw [line, List.count_append, Worker.heldFd_count, hheld]
  rfl

theorem WellFormed.line_nodup (h : s.WellFormed) : s.line.Nodup := by
  rw [List.nodup_iff_count_le_one]
  intro fd
  have hplaced := h.placed fd
  have honce := h.once fd
  rw [line_count]
  omega

/-- An admitted request is queued or held until it is finished. -/
theorem WellFormed.placed_of_open {W : ℕ} {s : Sys P W} (h : s.WellFormed) {request : Request}
    (hmem : request ∈ s.admitted) (hopen : ¬ s.Finished request.clientFd) :
    0 < s.heldCount request.clientFd + s.queuedCount request.clientFd := by
  have hplaced := h.placed request.clientFd
  have hadm : 0 < s.admittedCount request.clientFd :=
    List.count_pos_iff.mpr (List.mem_map_of_mem hmem)
  have hfin : s.finishedCount request.clientFd = 0 := by
    refine List.count_eq_zero.mpr fun hin => hopen ?_
    obtain ⟨⟨fd, exit⟩, hpair, rfl⟩ := List.mem_map.mp hin
    exact ⟨exit, hpair⟩
  omega

/-- An admitted request is in the line until it is finished. -/
theorem WellFormed.mem_line (h : s.WellFormed) {request : Request}
    (hmem : request ∈ s.admitted) (hopen : ¬ s.Finished request.clientFd) :
    request.clientFd ∈ s.line := by
  rw [← List.count_pos_iff, line_count]
  exact h.placed_of_open hmem hopen

/-- A step leaves the line and the rounds alone, or makes one move. -/
def LineStep (s t : Sys P 1) : Prop :=
  (t.line = s.line ∧ ∀ fd, requeues (t.log fd) = requeues (s.log fd)) ∨
    ∃ m, Moves s.line m t.line ∧
      ∀ fd, requeues (t.log fd) = requeues (s.log fd) + m.turns fd

theorem requeues_perform (s : Sys P 1) (fd fd' : Fd) (e : Eff) (r : Resp e) :
    requeues ((s.perform fd e r).log fd') =
      requeues (s.log fd') + if fd = fd' then e.requeued else 0 := by
  rw [log_perform, requeues_append]
  by_cases hfd : fd = fd' <;> simp [hfd]

theorem parserCall_line (hwf : s.WellFormed) {k : Fin P} (c : Choice) {fd : Fd} {e : Eff}
    {next : Resp e → Server Unit} (hbusy : s.parser k = .busy fd (.call e next)) :
    LineStep s ((s.perform fd e (s.answer c e)).setParser k
      (.resume fd (next (s.answer c e)))) := by
  have hcall := (hwf.parser_ok k fd _ hbusy).1.2
  have hrequeues : ∀ fd', requeues ((s.perform fd e (s.answer c e)).log fd') =
      requeues (s.log fd') := by
    intro fd'
    rw [requeues_perform]
    cases e with
    | requeue req => exact hcall.elim
    | _ => simp [Eff.requeued]
  cases e with
  | push req =>
      cases hclosed : s.requestQueue.closed with
      | true =>
          left
          refine ⟨?_, hrequeues⟩
          change (s.worker 0).heldFd ++ (s.requestQueue.push req).2.queue.map _ = _
          simp [RequestQueue.push, hclosed, line]
      | false =>
          right
          refine ⟨.join req.clientFd, ?_, hrequeues⟩
          have hline : (s.worker 0).heldFd ++
              (s.requestQueue.push req).2.queue.map (·.clientFd) = s.line ++ [req.clientFd] := by
            simp [RequestQueue.push, hclosed, line]
          change Moves s.line _ ((s.worker 0).heldFd ++
            (s.requestQueue.push req).2.queue.map (·.clientFd))
          rw [hline]
          exact .join s.line req.clientFd
  | requeue req => exact hcall.elim
  | complete exit => exact hcall.elim
  | _ => exact Or.inl ⟨rfl, hrequeues⟩

theorem workerTake_line {k : Fin 1} {request : Request} {q : RequestQueue}
    (hidle : s.worker k = .idle) (hq : s.requestQueue.queue = request :: q.queue) :
    LineStep s ({ s with requestQueue := q }.setWorker k
      (.resume (cfg.scheduler.decision request).request true
        (workerRound cfg (cfg.scheduler.decision request)))) := by
  left
  refine ⟨?_, fun _ => rfl⟩
  obtain rfl : k = 0 := Subsingleton.elim k 0
  obtain ⟨e, next, hcall⟩ := serving_call
    (p := workerRound cfg (cfg.scheduler.decision request)) workerRound_disciplined
  have hfd : (cfg.scheduler.decision request).request.clientFd = request.clientFd :=
    (cfg.scheduler.getBudget_same request).clientFd
  simp [line, setWorker, hcall, Worker.resume, Worker.heldFd, hfd, hidle, hq]

theorem line_workerCall (s : Sys P 1) (fd : Fd) (e : Eff) (r : Resp e) (w : Worker) :
    ((s.perform fd e r).setWorker 0 w).line =
      w.heldFd ++ (e.onQueue s.requestQueue).queue.map (·.clientFd) := by
  simp only [line, setWorker, Function.update_self]
  rfl

theorem workerCall_line (hwf : s.WellFormed) {k : Fin 1} (c : Choice) {req : Request}
    {held : Bool} {e : Eff} {next : Resp e → Server Unit}
    (hbusy : s.worker k = .busy req held (.call e next)) :
    LineStep s ((s.perform req.clientFd e (s.answer c e)).setWorker k
      (.resume req (held && !e.releases) (next (s.answer c e)))) := by
  obtain rfl : k = 0 := Subsingleton.elim k 0
  obtain ⟨hcall, hnext⟩ := hwf.worker_ok 0 req held _ hbusy
  cases held with
  | false =>
      -- only the socket is left to close
      change e = .closeSocket req.clientFd at hcall
      subst hcall
      left
      refine ⟨?_, fun fd => by simp [setWorker, requeues_perform, Eff.requeued]⟩
      rw [line_workerCall, Bool.false_and, Worker.heldFd_released, line, hbusy]
      rfl
  | true =>
      have hline : s.line = req.clientFd :: s.requestQueue.queue.map (·.clientFd) := by
        simp [line, hbusy, Worker.heldFd]
      have hrely : (workerContract req).rely (s.stageOf req true) e (s.answer c e) := by
        cases e <;> trivial
      have hrest := hnext _ hrely
      cases e with
      | requeue later =>
          have hsame : req.Same later := hcall.1
          right
          refine ⟨.turn req.clientFd, ?_, fun fd => ?_⟩
          · have hqueue : (Eff.onQueue s.requestQueue (.requeue later)).queue.map (·.clientFd) =
                s.requestQueue.queue.map (·.clientFd) ++ [req.clientFd] := by
              simp [Eff.onQueue, RequestQueue.requeue, hsame.clientFd]
            rw [line_workerCall, hqueue, hline]
            change Moves _ _ ((Worker.resume req false _).heldFd ++ _)
            rw [Worker.heldFd_released]
            exact .turn _ _
          · simp [setWorker, requeues_perform, Eff.requeued, Move.turns]
      | complete exit =>
          right
          refine ⟨.leave req.clientFd, ?_, fun fd => ?_⟩
          · rw [line_workerCall, hline]
            change Moves _ _ ((Worker.resume req false _).heldFd ++
              s.requestQueue.queue.map (·.clientFd))
            rw [Worker.heldFd_released]
            exact .leave _ _
          · simp [setWorker, requeues_perform, Eff.requeued, Move.turns]
      | push later => exact hcall.elim
      | _ =>
          left
          refine ⟨?_, fun fd => by simp [setWorker, requeues_perform, Eff.requeued]⟩
          rw [line_workerCall, hline]
          exact congrArg (· ++ _) (Worker.heldFd_serving hrest)

theorem step_line (hfifo : cfg.scheduler.policy ≠ .SJF) (hwf : s.WellFormed) {l : Label P 1}
    (hstep : s.step cfg l = some t) : LineStep s t := by
  cases step_cases hstep with
  | parserCall k c fd e next hbusy => exact parserCall_line hwf c hbusy
  | workerTake k d request q hidle hpop hreq hbudget hnext =>
      obtain ⟨head, hq, rfl⟩ := Scheduler.next_head hfifo hnext
      exact workerTake_line hidle hq
  | workerExit k hidle hq hclosed hinflight =>
      left
      refine ⟨?_, fun _ => rfl⟩
      obtain rfl : k = 0 := Subsingleton.elim k 0
      simp [line, setWorker, hidle, Worker.heldFd]
  | workerCall k c req held e next hbusy => exact workerCall_line hwf c hbusy
  | _ => exact Or.inl ⟨rfl, fun _ => rfl⟩

/-- Two requests that stay in the line take their rounds alternately. -/
theorem run_alternate (hfifo : cfg.scheduler.policy ≠ .SJF) {A : Sys P 1 → Label P 1 → Prop}
    {i j : Request} (hij : i.clientFd ≠ j.clientFd) (hwf : s.WellFormed)
    (hi : i ∈ s.admitted) (hj : j ∈ s.admitted)
    (hfirst : [i.clientFd, j.clientFd].Sublist s.line) (hrun : RunWhere cfg A s t)
    (hiopen : ¬ t.Finished i.clientFd) (hjopen : ¬ t.Finished j.clientFd) :
    ∃ ni nj, requeues (t.log i.clientFd) = requeues (s.log i.clientFd) + ni ∧
      requeues (t.log j.clientFd) = requeues (s.log j.clientFd) + nj ∧
      Alternate i.clientFd j.clientFd t.line ni nj := by
  induction hrun with
  | refl => exact ⟨0, 0, rfl, rfl, Or.inl ⟨hfirst, rfl⟩⟩
  | @tail u v l hbefore _ hstep ih =>
      obtain ⟨hadm, hfin⟩ := step_history hstep
      have hopen : ∀ fd, ¬ v.Finished fd → ¬ u.Finished fd :=
        fun fd hv ⟨exit, hmem⟩ => hv ⟨exit, hfin.subset hmem⟩
      obtain ⟨ni, nj, hni, hnj, halt⟩ := ih (hopen _ hiopen) (hopen _ hjopen)
      have hwfu := run_wellFormed hwf hbefore
      have hwfv := step_wellFormed hwfu hstep
      have hadmv := (run_history hbefore).1.trans hadm
      rcases step_line hfifo hwfu hstep with ⟨hline, hsame⟩ | ⟨m, hmove, hturns⟩
      · refine ⟨ni, nj, (hsame _).trans hni, (hsame _).trans hnj, ?_⟩
        rw [hline]
        exact halt
      · refine ⟨ni + m.turns i.clientFd, nj + m.turns j.clientFd, ?_, ?_, ?_⟩
        · rw [hturns, hni, Nat.add_assoc]
        · rw [hturns, hnj, Nat.add_assoc]
        · exact halt.move hij hmove hwfu.line_nodup
            (hwfv.mem_line (hadmv.subset hi) hiopen) (hwfv.mem_line (hadmv.subset hj) hjopen)

/-- The rounds of two requests that stay differ by at most one. -/
theorem run_rounds_close (hfifo : cfg.scheduler.policy ≠ .SJF) {A : Sys P 1 → Label P 1 → Prop}
    {i j : Request} (hij : i.clientFd ≠ j.clientFd) (hwf : s.WellFormed)
    (hi : i ∈ s.admitted) (hj : j ∈ s.admitted) (hrun : RunWhere cfg A s t)
    (hiopen : ¬ t.Finished i.clientFd) (hjopen : ¬ t.Finished j.clientFd) :
    ∃ ni nj, requeues (t.log i.clientFd) = requeues (s.log i.clientFd) + ni ∧
      requeues (t.log j.clientFd) = requeues (s.log j.clientFd) + nj ∧
      ni ≤ nj + 1 ∧ nj ≤ ni + 1 := by
  have hfin := (run_history hrun).2
  have hopen : ∀ fd, ¬ t.Finished fd → ¬ s.Finished fd :=
    fun fd ht ⟨exit, hmem⟩ => ht ⟨exit, hfin.subset hmem⟩
  have hmemi := hwf.mem_line hi (hopen _ hiopen)
  have hmemj := hwf.mem_line hj (hopen _ hjopen)
  rcases pair_sublist_total hij hmemi hmemj with hfirst | hfirst
  · obtain ⟨ni, nj, hni, hnj, halt⟩ :=
      run_alternate hfifo hij hwf hi hj hfirst hrun hiopen hjopen
    refine ⟨ni, nj, hni, hnj, ?_⟩
    rcases halt with ⟨-, rfl⟩ | ⟨-, rfl⟩ <;> omega
  · obtain ⟨nj, ni, hnj, hni, halt⟩ :=
      run_alternate hfifo hij.symm hwf hj hi hfirst hrun hjopen hiopen
    refine ⟨ni, nj, hni, hnj, ?_⟩
    rcases halt with ⟨-, rfl⟩ | ⟨-, rfl⟩ <;> omega

end Sys

/-! ## The bytes of a round boundary -/

/-- The bytes served so far: of a GET what was sent after the header line, of a PUT what
was stored. -/
def bytesServed (cfg : Config) (request : Request) (log : List Call) : ℕ :=
  match request.op with
  | .GET => (sends log).tail.flatten.length
  | _ => (fileAt (cstr (stagingPath cfg request)) none log).elim 0 File.size

/-- What DRR may keep back of a request. -/
def lineBound (request : Request) (file : File) : ℕ :=
  if request.op = .GET then longestLine newline file.bytes else 0

theorem View.Waiting.bytesServed {V : View} {cfg : Config} {request req : Request}
    {log : List Call} (h : V.Waiting req log) (hget : request.op = .GET) :
    bytesServed cfg request log = req.offset := by
  simp only [LinkScheduling.bytesServed, hget]
  rcases h.wire with ⟨-, hzero, hnone⟩ | ⟨-, pieces, hpieces, hlength, -⟩
  · simp [hnone, hzero]
  · rw [hpieces]
    exact hlength

/-- Where nothing was created, there is no file. -/
theorem fileAt_none {p : Bytes} {log : List Call} (h : ∀ path ok, ⟨.create path, ok⟩ ∉ log) :
    fileAt p none log = none := by
  induction log with
  | nil => rfl
  | cons call log ih =>
      have hcall : call.onFile p none = none := by
        rcases call with ⟨e, r⟩
        cases e with
        | create path => exact absurd List.mem_cons_self (h path r)
        | write path off data => cases r <;> simp [Call.onFile]
        | remove path => simp [Call.onFile]
        | rename src dst => simp [Call.onFile]
        | _ => rfl
      change fileAt p (call.onFile p none) log = none
      rw [hcall]
      exact ih fun path ok hmem => h path ok (List.mem_cons_of_mem _ hmem)

/-- A staging file is created after the first response only. -/
theorem Unstarted.not_created {cfg : Config} {request : Request} {log : List Call}
    (h : Unstarted cfg request [] log) (path : Bytes) (ok : Bool) :
    ⟨.create path, ok⟩ ∉ log := by
  intro hmem
  obtain ⟨before, after, hlog⟩ := List.append_of_mem hmem
  have hsent := (h.orderly.trail before _ after hlog).2
  have hnone := h.sent
  rw [hlog, sends_append, hsent] at hnone
  cases hnone

theorem PutWaiting.bytesServed {cfg : Config} {request req : Request} {log : List Call}
    (h : PutWaiting cfg request req log) : bytesServed cfg request log = req.offset := by
  simp only [LinkScheduling.bytesServed, h.op]
  rcases h.stage with ⟨hzero, hunstarted⟩ | ⟨hpos, -, -, hup⟩
  · rw [fileAt_none hunstarted.not_created, hzero]
    rfl
  · obtain ⟨file, hstaged, hbytes⟩ := hup.staged
    rw [hstaged none]
    have hreach := hup.reach
    simp [File.size, hbytes, hreach]

namespace Sys

variable {P : ℕ} {cfg : Config} {dir : Directory}

/-- No worker is in the middle of a round. -/
def RoundBoundary {W : ℕ} (s : Sys P W) : Prop := ∀ k req todo, s.worker k ≠ .busy req true todo

/-- Between two rounds an admitted request waits in the queue until it is finished. -/
theorem WellFormed.queued_of_boundary {W : ℕ} {s : Sys P W} (h : s.WellFormed)
    (hboundary : s.RoundBoundary) {request : Request} (hmem : request ∈ s.admitted)
    (hopen : ¬ s.Finished request.clientFd) :
    ∃ req ∈ s.requestQueue.queue, req.clientFd = request.clientFd := by
  have hheld : s.heldCount request.clientFd = 0 := by
    refine Finset.sum_eq_zero fun k _ => ?_
    cases hk : s.worker k with
    | busy req held todo =>
        cases held with
        | true => exact absurd hk (hboundary k req todo)
        | false => rfl
    | _ => rfl
  have hqueued := h.placed_of_open hmem hopen
  rw [hheld, Nat.zero_add] at hqueued
  exact List.mem_map.mp (List.count_pos_iff.mp hqueued)

/-- At a round boundary the bytes served and what is kept back make up the quanta of the
rounds. -/
theorem boundary_account {W : ℕ} {t : Sys P W} {request : Request} {file : File}
    (hdrr : cfg.scheduler.policy = .DRR)
    (hrun : RunWhere cfg (Smoothly cfg request file) (init P W dir) t)
    (hmem : request ∈ t.admitted) (hopen : ¬ t.Finished request.clientFd)
    (hboundary : t.RoundBoundary) :
    ∃ kept ≤ lineBound request file,
      bytesServed cfg request (t.log request.clientFd) + kept =
        requeues (t.log request.clientFd) * cfg.scheduler.quantum := by
  obtain ⟨before, after, -, hadm⟩ := (run_tracked hrun hmem).admitted
  have hwf := run_wellFormed (init_wellFormed dir) hrun
  obtain ⟨req, hreq, hfd⟩ := hwf.queued_of_boundary hboundary hmem hopen
  have hserved : bytesServed cfg request (t.log request.clientFd) = req.offset := by
    rcases hadm.op with hget | hput
    · rw [smoothly_get hget] at hrun
      exact ((run_deficit_get hdrr hget hrun hmem).queued req hreq hfd).2.1.bytesServed hget
    · exact ((run_putLife hput hrun hmem).queued req hreq hfd).2.bytesServed
  have haccount := (run_account hdrr hadm.op hrun hmem).1 req hreq hfd
  refine ⟨req.deficit, ?_, ?_⟩
  · rcases Nat.eq_zero_or_pos (requeues (t.log request.clientFd)) with hzero | hpos
    · have hsum := haccount.sum
      rw [haccount.count, hzero] at hsum
      omega
    · have hdeficit := haccount.deficit hpos
      unfold lineBound
      by_cases hget : request.op = .GET
      · rw [if_pos hget] at hdeficit ⊢
        exact hdeficit.le.trans (lineLength_le_longestLine _ _ _)
      · rw [if_neg hget] at hdeficit ⊢
        exact hdeficit.le
  · rw [hserved, haccount.sum, haccount.count]

/-- The bytes served to `request` from `s` to `t`. -/
def servedBetween {W : ℕ} (cfg : Config) (request : Request) (s t : Sys P W) : ℤ :=
  bytesServed cfg request (t.log request.clientFd) -
    bytesServed cfg request (s.log request.clientFd)

/-- **Fairness of DRR.** With one worker, between two round boundaries the bytes served to
two requests that are admitted and unfinished all the time differ by at most a quantum and
twice the longest line, whatever else arrives. -/
theorem drr_fair {i j : Request} {fi fj : File} {s t : Sys P 1}
    (hdrr : cfg.scheduler.policy = .DRR)
    (hs : RunWhere cfg (fun u l => Smoothly cfg i fi u l ∧ Smoothly cfg j fj u l)
      (init P 1 dir) s)
    (ht : RunWhere cfg (fun u l => Smoothly cfg i fi u l ∧ Smoothly cfg j fj u l) s t)
    (hsb : s.RoundBoundary) (htb : t.RoundBoundary)
    (hi : i ∈ s.admitted) (hj : j ∈ s.admitted)
    (hiopen : ¬ t.Finished i.clientFd) (hjopen : ¬ t.Finished j.clientFd) :
    |servedBetween cfg i s t - servedBetween cfg j s t| ≤
      cfg.scheduler.quantum + 2 * max (lineBound i fi) (lineBound j fj) := by
  have hwf := run_wellFormed (init_wellFormed dir) hs
  by_cases hij : i.clientFd = j.clientFd
  · -- a connection has one request
    have heq : i = j := List.inj_on_of_nodup_map hwf.distinct hi hj hij
    subst heq
    simp only [sub_self, abs_zero]
    positivity
  obtain ⟨hadm, hfin⟩ := run_history ht
  have hopen : ∀ fd, ¬ t.Finished fd → ¬ s.Finished fd :=
    fun fd h ⟨exit, hmem⟩ => h ⟨exit, hfin.subset hmem⟩
  -- the round counts differ by one at most; each account is its rounds times the quantum,
  -- up to a line that is still owed
  obtain ⟨ni, nj, hni, hnj, hle, hge⟩ := run_rounds_close (by rw [hdrr]; decide) hij hwf hi hj ht
    hiopen hjopen
  obtain ⟨ki, hki, hsi⟩ := boundary_account hdrr (hs.mono fun _ _ h => h.1) hi
    (hopen _ hiopen) hsb
  obtain ⟨kj, hkj, hsj⟩ := boundary_account hdrr (hs.mono fun _ _ h => h.2) hj
    (hopen _ hjopen) hsb
  obtain ⟨ki', hki', hti⟩ := boundary_account hdrr ((hs.trans ht).mono fun _ _ h => h.1)
    (hadm.subset hi) hiopen htb
  obtain ⟨kj', hkj', htj⟩ := boundary_account hdrr ((hs.trans ht).mono fun _ _ h => h.2)
    (hadm.subset hj) hjopen htb
  rw [hni, Nat.add_mul] at hti
  rw [hnj, Nat.add_mul] at htj
  have hle' : ni * cfg.scheduler.quantum ≤ nj * cfg.scheduler.quantum + cfg.scheduler.quantum := by
    rw [← Nat.succ_mul]
    exact Nat.mul_le_mul_right _ hle
  have hge' : nj * cfg.scheduler.quantum ≤ ni * cfg.scheduler.quantum + cfg.scheduler.quantum := by
    rw [← Nat.succ_mul]
    exact Nat.mul_le_mul_right _ hge
  rw [abs_le]
  unfold servedBetween
  omega

def threeLines : File := ⟨ascii "a\nb\nc\n", by decide⟩

/-- Two connections ask for the same file. -/
def bothArrive : List (Label 1 1) :=
  arrive 7 (ascii "GET a\n") 5 ++ arrive 8 (ascii "GET a\n") 5

/-- The worker is between two rounds. -/
def betweenRounds (s : Sys 1 1) : Bool :=
  match s.worker 0 with
  | .idle => true
  | _ => false

theorem roundBoundary_of_between {s : Sys 1 1} (h : s.betweenRounds = true) :
    s.RoundBoundary := by
  intro k req todo hk
  obtain rfl : k = 0 := Subsingleton.elim k 0
  simp [betweenRounds, hk] at h

theorem drr_fair_one_round :
    ∃ (s t : Sys 1 1) (i j : Request), i.clientFd = 7 ∧ j.clientFd = 8 ∧
      i ∈ s.admitted ∧ j ∈ s.admitted ∧ requeues (t.log 7) = 1 ∧ requeues (t.log 8) = 0 ∧
      |servedBetween (plainConfig .DRR 2 (by decide) (by decide)) i s t -
        servedBetween (plainConfig .DRR 2 (by decide) (by decide)) j s t| ≤ 2 + 2 * 2 := by
  let cfg := plainConfig .DRR 2 (by decide) (by decide)
  let asks (fd : Fd) (r : Request) : Bool := r.op = .GET ∧ r.clientFd = fd ∧ r.filename = ascii "a"
  have hok : ∀ (s : Sys 1 1) (l : Label 1 1), calm (ascii "d/a") threeLines s l = true →
      Undisturbed (ascii "d/a") threeLines 7 s l ∧ Undisturbed (ascii "d/a") threeLines 8 s l :=
    fun _ l h => ⟨undisturbed_of_calm 7 l h, undisturbed_of_calm 8 l h⟩
  obtain ⟨s, hs, hcheck⟩ := script_exists bothArrive
    (fun s => s.betweenRounds && s.admitted.any (asks 7) && s.admitted.any (asks 8) &&
      (script (step cfg) (calm (ascii "d/a") threeLines) s (work 8)).any
        (fun t => t.betweenRounds && t.finished = [] && requeues (t.log 7) = 1 &&
          requeues (t.log 8) = 0)) hok
    (show (script (step cfg) (calm (ascii "d/a") threeLines)
      (init 1 1 (oneFile (ascii "d/a") threeLines)) bothArrive).any _ = true by decide)
  simp only [Bool.and_eq_true, List.any_eq_true, asks, decide_eq_true_eq] at hcheck
  obtain ⟨⟨⟨hsb, i, hi, higet, hifd, hiname⟩, j, hj, hjget, hjfd, hjname⟩, hrest⟩ := hcheck
  obtain ⟨t, ht, hcheck'⟩ := script_exists (work 8) _ hok hrest
  simp only [Bool.and_eq_true, decide_eq_true_eq] at hcheck'
  obtain ⟨⟨⟨htb, hfin⟩, hseven⟩, height⟩ := hcheck'
  have hopen : ∀ fd, ¬ t.Finished fd := by
    rintro fd ⟨exit, hmem⟩
    rw [hfin] at hmem
    cases hmem
  have hsmooth : ∀ (r : Request), r.op = .GET → r.filename = ascii "a" →
      Smoothly (P := 1) (W := 1) cfg r threeLines =
        Undisturbed (ascii "d/a") threeLines r.clientFd := by
    intro r hget hname
    rw [smoothly_get hget, hname]
    rfl
  have hfair := drr_fair (i := i) (j := j) rfl
    (hs.mono fun _ _ h => by rwa [hsmooth i higet hiname, hsmooth j hjget hjname, hifd, hjfd])
    (ht.mono fun _ _ h => by rwa [hsmooth i higet hiname, hsmooth j hjget hjname, hifd, hjfd])
    (roundBoundary_of_between hsb) (roundBoundary_of_between htb) hi hj (hopen _) (hopen _)
  have hbound : ∀ (r : Request), r.op = .GET → lineBound r threeLines = 2 := by
    intro r hget
    rw [lineBound, if_pos hget]
    decide
  rw [hbound i higet, hbound j hjget, max_self] at hfair
  exact ⟨s, t, i, j, hifd, hjfd, hi, hj, hseven, height, hfair⟩

end Sys

end LinkScheduling
