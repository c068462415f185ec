import LinkScheduling.Get.Service
import LinkScheduling.Metatheory.Rows
import LinkScheduling.Metatheory.ShortestFirst
import LinkScheduling.Put.Service

/-!
# Policies that serve at once

FCFS and SJF hand out all that is left of a request, and a round that succeeds has served it. So
nothing goes back into the queue, what stands there was not served yet, and the order in which
SJF empties the queue is the one that keeps waiting short.
-/

namespace LinkScheduling

open Framework

/-- The policies without a quantum. -/
def Scheduler.Whole (S : Scheduler) : Prop := S.policy = .FCFS ∨ S.policy = .SJF

theorem Scheduler.Whole.budget {S : Scheduler} (h : S.Whole) (req : Request) :
    (S.getBudget req).2 = req.totalBytes - req.offset := by
  unfold getBudget
  rw [Request.remaining_eq]
  simp only
  split
  · rename_i hzero
    exact hzero.symm
  · rcases h with hpolicy | hpolicy
    · rw [hpolicy]
    · rw [hpolicy]

/-- A call that puts nothing into the queue. -/
def Eff.leaving : Eff → Prop
  | .push _ => False
  | .requeue _ => False
  | _ => True

section Round

variable {cfg : Config} {request req : Request} {log : List Call}

/-- A round that served all that was left does not put the request back. -/
theorem settleRound_leaving {budget n : ℕ} (hn : n = req.totalBytes - req.offset)
    (hoff : req.offset ≤ req.totalBytes) (hsmall : req.totalBytes < 2 ^ 64) :
    (settleRound cfg budget req n).Only Eff.leaving (fun _ => True) := by
  have hacc := cfg.scheduler.account_accounted (n := n) (m := n) (by omega) hoff hsmall
  have hdone : ¬ cfg.scheduler.shouldRequeue (cfg.scheduler.account req n) = true := by
    have htotal := hacc.same.totalBytes
    have hoffset := hacc.offset
    simp only [Scheduler.shouldRequeue, Request.remaining_eq, gt_iff_lt, decide_eq_true_eq]
    omega
  unfold settleRound
  rw [if_neg hdone]
  split
  · unfold commitRequest finishRequest
    refine ⟨trivial, ?_⟩
    rintro (_ | _)
    · exact ⟨trivial, fun _ => ⟨trivial, fun _ => ⟨trivial, fun _ => trivial⟩⟩⟩
    · exact ⟨trivial, fun _ => ⟨trivial, fun _ => ⟨trivial, fun _ => ⟨trivial, fun _ =>
        ⟨trivial, fun _ => trivial⟩⟩⟩⟩⟩
  · exact ⟨trivial, fun _ => ⟨trivial, fun _ => ⟨trivial, fun _ => ⟨trivial, fun _ => trivial⟩⟩⟩⟩

theorem abandonRequest_leaving :
    (abandonRequest cfg req).Only Eff.leaving (fun _ => True) := by
  unfold abandonRequest
  split
  · exact ⟨trivial, fun _ => ⟨trivial, fun _ => ⟨trivial, fun _ => trivial⟩⟩⟩
  · exact ⟨trivial, fun _ => ⟨trivial, fun _ => trivial⟩⟩

/-- The record of a request that no worker has had. -/
structure Unserved (cfg : Config) (request req : Request) (log : List Call) : Prop where
  offset : req.offset = 0
  rounds : req.rounds = 0
  requeues : requeues log = 0
  kind : req.op = .GET ∧ req.totalBytes < 2 ^ 63 ∨ PutWaiting cfg request req log

/-- Nothing is put back. -/
def onceLife (cfg : Config) (request : Request) : Lifecycle where
  allowed _ _ := True
  always log := requeues log = 0
  queued := Unserved cfg request
  ended _ _ := True

theorem leaving_rule {α : Type} {p : Server α} {Q : α → Prop} (h : p.Only Eff.leaving Q)
    (hlog : requeues log = 0) :
    p.wp (onceLife cfg request).contract (fun a log' => Q a ∧ requeues log' = 0) log := by
  refine h.wp_inv (I := fun log => requeues log = 0) (fun log e hlog he => ⟨hlog, ?_⟩)
    (fun log e r hlog he => ?_) hlog
  · cases e <;> trivial
  · change requeues (log ++ [⟨e, r⟩]) = 0
    cases e <;> first | simpa [Eff.requeued] using hlog | exact he.elim

/-- What is known of the serving of an upload holds for this lifecycle too. -/
theorem serving_rule {α : Type} {p : Server α} {Q : α → List Call → Prop}
    (h : p.Only Eff.inside (fun _ => True)) (hwp : p.wp (putLife cfg request).contract Q log)
    (hlog : requeues log = 0) :
    p.wp (onceLife cfg request).contract (fun a log' => Q a log' ∧ requeues log' = 0) log := by
  induction p generalizing log with
  | ret a => exact ⟨hwp, hlog⟩
  | call e next ih =>
      refine ⟨inside_guarantee h.1 hlog, fun r hr => ih r (h.2 r) (hwp.2 r hr) ?_⟩
      have hinside := h.1
      cases e <;> first | simpa [Lifecycle.contract, Eff.requeued] using hlog | exact hinside.elim

/-- A round of a GET. -/
theorem workerRound_get (hwhole : cfg.scheduler.Whole) (hget : req.op = .GET)
    (hsmall : req.totalBytes < 2 ^ 63) (hoff : req.offset = 0) :
    (workerRound cfg (cfg.scheduler.decision req)).Only Eff.leaving (fun _ => True) := by
  have hbudget := cfg.scheduler.getBudget_same req
  have hdeficit := cfg.scheduler.getBudget_eq req
  have hdispatch : ∀ start, (dispatchRound cfg (cfg.scheduler.getBudget req).2
      { (cfg.scheduler.getBudget req).1 with startNs := start }).Only Eff.leaving
        (fun _ => True) := by
    intro start
    have hop : ({ (cfg.scheduler.getBudget req).1 with startNs := start } : Request).op = .GET :=
      hbudget.op.trans hget
    unfold dispatchRound
    rw [Prog.only_bind, serveRound_get hop]
    refine serveGet_only.mono (fun e he => ?_) ?_
    · cases e <;> trivial
    rintro ⟨success, later, n⟩ hres
    have htotal : (cfg.scheduler.getBudget req).1.totalBytes = req.totalBytes :=
      hbudget.totalBytes
    have hzero : (cfg.scheduler.getBudget req).1.offset = 0 := by
      rw [hdeficit]
      exact hoff
    cases success with
    | false => exact abandonRequest_leaving
    | true =>
        obtain ⟨a14, hlater⟩ := hres.fields rfl
        have hn := hres.whole cfg.packetization_pos (by rw [← htotal] at hsmall; exact hsmall) rfl
        simp only at hlater hn
        subst hlater
        refine settleRound_leaving (hn ?_) ?_ ?_
        · rw [hwhole.budget]
          simp only [htotal, hzero, hoff, le_refl]
        · simp only [hzero, Nat.zero_le]
        · simp only [htotal]
          omega
  unfold workerRound stampStart Scheduler.decision
  rw [Prog.only_bind]
  split
  · exact ⟨trivial, fun start => hdispatch start⟩
  · exact hdispatch _

/-- A round of a PUT. -/
theorem workerRound_put (hwhole : cfg.scheduler.Whole) (h : Unserved cfg request req log)
    (hput : PutWaiting cfg request req log) :
    (workerRound cfg (cfg.scheduler.decision req)).wp (onceLife cfg request).contract
      (fun _ => (onceLife cfg request).always) log := by
  refine workerRound_rule h.requeues fun start calls hcalls => ?_
  have hop : (cfg.scheduler.started req start).op = .PUT := hput.same.op.trans hput.op
  have hinside : (serveRound cfg (cfg.scheduler.getBudget req).2
      (cfg.scheduler.started req start)).Only Eff.inside (fun _ => True) := by
    have hserve : (servePut (cfg.scheduler.started req start) cfg.fileDir
        (cfg.scheduler.getBudget req).2).Only Eff.inside (fun _ => True) := by
      refine servePut_only.mono (fun e he => ?_) fun _ _ => trivial
      cases e <;> trivial
    rw [serveRound_put hop]
    split
    · exact ⟨trivial, fun _ => hserve⟩
    · exact hserve
  have hlog : requeues (log ++ calls) = 0 := by
    simp [h.requeues, (now_quiet hcalls).2]
  unfold dispatchRound
  rw [Prog.wp_bind]
  refine Prog.wp_mono (serving_rule hinside (serveRound_result hput hcalls) hlog) ?_
  rintro ⟨success, later, n⟩ log' ⟨hres, hlog'⟩
  cases success with
  | false => exact Prog.wp_mono (leaving_rule abandonRequest_leaving hlog') fun _ _ h => h.2
  | true =>
      obtain ⟨hn, hlater, -⟩ := hres
      simp only at hn hlater
      subst hlater
      have htotal : req.totalBytes = request.totalBytes := hput.same.totalBytes
      rw [hwhole.budget, ← htotal] at hn
      refine Prog.wp_mono (leaving_rule (settleRound_leaving ?_ ?_ ?_) hlog') fun _ _ h => h.2
      · rw [hn]
        exact Nat.min_self _
      · exact h.offset.le.trans (Nat.zero_le _)
      · exact htotal ▸ hput.small

theorem onceLife_soundFor (hwhole : cfg.scheduler.Whole) :
    (onceLife cfg request).SoundFor cfg request where
  enter log hadm _ := by
    have hfresh := hadm.fresh
    have hlog : requeues (log ++ [⟨.push request, true⟩]) = 0 := by
      simp [hadm.requeues, Eff.requeued]
    refine ⟨hlog, hfresh.offset, hfresh.rounds, hlog, ?_⟩
    rcases hadm.op with hget | hput
    · obtain ⟨size, -, -, hsmall⟩ := hadm.size hget
      exact Or.inl ⟨hget, hsmall⟩
    · exact Or.inr (putWaiting_of_admissible hadm hput)
  round req log _ h := by
    rcases h.kind with ⟨hget, hsmall⟩ | hput
    · exact Prog.wp_mono (leaving_rule (workerRound_get hwhole hget hsmall h.offset) h.requeues)
        fun _ _ h => h.2
    · exact workerRound_put hwhole h hput
  close _ _ _ := trivial

end Round

namespace Sys

variable {P W : ℕ} {cfg : Config} {dir : Directory} {t : Sys P W} {A : Sys P W → Label P W → Prop}

/-- What is in the queue was not served, and nothing was put back. -/
theorem run_unserved (hwhole : cfg.scheduler.Whole) (hrun : RunWhere cfg A (init P W dir) t)
    {request : Request} (hmem : request ∈ t.admitted) :
    (onceLife cfg request).HoldsFor request t :=
  Lifecycle.run_holdsFor (onceLife_soundFor hwhole) (hrun.mono fun _ _ _ _ _ => trivial) hmem

theorem queued_unserved (hwhole : cfg.scheduler.Whole) (hrun : RunWhere cfg A (init P W dir) t)
    {req : Request} (hreq : req ∈ t.requestQueue.queue) : req.offset = 0 ∧ req.rounds = 0 := by
  have hplaced := (run_wellFormed (init_wellFormed dir) hrun).placed req.clientFd
  have hqueued : 0 < t.queuedCount req.clientFd :=
    List.count_pos_iff.mpr (List.mem_map.mpr ⟨req, hreq, rfl⟩)
  have hcount : 0 < t.admittedCount req.clientFd := by omega
  obtain ⟨request, hmem, hfd⟩ := List.mem_map.mp (List.count_pos_iff.mp hcount)
  obtain ⟨-, hunserved⟩ := (run_unserved hwhole hrun hmem).queued req hreq hfd.symm
  exact ⟨hunserved.offset, hunserved.rounds⟩

/-- **One round each.** Under FCFS and SJF no request is ever put back into the queue: in every
run what stands there was not served yet, and every row of the metrics counts one round. -/
theorem served_at_once (hwhole : cfg.scheduler.Whole) (hrun : RunWhere cfg A (init P W dir) t) :
    (∀ request ∈ t.admitted, requeues (t.log request.clientFd) = 0) ∧
    (∀ req ∈ t.requestQueue.queue, req.offset = 0 ∧ req.rounds = 0) ∧
    ∀ fd row, (fd, row) ∈ t.records → row.rounds = 1 := by
  have hnone : ∀ request ∈ t.admitted, requeues (t.log request.clientFd) = 0 :=
    fun request hmem => (run_unserved hwhole hrun hmem).always
  refine ⟨hnone, fun req hreq => queued_unserved hwhole hrun hreq, fun fd row hrow => ?_⟩
  obtain ⟨request, hmem, rfl, hdescribes⟩ := rowDescribed hrun hrow
  rw [hdescribes.rounds, hnone request hmem]
  rfl

theorem served_at_once_upload : ∃ t : Sys 1 1,
    RunWhere (plainConfig .FCFS 1 (by decide) (by decide)) (fun _ _ => True)
      (init 1 1 fun _ => none) t ∧
    t.records.map (·.1) = [7] ∧ ∀ fd row, (fd, row) ∈ t.records → row.rounds = 1 := by
  have htrue : ∀ (s : Sys 1 1) (l : Label 1 1), (fun _ _ => true) s l = true → True :=
    fun _ _ _ => trivial
  obtain ⟨t, hrun, hcheck⟩ := script_exists (arrive 7 (ascii "PUT a 1\nx") 3 ++ work 12)
    (fun t : Sys 1 1 => decide (t.records.map (·.1) = [7])) htrue
    (show (script (step (plainConfig .FCFS 1 (by decide) (by decide))) (fun _ _ => true)
      (init 1 1 fun _ => none) (arrive 7 (ascii "PUT a 1\nx") 3 ++ work 12)).any _ = true by
        decide +kernel)
  exact ⟨t, hrun, of_decide_eq_true hcheck, (served_at_once (Or.inl rfl) hrun).2.2⟩

/-- **SJF keeps waiting short.** In every state of a run under SJF, of all orders in which the
requests of the queue can be served, the one that repeated calls of `next` take has handed out the
fewest bytes after any number of dispatches, and the bytes that the requests wait for add up to
the least sum. An order reaches this sum exactly when it is ascending in size. -/
theorem sjf_waits_least (hsjf : cfg.scheduler.policy = .SJF)
    (hrun : RunWhere cfg A (init P W dir) t) :
    let served := cfg.scheduler.dispatches t.requestQueue.queue.length t.requestQueue
    (served.map ScheduleDecision.request).Perm t.requestQueue.queue ∧
    ∀ order : List Request, order.Perm t.requestQueue.queue →
      (∀ k, ((served.take k).map ScheduleDecision.budget).sum ≤
        ((order.take k).map Request.totalBytes).sum) ∧
      totalWait ScheduleDecision.budget served ≤ totalWait Request.totalBytes order ∧
      (totalWait Request.totalBytes order = totalWait ScheduleDecision.budget served ↔
        order.Pairwise fun a b => a.totalBytes ≤ b.totalBytes) :=
  Scheduler.least_wait hsjf t.requestQueue fun _ hreq =>
    (queued_unserved (Or.inr hsjf) hrun hreq).1

/-- The larger upload arrives first. -/
theorem sjf_waits_least_two : ∃ t : Sys 1 1,
    RunWhere (plainConfig .SJF 1 (by decide) (by decide)) (fun _ _ => True)
      (init 1 1 fun _ => none) t ∧
    t.requestQueue.queue.map (·.totalBytes) = [5, 3] ∧
    ∀ order : List Request, order.Perm t.requestQueue.queue →
      3 ≤ totalWait Request.totalBytes order := by
  have htrue : ∀ (s : Sys 1 1) (l : Label 1 1), (fun _ _ => true) s l = true → True :=
    fun _ _ _ => trivial
  obtain ⟨t, hrun, hcheck⟩ := script_exists
    (arrive 7 (ascii "PUT a 5\n") 3 ++ arrive 8 (ascii "PUT b 3\n") 3)
    (fun t : Sys 1 1 => decide (t.requestQueue.queue.map (·.totalBytes) = [5, 3]) &&
      decide (((plainConfig .SJF 1 (by decide) (by decide)).scheduler.dispatches
        t.requestQueue.queue.length t.requestQueue).map ScheduleDecision.budget = [3, 5])) htrue
    (show (script (step (plainConfig .SJF 1 (by decide) (by decide))) (fun _ _ => true)
      (init 1 1 fun _ => none)
      (arrive 7 (ascii "PUT a 5\n") 3 ++ arrive 8 (ascii "PUT b 3\n") 3)).any _ = true by
        decide +kernel)
  simp only [Bool.and_eq_true, decide_eq_true_eq] at hcheck
  obtain ⟨hsizes, hbudgets⟩ := hcheck
  refine ⟨t, hrun, hsizes, fun order horder => ?_⟩
  have hleast := ((sjf_waits_least rfl hrun).2 order horder).2.1
  have hthree : totalWait ScheduleDecision.budget _ = totalWait id [3, 5] :=
    totalWait_congr (by simpa using hbudgets)
  rwa [hthree] at hleast

end Sys

end LinkScheduling
