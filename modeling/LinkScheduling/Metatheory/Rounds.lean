import LinkScheduling.Metatheory.Requests

/-!
# Around the serving of a round

What a worker does before and after `serve_get` or `serve_put`, as rules for the
contract of any lifecycle: stamping, accounting, requeueing, finishing and
abandoning. The last calls of a request (`Eff.ending`) touch neither the client's
stream nor the served files.
-/

namespace LinkScheduling

open Framework

/-- The calls that end a request. -/
def Eff.ending : Eff → Prop
  | .now => True
  | .record _ => True
  | .complete _ => True
  | .closeSocket _ => True
  | _ => False

/-- Only calls that end a request. -/
def Ending (calls : List Call) : Prop := ∀ call ∈ calls, call.eff.ending

theorem ending_nil : Ending [] := by simp [Ending]

theorem Ending.snoc {calls : List Call} (h : Ending calls) {call : Call}
    (hcall : call.eff.ending) : Ending (calls ++ [call]) := by
  intro c hc
  rcases List.mem_append.mp hc with hc | hc
  · exact h c hc
  · rw [List.mem_singleton.mp hc]
    exact hcall

theorem Ending.sends {calls : List Call} (h : Ending calls) : sends calls = [] := by
  simp only [LinkScheduling.sends, List.flatMap_eq_nil_iff]
  rintro ⟨e, r⟩ hmem
  have := h _ hmem
  cases e <;> first | rfl | exact this.elim

theorem requeues_eq_zero {calls : List Call} (h : ∀ call ∈ calls, call.eff.requeued = 0) :
    requeues calls = 0 := by
  simp only [requeues, List.sum_eq_zero_iff, List.mem_map]
  rintro _ ⟨call, hmem, rfl⟩
  exact h call hmem

theorem Ending.requeues {calls : List Call} (h : Ending calls) : requeues calls = 0 := by
  refine requeues_eq_zero ?_
  rintro ⟨e, r⟩ hmem
  have := h _ hmem
  cases e <;> first | rfl | exact this.elim

/-! ## Budget and accounting -/

/-- A request with the deficit the scheduler gave it for this round. -/
theorem Scheduler.getBudget_eq (S : Scheduler) (req : Request) :
    (S.getBudget req).1 = { req with deficit := (S.getBudget req).1.deficit } := by
  unfold getBudget
  simp only
  split
  · rfl
  · cases S.policy <;> rfl

/-- `later` is the record of `req` after a round that processed `n` bytes. -/
structure Accounted (S : Scheduler) (req : Request) (n : ℕ) (later : Request) : Prop where
  same : req.Same later
  offset : later.offset = req.offset + n
  rounds : later.rounds = u64 (req.rounds + 1)
  deficit : S.policy = .DRR → later.deficit = req.deficit - n
  stagingFilename : later.stagingFilename = req.stagingFilename
  pendingOffset : later.pendingOffset = req.pendingOffset
  responseSent : later.responseSent = req.responseSent

theorem Scheduler.account_accounted (S : Scheduler) {req : Request} {n m : ℕ}
    (hm : min n (req.totalBytes - req.offset) = m) (hoff : req.offset ≤ req.totalBytes)
    (hsmall : req.totalBytes < 2 ^ 64) : Accounted S req m (S.account req n) := by
  have hsum : u64 (req.offset + m) = req.offset + m := u64_of_lt (by omega)
  unfold account
  simp only [Request.remaining_eq, hm, hsum]
  split
  · split
    · rename_i hall
      exact ⟨⟨rfl, rfl, rfl, rfl, rfl, rfl⟩, rfl, rfl,
        fun _ => (Nat.sub_eq_zero_of_le hall).symm, rfl, rfl, rfl⟩
    · exact ⟨⟨rfl, rfl, rfl, rfl, rfl, rfl⟩, rfl, rfl, fun _ => rfl, rfl, rfl, rfl⟩
  · rename_i hpolicy
    exact ⟨⟨rfl, rfl, rfl, rfl, rfl, rfl⟩, rfl, rfl, fun h => absurd h hpolicy, rfl, rfl, rfl⟩

/-- Counting forfeited bytes changes nothing else. -/
theorem Accounted.forfeit {S : Scheduler} {req later : Request} {n : ℕ}
    (h : Accounted S req n later) (k : ℕ) :
    Accounted S req n { later with forfeitedBytes := k } :=
  ⟨h.same.trans ⟨rfl, rfl, rfl, rfl, rfl, rfl⟩, h.offset, h.rounds, h.deficit,
    h.stagingFilename, h.pendingOffset, h.responseSent⟩

/-! ## The rules -/

section Rules

variable {L : Lifecycle} {cfg : Config} {log : List Call}

/-- A call that neither hands the request on nor completes it. -/
def Eff.inside : Eff → Prop
  | .push _ => False
  | .requeue _ => False
  | .complete _ => False
  | _ => True

theorem inside_guarantee {e : Eff} (he : e.inside) (h : L.always log) :
    L.contract.guarantee log e := by
  refine ⟨h, ?_⟩
  cases e <;> trivial

/-- A part of a round about which only its footprint and its result matter. -/
theorem only_rule {α : Type} {p : Server α} {F : Eff → Prop} {Q : α → Prop}
    (h : p.Only F Q) (hF : ∀ e, F e → e.inside)
    (halways : ∀ calls, (∀ call ∈ calls, F call.eff) → L.always (log ++ calls)) :
    p.wp L.contract (fun a log' => Q a ∧ ∃ calls, log' = log ++ calls ∧
      ∀ call ∈ calls, F call.eff) log := by
  induction p generalizing log with
  | ret a => exact ⟨h, [], by simp⟩
  | call e next ih =>
      refine ⟨inside_guarantee (hF e h.1) (by simpa using halways [] (by simp)), fun r _ => ?_⟩
      refine Prog.wp_mono (ih r (h.2 r) fun calls hcalls => ?_) ?_
      · have := halways (⟨e, r⟩ :: calls) (by simpa using ⟨h.1, hcalls⟩)
        simpa [Lifecycle.contract] using this
      · rintro a log' ⟨hQ, calls, rfl, hcalls⟩
        exact ⟨hQ, ⟨e, r⟩ :: calls, by simp [Lifecycle.contract],
          by simpa using ⟨h.1, hcalls⟩⟩

/-- The footprint may be added to what is known of a part of a round. -/
theorem footprint_rule {α : Type} {p : Server α} {F : Eff → Prop} {Q : α → Prop}
    {R : α → List Call → Prop} (h : p.Only F Q) (hwp : p.wp L.contract R log) :
    p.wp L.contract (fun a log' => R a log' ∧ ∃ calls, log' = log ++ calls ∧
      ∀ call ∈ calls, F call.eff) log := by
  induction p generalizing log with
  | ret a => exact ⟨hwp, [], by simp⟩
  | call e next ih =>
      refine ⟨hwp.1, fun r hr => Prog.wp_mono (ih r (h.2 r) (hwp.2 r hr)) ?_⟩
      rintro a log' ⟨hR, calls, rfl, hcalls⟩
      exact ⟨hR, ⟨e, r⟩ :: calls, by simp [Lifecycle.contract], by simpa using ⟨h.1, hcalls⟩⟩

/-- The last calls of a completed request write its metrics row. -/
def Recorded (req : Request) (calls : List Call) : Prop :=
  Ending calls ∧ ∃ finish, ⟨.record { req with finishNs := finish }, ()⟩ ∈ calls

theorem finishRequest_rule {req : Request}
    (halways : ∀ calls, Ending calls → L.always (log ++ calls))
    (hover : ∀ calls, Recorded req calls → L.ended .completed (log ++ calls)) :
    (finishRequest req).wp L.contract (fun _ => L.always) log := by
  simp only [finishRequest, perform, Prog.wp_bind, Prog.wp_perform, Lifecycle.contract,
    List.append_assoc]
  refine ⟨⟨?_, trivial⟩, fun t _ => ⟨⟨?_, trivial⟩, fun _ _ => ⟨⟨?_, ?_⟩, fun _ _ =>
    ⟨⟨?_, trivial⟩, fun _ _ => ?_⟩⟩⟩⟩
  · simpa using halways [] ending_nil
  · exact halways _ (by simp [Ending, Eff.ending])
  · exact halways _ (by simp [Ending, Eff.ending])
  · exact hover _ ⟨by simp [Ending, Eff.ending], t, by simp⟩
  · exact halways _ (by simp [Ending, Eff.ending])
  · exact halways _ (by simp [Ending, Eff.ending])

/-- The end of a request that failed before it had a staging file. -/
theorem abandonRequest_rule {req : Request} (hstaging : req.stagingFilename = [])
    (halways : ∀ calls, Ending calls → L.always (log ++ calls))
    (hover : ∀ calls, Ending calls → L.ended .failed (log ++ calls)) :
    (abandonRequest cfg req).wp L.contract (fun _ => L.always) log := by
  simp only [abandonRequest, hstaging, ne_eq, not_true_eq_false, ↓reduceIte, perform,
    Prog.wp_bind, Prog.wp_perform, Lifecycle.contract, List.append_assoc]
  refine ⟨⟨?_, ?_⟩, fun _ _ => ⟨⟨?_, trivial⟩, fun _ _ => ?_⟩⟩
  · simpa using halways [] ending_nil
  · exact hover _ (by simp [Ending, Eff.ending])
  · exact halways _ (by simp [Ending, Eff.ending])
  · exact halways _ (by simp [Ending, Eff.ending])

/-- `requeue` always succeeds, so the socket is not closed behind it. -/
theorem requeue_rule (later : Request) (halways : L.always log)
    (hqueued : L.queued later (log ++ [⟨.requeue later, true⟩]))
    (hlater : L.always (log ++ [⟨.requeue later, true⟩])) :
    (do if ← perform (.requeue later) then pure ()
        else perform (.closeSocket later.clientFd) : Server Unit).wp L.contract
      (fun _ => L.always) log := by
  simp only [perform, Prog.wp_bind, Prog.wp_perform]
  refine ⟨⟨halways, hqueued⟩, ?_⟩
  rintro r ⟨hr, -⟩
  change r = true at hr
  subst hr
  exact hlater

/-- After a successful round that counts for `m` bytes: back into the queue while
bytes remain, else commit a PUT or finish a GET. -/
theorem settleRound_rule {budget n m : ℕ} {req : Request}
    (hm : min n (req.totalBytes - req.offset) = m) (hoff : req.offset ≤ req.totalBytes)
    (hsmall : req.totalBytes < 2 ^ 64) (halways : L.always log)
    (hqueued : req.offset + m < req.totalBytes → ∀ later, Accounted cfg.scheduler req m later →
      L.queued later (log ++ [⟨.requeue later, true⟩]) ∧
        L.always (log ++ [⟨.requeue later, true⟩]))
    (hcommit : req.offset + m = req.totalBytes → req.op = .PUT → ∀ later,
      Accounted cfg.scheduler req m later →
      (commitRequest cfg later).wp L.contract (fun _ => L.always) log)
    (hfinish : req.offset + m = req.totalBytes → req.op ≠ .PUT → ∀ later,
      Accounted cfg.scheduler req m later →
      (finishRequest later).wp L.contract (fun _ => L.always) log) :
    (settleRound cfg budget req n).wp L.contract (fun _ => L.always) log := by
  have hacc := cfg.scheduler.account_accounted hm hoff hsmall
  have htotal := hacc.same.totalBytes
  have hoffset := hacc.offset
  unfold settleRound
  simp only [Scheduler.shouldRequeue, Request.remaining_eq, gt_iff_lt, decide_eq_true_eq]
  split
  · rename_i hmore
    have hlater : ∀ later, Accounted cfg.scheduler req m later →
        (do if ← perform (.requeue later) then pure ()
            else perform (.closeSocket later.clientFd) : Server Unit).wp L.contract
          (fun _ => L.always) log := by
      intro later hl
      obtain ⟨hq, ha⟩ := hqueued (by omega) later hl
      exact requeue_rule later halways hq ha
    refine hlater _ ?_
    split
    · exact hacc.forfeit _
    · exact hacc
  · rename_i hdone
    have hop := hacc.same.op
    split
    · rename_i hput
      exact hcommit (by omega) (hop ▸ hput) _ hacc
    · rename_i hput
      exact hfinish (by omega) (hop ▸ hput) _ hacc

/-- The record that goes back into the queue after a round of `n` bytes. -/
def Scheduler.settled (S : Scheduler) (budget : ℕ) (req : Request) (n : ℕ) : Request :=
  let later := S.account req n
  if S.policy = .RR ∧ later.op = .GET ∧ n < budget then
    { later with forfeitedBytes := u64 (later.forfeitedBytes + (budget - n)) }
  else later

/-- Accounting leaves the counters of a round robin alone. -/
theorem Scheduler.account_counters (S : Scheduler) (req : Request) (n : ℕ) :
    (S.account req n).forfeitedBytes = req.forfeitedBytes ∧
      (S.account req n).a14Events = req.a14Events := by
  unfold account
  simp only
  split
  · split <;> exact ⟨rfl, rfl⟩
  · exact ⟨rfl, rfl⟩

theorem Scheduler.settled_accounted {S : Scheduler} {budget n m : ℕ} {req : Request}
    (h : Accounted S req m (S.account req n)) : Accounted S req m (S.settled budget req n) := by
  unfold settled
  simp only
  split
  · exact h.forfeit _
  · exact h

theorem Scheduler.settled_counters (S : Scheduler) (budget : ℕ) {req : Request} (n : ℕ)
    (hop : (S.account req n).op = .GET) (hrr : S.policy = .RR) :
    (S.settled budget req n).a14Events = req.a14Events ∧
      (S.settled budget req n).forfeitedBytes = if n < budget
        then u64 (req.forfeitedBytes + (budget - n)) else req.forfeitedBytes := by
  obtain ⟨hforfeited, ha14⟩ := S.account_counters req n
  unfold settled
  simp only
  split
  · rename_i h
    exact ⟨ha14, by rw [if_pos h.2.2, hforfeited]⟩
  · rename_i h
    exact ⟨ha14, by rw [if_neg fun hlt => h ⟨hrr, hop, hlt⟩, hforfeited]⟩

/-- After a successful round of a GET, with the record to the last field. -/
theorem settleRound_get {budget n : ℕ} {req : Request} (hop : req.op = .GET)
    (hle : req.offset + n ≤ req.totalBytes) (hsmall : req.totalBytes < 2 ^ 64)
    (halways : L.always log)
    (hqueued : req.offset + n < req.totalBytes →
      L.queued (cfg.scheduler.settled budget req n)
        (log ++ [⟨.requeue (cfg.scheduler.settled budget req n), true⟩]) ∧
      L.always (log ++ [⟨.requeue (cfg.scheduler.settled budget req n), true⟩]))
    (hfinish : req.offset + n = req.totalBytes →
      (finishRequest (cfg.scheduler.account req n)).wp L.contract (fun _ => L.always) log) :
    (settleRound cfg budget req n).wp L.contract (fun _ => L.always) log := by
  have hacc : Accounted cfg.scheduler req n (cfg.scheduler.account req n) :=
    cfg.scheduler.account_accounted (Nat.min_eq_left (by omega)) (by omega) hsmall
  have hop' : (cfg.scheduler.account req n).op = .GET := hacc.same.op.trans hop
  have htotal := hacc.same.totalBytes
  have hoffset := hacc.offset
  unfold settleRound
  simp only [Scheduler.shouldRequeue, Request.remaining_eq, gt_iff_lt, decide_eq_true_eq]
  split
  · rename_i hmore
    obtain ⟨hq, ha⟩ := hqueued (by omega)
    exact requeue_rule (cfg.scheduler.settled budget req n) halways hq ha
  · rw [if_neg (by rw [hop']; simp)]
    exact hfinish (by omega)

theorem serveRound_get {budget : ℕ} {req : Request} (h : req.op = .GET) :
    serveRound cfg budget req =
      serveGet req cfg.fileDir budget (cfg.scheduler.policy = .RR) cfg.packetization := by
  unfold serveRound
  rw [h]

/-- The request as a round works on it: with this round's deficit and start time. -/
def Scheduler.started (S : Scheduler) (req : Request) (start : ℕ) : Request :=
  { req with deficit := (S.getBudget req).1.deficit, startNs := start }

/-- Reading the clock sends nothing and queues nothing. -/
theorem now_quiet {calls : List Call} (h : ∀ call ∈ calls, call.eff = .now) :
    sends calls = [] ∧ requeues calls = 0 := by
  refine ⟨?_, requeues_eq_zero fun call hmem => by rw [h call hmem]; rfl⟩
  simp only [sends, List.flatMap_eq_nil_iff]
  intro call hmem
  rw [h call hmem]
  rfl

/-- The start of a round. -/
theorem workerRound_rule {req : Request} {Q : Unit → List Call → Prop}
    (halways : L.always log)
    (h : ∀ start calls, (∀ call ∈ calls, call.eff = .now) →
      (dispatchRound cfg (cfg.scheduler.getBudget req).2
        (cfg.scheduler.started req start)).wp L.contract Q (log ++ calls)) :
    (workerRound cfg (cfg.scheduler.decision req)).wp L.contract Q log := by
  unfold workerRound stampStart Scheduler.decision
  rw [Prog.wp_bind]
  simp only
  rw [cfg.scheduler.getBudget_eq req]
  split
  · simp only [perform, Prog.wp_bind, Prog.wp_perform, Prog.wp_pure]
    exact ⟨⟨halways, trivial⟩, fun start _ => h start [⟨.now, start⟩] (by simp)⟩
  · simpa [Scheduler.started] using h req.startNs [] (by simp)

end Rules

end LinkScheduling
