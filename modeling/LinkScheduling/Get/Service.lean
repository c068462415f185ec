import LinkScheduling.Get.Round
import LinkScheduling.Metatheory.Rounds

/-!
# A GET from admission to its end

The rounds of a GET put together: while the request waits, what was sent is nothing
or the header and the bytes up to its offset (`View.Waiting`); the lifecycle
`View.life` carries this through every run in which the file keeps its lines.
-/

namespace LinkScheduling

open Framework

namespace View

variable {V : View} {L : Lifecycle}

/-- The record of a GET between two rounds. -/
structure Waiting (V : View) (req : Request) (log : List Call) : Prop where
  op : req.op = .GET
  total : req.totalBytes = V.size
  valid : isValidFilename req.filename = true
  staging : req.stagingFilename = []
  boundary : V.Boundary req.offset
  wire : req.responseSent = false ∧ req.offset = 0 ∧ sends log = [] ∨
    req.responseSent = true ∧ V.Sent req.offset (sends log)

theorem Waiting.shape {req : Request} {log : List Call} (h : V.Waiting req log) :
    V.Shape (sends log) := by
  rcases h.wire with ⟨-, -, h⟩ | ⟨-, h⟩
  · exact .silent h
  · exact .sent _ h

theorem Outcome.shape {stop : ℕ} {l : List Bytes} {ok : Bool} (h : V.Outcome stop l ok) :
    V.Shape l := by
  cases h with
  | sent h => exact .sent _ h
  | lost _ h => exact h
  | refused hm h => exact .refused hm h

/-- A successful round leaves the request as it was, the header sent. -/
structure Successful (V : View) (req : Request) (allow : Bool) (budget : ℕ)
    (later : Request) (n : ℕ) : Prop where
  request : ∃ a14, later = { req with responseSent := true, a14Events := a14 }
  served : V.Served allow budget req.offset n

theorem serveGet_view (hL : V.Fits L) {req : Request} {fileDir : Bytes} {budget : ℕ}
    {allow : Bool} {packetization : ℤ} {log : List Call} (hpack : 0 < packetization)
    (hw : V.Waiting req log) :
    (serveGet req fileDir budget allow packetization).wp L.contract
      (fun res log' => ∃ stop, V.Outcome stop (sends log') res.1 ∧
        res.2.1.stagingFilename = [] ∧ (res.1 = true → stop = req.offset + res.2.2 ∧
          V.Successful req allow budget res.2.1 res.2.2)) log := by
  unfold serveGet
  simp only [hw.valid, Bool.not_true, Bool.false_eq_true, ↓reduceIte, fileExists, perform,
    Prog.wp_bind, Prog.wp_perform, Prog.wp_pure]
  refine ⟨⟨hL.always _ hw.shape, trivial⟩, ?_⟩
  rintro found ⟨-, hfound⟩
  have hfound := hL.allowed _ _ hfound
  have hs : sends (L.contract.next log (.stat (filePath fileDir req.filename)) found) =
      sends log := by
    simp [Lifecycle.contract, Eff.sent]
  rcases found with _ | size
  · -- the file is gone: an error line, before or after the header
    simp only [Option.isSome_none, Bool.false_eq_true, ↓reduceIte, sendError, perform,
      Prog.wp_bind, Prog.wp_perform, Prog.wp_pure]
    refine ⟨⟨hL.always _ (hs ▸ hw.shape), trivial⟩, fun _ _ => ?_⟩
    have hs' : sends (L.contract.next (L.contract.next log
        (.stat (filePath fileDir req.filename)) none)
        (.sendAll req.clientFd (errLine (ascii "file not found"))) ‹_›) =
          sends log ++ [errLine (ascii "file not found")] := by
      simp [Lifecycle.contract, Eff.sent]
    refine ⟨req.offset, ?_, hw.staging, by simp⟩
    rcases hw.wire with ⟨-, -, hnil⟩ | ⟨-, hsent⟩
    · refine .refused ?_ (by rw [hs', hnil]; rfl)
      rcases hfound with h | h
      · exact Or.inr h
      · exact Or.inl h.1
    · have hfault : V.faults := by
        rcases hfound with h | ⟨-, hnil⟩
        · exact h
        · obtain ⟨pieces, hp, -⟩ := hsent
          rw [hp] at hnil
          cases hnil
      exact .lost hfault (.broken _ _ (ascii "file not found") hfault hsent hs')
  · simp only [Option.isSome_some, ↓reduceIte]
    rcases hw.wire with ⟨hresp, hzero, hnil⟩ | ⟨hresp, hsent⟩
    · simp only [hresp, Bool.false_eq_true, ↓reduceIte, sendResponse, perform, Prog.wp_bind,
        Prog.wp_perform, Prog.wp_pure]
      refine ⟨⟨hL.always _ (hs ▸ hw.shape), trivial⟩, fun ok _ => ?_⟩
      have hsent : V.Sent req.offset (sends (L.contract.next (L.contract.next log
          (.stat (filePath fileDir req.filename)) (some size))
          (.sendAll req.clientFd (okLine req.totalBytes)) ok)) := by
        rw [hzero]
        refine ⟨[], ?_, rfl, Nat.zero_le _, goodAt_nil _⟩
        simp [Lifecycle.contract, Eff.sent, hnil, hw.total]
      refine Prog.wp_mono (serveGetBody_view hL
        (show 0 < packetization from hpack) (by exact hw.total) (by exact hw.boundary)
        (by exact hsent)) ?_
      rintro ⟨success, later, n⟩ log' ⟨stop, a14, hout, hreq, hok⟩
      simp only at hout hreq hok ⊢
      refine ⟨stop, hout, by rw [hreq]; exact hw.staging, fun h => ⟨(hok h).1, ?_, (hok h).2⟩⟩
      exact ⟨a14, hreq⟩
    · simp only [hresp, ↓reduceIte]
      refine Prog.wp_mono (serveGetBody_view hL hpack hw.total hw.boundary
        (by rw [hs]; exact hsent)) ?_
      rintro ⟨success, later, n⟩ log' ⟨stop, a14, hout, hreq, hok⟩
      simp only at hout hreq hok ⊢
      refine ⟨stop, hout, by rw [hreq]; exact hw.staging, fun h => ⟨(hok h).1, ?_, (hok h).2⟩⟩
      exact ⟨a14, by rw [hreq, hresp]⟩

/-- A GET that goes back into the queue after a round waits with what it has sent. -/
theorem Waiting.requeued {S : Scheduler} {req later : Request} {n : ℕ} {log log' : List Call}
    (hw : V.Waiting req log)
    (hacc : Accounted S { (S.getBudget req).1 with responseSent := true } n later)
    (hstop : V.Boundary (req.offset + n)) (hsent : V.Sent (req.offset + n) (sends log')) :
    V.Waiting later log' := by
  rw [S.getBudget_eq req] at hacc
  refine ⟨hacc.same.op.trans hw.op, hacc.same.totalBytes.trans hw.total, ?_,
    hacc.stagingFilename.trans hw.staging, ?_, Or.inr ⟨hacc.responseSent, ?_⟩⟩
  · rw [hacc.same.filename]
    exact hw.valid
  · rw [hacc.offset]
    exact hstop
  · rw [hacc.offset]
    exact hsent

theorem getCall_requeued {fd : Fd} {path : Bytes} (e : Eff) (h : e.getCall fd path) :
    e.requeued = 0 := by
  cases e <;> first | rfl | exact h.elim

/-- **One round of a GET.** From a waiting record a worker pass ends the request,
with an outcome the view allows, or puts a waiting record back into the queue. -/
theorem getRound_view (hL : V.Fits L) {cfg : Config} {req : Request} {log : List Call}
    (hw : V.Waiting req log)
    (hlost : ∀ stop log', V.Outcome stop (sends log') false → L.ended .failed log')
    (hdone : ∀ n row log',
      V.Served (cfg.scheduler.policy = .RR) (cfg.scheduler.getBudget req).2 req.offset n →
      req.offset + n = V.size → ⟨.record row, ()⟩ ∈ log' → row.rounds = u64 (req.rounds + 1) →
      requeues log' = requeues log → V.Sent V.size (sends log') → L.ended .completed log')
    (hqueued : ∀ n later log',
      V.Served (cfg.scheduler.policy = .RR) (cfg.scheduler.getBudget req).2 req.offset n →
      req.offset + n < V.size →
      Accounted cfg.scheduler { (cfg.scheduler.getBudget req).1 with responseSent := true }
        n later →
      requeues log' = requeues log + 1 → V.Waiting later log' → L.queued later log') :
    (workerRound cfg (cfg.scheduler.decision req)).wp L.contract (fun _ => L.always) log := by
  have hsmall : V.size < 2 ^ 63 := V.size_lt
  have hle := hw.boundary.le
  refine workerRound_rule (hL.always _ hw.shape) fun start calls hcalls => ?_
  have hnow : sends (log ++ calls) = sends log := by simp [(now_quiet hcalls).1]
  have hw' : V.Waiting (cfg.scheduler.started req start) (log ++ calls) :=
    ⟨hw.op, hw.total, hw.valid, hw.staging, hw.boundary, by rw [hnow]; exact hw.wire⟩
  unfold dispatchRound
  rw [Prog.wp_bind, serveRound_get hw'.op]
  refine Prog.wp_mono (footprint_rule serveGet_only
    (serveGet_view hL cfg.packetization_pos hw')) ?_
  rintro ⟨success, later, n⟩ log' ⟨⟨stop, hout, hstaging, hok⟩, served, hlog, hserved⟩
  simp only at hout hstaging hok ⊢
  have hrequeues : requeues log' = requeues log := by
    have hserved' : requeues served = 0 := requeues_eq_zero fun call hmem =>
      getCall_requeued _ (hserved call hmem)
    simp [hlog, (now_quiet hcalls).2, hserved']
  have hend : ∀ calls', Ending calls' → sends (log' ++ calls') = sends log' := by
    intro calls' h
    simp [h.sends]
  -- a round that failed ends the request; another is settled by what it served
  cases success with
  | false =>
      refine abandonRequest_rule hstaging (fun calls' h => ?_) (fun calls' h => ?_)
      · exact hL.always _ (by rw [hend _ h]; exact hout.shape)
      · exact hlost stop _ (by rw [hend _ h]; exact hout)
  | true =>
      obtain ⟨rfl, ⟨a14, rfl⟩, hserved⟩ := hok rfl
      have hsent : V.Sent (req.offset + n) (sends log') := by
        cases hout with
        | sent h => exact h
      have hstop : V.Boundary (req.offset + n) := hserved.boundary hle
      have htotal : req.totalBytes = V.size := hw.total
      refine settleRound_rule (m := n) ?_ ?_ ?_ (hL.always _ (.sent _ hsent)) ?_ ?_ ?_
      · change min n (req.totalBytes - req.offset) = n
        have := hstop.le
        omega
      · change req.offset ≤ req.totalBytes
        omega
      · change req.totalBytes < 2 ^ 64
        omega
      · intro hmore later hacc
        have hmore : req.offset + n < V.size := by
          rw [← htotal]
          exact hmore
        have hs : sends (log' ++ [⟨.requeue later, true⟩]) = sends log' := by
          simp [Eff.sent]
        have hacc' : Accounted cfg.scheduler
            { (cfg.scheduler.getBudget req).1 with responseSent := true } n later := by
          rw [cfg.scheduler.getBudget_eq req]
          have h := hacc.same
          exact ⟨⟨h.1, h.2, h.3, h.4, h.5, h.6⟩, hacc.offset, hacc.rounds, hacc.deficit,
            hacc.stagingFilename, hacc.pendingOffset, hacc.responseSent⟩
        have hlater : V.Waiting later (log' ++ [⟨.requeue later, true⟩]) :=
          hw.requeued hacc' hstop (by rw [hs]; exact hsent)
        have hcount : requeues (log' ++ [⟨.requeue later, true⟩]) = requeues log + 1 := by
          simp [hrequeues, Eff.requeued]
        exact ⟨hqueued n later _ hserved hmore hacc' hcount hlater,
          hL.always _ (by rw [hs]; exact .sent _ hsent)⟩
      · intro _ hput
        exact absurd (hput.symm.trans hw.op) (by simp)
      · intro hall _ later hacc
        have hall : req.offset + n = V.size := by
          rw [← htotal]
          exact hall
        rw [hall] at hsent
        refine finishRequest_rule (fun calls' h => ?_) (fun calls' h => ?_)
        · exact hL.always _ (by rw [hend _ h]; exact .sent _ hsent)
        · obtain ⟨hending, finish, hrow⟩ := h
          refine hdone n _ _ hserved hall (List.mem_append_right _ hrow) hacc.rounds ?_ ?_
          · rw [requeues_append, hending.requeues, hrequeues]
            rfl
          · rw [hend _ hending]
            exact hsent

/-! ## The lifecycle -/

/-- What holds of a GET under the view. -/
def life (V : View) : Lifecycle where
  allowed := V.allowed
  always log := V.Shape (sends log)
  queued req log := V.Waiting req log
  ended exit log := match exit with
    | .completed => V.Sent V.size (sends log)
    | _ => ∃ stop, V.Outcome stop (sends log) false

theorem life_fits : V.Fits V.life := ⟨fun _ _ h => h, fun _ h => h⟩

theorem life_soundFor {cfg : Config} {request : Request} (hget : request.op = .GET)
    (htotal : request.totalBytes = V.size) : V.life.SoundFor cfg request where
  enter log hadm _ := by
    have hs : sends (log ++ [⟨.push request, true⟩]) = [] := by
      simp [Eff.sent, hadm.sends]
    have hfresh := hadm.fresh
    refine ⟨.silent hs, hget, htotal, hadm.valid, hfresh.stagingFilename, Or.inl hfresh.offset,
      Or.inl ⟨hfresh.responseSent, hfresh.offset, hs⟩⟩
  round req log _ hw := getRound_view life_fits hw (fun stop _ h => ⟨stop, h⟩)
    (fun _ _ _ _ _ _ _ _ h => h) (fun _ _ _ _ _ _ _ h => h)
  close exit log hover := by
    have hs : sends (log ++ [⟨.closeSocket request.clientFd, ()⟩]) = sends log := by
      simp [Eff.sent]
    cases exit <;> simpa only [life, hs] using hover

end View

end LinkScheduling
