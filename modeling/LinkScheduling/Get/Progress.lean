import LinkScheduling.Metatheory.Fairness
import LinkScheduling.Metatheory.Rounds

/-!
# How many rounds a GET takes

A GET leaves after at most `max 1 total_bytes` rounds, whatever happens to its file,
under FCFS, SJF and DRR. Under RR it does as long as every selection finds a line:
when the file became shorter than the offset, the selection loop ends without a line
and the round counts as a success that sent nothing.
-/

namespace LinkScheduling

open Framework

/-! ## The round a log is in -/

/-- The record the round works on, and whether the round has opened the file yet. -/
def Call.roundStep : Option Request × Bool → Call → Option Request × Bool
  | _, ⟨.push req, true⟩ => (some req, false)
  | _, ⟨.requeue req, _⟩ => (some req, false)
  | (req, _), ⟨.openRead _, _⟩ => (req, true)
  | round, _ => round

def roundOf (log : List Call) : Option Request × Bool := log.foldl Call.roundStep (none, false)

@[simp] theorem roundOf_snoc (log : List Call) (call : Call) :
    roundOf (log ++ [call]) = Call.roundStep (roundOf log) call := by
  simp [roundOf]

/-- The first open of an RR round that cannot send all that is left finds the file
longer than the offset of the request. -/
def SelectsAhead (cfg : Config) (log : List Call) (call : Call) : Prop :=
  cfg.scheduler.policy = .RR → ∀ path r req, call = ⟨.openRead path, r⟩ →
    roundOf log = (some req, false) →
    cfg.scheduler.quantum < req.totalBytes - req.offset →
    ∃ file, r = some file ∧ req.offset < file.size

/-- The log went on without putting the request back into the queue. -/
def SameRound (log log' : List Call) : Prop :=
  ∃ calls, log' = log ++ calls ∧ ∀ call ∈ calls, call.eff.requeued = 0

section SameRound

variable {log log' log'' : List Call}

theorem SameRound.trans (h : SameRound log log') (h' : SameRound log' log'') :
    SameRound log log'' := by
  obtain ⟨calls, rfl, hc⟩ := h
  obtain ⟨calls', rfl, hc'⟩ := h'
  exact ⟨calls ++ calls', by simp, List.forall_mem_append.mpr ⟨hc, hc'⟩⟩

theorem SameRound.requeues (h : SameRound log log') : requeues log' = requeues log := by
  obtain ⟨calls, rfl, hc⟩ := h
  simp [requeues_eq_zero hc]

theorem SameRound.sends_ne_nil (h : SameRound log log') (hs : sends log ≠ []) :
    sends log' ≠ [] := by
  obtain ⟨calls, rfl, -⟩ := h
  simp [hs]

theorem Ending.sameRound {calls : List Call} (h : Ending calls) (log : List Call) :
    SameRound log (log ++ calls) := by
  refine ⟨calls, rfl, ?_⟩
  rintro ⟨e, r⟩ hmem
  have := h _ hmem
  cases e <;> first | rfl | exact this.elim

end SameRound

/-! ## Progress of one RR round -/

section Ahead

variable {L : Lifecycle} {cfg : Config} {fd : Fd} {path : Bytes}

theorem getCall_inside (e : Eff) (h : e.getCall fd path) : e.inside := by
  cases e <;> trivial

/-- The log went on with calls of a GET round only. -/
def GetLog (fd : Fd) (path : Bytes) (log log' : List Call) : Prop :=
  ∃ calls, log' = log ++ calls ∧ ∀ call ∈ calls, call.eff.getCall fd path

theorem GetLog.refl (log : List Call) : GetLog fd path log log := ⟨[], by simp⟩

theorem GetLog.trans {log log' log'' : List Call} (h : GetLog fd path log log')
    (h' : GetLog fd path log' log'') : GetLog fd path log log'' := by
  obtain ⟨calls, rfl, hc⟩ := h
  obtain ⟨calls', rfl, hc'⟩ := h'
  exact ⟨calls ++ calls', by simp, List.forall_mem_append.mpr ⟨hc, hc'⟩⟩

theorem GetLog.call {log : List Call} {e : Eff} (r : Resp e) (h : e.getCall fd path) :
    GetLog fd path log (log ++ [⟨e, r⟩]) :=
  ⟨[⟨e, r⟩], rfl, by simpa using h⟩

theorem GetLog.sameRound {log log' : List Call} (h : GetLog fd path log log') :
    SameRound log log' := by
  obtain ⟨calls, rfl, hc⟩ := h
  refine ⟨calls, rfl, ?_⟩
  rintro ⟨e, r⟩ hmem
  have := hc _ hmem
  cases e <;> first | rfl | exact this.elim

theorem getOnly_rule {α : Type} {p : Server α} {Q : α → Prop} {log : List Call}
    (h : p.Only (Eff.getCall fd path) Q)
    (halways : ∀ log', GetLog fd path log log' → L.always log') :
    p.wp L.contract (fun a log' => Q a ∧ GetLog fd path log log') log :=
  only_rule h getCall_inside fun calls hcalls => halways _ ⟨calls, rfl, hcalls⟩

/-- The selection sends at least one line when its first open finds one. -/
theorem selectLines_ahead {log : List Call} {budget off : ℕ} (a14 : ℕ) (hpos : 0 < budget)
    (hsmall : budget < 2 ^ 63)
    (hopen : ∀ r, L.allowed log ⟨.openRead path, r⟩ → ∃ file, r = some file ∧ off < file.size)
    (halways : ∀ log', GetLog fd path log log' → L.always log') :
    (selectLines path true budget budget off 0 a14).wp L.contract
      (fun res log' => 0 < res.1 ∧ res.1 < 2 ^ 63 ∧ GetLog fd path log log') log := by
  obtain ⟨fuel, rfl⟩ := Nat.exists_eq_succ_of_ne_zero hpos.ne'
  -- after the first line was read
  have hafter : ∀ (off' : ℕ) (line : Bytes) (log' : List Call), 0 < line.length → line.length < 2 ^ 63 →
      GetLog fd path log log' →
      (if 0 = 0 ∧ line.length > fuel + 1 then
        if true = true then pure (line.length, u64 (a14 + 1)) else pure (0, a14)
      else if u64 (0 + line.length) > fuel + 1 then pure (0, a14)
      else selectLines path true (fuel + 1) fuel off' (u64 (0 + line.length)) a14 :
        Server (ℕ × ℕ)).wp L.contract
        (fun res log' => 0 < res.1 ∧ res.1 < 2 ^ 63 ∧ GetLog fd path log log') log' := by
    intro off' line log' hline hlt hlog
    have hu : u64 (0 + line.length) = line.length := by
      rw [Nat.zero_add]
      exact u64_of_lt (by omega)
    split
    · exact ⟨hline, hlt, hlog⟩
    · rename_i hshort
      rw [hu, if_neg (by omega)]
      refine Prog.wp_mono (getOnly_rule (selectLines_only fuel off' line.length a14)
        fun log'' h => halways _ (hlog.trans h)) ?_
      rintro res log'' ⟨hres, hlog'⟩
      obtain ⟨h1, h2, -⟩ := hres (by omega) hsmall
      exact ⟨by omega, h2, hlog.trans hlog'⟩
  unfold selectLines
  rw [if_pos (Nat.succ_pos fuel), Prog.wp_bind]
  refine readFileLine_wp ⟨halways _ (.refl _), trivial⟩ ?_ ?_ ?_
  · rintro r ⟨-, hr⟩ hnone
    obtain ⟨file, rfl, hlt⟩ := hopen r hr
    have := hnone file rfl
    omega
  · rintro file - hoff
    exact hafter _ _ _ (lineAt_bounds hoff).1 (lineAt_bounds hoff).2 (.call _ rfl)
  · rintro file - hoff -
    have hlog : GetLog fd path log (log ++ [⟨.openRead path, some file⟩]) := .call _ rfl
    refine ⟨⟨halways _ hlog, trivial⟩, fun st _ => ?_⟩
    exact hafter _ _ _ (lineAt_bounds hoff).1 (lineAt_bounds hoff).2 (hlog.trans (.call _ rfl))

theorem serveGetBody_ahead (req : Request) {budget : ℕ} {packetization : ℤ}
    {log : List Call} (hpos : 0 < budget) (hpack : 0 < packetization)
    (hpart : budget < req.totalBytes - req.offset) (hsmall : req.totalBytes < 2 ^ 63)
    (hopen : ∀ r, L.allowed log ⟨.openRead path, r⟩ →
      ∃ file, r = some file ∧ req.offset < file.size)
    (halways : ∀ log', GetLog req.clientFd path log log' → L.always log') :
    (serveGetBody req path budget true packetization).wp L.contract
      (fun res log' => (res.1 = true → 0 < res.2.2) ∧ GetLog req.clientFd path log log')
      log := by
  unfold serveGetBody
  rw [if_neg (by omega), if_neg (by omega), if_neg (by omega), Prog.wp_bind]
  refine Prog.wp_mono (selectLines_ahead req.a14Events hpos (by omega) hopen halways) ?_
  rintro ⟨roundBytes, a14⟩ log' ⟨hrb, hlt, hlog⟩
  refine Prog.wp_mono (getOnly_rule (sendRound_only { req with a14Events := a14 })
    fun log'' h => halways _ (hlog.trans h)) ?_
  rintro ⟨ok, later, n⟩ log'' ⟨⟨-, hn⟩, hlog'⟩
  refine ⟨fun hok => ?_, hlog.trans hlog'⟩
  have hn : n = roundBytes := hn (by omega) (by omega) hok
  exact hn ▸ hrb

/-- A round that has to select its lines makes progress when the selection does. -/
theorem serveGet_ahead {req : Request} {fileDir : Bytes} {budget : ℕ} {packetization : ℤ}
    {log : List Call} (hpos : 0 < budget) (hpack : 0 < packetization)
    (hpart : budget < req.totalBytes - req.offset) (hsmall : req.totalBytes < 2 ^ 63)
    (hopen : ∀ log' path r, roundOf log' = roundOf log →
      L.allowed log' ⟨.openRead path, r⟩ → ∃ file, r = some file ∧ req.offset < file.size)
    (halways : ∀ log', GetLog req.clientFd (filePath fileDir req.filename) log log' →
      L.always log') :
    (serveGet req fileDir budget true packetization).wp L.contract
      (fun res log' => (res.1 = true → 0 < res.2.2) ∧
        GetLog req.clientFd (filePath fileDir req.filename) log log') log := by
  unfold serveGet
  split
  · simp only [sendError, perform, Prog.wp_bind, Prog.wp_perform, Prog.wp_pure]
    exact ⟨⟨halways _ (.refl _), trivial⟩, fun ok _ => ⟨by simp, .call _ rfl⟩⟩
  simp only [fileExists, perform, Prog.wp_bind, Prog.wp_perform, Prog.wp_pure]
  refine ⟨⟨halways _ (.refl _), trivial⟩, fun found _ => ?_⟩
  have hlog : GetLog req.clientFd (filePath fileDir req.filename) log
      (log ++ [⟨.stat (filePath fileDir req.filename), found⟩]) := .call _ rfl
  split
  · split
    · refine Prog.wp_mono (serveGetBody_ahead req hpos hpack hpart hsmall
        (fun r => hopen _ _ r (roundOf_snoc _ _)) fun log' h => halways _ (hlog.trans h)) ?_
      rintro res log' ⟨hok, h⟩
      exact ⟨hok, hlog.trans h⟩
    · simp only [sendResponse, perform, Prog.wp_bind, Prog.wp_perform, Prog.wp_pure]
      refine ⟨⟨halways _ hlog, trivial⟩, fun ok _ => ?_⟩
      have hlog' := hlog.trans (GetLog.call (e := .sendAll req.clientFd (okLine req.totalBytes))
        ok rfl)
      refine Prog.wp_mono (serveGetBody_ahead { req with responseSent := true } hpos hpack hpart
        hsmall (fun r => hopen _ _ r ((roundOf_snoc _ _).trans (roundOf_snoc _ _)))
        fun log'' h => halways _ (hlog'.trans h)) ?_
      rintro res log'' ⟨hok, h⟩
      exact ⟨hok, hlog'.trans h⟩
  · simp only [sendError, perform, Prog.wp_bind, Prog.wp_perform, Prog.wp_pure]
    exact ⟨⟨halways _ hlog, trivial⟩, fun ok _ => ⟨by simp, hlog.trans (.call _ rfl)⟩⟩

/-- A successful round sent the header unless it was out before. -/
theorem serveGet_header {req : Request} {fileDir : Bytes} {budget : ℕ} {allow : Bool}
    {packetization : ℤ} {log : List Call}
    (halways : ∀ log', GetLog req.clientFd (filePath fileDir req.filename) log log' →
      L.always log') :
    (serveGet req fileDir budget allow packetization).wp L.contract
      (fun res log' => res.1 = true → req.responseSent = false → sends log' ≠ []) log := by
  unfold serveGet
  split
  · simp only [sendError, perform, Prog.wp_bind, Prog.wp_perform, Prog.wp_pure]
    exact ⟨⟨halways _ (.refl _), trivial⟩, fun ok _ => by simp⟩
  simp only [fileExists, perform, Prog.wp_bind, Prog.wp_perform, Prog.wp_pure]
  refine ⟨⟨halways _ (.refl _), trivial⟩, fun found _ => ?_⟩
  have hlog : GetLog req.clientFd (filePath fileDir req.filename) log
      (log ++ [⟨.stat (filePath fileDir req.filename), found⟩]) := .call _ rfl
  split
  · split
    · rename_i hresp
      refine Prog.wp_mono (getOnly_rule (serveGetBody_only req hresp)
        fun log' h => halways _ (hlog.trans h)) ?_
      intro res log' _ _ hno
      exact absurd (hresp.symm.trans hno) (by simp)
    · simp only [sendResponse, perform, Prog.wp_bind, Prog.wp_perform, Prog.wp_pure]
      refine ⟨⟨halways _ hlog, trivial⟩, fun ok _ => ?_⟩
      have hlog' := hlog.trans (GetLog.call (e := .sendAll req.clientFd (okLine req.totalBytes))
        ok rfl)
      refine Prog.wp_mono (getOnly_rule (serveGetBody_only { req with responseSent := true } rfl)
        fun log'' h => halways _ (hlog'.trans h)) ?_
      rintro res log'' ⟨-, hget⟩ _ _
      refine hget.sameRound.sends_ne_nil ?_
      simp [Lifecycle.contract, Eff.sent]
  · simp only [sendError, perform, Prog.wp_bind, Prog.wp_perform, Prog.wp_pure]
    exact ⟨⟨halways _ hlog, trivial⟩, fun ok _ => by simp⟩

end Ahead

/-! ## The pace of a request -/

/-- How far a request has come for the number of rounds it took. -/
def Scheduler.OnPace (S : Scheduler) (req : Request) (rounds : ℕ) : Prop :=
  match S.policy with
  | .FCFS => rounds = 0
  | .SJF => rounds = 0
  | .RR => rounds ≤ req.offset
  | .DRR => req.offset + req.deficit = rounds * S.quantum ∧
      (rounds = 0 ∨ rounds * S.quantum < req.totalBytes)

theorem Scheduler.OnPace.rounds_lt {S : Scheduler} {req : Request} {rounds : ℕ}
    (h : S.OnPace req rounds) (hmore : req.offset < req.totalBytes ∨ rounds = 0) :
    rounds < max 1 req.totalBytes := by
  unfold OnPace at h
  rcases hmore with hmore | rfl
  swap
  · omega
  split at h
  · omega
  · omega
  · omega
  · rename_i hpolicy
    have hQ := S.quantum_pos (Or.inr hpolicy)
    rcases h.2 with h0 | hlt
    · omega
    · have := Nat.le_mul_of_pos_right rounds hQ
      omega

/-- Under DRR the deficit of a request on pace can be topped up without overflow. -/
theorem Scheduler.OnPace.topUp {S : Scheduler} {req : Request} {rounds : ℕ}
    (h : S.OnPace req rounds) (hdrr : S.policy = .DRR) (hsmall : req.totalBytes < 2 ^ 63) :
    u64 (req.deficit + S.quantum) = req.deficit + S.quantum := by
  have hQ := S.quantum_lt
  simp only [OnPace, hdrr] at h
  obtain ⟨hsum, hlt⟩ := h
  refine u64_of_lt ?_
  rcases Nat.eq_zero_or_pos rounds with rfl | hpos
  · omega
  · have hone : S.quantum ≤ rounds * S.quantum := Nat.le_mul_of_pos_left _ hpos
    omega

/-- A successful round that leaves bytes to send keeps the pace: it sent a whole
quantum's worth of budget, and under RR at least one byte. -/
theorem Scheduler.OnPace.next {S : Scheduler} {req later : Request} {rounds n m : ℕ}
    (h : S.OnPace req rounds) (hsmall : req.totalBytes < 2 ^ 63)
    (hm : min n (req.totalBytes - req.offset) = m)
    (hwhole : req.totalBytes - req.offset ≤ (S.getBudget req).2 →
      n = req.totalBytes - req.offset)
    (hwithin : (S.getBudget req).2 < req.totalBytes - req.offset →
      S.policy = .RR ∨ n ≤ (S.getBudget req).2)
    (hahead : S.policy = .RR → S.quantum < req.totalBytes - req.offset → 0 < n)
    (hmore : req.offset + m < req.totalBytes)
    (hoff : later.offset = req.offset + m) (htotal : later.totalBytes = req.totalBytes)
    (hdeficit : S.policy = .DRR → later.deficit = (S.getBudget req).1.deficit - m) :
    S.OnPace later (rounds + 1) := by
  have hrem : req.totalBytes - req.offset ≠ 0 := by omega
  have htop := fun hdrr => h.topUp hdrr hsmall
  unfold OnPace at h ⊢
  unfold getBudget at hwhole hwithin hdeficit
  simp only [Request.remaining_eq, hrem, ↓reduceIte] at hwhole hwithin hdeficit
  cases hpolicy : S.policy with
  | FCFS =>
      simp only [hpolicy] at hwhole
      omega
  | SJF =>
      simp only [hpolicy] at hwhole
      omega
  | RR =>
      simp only [hpolicy] at h hwhole hahead
      change rounds + 1 ≤ later.offset
      by_cases hfits : req.totalBytes - req.offset ≤ S.quantum
      · have := hwhole (by omega)
        omega
      · have := hahead trivial (by omega)
        omega
  | DRR =>
      simp only [hpolicy, htop hpolicy] at h hwhole hwithin hdeficit
      have hd := hdeficit trivial
      by_cases hfits : req.totalBytes - req.offset ≤ req.deficit + S.quantum
      · have := hwhole (by omega)
        omega
      · have hn : n ≤ req.deficit + S.quantum := by
          rcases hwithin (by omega) with hrr | hn
          · cases hrr
          · omega
        have hsum : (rounds + 1) * S.quantum = rounds * S.quantum + S.quantum :=
          Nat.succ_mul _ _
        refine ⟨?_, Or.inr ?_⟩ <;> omega

/-- The record of a GET between two rounds, with its pace. -/
structure Paced (cfg : Config) (req : Request) (log : List Call) : Prop where
  op : req.op = .GET
  small : req.totalBytes < 2 ^ 63
  staging : req.stagingFilename = []
  unfinished : req.offset < req.totalBytes ∨ req.offset = 0 ∧ requeues log = 0
  round : roundOf log = (some req, false)
  pace : cfg.scheduler.OnPace req (requeues log)
  header : requeues log = 0 ∧ req.responseSent = false ∨
    sends log ≠ [] ∧ req.responseSent = true

/-- Fewer than `max 1 total` times back in the queue, and never before the header. -/
structure InTime (total : ℕ) (log : List Call) : Prop where
  rounds : requeues log < max 1 total
  header : requeues log = 0 ∨ sends log ≠ []

theorem InTime.sameRound {total : ℕ} {log log' : List Call} (h : InTime total log)
    (hsame : SameRound log log') : InTime total log' :=
  ⟨hsame.requeues ▸ h.rounds, h.header.imp (hsame.requeues ▸ ·) hsame.sends_ne_nil⟩

theorem Paced.inTime {cfg : Config} {req : Request} {log : List Call}
    (h : Paced cfg req log) : InTime req.totalBytes log :=
  ⟨h.pace.rounds_lt (h.unfinished.imp id fun h => h.2), h.header.imp And.left And.left⟩

/-- The lifecycle of the round count. -/
def paceLife (cfg : Config) (request : Request) : Lifecycle where
  allowed := SelectsAhead cfg
  always := InTime request.totalBytes
  queued := Paced cfg
  ended _ _ := True

theorem serveGet_paced {cfg : Config} {req : Request} {log log' : List Call}
    (h : Paced cfg req log) (start : ℕ) (hround : roundOf log' = roundOf log)
    (hsame : SameRound log log') :
    (serveGet (cfg.scheduler.started req start) cfg.fileDir (cfg.scheduler.getBudget req).2
      (cfg.scheduler.policy = .RR) cfg.packetization).wp
      (paceLife cfg req).contract
      (fun res log'' => ((GetResult (cfg.scheduler.started req start)
          (cfg.scheduler.policy = .RR) (cfg.scheduler.getBudget req).2 cfg.packetization
          res.1 res.2.1 res.2.2 ∧
        (cfg.scheduler.policy = .RR → cfg.scheduler.quantum < req.totalBytes - req.offset →
          res.1 = true → 0 < res.2.2)) ∧
          SameRound log log'') ∧
        (res.1 = true → req.responseSent = false → sends log'' ≠ [])) log' := by
  have halways : ∀ log'', GetLog req.clientFd (filePath cfg.fileDir req.filename) log' log'' →
      (paceLife cfg req).always log'' := fun log'' hget =>
    h.inTime.sameRound (hsame.trans hget.sameRound)
  refine Prog.wp_and ?_ (serveGet_header halways)
  by_cases hselect : cfg.scheduler.policy = .RR ∧
      cfg.scheduler.quantum < req.totalBytes - req.offset
  · obtain ⟨hrr, hpart⟩ := hselect
    have hbudget : (cfg.scheduler.getBudget req).2 = cfg.scheduler.quantum := by
      unfold Scheduler.getBudget
      simp only [Request.remaining_eq, hrr]
      rw [if_neg (by omega)]
      simp only
      omega
    have hQ := cfg.scheduler.quantum_pos (Or.inl hrr)
    have hdec : decide (cfg.scheduler.policy = .RR) = true := by simpa using hrr
    rw [hbudget, hdec]
    refine Prog.wp_mono (serveGet_only.wp_and (serveGet_ahead hQ cfg.packetization_pos hpart
      h.small ?_ halways)) ?_
    · intro log'' path r hr hallowed
      exact hallowed hrr path r req rfl (hr.trans (hround.trans h.round)) hpart
    · rintro res log'' ⟨hres, hpos, hget⟩
      exact ⟨⟨hres, fun _ _ hok => hpos hok⟩, hsame.trans hget.sameRound⟩
  · refine Prog.wp_mono (getOnly_rule serveGet_only halways) ?_
    rintro res log'' ⟨hres, hget⟩
    exact ⟨⟨hres, fun hrr hpart => absurd ⟨hrr, hpart⟩ hselect⟩, hsame.trans hget.sameRound⟩

theorem roundOf_now {log : List Call} :
    ∀ {calls : List Call}, (∀ call ∈ calls, call.eff = .now) →
      roundOf (log ++ calls) = roundOf log := by
  intro calls
  induction calls using List.reverseRecOn with
  | nil => simp
  | append_singleton calls call ih =>
      intro h
      have hlast := h call (by simp)
      rw [← List.append_assoc, roundOf_snoc, ih fun c hc => h c (by simp [hc])]
      rcases call with ⟨e, r⟩
      cases hlast
      rfl

/-- The record that goes back into the queue is on pace again. -/
theorem Paced.next {cfg : Config} {req later : Request} {log log' : List Call} {start a14 n : ℕ}
    (h : Paced cfg req log) (hsame : SameRound log log')
    (hres : GetResult (cfg.scheduler.started req start) (cfg.scheduler.policy = .RR)
      (cfg.scheduler.getBudget req).2 cfg.packetization true
      { cfg.scheduler.started req start with responseSent := true, a14Events := a14 } n)
    (hahead : cfg.scheduler.policy = .RR →
      cfg.scheduler.quantum < req.totalBytes - req.offset → 0 < n)
    (hheader : req.responseSent = false → sends log' ≠ [])
    (hmore : req.offset + min n (req.totalBytes - req.offset) < req.totalBytes)
    (hacc : Accounted cfg.scheduler
      { cfg.scheduler.started req start with responseSent := true, a14Events := a14 }
      (min n (req.totalBytes - req.offset)) later) :
    Paced cfg later (log' ++ [⟨.requeue later, true⟩]) := by
  have hsmall := h.small
  have htotal : later.totalBytes = req.totalBytes := hacc.same.totalBytes
  have hpace : cfg.scheduler.OnPace later (requeues log + 1) :=
    h.pace.next hsmall rfl (fun hw => hres.whole cfg.packetization_pos hsmall rfl hw)
      (fun hw => (hres.within cfg.packetization_pos hsmall rfl hw).imp
        (fun hrr => by simpa using hrr) id)
      hahead hmore hacc.offset htotal hacc.deficit
  have hreq : requeues (log' ++ [⟨.requeue later, true⟩]) = requeues log + 1 := by
    simp [hsame.requeues, Eff.requeued]
  refine ⟨hacc.same.op.trans h.op, htotal ▸ hsmall, hacc.stagingFilename.trans h.staging,
    Or.inl ?_, by rw [roundOf_snoc]; rfl, hreq ▸ hpace, Or.inr ⟨?_, hacc.responseSent⟩⟩
  · rw [hacc.offset, htotal]
    exact hmore
  · have hsent : sends log' ≠ [] := by
      rcases h.header with ⟨-, hno⟩ | ⟨hs, -⟩
      · exact hheader hno
      · exact hsame.sends_ne_nil hs
    simp [hsent]

theorem paceRound {cfg : Config} {req : Request} {log : List Call} (h : Paced cfg req log) :
    (workerRound cfg (cfg.scheduler.decision req)).wp (paceLife cfg req).contract
      (fun _ => (paceLife cfg req).always) log := by
  have hsmall := h.small
  have hle : req.offset ≤ req.totalBytes := by
    rcases h.unfinished with h | h <;> omega
  refine workerRound_rule h.inTime fun start calls hcalls => ?_
  have hnow : SameRound log (log ++ calls) :=
    ⟨calls, rfl, fun call hmem => by
      rw [hcalls call hmem]
      rfl⟩
  have hop : (cfg.scheduler.started req start).op = .GET := h.op
  unfold dispatchRound
  rw [Prog.wp_bind, serveRound_get hop]
  refine Prog.wp_mono (serveGet_paced h start (roundOf_now hcalls) hnow) ?_
  rintro ⟨ok, later, n⟩ log' ⟨⟨⟨hres, hahead⟩, hsame⟩, hheader⟩
  have hend : ∀ calls', Ending calls' →
      (paceLife cfg req).always (log' ++ calls') := fun calls' hc =>
    h.inTime.sameRound (hsame.trans (hc.sameRound log'))
  cases ok with
  | false =>
      exact abandonRequest_rule (hres.stagingFilename.trans h.staging) hend
        (fun _ _ => trivial)
  | true =>
      obtain ⟨a14, hlater⟩ := hres.fields rfl
      simp only at hlater
      subst hlater
      refine settleRound_rule rfl hle (Nat.lt_trans hsmall (by decide))
        (h.inTime.sameRound hsame) ?_ ?_ ?_
      · intro hmore later hacc
        have hnext := h.next hsame hres (fun hrr hpart => hahead hrr hpart rfl)
          (hheader rfl) hmore hacc
        have htime := hnext.inTime
        rw [show later.totalBytes = req.totalBytes from hacc.same.totalBytes] at htime
        exact ⟨hnext, htime⟩
      · intro _ hput
        exact absurd (hput.symm.trans h.op) (by simp)
      · intro _ _ later _
        exact finishRequest_rule hend (fun _ _ => trivial)

theorem paceLife_soundFor {cfg : Config} {request : Request} (hget : request.op = .GET) :
    (paceLife cfg request).SoundFor cfg request where
  enter log hadm _ := by
    have hreq : requeues (log ++ [⟨.push request, true⟩]) = 0 := by
      simp [hadm.requeues, Eff.requeued]
    obtain ⟨size, -, -, hsmall⟩ := hadm.size hget
    have hfresh := hadm.fresh
    have hpaced : Paced cfg request (log ++ [⟨.push request, true⟩]) := by
      refine ⟨hget, hsmall, hfresh.stagingFilename, Or.inr ⟨hfresh.offset, hreq⟩,
        by rw [roundOf_snoc]; rfl, ?_, Or.inl ⟨hreq, hfresh.responseSent⟩⟩
      rw [hreq]
      unfold Scheduler.OnPace
      split
      · rfl
      · rfl
      · exact Nat.zero_le _
      · exact ⟨by simp [hfresh.offset, hfresh.deficit], Or.inl rfl⟩
    exact ⟨hpaced.inTime, hpaced⟩
  round req log hsame h := by
    have hround := paceRound h
    unfold paceLife at hround ⊢
    rwa [hsame.totalBytes] at hround
  close _ _ _ := trivial

/-! ## Every GET leaves -/

namespace Sys

variable {P W : ℕ}

/-- The calls of the step for connection `fd` select ahead. -/
def SelectsAheadFor (cfg : Config) (fd : Fd) (s : Sys P W) (l : Label P W) : Prop :=
  ∀ call, s.callOf l = some (fd, call) → SelectsAhead cfg (s.log fd) call

/-- What the pace lifecycle says in every state of a run. -/
theorem run_inTime {cfg : Config} {dir : Directory} {request : Request} {t : Sys P W}
    (hget : request.op = .GET)
    (hrun : RunWhere cfg (SelectsAheadFor cfg request.clientFd) (init P W dir) t)
    (hmem : request ∈ t.admitted) :
    InTime request.totalBytes (t.log request.clientFd) :=
  (Lifecycle.run_holdsFor (paceLife_soundFor hget) hrun hmem).always

/-- The same for fair behaviours: the request finishes. -/
theorem eventually_finished_get {cfg : Config} {dir : Directory} {request : Request}
    (hget : request.op = .GET) {b : Behaviour (step (P := P) (W := W) cfg)}
    (hinit : b.state 0 = init P W dir)
    (hahead : ∀ n, SelectsAheadFor cfg request.clientFd (b.state n) (b.label n))
    (hfair : FairFor b request.clientFd) {n : ℕ} (hmem : request ∈ (b.state n).admitted) :
    ∃ m, n ≤ m ∧ (b.state m).Finished request.clientFd := by
  have hrounds : ∀ m, n ≤ m → requeues ((b.state m).log request.clientFd) <
      max 1 request.totalBytes := by
    intro m hm
    have hrun := b.run hahead m
    rw [hinit] at hrun
    exact (run_inTime hget hrun (behaviour_admitted b hm hmem)).rounds
  exact eventually_finished b (hinit ▸ init_wellFormed dir) hfair rfl hmem hrounds

/-- **A GET takes at most `max 1 total_bytes` rounds**, under every policy and however
its file changes, as long as under RR the first open of a round that cannot send the
rest finds the file longer than the offset. So it leaves every fair behaviour. -/
theorem get_leaves {cfg : Config} {dir : Directory} {request : Request}
    (hget : request.op = .GET) :
    (∀ t : Sys P W, RunWhere cfg (SelectsAheadFor cfg request.clientFd) (init P W dir) t →
      request ∈ t.admitted →
      requeues (t.log request.clientFd) + 1 ≤ max 1 request.totalBytes) ∧
    (∀ b : Behaviour (step (P := P) (W := W) cfg), b.state 0 = init P W dir →
      (∀ n, SelectsAheadFor cfg request.clientFd (b.state n) (b.label n)) →
      FairFor b request.clientFd → ∀ n, request ∈ (b.state n).admitted →
      ∃ m, (b.state m).Finished request.clientFd) :=
  ⟨fun _ hrun hmem => (run_inTime hget hrun hmem).rounds,
    fun _ hinit hahead hfair _ hmem =>
      (eventually_finished_get hget hinit hahead hfair hmem).imp fun _ h => h.2⟩

/-- A GET of two lines, to its end and beyond. -/
def twoRounds : List (Label 1 1) :=
  arrive 7 (ascii "GET a\n") 5 ++ work 8 ++ work 8 ++ [.stopAccepting]

theorem get_leaves_two_rounds :
    ∃ (b : Behaviour (step (P := 1) (W := 1) (plainConfig .DRR 2 (by decide) (by decide))))
      (request : Request), request.op = .GET ∧ request ∈ (b.state 10).admitted ∧
        requeues ((b.state 28).log request.clientFd) + 1 ≤ max 1 request.totalBytes ∧
        ∃ m, (b.state m).Finished request.clientFd := by
  have hahead : ∀ (fd : Fd) (s : Sys 1 1) (l : Label 1 1),
      SelectsAheadFor (plainConfig .DRR 2 (by decide) (by decide)) fd s l :=
    fun fd s l call _ hrr => absurd hrr (by decide)
  have htrue : ∀ (s : Sys 1 1) (l : Label 1 1), (fun _ _ => true) s l = true → True :=
    fun _ _ _ => trivial
  obtain ⟨b, hinit, -, hfair, hstate⟩ := exists_fair
    (plainConfig .DRR 2 (by decide) (by decide))
    (init 1 1 (oneFile (ascii "d/a") ⟨ascii "a\nb\n", by decide⟩)) 7 twoRounds 26 0 {}
    htrue (fun _ => trivial) (by decide) rfl (by decide) (by decide)
  have hadm : (script (step (plainConfig .DRR 2 (by decide) (by decide))) (fun _ _ => true)
      (init 1 1 (oneFile (ascii "d/a") ⟨ascii "a\nb\n", by decide⟩)) (twoRounds.take 10)).any
        (·.admitted.any (fun r => r.op = .GET ∧ r.clientFd = 7)) = true := by decide
  rw [hstate 10 (by decide), Option.any_some] at hadm
  obtain ⟨request, hmem, hreq⟩ := List.any_eq_true.mp hadm
  obtain ⟨hget, hfd⟩ := of_decide_eq_true hreq
  have hrun := b.run (hahead request.clientFd _ <| b.label ·) 28
  rw [hinit] at hrun
  rw [← hfd] at hfair
  exact ⟨b, request, hget, hmem,
    (get_leaves hget).1 _ hrun (behaviour_admitted b (by decide) hmem),
    (get_leaves hget).2 b hinit (fun m => hahead _ _ _) hfair 10 hmem⟩

/-- A GET of three empty lines whose file is emptied by a PUT after the first round. -/
def emptied : List (Label 1 1) :=
  arrive 7 (ascii "GET a\n") 5 ++ arrive 8 (ascii "PUT a 0\n") 3 ++
    work 8 ++ work 9 ++ work 3 ++ work 3

theorem get_stalls : ∃ (t : Sys 1 1) (request : Request),
    RunWhere (plainConfig .RR 1 (by decide) (by decide)) (fun _ _ => True)
      (init 1 1 (oneFile (ascii "d/a") ⟨ascii "\n\n\n", by decide⟩)) t ∧
    request ∈ t.admitted ∧ request.op = .GET ∧ ¬ t.Finished request.clientFd ∧
    max 1 request.totalBytes ≤ requeues (t.log request.clientFd) := by
  have htrue : ∀ (s : Sys 1 1) (l : Label 1 1), (fun _ _ => true) s l = true → True :=
    fun _ _ _ => trivial
  obtain ⟨t, hrun, hcheck⟩ := script_exists emptied
    (fun t => t.admitted.any (fun r => r.op = .GET ∧ r.clientFd = 7 ∧ r.totalBytes = 3) &&
      t.finished = [(8, .completed)] && requeues (t.log 7) = 3) htrue
    (show (script (step (plainConfig .RR 1 (by decide) (by decide))) (fun _ _ => true)
      (init 1 1 (oneFile (ascii "d/a") ⟨ascii "\n\n\n", by decide⟩)) emptied).any _ = true
      by decide)
  simp only [Bool.and_eq_true, decide_eq_true_eq, List.any_eq_true] at hcheck
  obtain ⟨⟨⟨request, hmem, hget, hfd, htotal⟩, hfin⟩, hreq⟩ := hcheck
  refine ⟨t, request, hrun, hmem, hget, ?_, ?_⟩
  · rintro ⟨exit, hexit⟩
    rw [hfin, hfd] at hexit
    simp at hexit
  · rw [hfd, hreq, htotal]
    decide

end Sys

end LinkScheduling
