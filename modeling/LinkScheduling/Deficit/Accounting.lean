import LinkScheduling.Get.Delivery
import LinkScheduling.Put.Commit

/-!
# The accounts of DRR

Under DRR a request gets one quantum a round, and what a round does not spend stays in its
deficit. Between two rounds the bytes served and the deficit make up the quanta of the
rounds; the deficit of a GET is less than its next line, a PUT has none. So no quantum is
lost and none is gained, and the number of rounds depends on the size alone.
-/

namespace LinkScheduling

open Framework

/-- The rounds of a request of `total` bytes at `quantum` bytes a round. -/
def roundsNeeded (quantum total : ℕ) : ℕ := max 1 ((total + quantum - 1) / quantum)

/-- A request that keeps to its quota takes the rounds it needs. -/
theorem Scheduler.Quota.rounds_eq {S : Scheduler} {total rounds : ℕ} (h : S.Quota total rounds)
    (hdrr : S.policy = .DRR) : rounds + 1 = roundsNeeded S.quantum total := by
  have hQ := S.quantum_pos (Or.inr hdrr)
  obtain ⟨hle, hlt⟩ := h (Or.inr hdrr)
  unfold roundsNeeded
  rcases Nat.eq_zero_or_pos total with rfl | hpos
  · have hzero : rounds = 0 := hlt.resolve_right (Nat.not_lt_zero _)
    rw [hzero, Nat.div_eq_of_lt (by omega)]
    rfl
  · have hdiv : (total + S.quantum - 1) / S.quantum = rounds + 1 := by
      rw [Nat.div_eq_iff hQ]
      have hsucc : (rounds + 1) * S.quantum = rounds * S.quantum + S.quantum := Nat.succ_mul _ _
      have hfirst : rounds * S.quantum < total := by
        rcases hlt with rfl | hlt
        · simpa using hpos
        · exact hlt
      omega
    rw [hdiv]
    omega

/-! ## A GET -/

namespace View

/-- The account of a GET between two rounds. -/
structure Balanced (V : View) (S : Scheduler) (req : Request) (rounds : ℕ) : Prop where
  count : req.rounds = rounds
  pace : S.OnPace req rounds
  unfinished : req.offset < V.size ∨ req.offset = 0 ∧ rounds = 0
  short : rounds = 0 ∨ req.deficit < V.nextLine req.offset

variable {V : View} {S : Scheduler} {req later : Request} {rounds n : ℕ}

/-- The budget of a round is the deficit with its quantum, unless less is left. -/
theorem Balanced.budget (h : V.Balanced S req rounds) (hdrr : S.policy = .DRR)
    (htotal : req.totalBytes = V.size) (hmore : req.offset < V.size) :
    (S.getBudget req).1.deficit = req.deficit + S.quantum ∧
      (S.getBudget req).2 = min (V.size - req.offset) (req.deficit + S.quantum) := by
  have htop := h.pace.topUp hdrr (htotal ▸ V.size_lt)
  unfold Scheduler.getBudget
  simp only [Request.remaining_eq, hdrr, htotal, htop]
  rw [if_neg (by omega)]
  exact ⟨rfl, rfl⟩

/-- The number of rounds fits its counter. -/
theorem Balanced.nextRounds (h : V.Balanced S req rounds) (htotal : req.totalBytes = V.size) :
    u64 (req.rounds + 1) = rounds + 1 := by
  have hsmall : V.size < 2 ^ 63 := V.size_lt
  have hlt := h.pace.rounds_lt (h.unfinished.imp (htotal ▸ ·) And.right)
  rw [h.count]
  refine u64_of_lt ?_
  rw [htotal] at hlt
  omega

/-- A round that leaves bytes to send keeps the account. -/
theorem Balanced.next (h : V.Balanced S req rounds) (hdrr : S.policy = .DRR)
    (hfaults : ¬ V.faults) (htotal : req.totalBytes = V.size)
    (hserved : V.Served (S.policy = .RR) (S.getBudget req).2 req.offset n)
    (hmore : req.offset + n < V.size)
    (hacc : Accounted S { (S.getBudget req).1 with responseSent := true } n later) :
    V.Balanced S later (rounds + 1) := by
  obtain ⟨hdeficit, hbudget⟩ := h.budget hdrr htotal (by omega)
  have hlater := hacc.deficit hdrr
  have hoffset : later.offset = req.offset + n := by
    rw [hacc.offset, S.getBudget_eq req]
  have htotal' : later.totalBytes = req.totalBytes := by
    rw [hacc.same.totalBytes, S.getBudget_eq req]
  -- not all that is left was sent, so lines were selected
  have hpart : ¬ V.size - req.offset ≤ (S.getBudget req).2 := by
    intro hfits
    unfold Served at hserved
    rw [if_pos hfits] at hserved
    omega
  have hsel : V.Selected (S.policy = .RR) (S.getBudget req).2 req.offset n := by
    unfold Served at hserved
    rwa [if_neg hpart] at hserved
  have hwithin : n ≤ (S.getBudget req).2 := by
    rcases hsel.within with hle | ⟨hrr, -⟩
    · exact hle
    · rw [hdrr] at hrr
      cases hrr
  refine ⟨?_, ?_, Or.inl (hoffset ▸ hmore), Or.inr ?_⟩
  · rw [hacc.rounds, S.getBudget_eq req]
    exact h.nextRounds htotal
  · refine h.pace.next (htotal ▸ V.size_lt) (by omega) (fun hw => absurd (htotal ▸ hw) hpart)
      (fun _ => Or.inr hwithin) (fun hrr => ?_) (by omega) hoffset htotal' fun _ => hlater
    rw [hdrr] at hrr
    cases hrr
  · have hline : (S.getBudget req).2 < n + V.nextLine (req.offset + n) := by
      rcases hsel.maximal with hfault | hline | hover
      · exact absurd hfault hfaults
      · exact hline
      · omega
    rw [hlater, hoffset]
    change (S.getBudget req).1.deficit - n < _
    omega

/-- A round that sends the rest ends a request that kept to its quota. -/
theorem Balanced.quota (h : V.Balanced S req rounds) (hdrr : S.policy = .DRR)
    (htotal : req.totalBytes = V.size)
    (hserved : V.Served (S.policy = .RR) (S.getBudget req).2 req.offset n)
    (hall : req.offset + n = V.size) : S.Quota V.size rounds := by
  intro _
  have hpace := h.pace
  simp only [Scheduler.OnPace, hdrr] at hpace
  obtain ⟨hsum, hlt⟩ := hpace
  rw [htotal] at hlt
  refine ⟨?_, hlt⟩
  have hsucc : (rounds + 1) * S.quantum = rounds * S.quantum + S.quantum := Nat.succ_mul _ _
  by_cases hmore : req.offset < V.size
  · obtain ⟨-, hbudget⟩ := h.budget hdrr htotal hmore
    have hwithin : n ≤ (S.getBudget req).2 := by
      unfold Served at hserved
      split at hserved
      · omega
      · rcases hserved.within with hle | ⟨hrr, -⟩
        · exact hle
        · rw [hdrr] at hrr
          cases hrr
    omega
  · rcases h.unfinished with hmore' | ⟨hzero, -⟩
    · exact absurd hmore' hmore
    · omega

/-- A GET with its account. -/
def deficitLife (V : View) (cfg : Config) : Lifecycle where
  allowed := V.allowed
  always log := V.Shape (sends log)
  queued req log := V.Waiting req log ∧ V.Balanced cfg.scheduler req (requeues log)
  ended exit log := exit = .completed → cfg.scheduler.Quota V.size (requeues log) ∧
    ∃ row, ⟨.record row, ()⟩ ∈ log ∧ row.rounds = requeues log + 1

theorem deficitLife_fits {cfg : Config} : V.Fits (V.deficitLife cfg) :=
  ⟨fun _ _ h => h, fun _ h => h⟩

theorem deficitLife_soundFor {cfg : Config} {request : Request}
    (hdrr : cfg.scheduler.policy = .DRR) (hfaults : ¬ V.faults) (hget : request.op = .GET)
    (htotal : request.totalBytes = V.size) : (V.deficitLife cfg).SoundFor cfg request where
  enter log hadm halong := by
    obtain ⟨hshape, hw⟩ := (life_soundFor (V := V) hget htotal).enter log hadm halong
    have hfresh := hadm.fresh
    have hreq : requeues (log ++ [⟨.push request, true⟩]) = 0 := by
      simp [hadm.requeues, Eff.requeued]
    refine ⟨hshape, hw, ?_⟩
    rw [hreq]
    refine ⟨hfresh.rounds, ?_, Or.inr ⟨hfresh.offset, rfl⟩, Or.inl rfl⟩
    simp only [Scheduler.OnPace, hdrr]
    exact ⟨by simp [hfresh.offset, hfresh.deficit], Or.inl trivial⟩
  round req log _ h := by
    obtain ⟨hw, hbal⟩ := h
    refine getRound_view deficitLife_fits hw (fun _ _ _ hexit => by cases hexit) ?_ ?_
    · intro n row log' hserved hall hrow hrounds hreq _ _
      rw [hreq]
      exact ⟨hbal.quota hdrr hw.total hserved hall, row, hrow,
        hrounds.trans (hbal.nextRounds hw.total)⟩
    · intro n later log' hserved hmore hacc hreq hlater
      refine ⟨hlater, ?_⟩
      rw [hreq]
      exact hbal.next hdrr hfaults hw.total hserved hmore hacc
  close exit log hover := by
    intro hexit
    obtain ⟨hquota, row, hrow, hrounds⟩ := hover hexit
    have hreq : requeues (log ++ [⟨.closeSocket request.clientFd, ()⟩]) = requeues log := by
      simp [Eff.requeued]
    rw [hreq]
    exact ⟨hquota, row, List.mem_append_left _ hrow, hrounds⟩

end View

/-! ## Runs -/

namespace Sys

variable {P W : ℕ} {cfg : Config} {dir : Directory} {s t : Sys P W} {request : Request}
  {file : File}

/-- Nothing goes wrong for the request: a GET finds `file` and its sends succeed, the
storage calls of a PUT succeed and its receives deliver bytes. -/
def Smoothly (cfg : Config) (request : Request) (file : File) (s : Sys P W) (l : Label P W) :
    Prop :=
  match request.op with
  | .GET => Undisturbed (filePath cfg.fileDir request.filename) file request.clientFd s l
  | _ => Flawless request.clientFd s l

/-- What DRR keeps of a request between two rounds. -/
structure Account (S : Scheduler) (request : Request) (file : File) (req : Request)
    (rounds : ℕ) : Prop where
  count : req.rounds = rounds
  /-- `deficit += quantum` does not wrap. -/
  topUp : req.deficit + S.quantum < 2 ^ 64
  sum : req.offset + req.deficit = req.rounds * S.quantum
  deficit : 0 < rounds →
    if request.op = .GET then req.deficit < lineLength newline file.bytes req.offset
    else req.deficit = 0

/-- The account of a GET. -/
theorem run_deficit_get (hdrr : cfg.scheduler.policy = .DRR) (hget : request.op = .GET)
    (hrun : RunWhere cfg (Undisturbed (filePath cfg.fileDir request.filename) file
      request.clientFd) (init P W dir) t) (hmem : request ∈ t.admitted) :
    ((View.exactly file).deficitLife cfg).HoldsFor request t := by
  have htotal := undisturbed_size hget hrun hmem
  have hpermits : RunWhere cfg (((View.exactly file).deficitLife cfg).Permits request.clientFd)
      (init P W dir) t :=
    (run_looks hrun hmem).mono fun u l h =>
      undisturbed_permits h.1 fun call hcall => (h.2 call hcall).2
  exact Lifecycle.run_holdsFor (View.deficitLife_soundFor (V := .exactly file) hdrr
    (fun h => h) hget htotal) hpermits hmem

theorem account_of_balanced {S : Scheduler} {req : Request} {rounds : ℕ}
    (h : (View.exactly file).Balanced S req rounds) (hdrr : S.policy = .DRR)
    (hget : request.op = .GET) (hsmall : req.totalBytes < 2 ^ 63) :
    Account S request file req rounds := by
  have hpace := h.pace
  have htop := hpace.topUp hdrr hsmall
  simp only [Scheduler.OnPace, hdrr] at hpace
  refine ⟨h.count, ?_, ?_, fun hpos => ?_⟩
  · rw [← htop]
    exact Nat.mod_lt _ (by decide)
  · rw [h.count]
    exact hpace.1
  · rw [if_pos hget]
    exact h.short.resolve_left (by omega)

theorem account_of_putWaiting {req : Request} {log : List Call}
    (h : PutWaiting cfg request req log) (hdrr : cfg.scheduler.policy = .DRR) :
    Account cfg.scheduler request file req (requeues log) := by
  have hdeficit := h.deficit hdrr
  have hpace := h.pace (Or.inr hdrr)
  have hQ := cfg.scheduler.quantum_lt
  refine ⟨h.count, by omega, ?_, fun _ => ?_⟩
  · rw [h.count, hdeficit, hpace]
    rfl
  · rw [if_neg (by rw [h.op]; simp)]
    exact hdeficit

/-- The rounds a finished request took, and that its metrics row tells. -/
structure TookRounds (rounds : ℕ) (log : List Call) : Prop where
  requeues : requeues log + 1 = rounds
  row : ∃ row, ⟨.record row, ()⟩ ∈ log ∧ row.rounds = rounds

theorem run_account_get (hdrr : cfg.scheduler.policy = .DRR) (hget : request.op = .GET)
    (hrun : RunWhere cfg (Undisturbed (filePath cfg.fileDir request.filename) file
      request.clientFd) (init P W dir) t) (hmem : request ∈ t.admitted) :
    (∀ req ∈ t.requestQueue.queue, req.clientFd = request.clientFd →
      Account cfg.scheduler request file req (requeues (t.log request.clientFd))) ∧
    ∀ exit, (request.clientFd, exit) ∈ t.finished → exit = .completed ∧
      TookRounds (roundsNeeded cfg.scheduler.quantum request.totalBytes)
        (t.log request.clientFd) := by
  have hlife := run_deficit_get hdrr hget hrun hmem
  have htotal := undisturbed_size hget hrun hmem
  constructor
  · intro req hreq hfd
    obtain ⟨hsame, -, hbal⟩ := hlife.queued req hreq hfd
    refine account_of_balanced hbal hdrr hget ?_
    rw [hsame.totalBytes, htotal]
    exact file.size_lt
  · intro exit hexit
    obtain ⟨rfl, -⟩ := ((get_delivers hget).1 t hrun hmem).2.2 exit hexit
    obtain ⟨hquota, row, hrow, hrounds⟩ := hlife.finished _ hexit rfl
    have hneeded := hquota.rounds_eq hdrr
    rw [show (View.exactly file).size = request.totalBytes from htotal.symm] at hneeded
    exact ⟨rfl, hneeded, row, hrow, hrounds.trans hneeded⟩

theorem run_account_put (hdrr : cfg.scheduler.policy = .DRR) (hput : request.op = .PUT)
    (hrun : RunWhere cfg (Flawless request.clientFd) (init P W dir) t)
    (hmem : request ∈ t.admitted) :
    (∀ req ∈ t.requestQueue.queue, req.clientFd = request.clientFd →
      Account cfg.scheduler request file req (requeues (t.log request.clientFd))) ∧
    ∀ exit, (request.clientFd, exit) ∈ t.finished → exit = .completed ∧
      TookRounds (roundsNeeded cfg.scheduler.quantum request.totalBytes)
        (t.log request.clientFd) := by
  have hlife := run_putLife hput hrun hmem
  constructor
  · intro req hreq hfd
    exact account_of_putWaiting (hlife.queued req hreq hfd).2 hdrr
  · intro exit hexit
    obtain rfl := finished_completed hput hrun hmem hexit
    obtain ⟨before, ok, after, row, -, hlog, hending, hrow, hrounds, hquota⟩ :=
      hlife.finished _ hexit
    have hneeded := hquota.rounds_eq hdrr
    have hcount : requeues (t.log request.clientFd) = requeues before := by
      rw [hlog]
      simp [hending.requeues, Eff.requeued]
    refine ⟨rfl, by rw [hcount]; exact hneeded, row, ?_, hrounds.trans hneeded⟩
    rw [hlog]
    simp [hrow]

theorem smoothly_get (hget : request.op = .GET) :
    Smoothly (P := P) (W := W) cfg request file =
      Undisturbed (filePath cfg.fileDir request.filename) file request.clientFd := by
  funext s l
  simp only [Smoothly, hget]

theorem smoothly_put (hput : request.op = .PUT) :
    Smoothly (P := P) (W := W) cfg request file = Flawless request.clientFd := by
  funext s l
  simp only [Smoothly, hput]

theorem run_account (hdrr : cfg.scheduler.policy = .DRR)
    (hop : request.op = .GET ∨ request.op = .PUT)
    (hrun : RunWhere cfg (Smoothly cfg request file) (init P W dir) t)
    (hmem : request ∈ t.admitted) :
    (∀ req ∈ t.requestQueue.queue, req.clientFd = request.clientFd →
      Account cfg.scheduler request file req (requeues (t.log request.clientFd))) ∧
    ∀ exit, (request.clientFd, exit) ∈ t.finished → exit = .completed ∧
      TookRounds (roundsNeeded cfg.scheduler.quantum request.totalBytes)
        (t.log request.clientFd) := by
  rcases hop with hget | hput
  · rw [smoothly_get hget] at hrun
    exact run_account_get hdrr hget hrun hmem
  · rw [smoothly_put hput] at hrun
    exact run_account_put hdrr hput hrun hmem

/-- Under DRR a request takes boundedly many rounds, whatever happens. -/
theorem run_rounds_lt (hdrr : cfg.scheduler.policy = .DRR)
    (hop : request.op = .GET ∨ request.op = .PUT) {A : Sys P W → Label P W → Prop}
    (hrun : RunWhere cfg A (init P W dir) t) (hmem : request ∈ t.admitted) :
    requeues (t.log request.clientFd) < max 1 request.totalBytes := by
  rcases hop with hget | hput
  · refine (run_inTime hget (hrun.mono fun s l _ => ?_) hmem).rounds
    intro call _ hrr
    rw [hdrr] at hrr
    cases hrr
  · exact (run_putLife hput hrun hmem).always.rounds

/-- **The accounts of DRR.** While nothing goes wrong for a GET or a PUT, its deficit can
be topped up without overflow, and after every round that puts it back into the queue its
offset and its deficit add up to a quantum for each round, the deficit of a GET less than
its next line and that of a PUT zero. It ends complete after `max 1 ⌈total / quantum⌉`
rounds, and does end in every fair behaviour. -/
theorem drr_accounts (hdrr : cfg.scheduler.policy = .DRR)
    (hop : request.op = .GET ∨ request.op = .PUT) :
    (∀ t : Sys P W, RunWhere cfg (Smoothly cfg request file) (init P W dir) t →
      request ∈ t.admitted →
      (∀ req ∈ t.requestQueue.queue, req.clientFd = request.clientFd →
        Account cfg.scheduler request file req (requeues (t.log request.clientFd))) ∧
      ∀ exit, (request.clientFd, exit) ∈ t.finished → exit = .completed ∧
        TookRounds (roundsNeeded cfg.scheduler.quantum request.totalBytes)
          (t.log request.clientFd)) ∧
    (∀ b : Behaviour (step (P := P) (W := W) cfg), b.state 0 = init P W dir →
      (∀ n, Smoothly cfg request file (b.state n) (b.label n)) →
      FairFor b request.clientFd → ∀ n, request ∈ (b.state n).admitted →
      ∃ m, (request.clientFd, .completed) ∈ (b.state m).finished ∧
        TookRounds (roundsNeeded cfg.scheduler.quantum request.totalBytes)
          ((b.state m).log request.clientFd)) := by
  refine ⟨fun t hrun hmem => run_account hdrr hop hrun hmem, ?_⟩
  intro b hinit hsmooth hfair n hmem
  have hrun : ∀ m, RunWhere cfg (Smoothly cfg request file) (init P W dir) (b.state m) := by
    intro m
    rw [← hinit]
    exact b.run hsmooth m
  obtain ⟨m, hm, exit, hexit⟩ := eventually_finished b (hinit ▸ init_wellFormed dir) hfair rfl
    hmem fun m hm => run_rounds_lt hdrr hop (hrun m) (behaviour_admitted b hm hmem)
  obtain ⟨rfl, htook⟩ := (run_account hdrr hop (hrun m) (behaviour_admitted b hm hmem)).2
    exit hexit
  exact ⟨m, hexit, htook⟩

theorem drr_accounts_two_rounds :
    ∃ (b : Behaviour (step (P := 1) (W := 1) (plainConfig .DRR 2 (by decide) (by decide))))
      (request : Request) (m : ℕ), request.op = .GET ∧ request ∈ (b.state 10).admitted ∧
        (request.clientFd, .completed) ∈ (b.state m).finished ∧
        TookRounds (roundsNeeded 2 request.totalBytes) ((b.state m).log request.clientFd) := by
  obtain ⟨b, request, hget, hmem, hinit, hcalm, hfair⟩ := twoRounds_behaviour
  have hsmooth : ∀ n, Smoothly (plainConfig .DRR 2 (by decide) (by decide)) request twoLines
      (b.state n) (b.label n) := by
    intro n
    rw [smoothly_get hget]
    exact hcalm n
  obtain ⟨m, hdone, htook⟩ := (drr_accounts rfl (Or.inl hget)).2 b hinit hsmooth hfair 10 hmem
  exact ⟨b, request, m, hget, hmem, hdone, htook⟩

end Sys

end LinkScheduling
