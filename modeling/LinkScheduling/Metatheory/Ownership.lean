import LinkScheduling.Metatheory.Steps

/-!
# Every connection is in one place

Counting for each connection where it is: waiting in the `FdQueue`, with a
parser, in the request queue, held by a worker, being closed by a worker that
completed it, finished. The invariant `WellFormed` says that these counts add
up, that `inflight_` counts the workers that hold a request, and that every busy
thread is inside its discipline. It holds in every reachable state, whatever the
answers to the calls are.
-/

namespace LinkScheduling

open Framework

def Parser.owns (fd : Fd) : Parser → ℕ
  | .busy fd' _ => if fd' = fd then 1 else 0
  | _ => 0

/-- The worker holds the request of `fd`. -/
def Worker.holds (fd : Fd) : Worker → ℕ
  | .busy req true _ => if req.clientFd = fd then 1 else 0
  | _ => 0

/-- The worker completed the request of `fd` and has only its socket to close. -/
def Worker.closes (fd : Fd) : Worker → ℕ
  | .busy req false _ => if req.clientFd = fd then 1 else 0
  | _ => 0

def Worker.holding : Worker → ℕ
  | .busy _ true _ => 1
  | _ => 0

namespace Sys

variable {P W : ℕ}

def waitingCount (s : Sys P W) (fd : Fd) : ℕ := s.fdQueue.queue.count fd
def parsingCount (s : Sys P W) (fd : Fd) : ℕ := ∑ k, (s.parser k).owns fd
def queuedCount (s : Sys P W) (fd : Fd) : ℕ := (s.requestQueue.queue.map (·.clientFd)).count fd
def heldCount (s : Sys P W) (fd : Fd) : ℕ := ∑ k, (s.worker k).holds fd
def closingCount (s : Sys P W) (fd : Fd) : ℕ := ∑ k, (s.worker k).closes fd
def holdingCount (s : Sys P W) : ℕ := ∑ k, (s.worker k).holding
def finishedCount (s : Sys P W) (fd : Fd) : ℕ := (s.finished.map Prod.fst).count fd
def admittedCount (s : Sys P W) (fd : Fd) : ℕ := (s.admitted.map (·.clientFd)).count fd
def rows (s : Sys P W) (fd : Fd) : ℕ := (s.records.map Prod.fst).count fd

/-- Where the discipline of a busy worker stands. -/
def stageOf (s : Sys P W) (req : Request) (held : Bool) : Stage :=
  if held then .serving (s.rows req.clientFd) else .completed

structure WellFormed (s : Sys P W) : Prop where
  placed : ∀ fd, s.queuedCount fd + s.heldCount fd + s.finishedCount fd = s.admittedCount fd
  once : ∀ fd, s.waitingCount fd + s.parsingCount fd + s.admittedCount fd ≤ 1
  closing : ∀ fd, s.closingCount fd ≤ s.finishedCount fd
  unaccepted : ∀ fd, fd ∉ s.accepted →
    s.waitingCount fd + s.parsingCount fd + s.admittedCount fd = 0
  inflight : s.requestQueue.inflight = s.holdingCount
  parser_ok : ∀ k fd todo, s.parser k = .busy fd todo →
    todo.wp (parserContract fd) (fun _ _ => True) false
  worker_ok : ∀ k req held todo, s.worker k = .busy req held todo →
    todo.wp (workerContract req) (fun _ stage => stage.released) (s.stageOf req held)
  rows_unserved : ∀ fd, s.heldCount fd = 0 → s.finishedCount fd = 0 → s.rows fd = 0
  rows_finished : ∀ fd exit, (fd, exit) ∈ s.finished →
    s.rows fd = if exit = .completed then 1 else 0
  log_new : ∀ fd, fd ∉ s.accepted ∨ 0 < s.waitingCount fd → s.log fd = []

theorem init_wellFormed (dir : Directory) : (init P W dir).WellFormed where
  placed _ := by simp [queuedCount, heldCount, finishedCount, admittedCount, init, Worker.holds]
  once _ := by simp [waitingCount, parsingCount, admittedCount, init, Parser.owns]
  closing _ := by simp [closingCount, finishedCount, init, Worker.closes]
  unaccepted _ _ := by simp [waitingCount, parsingCount, admittedCount, init, Parser.owns]
  inflight := by simp [holdingCount, init, Worker.holding]
  parser_ok _ _ _ h := by simp [init] at h
  worker_ok _ _ _ _ h := by simp [init] at h
  rows_unserved _ _ _ := by simp [rows, init]
  rows_finished _ _ h := by simp [init] at h
  log_new _ _ := rfl

end Sys

/-! ## Threads after a call -/

theorem Parser.resume_owns_le (fd fd' : Fd) (p : Server Unit) :
    (Parser.resume fd p).owns fd' ≤ if fd = fd' then 1 else 0 := by
  cases p <;> simp [resume, owns]

theorem Parser.resume_busy {fd fd' : Fd} {p todo : Server Unit}
    (h : Parser.resume fd p = .busy fd' todo) : fd' = fd ∧ todo = p := by
  cases p with
  | ret a => cases h
  | call e next =>
      cases h
      exact ⟨rfl, rfl⟩

theorem Worker.resume_busy {req req' : Request} {held held' : Bool} {p todo : Server Unit}
    (h : Worker.resume req held p = .busy req' held' todo) :
    req' = req ∧ held' = held ∧ todo = p := by
  cases p with
  | ret a => cases h
  | call e next =>
      cases h
      exact ⟨rfl, rfl, rfl⟩

theorem Worker.resume_released_holds (req : Request) (fd : Fd) (p : Server Unit) :
    (Worker.resume req false p).holds fd = 0 := by
  cases p <;> rfl

theorem Worker.resume_released_holding (req : Request) (p : Server Unit) :
    (Worker.resume req false p).holding = 0 := by
  cases p <;> rfl

theorem Worker.resume_closes_le (req : Request) (fd : Fd) (p : Server Unit) :
    (Worker.resume req false p).closes fd ≤ if req.clientFd = fd then 1 else 0 := by
  cases p <;> simp [resume, closes]

/-- A worker that still has to release its request has a call to make. -/
theorem serving_call {req : Request} {p : Server Unit} {rows : ℕ}
    (h : p.wp (workerContract req) (fun _ stage => stage.released) (.serving rows)) :
    ∃ e next, p = .call e next := by
  cases p with
  | ret a => exact h.elim
  | call e next => exact ⟨e, next, rfl⟩

theorem Worker.resume_serving {req : Request} {p : Server Unit} {rows : ℕ}
    (h : p.wp (workerContract req) (fun _ stage => stage.released) (.serving rows)) :
    Worker.resume req true p = .busy req true p := by
  obtain ⟨e, next, rfl⟩ := serving_call h
  rfl

/-- After `requeue` a worker makes no further call. -/
theorem requeued_ret {req : Request} {p : Server Unit} {Q : Unit → Stage → Prop}
    (h : p.wp (workerContract req) Q .requeued) : ∃ a, p = .ret a := by
  cases p with
  | ret a => exact ⟨a, rfl⟩
  | call e next => exact h.1.elim

/-- After a successful push a parser makes no further call. -/
theorem pushed_ret {fd : Fd} {p : Server Unit} {Q : Unit → Bool → Prop}
    (h : p.wp (parserContract fd) Q true) : ∃ a, p = .ret a := by
  cases p with
  | ret a => exact ⟨a, rfl⟩
  | call e next => exact absurd h.1.1 (by simp)

/-! ## Preservation -/

namespace Sys

variable {P W : ℕ} {cfg : Config} {s : Sys P W}

/-- Calls that leave the queue, the metrics and the history lists alone. -/
def quietCall : Eff → Bool
  | .push _ => false
  | .requeue _ => false
  | .complete _ => false
  | .record _ => false
  | _ => true

theorem perform_quiet {e : Eff} (h : quietCall e = true) (s : Sys P W) (fd : Fd) (r : Resp e) :
    (s.perform fd e r).requestQueue = s.requestQueue ∧
      (s.perform fd e r).records = s.records ∧
      (s.perform fd e r).admitted = s.admitted ∧
      (s.perform fd e r).finished = s.finished := by
  cases e <;> simp_all [perform, quietCall, Eff.onQueue]

@[simp] theorem worker_perform (s : Sys P W) (fd : Fd) (e : Eff) (r : Resp e) :
    (s.perform fd e r).worker = s.worker := rfl

@[simp] theorem parser_perform (s : Sys P W) (fd : Fd) (e : Eff) (r : Resp e) :
    (s.perform fd e r).parser = s.parser := rfl

@[simp] theorem perform_fdQueue (s : Sys P W) (fd : Fd) (e : Eff) (r : Resp e) :
    (s.perform fd e r).fdQueue = s.fdQueue := rfl

@[simp] theorem perform_accepted (s : Sys P W) (fd : Fd) (e : Eff) (r : Resp e) :
    (s.perform fd e r).accepted = s.accepted := rfl

theorem heldCount_setWorker (s : Sys P W) (k : Fin W) (w : Worker) (fd : Fd) :
    (s.setWorker k w).heldCount fd + (s.worker k).holds fd = s.heldCount fd + w.holds fd :=
  sum_update_add (Worker.holds fd) s.worker k w

theorem closingCount_setWorker (s : Sys P W) (k : Fin W) (w : Worker) (fd : Fd) :
    (s.setWorker k w).closingCount fd + (s.worker k).closes fd =
      s.closingCount fd + w.closes fd :=
  sum_update_add (Worker.closes fd) s.worker k w

theorem holdingCount_setWorker (s : Sys P W) (k : Fin W) (w : Worker) :
    (s.setWorker k w).holdingCount + (s.worker k).holding = s.holdingCount + w.holding :=
  sum_update_add Worker.holding s.worker k w

/-- What worker `k` held, and what it holds now. The step may have changed anything but the
workers before. -/
theorem setWorker_counts {s s' : Sys P W} {k : Fin W} {old : Worker} (w : Worker)
    (hworker : s'.worker = s.worker) (hold : s.worker k = old) :
    (∀ fd, (s'.setWorker k w).heldCount fd + old.holds fd = s.heldCount fd + w.holds fd) ∧
    (∀ fd, (s'.setWorker k w).closingCount fd + old.closes fd =
      s.closingCount fd + w.closes fd) ∧
    (s'.setWorker k w).holdingCount + old.holding = s.holdingCount + w.holding := by
  subst hold
  refine ⟨fun fd => ?_, fun fd => ?_, ?_⟩
  · have h := heldCount_setWorker s' k w fd
    rwa [heldCount, heldCount, hworker] at h
  · have h := closingCount_setWorker s' k w fd
    rwa [closingCount, closingCount, hworker] at h
  · have h := holdingCount_setWorker s' k w
    rwa [holdingCount, holdingCount, hworker] at h

theorem parsingCount_setParser (s : Sys P W) (k : Fin P) (p : Parser) (fd : Fd) :
    (s.setParser k p).parsingCount fd + (s.parser k).owns fd = s.parsingCount fd + p.owns fd :=
  sum_update_add (Parser.owns fd) s.parser k p

theorem setWorker_busy {s : Sys P W} {j k : Fin W} {w : Worker} {req : Request} {held : Bool}
    {todo : Server Unit} (h : (s.setWorker k w).worker j = .busy req held todo) :
    (j = k ∧ w = .busy req held todo) ∨ (j ≠ k ∧ s.worker j = .busy req held todo) := by
  by_cases hjk : j = k
  · subst hjk
    simp only [setWorker, Function.update_self] at h
    exact Or.inl ⟨rfl, h⟩
  · simp only [setWorker, Function.update_of_ne hjk] at h
    exact Or.inr ⟨hjk, h⟩

theorem setParser_busy {s : Sys P W} {j k : Fin P} {p : Parser} {fd : Fd}
    {todo : Server Unit} (h : (s.setParser k p).parser j = .busy fd todo) :
    (j = k ∧ p = .busy fd todo) ∨ (j ≠ k ∧ s.parser j = .busy fd todo) := by
  by_cases hjk : j = k
  · subst hjk
    simp only [setParser, Function.update_self] at h
    exact Or.inl ⟨rfl, h⟩
  · simp only [setParser, Function.update_of_ne hjk] at h
    exact Or.inr ⟨hjk, h⟩

theorem log_perform_of_ne {fd fd' : Fd} (h : fd' ≠ fd) (s : Sys P W) (e : Eff) (r : Resp e) :
    (s.perform fd e r).log fd' = s.log fd' := by
  simp [perform, Function.update_of_ne h]

theorem WellFormed.parser_owned (h : s.WellFormed) {k : Fin P} {fd : Fd} {todo : Server Unit}
    (hk : s.parser k = .busy fd todo) :
    0 < s.parsingCount fd ∧ s.waitingCount fd = 0 ∧ s.admittedCount fd = 0 := by
  have h1 : (s.parser k).owns fd ≤ s.parsingCount fd :=
    le_sum_pool (Parser.owns fd) s.parser k
  have h2 := h.once fd
  simp only [hk, Parser.owns, ↓reduceIte] at h1
  omega

theorem WellFormed.accepted_of_placed {fd : Fd} (h : s.WellFormed)
    (hplace : s.waitingCount fd + s.parsingCount fd + s.admittedCount fd ≠ 0) :
    fd ∈ s.accepted := by
  by_contra hnot
  exact hplace (h.unaccepted fd hnot)

theorem WellFormed.worker_held (h : s.WellFormed) {k : Fin W} {req : Request}
    {todo : Server Unit} (hk : s.worker k = .busy req true todo) :
    s.heldCount req.clientFd = 1 ∧ s.queuedCount req.clientFd = 0 ∧
      s.finishedCount req.clientFd = 0 ∧ s.admittedCount req.clientFd = 1 ∧
      s.waitingCount req.clientFd = 0 ∧ s.parsingCount req.clientFd = 0 := by
  have h1 : (s.worker k).holds req.clientFd ≤ s.heldCount req.clientFd :=
    le_sum_pool (Worker.holds req.clientFd) s.worker k
  have h2 := h.once req.clientFd
  have h3 := h.placed req.clientFd
  simp only [hk, Worker.holds, ↓reduceIte] at h1
  omega

theorem WellFormed.worker_closing (h : s.WellFormed) {k : Fin W} {req : Request}
    {todo : Server Unit} (hk : s.worker k = .busy req false todo) :
    s.heldCount req.clientFd = 0 ∧ s.queuedCount req.clientFd = 0 ∧
      s.finishedCount req.clientFd = 1 ∧ s.admittedCount req.clientFd = 1 ∧
      s.waitingCount req.clientFd = 0 ∧ s.parsingCount req.clientFd = 0 := by
  have h1 : (s.worker k).closes req.clientFd ≤ s.closingCount req.clientFd :=
    le_sum_pool (Worker.closes req.clientFd) s.worker k
  have h2 := h.once req.clientFd
  have h3 := h.placed req.clientFd
  have h4 := h.closing req.clientFd
  simp only [hk, Worker.closes, ↓reduceIte] at h1
  omega

theorem accept_wellFormed (h : s.WellFormed) {fd : Fd} (hnew : fd ∉ s.accepted) :
    WellFormed { s with
      fdQueue := { s.fdQueue with queue := s.fdQueue.queue ++ [fd] }
      accepted := s.accepted ++ [fd] } where
  placed := h.placed
  once fd' := by
    have h1 := h.once fd'
    have h2 := h.unaccepted fd hnew
    simp only [waitingCount, parsingCount, admittedCount, List.count_append,
      List.count_singleton] at h1 h2 ⊢
    by_cases hfd : fd = fd'
    · subst hfd
      simp only [BEq.rfl, ↓reduceIte]
      omega
    · simp only [beq_iff_eq, hfd, ↓reduceIte]
      omega
  closing := h.closing
  unaccepted fd' hnot := by
    simp only [List.mem_append, List.mem_singleton, not_or] at hnot
    have h1 := h.unaccepted fd' hnot.1
    have hfd : fd ≠ fd' := fun e => hnot.2 e.symm
    simp only [waitingCount, parsingCount, admittedCount, List.count_append,
      List.count_singleton, beq_iff_eq, hfd, ↓reduceIte] at h1 ⊢
    omega
  inflight := h.inflight
  parser_ok := h.parser_ok
  worker_ok := h.worker_ok
  rows_unserved := h.rows_unserved
  rows_finished := h.rows_finished
  log_new fd' hnot := by
    by_cases hfd : fd' = fd
    · subst hfd
      exact h.log_new fd' (Or.inl hnew)
    · refine h.log_new fd' ?_
      simp only [List.mem_append, List.mem_singleton, hfd, or_false, waitingCount,
        List.count_append] at hnot ⊢
      have hzero : [fd].count fd' = 0 := by simpa [List.count_singleton] using Ne.symm hfd
      rcases hnot with hnot | hnot
      · exact Or.inl hnot
      · exact Or.inr (by omega)

theorem parserTake_wellFormed (h : s.WellFormed) {k : Fin P} {fd : Fd} {rest : List Fd}
    (hq : s.fdQueue.queue = fd :: rest) :
    ({ s with fdQueue := { s.fdQueue with queue := rest } }.setParser k
      (.resume fd (parserClient cfg fd))).WellFormed := by
  set t := { s with fdQueue := { s.fdQueue with queue := rest } }.setParser k
    (.resume fd (parserClient cfg fd)) with ht
  have hparse : ∀ fd', t.parsingCount fd' ≤ s.parsingCount fd' + if fd = fd' then 1 else 0 := by
    intro fd'
    have h1 : t.parsingCount fd' + _ = s.parsingCount fd' + _ := parsingCount_setParser _ k _ fd'
    have h2 := Parser.resume_owns_le fd fd' (parserClient cfg fd)
    omega
  have hwait : ∀ fd', s.waitingCount fd' = t.waitingCount fd' + if fd = fd' then 1 else 0 := by
    intro fd'
    simp only [ht, setParser, waitingCount, hq, List.count_cons, beq_iff_eq]
  refine ⟨h.placed, ?_, h.closing, ?_, h.inflight, ?_, h.worker_ok, h.rows_unserved,
    h.rows_finished, ?_⟩
  · intro fd'
    have h1 := h.once fd'
    have h2 := hparse fd'
    have h3 := hwait fd'
    change t.waitingCount fd' + t.parsingCount fd' + s.admittedCount fd' ≤ 1
    omega
  · intro fd' hnot
    have h1 := h.unaccepted fd' hnot
    have h2 := hparse fd'
    have h3 := hwait fd'
    change t.waitingCount fd' + t.parsingCount fd' + s.admittedCount fd' = 0
    omega
  · intro j fd' todo hj
    rcases setParser_busy hj with ⟨rfl, hw⟩ | ⟨-, hold⟩
    · obtain ⟨rfl, rfl⟩ := Parser.resume_busy hw
      exact parserClient_disciplined
    · exact h.parser_ok j fd' todo hold
  · intro fd' hnot
    refine h.log_new fd' (hnot.imp id fun hpos => ?_)
    have h3 := hwait fd'
    omega

theorem parserExit_wellFormed (h : s.WellFormed) {k : Fin P} (hidle : s.parser k = .idle) :
    (s.setParser k .exited).WellFormed := by
  have hparse : ∀ fd, (s.setParser k .exited).parsingCount fd = s.parsingCount fd := by
    intro fd
    have h1 := parsingCount_setParser s k .exited fd
    simpa [hidle, Parser.owns] using h1
  refine ⟨h.placed, ?_, h.closing, ?_, h.inflight, ?_, h.worker_ok, h.rows_unserved,
    h.rows_finished, h.log_new⟩
  · intro fd
    rw [hparse]
    exact h.once fd
  · intro fd hnot
    rw [hparse]
    exact h.unaccepted fd hnot
  · intro j fd todo hj
    rcases setParser_busy hj with ⟨rfl, hw⟩ | ⟨-, hold⟩
    · cases hw
    · exact h.parser_ok j fd todo hold

/-- A call that leaves the queue, the metrics and the history lists alone keeps
everything but the calling thread. -/
theorem perform_counts {fd : Fd} {e : Eff} {r : Resp e}
    (hqueue : (s.perform fd e r).requestQueue = s.requestQueue)
    (hadmitted : (s.perform fd e r).admitted = s.admitted)
    (hfinished : (s.perform fd e r).finished = s.finished) (fd' : Fd) :
    (s.perform fd e r).queuedCount fd' = s.queuedCount fd' ∧
      (s.perform fd e r).admittedCount fd' = s.admittedCount fd' ∧
      (s.perform fd e r).finishedCount fd' = s.finishedCount fd' := by
  simp only [queuedCount, admittedCount, finishedCount, hqueue, hadmitted, hfinished, and_self]

/-- The log of a connection that no thread has taken up stays empty. -/
theorem perform_log_new (h : s.WellFormed) {fd : Fd} (hacc : fd ∈ s.accepted)
    (hwait : s.waitingCount fd = 0) (e : Eff) (r : Resp e) (fd' : Fd)
    (hnew : fd' ∉ s.accepted ∨ 0 < s.waitingCount fd') : (s.perform fd e r).log fd' = [] := by
  have hne : fd' ≠ fd := by
    rintro rfl
    rcases hnew with hnew | hnew
    · exact hnew hacc
    · omega
  rw [log_perform_of_ne hne]
  exact h.log_new fd' hnew

/-- A parser's call that is not a successful push. -/
theorem parserCall_quiet_wellFormed (h : s.WellFormed) {k : Fin P} {fd : Fd} {e : Eff}
    {next : Resp e → Server Unit} (hbusy : s.parser k = .busy fd (.call e next)) (r : Resp e)
    (hqueue : (s.perform fd e r).requestQueue = s.requestQueue)
    (hrecords : (s.perform fd e r).records = s.records)
    (hadmitted : (s.perform fd e r).admitted = s.admitted)
    (hfinished : (s.perform fd e r).finished = s.finished)
    (hnext : (next r).wp (parserContract fd) (fun _ _ => True) false) :
    ((s.perform fd e r).setParser k (.resume fd (next r))).WellFormed := by
  obtain ⟨hpos, hwait, -⟩ := h.parser_owned hbusy
  have hcounts := perform_counts hqueue hadmitted hfinished
  set t := (s.perform fd e r).setParser k (.resume fd (next r)) with ht
  have hparse : ∀ fd', t.parsingCount fd' ≤ s.parsingCount fd' := by
    intro fd'
    have h1 : t.parsingCount fd' + (s.parser k).owns fd' = s.parsingCount fd' + _ :=
      parsingCount_setParser _ k _ fd'
    have h2 := Parser.resume_owns_le fd fd' (next r)
    have h3 : (s.parser k).owns fd' = if fd = fd' then 1 else 0 := by rw [hbusy]; rfl
    omega
  have hacc : fd ∈ s.accepted := h.accepted_of_placed (by omega)
  refine ⟨?_, ?_, ?_, ?_, ?_, ?_, ?_, ?_, ?_, ?_⟩
  · intro fd'
    obtain ⟨h1, h2, h3⟩ := hcounts fd'
    change (s.perform fd e r).queuedCount fd' + s.heldCount fd' +
      (s.perform fd e r).finishedCount fd' = (s.perform fd e r).admittedCount fd'
    rw [h1, h2, h3]
    exact h.placed fd'
  · intro fd'
    have h1 := h.once fd'
    have h2 := hparse fd'
    have h3 := (hcounts fd').2.1
    change s.waitingCount fd' + t.parsingCount fd' + (s.perform fd e r).admittedCount fd' ≤ 1
    omega
  · intro fd'
    have h3 := (hcounts fd').2.2
    change s.closingCount fd' ≤ (s.perform fd e r).finishedCount fd'
    rw [h3]
    exact h.closing fd'
  · intro fd' hnot
    have h1 := h.unaccepted fd' hnot
    have h2 := hparse fd'
    have h3 := (hcounts fd').2.1
    change s.waitingCount fd' + t.parsingCount fd' + (s.perform fd e r).admittedCount fd' = 0
    omega
  · change (s.perform fd e r).requestQueue.inflight = s.holdingCount
    rw [hqueue]
    exact h.inflight
  · intro j fd' todo hj
    rcases setParser_busy hj with ⟨rfl, hw⟩ | ⟨-, hold⟩
    · obtain ⟨rfl, rfl⟩ := Parser.resume_busy hw
      exact hnext
    · exact h.parser_ok j fd' todo hold
  · intro j req held todo hj
    have := h.worker_ok j req held todo hj
    simpa only [ht, stageOf, rows, setParser, hrecords] using this
  · intro fd' h1 h2
    have := h.rows_unserved fd' h1 ((hcounts fd').2.2.symm.trans h2)
    simpa only [ht, rows, setParser, hrecords] using this
  · intro fd' exit hmem
    simp only [ht, setParser, hfinished] at hmem
    have := h.rows_finished fd' exit hmem
    simpa only [ht, rows, setParser, hrecords] using this
  · exact fun fd' hnew => perform_log_new h hacc hwait e r fd' hnew

/-- A successful push moves the connection from the parser to the queue. -/
theorem parserCall_push_wellFormed (h : s.WellFormed) {k : Fin P} {fd : Fd} {req : Request}
    {next : Resp (.push req) → Server Unit}
    (hbusy : s.parser k = .busy fd (.call (.push req) next)) (hfd : req.clientFd = fd)
    (hopen : s.requestQueue.closed = false)
    (hnext : (next true).wp (parserContract fd) (fun _ _ => True) true) :
    ((s.perform fd (.push req) true).setParser k (.resume fd (next true))).WellFormed := by
  obtain ⟨hpos, hwait, hadm⟩ := h.parser_owned hbusy
  obtain ⟨a, hret⟩ := pushed_ret hnext
  have hidle : Parser.resume fd (next true) = .idle := by rw [hret]; rfl
  rw [hidle]
  set t := (s.perform fd (.push req) true).setParser k .idle with ht
  have hcount : ∀ fd', [req.clientFd].count fd' = if fd = fd' then 1 else 0 := by
    intro fd'
    simp [List.count_singleton, hfd]
  have hqueued : ∀ fd', t.queuedCount fd' = s.queuedCount fd' + if fd = fd' then 1 else 0 := by
    intro fd'
    simp only [ht, queuedCount, setParser, perform, Eff.onQueue, RequestQueue.push, hopen,
      Bool.false_eq_true, ↓reduceIte, List.map_append, List.map_cons, List.map_nil,
      List.count_append, hcount]
  have hadmitted : ∀ fd', t.admittedCount fd' =
      s.admittedCount fd' + if fd = fd' then 1 else 0 := by
    intro fd'
    simp only [ht, admittedCount, setParser, perform, List.map_append, List.map_cons,
      List.map_nil, List.count_append, hcount]
  have hparse : ∀ fd', t.parsingCount fd' + (if fd = fd' then 1 else 0) = s.parsingCount fd' := by
    intro fd'
    have h1 : t.parsingCount fd' + (s.parser k).owns fd' = s.parsingCount fd' + 0 :=
      parsingCount_setParser _ k _ fd'
    rw [hbusy] at h1
    exact h1
  have hacc : fd ∈ s.accepted := h.accepted_of_placed (by omega)
  refine ⟨?_, ?_, h.closing, ?_, ?_, ?_, h.worker_ok, h.rows_unserved, h.rows_finished, ?_⟩
  · intro fd'
    have h1 := h.placed fd'
    have h2 := hqueued fd'
    have h3 := hadmitted fd'
    change t.queuedCount fd' + s.heldCount fd' + s.finishedCount fd' = t.admittedCount fd'
    omega
  · intro fd'
    have h1 := h.once fd'
    have h2 := hparse fd'
    have h3 := hadmitted fd'
    change s.waitingCount fd' + t.parsingCount fd' + t.admittedCount fd' ≤ 1
    omega
  · intro fd' hnot
    have h1 := h.unaccepted fd' hnot
    have h2 := hparse fd'
    have h3 := hadmitted fd'
    have hne : fd ≠ fd' := fun e => hnot (e ▸ hacc)
    simp only [hne, ↓reduceIte] at h2 h3
    change s.waitingCount fd' + t.parsingCount fd' + t.admittedCount fd' = 0
    omega
  · have hq : t.requestQueue.inflight = s.requestQueue.inflight := by
      simp [ht, setParser, perform, Eff.onQueue, RequestQueue.push, hopen]
    exact hq.trans h.inflight
  · intro j fd' todo hj
    rcases setParser_busy hj with ⟨rfl, hw⟩ | ⟨-, hold⟩
    · cases hw
    · exact h.parser_ok j fd' todo hold
  · exact fun fd' hnew => perform_log_new h hacc hwait _ _ fd' hnew

theorem parserCall_wellFormed (h : s.WellFormed) {k : Fin P} (c : Choice) {fd : Fd} {e : Eff}
    {next : Resp e → Server Unit} (hbusy : s.parser k = .busy fd (.call e next)) :
    ((s.perform fd e (s.answer c e)).setParser k
      (.resume fd (next (s.answer c e)))).WellFormed := by
  obtain ⟨⟨-, hcall⟩, hnext⟩ := h.parser_ok k fd _ hbusy
  have hnext := hnext (s.answer c e) trivial
  by_cases hpush : ∃ req, e = .push req
  · obtain ⟨req, rfl⟩ := hpush
    cases hclosed : s.requestQueue.closed with
    | true =>
        have hr : s.answer c (.push req) = false := by
          simp [answer, RequestQueue.push, hclosed]
        rw [hr] at hnext ⊢
        refine parserCall_quiet_wellFormed h hbusy false ?_ ?_ ?_ ?_ hnext <;>
          simp [perform, Eff.onQueue, RequestQueue.push, hclosed]
    | false =>
        have hr : s.answer c (.push req) = true := by
          simp [answer, RequestQueue.push, hclosed]
        rw [hr] at hnext ⊢
        exact parserCall_push_wellFormed h hbusy hcall hclosed hnext
  · have hquiet : quietCall e = true := by
      cases e <;> simp_all [Eff.parserCall, quietCall]
    obtain ⟨h1, h2, h3, h4⟩ := perform_quiet hquiet s fd (s.answer c e)
    refine parserCall_quiet_wellFormed h hbusy _ h1 h2 h3 h4 ?_
    rwa [parserContract_next fun req h => hpush ⟨req, h⟩] at hnext

theorem workerTake_wellFormed (h : s.WellFormed) {k : Fin W} {d : ScheduleDecision}
    {request : Request} {q : RequestQueue} (hidle : s.worker k = .idle)
    (hpop : Popped s.requestQueue request q) (hsame : request.Same d.request) :
    ({ s with requestQueue := q }.setWorker k
      (.resume d.request true (workerRound cfg d))).WellFormed := by
  have hround : (workerRound cfg d).wp (workerContract d.request)
      (fun _ stage => stage.released) (.serving 0) := workerRound_disciplined
  rw [Worker.resume_serving hround]
  have hcounts := setWorker_counts (.busy d.request true (workerRound cfg d))
    (rfl : { s with requestQueue := q }.worker = s.worker) hidle
  set t := { s with requestQueue := q }.setWorker k
    (.busy d.request true (workerRound cfg d)) with ht
  have hqueued : ∀ fd, s.queuedCount fd = t.queuedCount fd +
      if d.request.clientFd = fd then 1 else 0 := by
    intro fd
    unfold queuedCount
    rw [(hpop.perm.map (·.clientFd)).count_eq, List.map_cons, List.count_cons, ← hsame.clientFd]
    simp only [ht, setWorker, beq_iff_eq]
  have hheld : ∀ fd, t.heldCount fd =
      s.heldCount fd + if d.request.clientFd = fd then 1 else 0 := hcounts.1
  have hclosing : ∀ fd, t.closingCount fd = s.closingCount fd := hcounts.2.1
  have hholding : t.holdingCount = s.holdingCount + 1 := hcounts.2.2
  have hrows : s.rows d.request.clientFd = 0 := by
    have h1 := h.placed d.request.clientFd
    have h2 := h.once d.request.clientFd
    have h3 := hqueued d.request.clientFd
    simp only [↓reduceIte] at h3
    exact h.rows_unserved _ (by omega) (by omega)
  refine ⟨?_, h.once, ?_, h.unaccepted, ?_, h.parser_ok, ?_, ?_, h.rows_finished, h.log_new⟩
  · intro fd
    have h1 := h.placed fd
    have h2 := hqueued fd
    have h3 := hheld fd
    change t.queuedCount fd + t.heldCount fd + s.finishedCount fd = s.admittedCount fd
    omega
  · intro fd
    rw [hclosing]
    exact h.closing fd
  · change q.inflight = t.holdingCount
    rw [hholding, hpop.inflight, h.inflight]
  · intro j req held todo hj
    rcases setWorker_busy hj with ⟨rfl, hw⟩ | ⟨-, hold⟩
    · cases hw
      have hstage : t.stageOf d.request true = .serving 0 := congrArg Stage.serving hrows
      rw [hstage]
      exact hround
    · exact h.worker_ok j req held todo hold
  · intro fd hnot hfin
    have h3 := hheld fd
    exact h.rows_unserved fd (by omega) hfin

theorem workerExit_wellFormed (h : s.WellFormed) {k : Fin W} (hidle : s.worker k = .idle) :
    (s.setWorker k .exited).WellFormed := by
  have hcounts := setWorker_counts .exited (rfl : s.worker = s.worker) hidle
  have hheld : ∀ fd, (s.setWorker k .exited).heldCount fd = s.heldCount fd := hcounts.1
  refine ⟨?_, h.once, ?_, h.unaccepted, ?_, h.parser_ok, ?_, ?_, h.rows_finished, h.log_new⟩
  · intro fd
    rw [hheld]
    exact h.placed fd
  · exact fun fd => (hcounts.2.1 fd).le.trans (h.closing fd)
  · exact h.inflight.trans hcounts.2.2.symm
  · intro j req held todo hj
    rcases setWorker_busy hj with ⟨rfl, hw⟩ | ⟨-, hold⟩
    · cases hw
    · exact h.worker_ok j req held todo hold
  · intro fd hnot hfin
    rw [hheld] at hnot
    exact h.rows_unserved fd hnot hfin

/-- A serving worker's call that neither releases the request nor records it. -/
theorem workerCall_quiet_wellFormed (h : s.WellFormed) {k : Fin W} {req : Request} {e : Eff}
    {next : Resp e → Server Unit} (hbusy : s.worker k = .busy req true (.call e next))
    (r : Resp e) (hquiet : quietCall e = true)
    (hnext : (next r).wp (workerContract req) (fun _ stage => stage.released)
      (.serving (s.rows req.clientFd))) :
    ((s.perform req.clientFd e r).setWorker k (.resume req true (next r))).WellFormed := by
  obtain ⟨hheld1, -, -, hadm1, hwait, -⟩ := h.worker_held hbusy
  obtain ⟨hqueue, hrecords, hadmitted, hfinished⟩ := perform_quiet hquiet s req.clientFd r
  have hcounts := perform_counts hqueue hadmitted hfinished
  rw [Worker.resume_serving hnext]
  have hmoved := setWorker_counts (.busy req true (next r))
    (worker_perform s req.clientFd e r) hbusy
  set t := (s.perform req.clientFd e r).setWorker k (.busy req true (next r)) with ht
  have hheld : ∀ fd, t.heldCount fd = s.heldCount fd :=
    fun fd => Nat.add_right_cancel (hmoved.1 fd)
  have hclosing : ∀ fd, t.closingCount fd = s.closingCount fd := hmoved.2.1
  have hholding : t.holdingCount = s.holdingCount := Nat.add_right_cancel hmoved.2.2
  have hrows : ∀ fd, t.rows fd = s.rows fd := by
    intro fd
    simp only [ht, rows, setWorker, hrecords]
  have hacc : req.clientFd ∈ s.accepted := h.accepted_of_placed (by omega)
  refine ⟨?_, ?_, ?_, ?_, ?_, h.parser_ok, ?_, ?_, ?_, ?_⟩
  · intro fd
    obtain ⟨h1, h2, h3⟩ := hcounts fd
    change (s.perform req.clientFd e r).queuedCount fd + t.heldCount fd +
      (s.perform req.clientFd e r).finishedCount fd =
        (s.perform req.clientFd e r).admittedCount fd
    rw [h1, h2, h3, hheld]
    exact h.placed fd
  · intro fd
    have h1 := h.once fd
    rw [← (hcounts fd).2.1] at h1
    exact h1
  · intro fd
    have h1 := h.closing fd
    rw [← (hcounts fd).2.2, ← hclosing] at h1
    exact h1
  · intro fd hnot
    have h1 := h.unaccepted fd hnot
    rw [← (hcounts fd).2.1] at h1
    exact h1
  · change (s.perform req.clientFd e r).requestQueue.inflight = t.holdingCount
    rw [hqueue, hholding]
    exact h.inflight
  · intro j req' held todo hj
    rcases setWorker_busy hj with ⟨rfl, hw⟩ | ⟨-, hold⟩
    · cases hw
      have hstage : t.stageOf req true = .serving (s.rows req.clientFd) :=
        congrArg Stage.serving (hrows req.clientFd)
      rw [hstage]
      exact hnext
    · have := h.worker_ok j req' held todo hold
      simpa only [stageOf, hrows] using this
  · intro fd h1 h2
    rw [hrows]
    exact h.rows_unserved fd ((hheld fd).symm.trans h1) ((hcounts fd).2.2.symm.trans h2)
  · intro fd exit hmem
    rw [hrows]
    simp only [ht, setWorker, hfinished] at hmem
    exact h.rows_finished fd exit hmem
  · exact fun fd hnew => perform_log_new h hacc hwait _ _ fd hnew

/-- Recording the metrics row of a request that is about to be completed. -/
theorem workerCall_record_wellFormed (h : s.WellFormed) {k : Fin W} {req row : Request}
    {next : Resp (.record row) → Server Unit}
    (hbusy : s.worker k = .busy req true (.call (.record row) next))
    (hnext : (next ()).wp (workerContract req) (fun _ stage => stage.released)
      (.serving (s.rows req.clientFd + 1))) :
    ((s.perform req.clientFd (.record row) ()).setWorker k
      (.resume req true (next ()))).WellFormed := by
  obtain ⟨hheld1, hqueued1, hfin1, hadm1, hwait, hparse1⟩ := h.worker_held hbusy
  rw [Worker.resume_serving hnext]
  have hcounts := setWorker_counts (.busy req true (next ()))
    (worker_perform s req.clientFd (.record row) ()) hbusy
  set t := (s.perform req.clientFd (.record row) ()).setWorker k (.busy req true (next ())) with ht
  have hheld : ∀ fd, t.heldCount fd = s.heldCount fd :=
    fun fd => Nat.add_right_cancel (hcounts.1 fd)
  have hclosing : ∀ fd, t.closingCount fd = s.closingCount fd := hcounts.2.1
  have hholding : t.holdingCount = s.holdingCount := Nat.add_right_cancel hcounts.2.2
  have hrows : ∀ fd, t.rows fd = s.rows fd + if req.clientFd = fd then 1 else 0 := by
    intro fd
    simp only [ht, rows, setWorker, perform, List.map_append, List.map_cons, List.map_nil,
      List.count_append, List.count_singleton, beq_iff_eq]
  have hacc : req.clientFd ∈ s.accepted := h.accepted_of_placed (by omega)
  refine ⟨?_, h.once, ?_, h.unaccepted, ?_, h.parser_ok, ?_, ?_, ?_, ?_⟩
  · intro fd
    rw [hheld]
    exact h.placed fd
  · intro fd
    rw [hclosing]
    exact h.closing fd
  · rw [hholding]
    exact h.inflight
  · intro j req' held todo hj
    rcases setWorker_busy hj with ⟨rfl, hw⟩ | ⟨hjk, hold⟩
    · cases hw
      have hstage : t.stageOf req true = .serving (s.rows req.clientFd + 1) := by
        have := hrows req.clientFd
        simp only [↓reduceIte] at this
        exact congrArg Stage.serving this
      rw [hstage]
      exact hnext
    · have hok := h.worker_ok j req' held todo hold
      cases held with
      | false => exact hok
      | true =>
          -- two workers cannot hold the same connection
          have hne : req.clientFd ≠ req'.clientFd := by
            intro heq
            have h1 : (s.worker j).holds req.clientFd + (s.worker k).holds req.clientFd ≤
                s.heldCount req.clientFd :=
              add_le_sum_pool (Worker.holds req.clientFd) s.worker hjk
            rw [worker_perform] at hold
            rw [hold, hbusy] at h1
            simp only [Worker.holds, heq, ↓reduceIte] at h1 hheld1
            omega
          have hstage : t.stageOf req' true = s.stageOf req' true := by
            have := hrows req'.clientFd
            simp only [hne, ↓reduceIte, add_zero] at this
            exact congrArg Stage.serving this
          rw [hstage]
          exact hok
  · intro fd h1 h2
    have hne : req.clientFd ≠ fd := by
      rintro rfl
      have := hheld req.clientFd
      omega
    rw [hrows]
    simp only [hne, ↓reduceIte, add_zero]
    exact h.rows_unserved fd ((hheld fd).symm.trans h1) h2
  · intro fd exit hmem
    have hne : req.clientFd ≠ fd := by
      rintro rfl
      have hpos : 0 < s.finishedCount req.clientFd :=
        List.count_pos_iff.mpr (List.mem_map.mpr ⟨_, hmem, rfl⟩)
      omega
    rw [hrows]
    simp only [hne, ↓reduceIte, add_zero]
    exact h.rows_finished fd exit hmem
  · exact fun fd hnew => perform_log_new h hacc hwait _ _ fd hnew

/-- `requeue` moves the connection from the worker back to the queue. -/
theorem workerCall_requeue_wellFormed (h : s.WellFormed) {k : Fin W} {req later : Request}
    {next : Resp (.requeue later) → Server Unit}
    (hbusy : s.worker k = .busy req true (.call (.requeue later) next))
    (hfd : later.clientFd = req.clientFd)
    (hrows : s.rows req.clientFd = 0)
    (hnext : (next true).wp (workerContract req) (fun _ stage => stage.released)
      .requeued) :
    ((s.perform req.clientFd (.requeue later) true).setWorker k
      (.resume req false (next true))).WellFormed := by
  obtain ⟨hheld1, hqueued1, hfin1, hadm1, hwait, hparse1⟩ := h.worker_held hbusy
  obtain ⟨a, hret⟩ := requeued_ret hnext
  have hidle : Worker.resume req false (next true) = .idle := by rw [hret]; rfl
  rw [hidle]
  have hcounts := setWorker_counts .idle
    (worker_perform s req.clientFd (.requeue later) true) hbusy
  set t := (s.perform req.clientFd (.requeue later) true).setWorker k .idle with ht
  have hheld : ∀ fd, t.heldCount fd + (if req.clientFd = fd then 1 else 0) = s.heldCount fd :=
    hcounts.1
  have hclosing : ∀ fd, t.closingCount fd = s.closingCount fd := hcounts.2.1
  have hholding : t.holdingCount + 1 = s.holdingCount := hcounts.2.2
  have hqueued : ∀ fd, t.queuedCount fd =
      s.queuedCount fd + if req.clientFd = fd then 1 else 0 := by
    intro fd
    simp only [ht, queuedCount, setWorker, perform, Eff.onQueue, RequestQueue.requeue,
      List.map_append, List.map_cons, List.map_nil, List.count_append, List.count_singleton,
      beq_iff_eq, hfd]
  have hacc : req.clientFd ∈ s.accepted := h.accepted_of_placed (by omega)
  refine ⟨?_, h.once, ?_, h.unaccepted, ?_, h.parser_ok, ?_, ?_, h.rows_finished, ?_⟩
  · intro fd
    have h1 := h.placed fd
    have h2 := hheld fd
    have h3 := hqueued fd
    change t.queuedCount fd + t.heldCount fd + s.finishedCount fd = s.admittedCount fd
    omega
  · intro fd
    rw [hclosing]
    exact h.closing fd
  · have h1 := h.inflight
    change (if s.requestQueue.inflight > 0 then s.requestQueue.inflight - 1
      else s.requestQueue.inflight) = t.holdingCount
    rw [if_pos (by omega)]
    omega
  · intro j req' held todo hj
    rcases setWorker_busy hj with ⟨rfl, hw⟩ | ⟨-, hold⟩
    · cases hw
    · exact h.worker_ok j req' held todo hold
  · intro fd h1 h2
    by_cases hne : req.clientFd = fd
    · subst hne
      exact hrows
    · have h3 := hheld fd
      simp only [hne, ↓reduceIte] at h3
      exact h.rows_unserved fd (by omega) h2
  · exact fun fd hnew => perform_log_new h hacc hwait _ _ fd hnew

/-- `complete` finishes the request; the worker has only its socket to close. -/
theorem workerCall_complete_wellFormed (h : s.WellFormed) {k : Fin W} {req : Request}
    {exit : Exit} {next : Resp (.complete exit) → Server Unit}
    (hbusy : s.worker k = .busy req true (.call (.complete exit) next))
    (hrows : s.rows req.clientFd = if exit = .completed then 1 else 0)
    (hnext : (next ()).wp (workerContract req) (fun _ stage => stage.released)
      .completed) :
    ((s.perform req.clientFd (.complete exit) ()).setWorker k
      (.resume req false (next ()))).WellFormed := by
  obtain ⟨hheld1, hqueued1, hfin1, hadm1, hwait, hparse1⟩ := h.worker_held hbusy
  have hcounts := setWorker_counts (.resume req false (next ()))
    (worker_perform s req.clientFd (.complete exit) ()) hbusy
  set t := (s.perform req.clientFd (.complete exit) ()).setWorker k
    (.resume req false (next ())) with ht
  have hheld : ∀ fd, t.heldCount fd + (if req.clientFd = fd then 1 else 0) = s.heldCount fd := by
    intro fd
    have h1 := hcounts.1 fd
    rwa [Worker.resume_released_holds] at h1
  have hclosing : ∀ fd, t.closingCount fd ≤
      s.closingCount fd + if req.clientFd = fd then 1 else 0 := fun fd =>
    (hcounts.2.1 fd).le.trans (Nat.add_le_add_left (Worker.resume_closes_le req fd (next ())) _)
  have hholding : t.holdingCount + 1 = s.holdingCount := by
    have h1 := hcounts.2.2
    rwa [Worker.resume_released_holding] at h1
  have hfinished : ∀ fd, t.finishedCount fd =
      s.finishedCount fd + if req.clientFd = fd then 1 else 0 := by
    intro fd
    simp only [ht, finishedCount, setWorker, perform, List.map_append, List.map_cons,
      List.map_nil, List.count_append, List.count_singleton, beq_iff_eq]
  have hacc : req.clientFd ∈ s.accepted := h.accepted_of_placed (by omega)
  refine ⟨?_, h.once, ?_, h.unaccepted, ?_, h.parser_ok, ?_, ?_, ?_, ?_⟩
  · intro fd
    have h1 := h.placed fd
    have h2 := hheld fd
    have h3 := hfinished fd
    change s.queuedCount fd + t.heldCount fd + t.finishedCount fd = s.admittedCount fd
    omega
  · intro fd
    have h1 := h.closing fd
    have h2 := hclosing fd
    have h3 := hfinished fd
    omega
  · have h1 := h.inflight
    change (if s.requestQueue.inflight > 0 then s.requestQueue.inflight - 1
      else s.requestQueue.inflight) = t.holdingCount
    rw [if_pos (by omega)]
    omega
  · intro j req' held todo hj
    rcases setWorker_busy hj with ⟨rfl, hw⟩ | ⟨-, hold⟩
    · obtain ⟨rfl, rfl, rfl⟩ := Worker.resume_busy hw
      exact hnext
    · exact h.worker_ok j req' held todo hold
  · intro fd h1 h2
    have h3 := hheld fd
    have h4 := hfinished fd
    exact h.rows_unserved fd (by omega) (by omega)
  · intro fd exit' hmem
    simp only [ht, setWorker, perform, List.mem_append, List.mem_singleton,
      Prod.mk.injEq] at hmem
    rcases hmem with hmem | ⟨rfl, rfl⟩
    · exact h.rows_finished fd exit' hmem
    · exact hrows
  · exact fun fd hnew => perform_log_new h hacc hwait _ _ fd hnew

/-- After `complete` a worker only closes the socket. -/
theorem workerCall_closing_wellFormed (h : s.WellFormed) {k : Fin W} {req : Request}
    {next : Resp (.closeSocket req.clientFd) → Server Unit}
    (hbusy : s.worker k = .busy req false (.call (.closeSocket req.clientFd) next))
    (hnext : (next ()).wp (workerContract req) (fun _ stage => stage.released)
      .completed) :
    ((s.perform req.clientFd (.closeSocket req.clientFd) ()).setWorker k
      (.resume req false (next ()))).WellFormed := by
  obtain ⟨hheld1, hqueued1, hfin1, hadm1, hwait, hparse1⟩ := h.worker_closing hbusy
  have hcounts := setWorker_counts (.resume req false (next ()))
    (worker_perform s req.clientFd (.closeSocket req.clientFd) ()) hbusy
  set t := (s.perform req.clientFd (.closeSocket req.clientFd) ()).setWorker k
    (.resume req false (next ())) with ht
  have hheld : ∀ fd, t.heldCount fd = s.heldCount fd := by
    intro fd
    have h1 := hcounts.1 fd
    rwa [Worker.resume_released_holds] at h1
  have hclosing : ∀ fd, t.closingCount fd ≤ s.closingCount fd := by
    intro fd
    have h1 : t.closingCount fd + (if req.clientFd = fd then 1 else 0) = s.closingCount fd + _ :=
      hcounts.2.1 fd
    have h2 := Worker.resume_closes_le req fd (next ())
    omega
  have hholding : t.holdingCount = s.holdingCount := by
    have h1 := hcounts.2.2
    rwa [Worker.resume_released_holding] at h1
  have hacc : req.clientFd ∈ s.accepted := h.accepted_of_placed (by omega)
  refine ⟨?_, h.once, ?_, h.unaccepted, ?_, h.parser_ok, ?_, ?_, h.rows_finished, ?_⟩
  · intro fd
    rw [hheld]
    exact h.placed fd
  · intro fd
    exact (hclosing fd).trans (h.closing fd)
  · rw [hholding]
    exact h.inflight
  · intro j req' held todo hj
    rcases setWorker_busy hj with ⟨rfl, hw⟩ | ⟨-, hold⟩
    · obtain ⟨rfl, rfl, rfl⟩ := Worker.resume_busy hw
      exact hnext
    · exact h.worker_ok j req' held todo hold
  · intro fd h1 h2
    exact h.rows_unserved fd ((hheld fd).symm.trans h1) h2
  · exact fun fd hnew => perform_log_new h hacc hwait _ _ fd hnew

theorem workerCall_wellFormed (h : s.WellFormed) {k : Fin W} (c : Choice) {req : Request}
    {held : Bool} {e : Eff} {next : Resp e → Server Unit}
    (hbusy : s.worker k = .busy req held (.call e next)) :
    ((s.perform req.clientFd e (s.answer c e)).setWorker k
      (.resume req (held && !e.releases) (next (s.answer c e)))).WellFormed := by
  obtain ⟨hcall, hnext⟩ := h.worker_ok k req held _ hbusy
  cases held with
  | false =>
      change e = .closeSocket req.clientFd at hcall
      subst hcall
      exact workerCall_closing_wellFormed h hbusy (hnext () trivial)
  | true =>
      change e.servingCall req (s.rows req.clientFd) at hcall
      cases e with
      | requeue later =>
          exact workerCall_requeue_wellFormed h hbusy hcall.1.clientFd hcall.2 (hnext true rfl)
      | complete exit => exact workerCall_complete_wellFormed h hbusy hcall (hnext () trivial)
      | record row => exact workerCall_record_wellFormed h hbusy (hnext () trivial)
      | push later => exact hcall.elim
      | _ => exact workerCall_quiet_wellFormed h hbusy _ rfl (hnext _ trivial)

/-! ## Every reachable state -/

theorem step_wellFormed {t : Sys P W} {l : Label P W} (h : s.WellFormed)
    (hstep : s.step cfg l = some t) : t.WellFormed := by
  cases step_cases hstep with
  | accept fd hnew hopen => exact accept_wellFormed h hnew
  | stopAccepting => exact ⟨h.1, h.2, h.3, h.4, h.5, h.6, h.7, h.8, h.9, h.10⟩
  | parserTake k fd rest hidle hq => exact parserTake_wellFormed h hq
  | parserExit k hidle hq hclosed => exact parserExit_wellFormed h hidle
  | parserCall k c fd e next hbusy => exact parserCall_wellFormed h c hbusy
  | workerTake k d request q hidle hpop hreq hbudget hnext =>
      refine workerTake_wellFormed h hidle hpop ?_
      rw [hreq]
      exact cfg.scheduler.getBudget_same request
  | workerExit k hidle hq hclosed hinflight => exact workerExit_wellFormed h hidle
  | workerCall k c req held e next hbusy => exact workerCall_wellFormed h c hbusy
  | closeQueue => exact ⟨h.1, h.2, h.3, h.4, h.5, h.6, h.7, h.8, h.9, h.10⟩

/-- The connections stay accounted for along every run. -/
theorem run_wellFormed {t : Sys P W} {A : Sys P W → Label P W → Prop} (h : s.WellFormed)
    (hrun : RunWhere cfg A s t) : t.WellFormed :=
  hrun.invariant WellFormed h fun _ _ _ hwf _ hstep => step_wellFormed hwf hstep

end Sys

end LinkScheduling
