import LinkScheduling.Framework.Termination
import LinkScheduling.Get.Progress
import LinkScheduling.Put.Service
import LinkScheduling.Metatheory.Shutdown
import LinkScheduling.Metatheory.Tracking

/-!
# The shutdown comes to an end

What the server has left to do is a multiset of jobs, one for every connection that
somebody has to deal with. A step of a parser or of a worker replaces a job by smaller
ones. Once the flag is set the acceptor brings at most one more connection, so the work
runs out, and the state in which nobody can go on is the one in which all threads left.
-/

namespace LinkScheduling

open Framework

/-! ## Jobs -/

/-- What is left to do for a connection: its phase, how often its request may still be put
back, whether it waits, and the rest of the program that deals with it. -/
abbrev Job : Type := ℕ × ℕ × ℕ × Server Unit

def JobLt : Job → Job → Prop :=
  Prod.Lex (· < ·) (Prod.Lex (· < ·) (Prod.Lex (· < ·) Prog.Child))

theorem jobLt_wellFounded : WellFounded JobLt :=
  WellFounded.prod_lex Nat.lt_wfRel.wf (WellFounded.prod_lex Nat.lt_wfRel.wf
    (WellFounded.prod_lex Nat.lt_wfRel.wf Prog.child_wellFounded))

theorem jobLt_phase {phase phase' : ℕ} (h : phase < phase') (x y : ℕ × ℕ × Server Unit) :
    JobLt (phase, x) (phase', y) :=
  Prod.Lex.left _ _ h

theorem jobLt_left {phase left left' : ℕ} (h : left < left') (x y : ℕ × Server Unit) :
    JobLt (phase, left, x) (phase, left', y) :=
  Prod.Lex.right _ (Prod.Lex.left _ _ h)

theorem jobLt_taken (phase left : ℕ) (p q : Server Unit) :
    JobLt (phase, left, 0, p) (phase, left, 1, q) :=
  Prod.Lex.right _ (Prod.Lex.right _ (Prod.Lex.left _ _ Nat.zero_lt_one))

theorem jobLt_call (phase left waits : ℕ) {e : Eff} (next : Resp e → Server Unit) (r : Resp e) :
    JobLt (phase, left, waits, next r) (phase, left, waits, .call e next) :=
  Prod.Lex.right _ (Prod.Lex.right _ (Prod.Lex.right _ ⟨e, next, r, rfl, rfl⟩))

def Parser.jobs : Parser → Multiset Job
  | .busy _ todo => {(2, 0, 0, todo)}
  | _ => 0

/-- `left` tells how often a request may still be put back. -/
def Worker.jobs (left : Request → ℕ) : Worker → Multiset Job
  | .busy req true todo => {(1, left req, 0, todo)}
  | .busy _ false todo => {(0, 0, 0, todo)}
  | _ => 0

def Parser.running : Parser → ℕ
  | .exited => 0
  | _ => 1

def Worker.running : Worker → ℕ
  | .exited => 0
  | _ => 1

theorem Parser.mem_resume_jobs {fd : Fd} {p : Server Unit} {job : Job}
    (h : job ∈ (Parser.resume fd p).jobs) : job = (2, 0, 0, p) := by
  cases p with
  | ret a => simp [resume, jobs] at h
  | call e next => simpa [resume, jobs] using h

theorem Worker.mem_resume_jobs {left : Request → ℕ} {req : Request} {held : Bool}
    {p : Server Unit} {job : Job} (h : job ∈ (Worker.resume req held p).jobs left) :
    job = if held then (1, left req, 0, p) else (0, 0, 0, p) := by
  cases p with
  | ret a => simp [resume, jobs] at h
  | call e next => cases held <;> simpa [resume, jobs] using h

namespace Sys

variable {P W : ℕ} {cfg : Config} {dir : Directory} {s t : Sys P W}

/-- How often the request may still be put back. -/
def roundsLeft (s : Sys P W) (req : Request) : ℕ :=
  max 1 req.totalBytes - requeues (s.log req.clientFd)

/-- The connections no parser has taken yet, and the requests no worker has taken. -/
def waitingJobs (fds : List Fd) : Multiset Job :=
  (fds.map fun _ => (3, 0, 0, .ret ()) : List Job)

def queuedJobs (left : Request → ℕ) (queue : List Request) : Multiset Job :=
  (queue.map fun req => (1, left req, 1, .ret ()) : List Job)

def openJobs (s : Sys P W) : Multiset Job :=
  waitingJobs s.fdQueue.queue + queuedJobs s.roundsLeft s.requestQueue.queue +
    ∑ k, (s.parser k).jobs + ∑ k, (s.worker k).jobs s.roundsLeft

theorem openJobs_eq (s : Sys P W) : s.openJobs =
    waitingJobs s.fdQueue.queue + queuedJobs s.roundsLeft s.requestQueue.queue +
      ∑ k, (s.worker k).jobs s.roundsLeft + ∑ k, (s.parser k).jobs :=
  add_right_comm _ _ _

theorem queuedJobs_append (left : Request → ℕ) (queue : List Request) (req : Request) :
    queuedJobs left (queue ++ [req]) = queuedJobs left queue + {(1, left req, 1, .ret ())} := by
  unfold queuedJobs
  rw [List.map_append, ← Multiset.coe_add]
  rfl

theorem roundsLeft_perform (s : Sys P W) (fd : Fd) {e : Eff} (h : e.requeued = 0) (r : Resp e) :
    (s.perform fd e r).roundsLeft = s.roundsLeft := by
  funext req
  unfold roundsLeft
  rw [log_perform, requeues_append]
  split
  · simp [h]
  · simp

/-- A parser that takes a connection has its program before it. -/
theorem parserTake_work {k : Fin P} {fd : Fd} {rest : List Fd} (hidle : s.parser k = .idle)
    (hq : s.fdQueue.queue = fd :: rest) :
    Relation.CutExpand JobLt
      ({ s with fdQueue := { s.fdQueue with queue := rest } }.setParser k
        (.resume fd (parserClient cfg fd))).openJobs s.openJobs := by
  have hnone : (s.parser k).jobs = 0 := by rw [hidle]; rfl
  have hrest : waitingJobs s.fdQueue.queue + queuedJobs s.roundsLeft s.requestQueue.queue +
        ∑ j, (s.worker j).jobs s.roundsLeft =
      waitingJobs rest + queuedJobs s.roundsLeft s.requestQueue.queue +
        ∑ j, (s.worker j).jobs s.roundsLeft + {(3, 0, 0, .ret ())} := by
    have hwaiting : waitingJobs s.fdQueue.queue = {(3, 0, 0, .ret ())} + waitingJobs rest := by
      rw [hq]
      rfl
    rw [hwaiting]
    ac_rfl
  have hlt : ∀ job ∈ (Parser.resume fd (parserClient cfg fd)).jobs,
      JobLt job (3, 0, 0, .ret ()) := by
    intro job hjob
    rw [Parser.mem_resume_jobs hjob]
    exact jobLt_phase (by decide) _ _
  rw [openJobs_eq, openJobs_eq]
  exact cutExpand_take Parser.jobs s.parser k _ hnone hrest hlt

/-- A parser goes on with its program, or it has put the request into the queue. -/
theorem parserCall_work (hwf : s.WellFormed) {k : Fin P} (c : Choice) {fd : Fd} {e : Eff}
    {next : Resp e → Server Unit} (hbusy : s.parser k = .busy fd (.call e next)) :
    Relation.CutExpand JobLt
      ((s.perform fd e (s.answer c e)).setParser k (.resume fd (next (s.answer c e)))).openJobs
      s.openJobs := by
  obtain ⟨⟨-, hcall⟩, -⟩ := hwf.parser_ok k fd _ hbusy
  have hleft : (s.perform fd e (s.answer c e)).roundsLeft = s.roundsLeft := by
    refine roundsLeft_perform s fd ?_ _
    cases e <;> first | rfl | exact hcall.elim
  -- what a push adds to the queue
  have hqueue : ∃ handed : Multiset Job, (∀ job ∈ handed, job.1 = 1) ∧
      queuedJobs s.roundsLeft (s.perform fd e (s.answer c e)).requestQueue.queue =
        queuedJobs s.roundsLeft s.requestQueue.queue + handed := by
    cases e with
    | push req =>
        cases hclosed : s.requestQueue.closed with
        | true => exact ⟨0, by simp, by simp [perform, Eff.onQueue, RequestQueue.push, hclosed]⟩
        | false =>
            refine ⟨{(1, s.roundsLeft req, 1, .ret ())}, by simp, ?_⟩
            rw [← queuedJobs_append]
            simp [perform, Eff.onQueue, RequestQueue.push, hclosed]
    | requeue req => exact hcall.elim
    | complete exit => exact hcall.elim
    | _ => exact ⟨0, by simp, (add_zero _).symm⟩
  obtain ⟨handed, hphase, hqueue⟩ := hqueue
  have hjob : (s.parser k).jobs = {(2, 0, 0, .call e next)} := by rw [hbusy]; rfl
  have hrest : waitingJobs s.fdQueue.queue +
        queuedJobs s.roundsLeft (s.perform fd e (s.answer c e)).requestQueue.queue +
          ∑ j, (s.worker j).jobs s.roundsLeft =
      waitingJobs s.fdQueue.queue + queuedJobs s.roundsLeft s.requestQueue.queue +
        ∑ j, (s.worker j).jobs s.roundsLeft + handed := by
    rw [hqueue]
    ac_rfl
  have hlt : ∀ job ∈ (Parser.resume fd (next (s.answer c e))).jobs + handed,
      JobLt job (2, 0, 0, .call e next) := by
    intro job hmem
    rcases Multiset.mem_add.mp hmem with hmem | hmem
    · rw [Parser.mem_resume_jobs hmem]
      exact jobLt_call _ _ _ next _
    · obtain ⟨phase, x⟩ := job
      have hone : phase = 1 := hphase _ hmem
      exact jobLt_phase (by rw [hone]; decide) _ _
  rw [openJobs_eq, openJobs_eq]
  change Relation.CutExpand JobLt (_ + queuedJobs (s.perform fd e _).roundsLeft _ +
    ∑ j, (s.worker j).jobs (s.perform fd e _).roundsLeft + _) _
  rw [hleft]
  exact cutExpand_pool Parser.jobs s.parser k _ hjob hrest hlt

theorem queuedJobs_perm {left : Request → ℕ} {queue rest : List Request} {request : Request}
    (h : queue.Perm (request :: rest)) :
    queuedJobs left queue = queuedJobs left rest + {(1, left request, 1, .ret ())} := by
  rw [add_comm]
  exact Multiset.coe_eq_coe.mpr (h.map _)

theorem roundsLeft_same {a b : Request} (h : a.Same b) : s.roundsLeft b = s.roundsLeft a := by
  unfold roundsLeft
  rw [h.totalBytes, h.clientFd]

/-- A worker takes a request that waited. -/
theorem workerTake_work {k : Fin W} {d : ScheduleDecision} {request : Request} {q : RequestQueue}
    (hidle : s.worker k = .idle) (hpop : Popped s.requestQueue request q)
    (hsame : request.Same d.request) :
    Relation.CutExpand JobLt
      ({ s with requestQueue := q }.setWorker k
        (.resume d.request true (workerRound cfg d))).openJobs s.openJobs := by
  have hnone : (s.worker k).jobs s.roundsLeft = 0 := by rw [hidle]; rfl
  have hrest : waitingJobs s.fdQueue.queue + queuedJobs s.roundsLeft s.requestQueue.queue +
        ∑ j, (s.parser j).jobs =
      waitingJobs s.fdQueue.queue + queuedJobs s.roundsLeft q.queue + ∑ j, (s.parser j).jobs +
        {(1, s.roundsLeft request, 1, .ret ())} := by
    rw [queuedJobs_perm hpop.perm]
    ac_rfl
  have hlt : ∀ job ∈ (Worker.resume d.request true (workerRound cfg d)).jobs s.roundsLeft,
      JobLt job (1, s.roundsLeft request, 1, .ret ()) := by
    intro job hjob
    rw [Worker.mem_resume_jobs hjob, if_pos rfl, roundsLeft_same hsame]
    exact jobLt_taken _ _ _ _
  exact cutExpand_take (Worker.jobs s.roundsLeft) s.worker k _ hnone hrest hlt

/-- Nothing but the requests in the queue and with the workers is counted by what is left
of their rounds. -/
theorem openJobs_congr (left : Request → ℕ) (queue : List Request) (pool : Fin W → Worker)
    (hqueue : ∀ req ∈ queue, left req = s.roundsLeft req)
    (hworker : ∀ k req todo, pool k = .busy req true todo → left req = s.roundsLeft req) :
    queuedJobs left queue = queuedJobs s.roundsLeft queue ∧
      ∑ k, (pool k).jobs left = ∑ k, (pool k).jobs s.roundsLeft := by
  constructor
  · unfold queuedJobs
    rw [List.map_congr_left fun req hreq => by rw [hqueue req hreq]]
  · refine Finset.sum_congr rfl fun k _ => ?_
    cases hk : pool k with
    | busy req held todo =>
        cases held with
        | true => simp only [Worker.jobs, hworker k req todo hk]
        | false => rfl
    | _ => rfl

/-- A worker that puts its request back has used up a round. -/
theorem requeue_work (hwf : s.WellFormed) {k : Fin W} (c : Choice) {req later : Request}
    {next : Bool → Server Unit} (hbusy : s.worker k = .busy req true (.call (.requeue later) next))
    (hrounds : requeues (s.log req.clientFd) + 1 < max 1 req.totalBytes) :
    Relation.CutExpand JobLt
      ((s.perform req.clientFd (.requeue later) (s.answer c (.requeue later))).setWorker k
        (.resume req false (next (s.answer c (.requeue later))))).openJobs s.openJobs := by
  obtain ⟨⟨hsame, -⟩, hnext⟩ := hwf.worker_ok k req true _ hbusy
  obtain ⟨a, hret⟩ := requeued_ret (hnext true rfl)
  have hanswer : s.answer c (.requeue later) = true := rfl
  rw [hanswer, hret]
  generalize ht : (s.perform req.clientFd (.requeue later) true).setWorker k
    (.resume req false (.ret a)) = t
  have hlog : ∀ fd, requeues (t.log fd) =
      requeues (s.log fd) + if req.clientFd = fd then 1 else 0 := by
    intro fd
    subst ht
    change requeues ((s.perform req.clientFd (.requeue later) true).log fd) = _
    rw [log_perform, requeues_append]
    split <;> rfl
  have hother : ∀ r : Request, r.clientFd ≠ req.clientFd → t.roundsLeft r = s.roundsLeft r := by
    intro r hr
    unfold roundsLeft
    rw [hlog, if_neg (Ne.symm hr), add_zero]
  have hpool : t.worker = Function.update s.worker k .idle := by
    subst ht
    rfl
  -- nobody else has the request, so only its own job changes
  obtain ⟨hqueued, hheld⟩ := openJobs_congr t.roundsLeft s.requestQueue.queue t.worker
    (fun r hr => hother r (notMem_queue_of_count (hwf.worker_held hbusy).2.1 hr)) (by
      intro j r todo hj
      rw [hpool] at hj
      rcases setWorker_busy (s := s) hj with ⟨-, hidle⟩ | ⟨hjk, hj⟩
      · cases hidle
      · exact hother r fun hfd => hjk (hwf.worker_unique hj hbusy hfd))
  have hjob : (s.worker k).jobs s.roundsLeft =
      {(1, s.roundsLeft req, 0, .call (.requeue later) next)} := by rw [hbusy]; rfl
  have hqueue : queuedJobs t.roundsLeft t.requestQueue.queue =
      queuedJobs s.roundsLeft s.requestQueue.queue + {(1, t.roundsLeft later, 1, .ret ())} := by
    have happend : t.requestQueue.queue = s.requestQueue.queue ++ [later] := by
      subst ht
      rfl
    rw [happend, queuedJobs_append, hqueued]
  have hrest : waitingJobs s.fdQueue.queue + queuedJobs t.roundsLeft t.requestQueue.queue +
        ∑ j, (s.parser j).jobs =
      waitingJobs s.fdQueue.queue + queuedJobs s.roundsLeft s.requestQueue.queue +
        ∑ j, (s.parser j).jobs + {(1, t.roundsLeft later, 1, .ret ())} := by
    rw [hqueue]
    ac_rfl
  have hlt : ∀ job ∈ Worker.jobs s.roundsLeft .idle + {(1, t.roundsLeft later, 1, .ret ())},
      JobLt job (1, s.roundsLeft req, 0, .call (.requeue later) next) := by
    intro job hjob
    have hmem : job = (1, t.roundsLeft later, 1, .ret ()) := by simpa [Worker.jobs] using hjob
    rw [hmem, roundsLeft_same hsame]
    refine jobLt_left ?_ _ _
    unfold roundsLeft
    rw [hlog, if_pos rfl]
    omega
  have hwork : t.openJobs = waitingJobs s.fdQueue.queue +
      queuedJobs t.roundsLeft t.requestQueue.queue + ∑ j, (s.parser j).jobs +
        ∑ j, (Function.update s.worker k .idle j).jobs s.roundsLeft := by
    rw [← hpool, ← hheld]
    subst ht
    rfl
  rw [hwork]
  exact cutExpand_pool (Worker.jobs s.roundsLeft) s.worker k .idle hjob hrest hlt

/-- A worker goes on with its program, lets go of its request or puts it back. -/
theorem workerCall_work (hwf : s.WellFormed) {k : Fin W} (c : Choice) {req : Request}
    {held : Bool} {e : Eff} {next : Resp e → Server Unit}
    (hbusy : s.worker k = .busy req held (.call e next))
    (hrounds : ∀ later, e = .requeue later →
      requeues (s.log req.clientFd) + 1 < max 1 req.totalBytes) :
    Relation.CutExpand JobLt
      ((s.perform req.clientFd e (s.answer c e)).setWorker k
        (.resume req (held && !e.releases) (next (s.answer c e)))).openJobs s.openJobs := by
  obtain ⟨hcall, -⟩ := hwf.worker_ok k req held _ hbusy
  by_cases hback : e.requeued = 0
  · have hqueue : (s.perform req.clientFd e (s.answer c e)).requestQueue.queue =
        s.requestQueue.queue := by
      cases e with
      | push later => cases held <;> first | exact hcall.elim | cases hcall
      | requeue later => cases hback
      | _ => rfl
    have hleft := roundsLeft_perform s req.clientFd hback (s.answer c e)
    have hjob : (s.worker k).jobs s.roundsLeft =
        {if held then (1, s.roundsLeft req, 0, .call e next) else (0, 0, 0, .call e next)} := by
      rw [hbusy]
      cases held <;> rfl
    have hlt : ∀ job ∈ (Worker.resume req (held && !e.releases) (next (s.answer c e))).jobs
          s.roundsLeft + 0,
        JobLt job (if held then (1, s.roundsLeft req, 0, .call e next)
          else (0, 0, 0, .call e next)) := by
      intro job hmem
      rw [add_zero] at hmem
      rw [Worker.mem_resume_jobs hmem]
      cases held with
      | false => exact jobLt_call _ _ _ next _
      | true =>
          cases hrel : e.releases with
          | true => exact jobLt_phase (by decide) _ _
          | false => exact jobLt_call _ _ _ next _
    unfold openJobs
    change Relation.CutExpand JobLt (_ + queuedJobs (s.perform req.clientFd e (s.answer c e)).roundsLeft
      (s.perform req.clientFd e (s.answer c e)).requestQueue.queue + _ +
      ∑ j, (Function.update s.worker k _ j).jobs
        (s.perform req.clientFd e (s.answer c e)).roundsLeft) _
    rw [hleft, hqueue]
    exact cutExpand_pool (Worker.jobs s.roundsLeft) s.worker k _ hjob (add_zero _).symm hlt
  · cases e with
    | requeue later =>
        cases held with
        | true => exact requeue_work hwf c hbusy (hrounds later rfl)
        | false => cases hcall
    | _ => exact absurd rfl hback

/-! ## What a step leaves to do -/

/-- The threads that run, and the queue while it is open. -/
def running (s : Sys P W) : ℕ :=
  ∑ k, (s.parser k).running + ∑ k, (s.worker k).running +
    if s.requestQueue.closed then 0 else 1

def toDo (s : Sys P W) : Multiset Job × ℕ := (s.openJobs, s.running)

def ToDoLt : Multiset Job × ℕ → Multiset Job × ℕ → Prop :=
  Prod.Lex (Relation.CutExpand JobLt) (· < ·)

theorem toDoLt_wellFounded : WellFounded ToDoLt :=
  WellFounded.prod_lex jobLt_wellFounded.cutExpand Nat.lt_wfRel.wf

theorem toDoLt_of_running (hwork : t.openJobs = s.openJobs) (hrunning : t.running < s.running) :
    ToDoLt t.toDo s.toDo := by
  unfold toDo
  rw [hwork]
  exact Prod.Lex.right _ hrunning

theorem parserExit_toDo {k : Fin P} (hidle : s.parser k = .idle) :
    ToDoLt (s.setParser k .exited).toDo s.toDo := by
  have hjobs := sum_update_add Parser.jobs s.parser k .exited
  have hrunning := sum_update_add Parser.running s.parser k .exited
  rw [hidle] at hjobs hrunning
  refine toDoLt_of_running ?_ ?_
  · rw [openJobs_eq, openJobs_eq]
    exact congrArg (waitingJobs s.fdQueue.queue + queuedJobs s.roundsLeft s.requestQueue.queue +
      ∑ j, (s.worker j).jobs s.roundsLeft + ·) (add_right_cancel hjobs)
  · change ∑ j, (Function.update s.parser k .exited j).running + 1 =
      ∑ j, (s.parser j).running + 0 at hrunning
    change ∑ j, (Function.update s.parser k .exited j).running + ∑ j, (s.worker j).running +
      (if s.requestQueue.closed then 0 else 1) < s.running
    unfold running
    omega

theorem workerExit_toDo {k : Fin W} (hidle : s.worker k = .idle) :
    ToDoLt (s.setWorker k .exited).toDo s.toDo := by
  have hjobs := sum_update_add (Worker.jobs s.roundsLeft) s.worker k .exited
  have hrunning := sum_update_add Worker.running s.worker k .exited
  rw [hidle] at hjobs hrunning
  refine toDoLt_of_running ?_ ?_
  · exact congrArg (waitingJobs s.fdQueue.queue + queuedJobs s.roundsLeft s.requestQueue.queue +
      ∑ j, (s.parser j).jobs + ·) (add_right_cancel hjobs)
  · change ∑ j, (Function.update s.worker k .exited j).running + 1 =
      ∑ j, (s.worker j).running + 0 at hrunning
    change ∑ j, (s.parser j).running + ∑ j, (Function.update s.worker k .exited j).running +
      (if s.requestQueue.closed then 0 else 1) < s.running
    unfold running
    omega

/-- A step of the server other than taking in connections leaves less to do, unless it closes
a closed queue. -/
theorem step_toDo (hwf : s.WellFormed) {l : Label P W} (hstep : s.step cfg l = some t)
    (hrounds : ∀ req ∈ t.requestQueue.queue, requeues (t.log req.clientFd) < max 1 req.totalBytes)
    (haccept : ∀ fd, l ≠ .accept fd) (hstop : l ≠ .stopAccepting)
    (hclose : l = .closeQueue → s.requestQueue.closed = false) : ToDoLt t.toDo s.toDo := by
  cases step_cases hstep with
  | accept fd hnew hopen => exact absurd rfl (haccept fd)
  | stopAccepting => exact absurd rfl hstop
  | parserTake k fd rest hidle hq => exact Prod.Lex.left _ _ (parserTake_work hidle hq)
  | parserExit k hidle hq hclosed => exact parserExit_toDo hidle
  | parserCall k c fd e next hbusy => exact Prod.Lex.left _ _ (parserCall_work hwf c hbusy)
  | workerTake k d request q hidle hpop hreq hbudget hnext =>
      refine Prod.Lex.left _ _ (workerTake_work hidle hpop ?_)
      rw [hreq]
      exact cfg.scheduler.getBudget_same request
  | workerExit k hidle hq hclosed hinflight => exact workerExit_toDo hidle
  | workerCall k c req held e next hbusy =>
      refine Prod.Lex.left _ _ (workerCall_work hwf c hbusy ?_)
      rintro later rfl
      have hcall := (hwf.worker_ok k req held _ hbusy).1
      cases held with
      | false => cases hcall
      | true =>
          obtain ⟨hsame, -⟩ := hcall
          have hlater := hrounds later (by simp [setWorker, perform, Eff.onQueue,
            RequestQueue.requeue])
          rw [hsame.clientFd, hsame.totalBytes] at hlater
          simpa [setWorker, perform, Eff.requeued] using hlater
  | closeQueue =>
      refine toDoLt_of_running rfl ?_
      have hopen := hclose rfl
      simp only [running, RequestQueue.close, hopen, Bool.false_eq_true, ↓reduceIte]
      omega

/-! ## What a run keeps to -/

/-- Under round robin the selections of a run find their files long enough. -/
abbrev SelectsAheadAll (cfg : Config) (s : Sys P W) (l : Label P W) : Prop :=
  ∀ fd, SelectsAheadFor cfg fd s l

/-- An admitted request is put back fewer times than it has bytes. -/
theorem admitted_rounds (hrun : RunWhere cfg (SelectsAheadAll cfg) (init P W dir) t)
    {request : Request} (hmem : request ∈ t.admitted) :
    requeues (t.log request.clientFd) < max 1 request.totalBytes := by
  obtain ⟨before, after, -, hadm⟩ := (run_tracked hrun hmem).admitted
  rcases hadm.op with hget | hput
  · exact (run_inTime hget (hrun.mono fun _ _ h => h _) hmem).rounds
  · exact (run_putLife hput hrun hmem).always.rounds

/-- A request that is back in the queue may be put back once more. -/
theorem run_rounds (hrun : RunWhere cfg (SelectsAheadAll cfg) (init P W dir) t) :
    ∀ req ∈ t.requestQueue.queue, requeues (t.log req.clientFd) < max 1 req.totalBytes := by
  intro req hreq
  have hwf := run_wellFormed (init_wellFormed dir) hrun
  have hadmitted : 0 < t.admittedCount req.clientFd := by
    have hqueued : 0 < t.queuedCount req.clientFd :=
      List.count_pos_iff.mpr (List.mem_map.mpr ⟨req, hreq, rfl⟩)
    have hplaced := hwf.placed req.clientFd
    omega
  obtain ⟨request, hmem, hfd⟩ := List.mem_map.mp (List.count_pos_iff.mp hadmitted)
  have hsame : request.Same req := ((Lifecycle.run_holdsFor trackLife_soundFor
    (hrun.mono fun _ _ _ _ _ => trivial) hmem).queued req hreq hfd.symm).1
  rw [hsame.clientFd, hsame.totalBytes]
  exact admitted_rounds hrun hmem

end Sys

/-! ## The process -/

/-- How far the acceptor is from its end once the flag is set. -/
def Acceptor.toLeave : Acceptor → ℕ
  | .waiting => 5
  | .accepted _ => 4
  | .refused _ => 3
  | .polling => 2
  | .leaving => 1
  | .exited => 0

namespace Process

variable {P W : ℕ} {cfg : Config} {dir : Directory} {s t : Process P W}

/-- What a step of the process does to the server. -/
theorem step_server (h : s.Inv cfg dir) {l : Label P W} (hstep : s.step cfg l = some t) :
    t.server = s.server ∨ ∃ l', s.server.step cfg l' = some t.server ∧
      (l = .thread l' ∨ s.server.callOf l' = none) := by
  cases l with
  | push =>
      simp only [step] at hstep
      split at hstep
      · rename_i fd hacc
        obtain ⟨hinv, hpushed⟩ := push_inv h hacc
        rw [hpushed] at hstep
        cases hstep
        have hnew : fd ∉ s.server.accepted := by
          have hdistinct := h.distinct
          rw [h.accepted, hacc, Acceptor.holds, List.nodup_append] at hdistinct
          exact fun hmem => hdistinct.2.2 fd hmem fd List.mem_cons_self rfl
        have hopen : s.server.fdQueue.closed = false := by
          unfold FdQueue.push at hpushed
          split at hpushed
          · cases hpushed
          · rename_i hopen
            exact Bool.not_eq_true _ ▸ hopen
        exact Or.inr ⟨.accept fd, by simp [Sys.step, hnew, hopen], Or.inr rfl⟩
      · cases hstep
  | refuse =>
      simp only [step] at hstep
      split at hstep
      · rename_i fd hrefused
        exact absurd hrefused (h.pushed fd)
      · cases hstep
  | leave =>
      simp only [step, Option.ite_none_right_eq_some, Option.some.injEq] at hstep
      obtain ⟨-, rfl⟩ := hstep
      exact Or.inr ⟨.stopAccepting, rfl, Or.inr rfl⟩
  | thread l =>
      simp only [step, Option.ite_none_right_eq_some, Option.map_eq_some_iff] at hstep
      obtain ⟨-, server, hserver, rfl⟩ := hstep
      exact Or.inr ⟨l, hserver, Or.inl rfl⟩
  | signal =>
      cases hstep
      exact Or.inl rfl
  | testFlag =>
      simp only [step, Option.ite_none_right_eq_some, Option.some.injEq] at hstep
      obtain ⟨-, rfl⟩ := hstep
      exact Or.inl rfl
  | retry =>
      simp only [step, Option.ite_none_right_eq_some, Option.some.injEq] at hstep
      obtain ⟨-, rfl⟩ := hstep
      exact Or.inl rfl
  | giveUp =>
      simp only [step, Option.ite_none_right_eq_some, Option.some.injEq] at hstep
      obtain ⟨-, rfl⟩ := hstep
      exact Or.inl rfl
  | accept fd =>
      simp only [step, Option.ite_none_right_eq_some, Option.some.injEq] at hstep
      obtain ⟨-, rfl⟩ := hstep
      exact Or.inl rfl

/-- The threads select ahead in this step. -/
def SelectsAhead (cfg : Config) (s : Process P W) (l : Label P W) : Prop :=
  ∀ l', l = .thread l' → Sys.SelectsAheadAll cfg s.server l'

/-- The server of a run of the process makes a run. -/
theorem run_server (hrun : Run (step cfg) (SelectsAhead cfg) (start P W dir) t) :
    t.Inv cfg dir ∧ Sys.RunWhere cfg (Sys.SelectsAheadAll cfg) (.init P W dir) t.server := by
  refine hrun.invariant (fun t => t.Inv cfg dir ∧
    Sys.RunWhere cfg (Sys.SelectsAheadAll cfg) (.init P W dir) t.server)
    ⟨start_inv, .refl _⟩ ?_
  rintro u l v ⟨hinv, hserver⟩ hahead hstep
  refine ⟨step_inv hinv hstep, ?_⟩
  rcases step_server hinv hstep with hsame | ⟨l', hl', hlabel⟩
  · rwa [hsame]
  · refine .tail hserver ?_ hl'
    rcases hlabel with rfl | hcall
    · exact hahead l' rfl
    · intro fd call hcall'
      rw [hcall] at hcall'
      cases hcall'

def rank (s : Process P W) : ℕ × Multiset Job × ℕ := (s.acceptor.toLeave, s.server.toDo)

def RankLt : ℕ × Multiset Job × ℕ → ℕ × Multiset Job × ℕ → Prop :=
  Prod.Lex (· < ·) Sys.ToDoLt

theorem rankLt_wellFounded : WellFounded RankLt :=
  WellFounded.prod_lex Nat.lt_wfRel.wf Sys.toDoLt_wellFounded

theorem rankLt_of_acceptor (h : t.acceptor.toLeave < s.acceptor.toLeave) : RankLt t.rank s.rank :=
  Prod.Lex.left _ _ h

/-- Every step works but a signal and a `close` of the closed queue. -/
def Works (s : Process P W) : Label P W → Prop
  | .signal => False
  | .thread .closeQueue => s.server.requestQueue.closed = false
  | _ => True

/-- Once the flag is set, a step that works lowers the rank, and it stays set. -/
theorem step_rank (hflag : s.shutdownFlag = true) (hwf : s.server.WellFormed) {l : Label P W}
    (hstep : s.step cfg l = some t)
    (hrounds : ∀ req ∈ t.server.requestQueue.queue,
      requeues (t.server.log req.clientFd) < max 1 req.totalBytes) :
    t.shutdownFlag = true ∧ (Works s l → RankLt t.rank s.rank) ∧ (¬ Works s l → t = s) := by
  cases l with
  | signal =>
      cases hstep
      exact ⟨rfl, False.elim, fun _ => by rw [← hflag]⟩
  | testFlag =>
      simp only [step, hflag, ↓reduceIte, Option.ite_none_right_eq_some, Option.some.injEq]
        at hstep
      obtain ⟨hpolling, rfl⟩ := hstep
      exact ⟨rfl, fun _ => rankLt_of_acceptor (by simp [hpolling, Acceptor.toLeave]),
        fun h => absurd trivial h⟩
  | retry =>
      simp only [step, Option.ite_none_right_eq_some, Option.some.injEq] at hstep
      obtain ⟨hwaiting, rfl⟩ := hstep
      exact ⟨hflag, fun _ => rankLt_of_acceptor (by simp [hwaiting, Acceptor.toLeave]),
        fun h => absurd trivial h⟩
  | giveUp =>
      simp only [step, Option.ite_none_right_eq_some, Option.some.injEq] at hstep
      obtain ⟨⟨hwaiting, -⟩, rfl⟩ := hstep
      exact ⟨hflag, fun _ => rankLt_of_acceptor (by simp [hwaiting, Acceptor.toLeave]),
        fun h => absurd trivial h⟩
  | accept fd =>
      simp only [step, Option.ite_none_right_eq_some, Option.some.injEq] at hstep
      obtain ⟨⟨hwaiting, -⟩, rfl⟩ := hstep
      exact ⟨hflag, fun _ => rankLt_of_acceptor (by simp [hwaiting, Acceptor.toLeave]),
        fun h => absurd trivial h⟩
  | push =>
      simp only [step] at hstep
      split at hstep
      · rename_i fd hacc
        cases hpushed : (s.server.fdQueue.push fd).1 <;> rw [hpushed] at hstep <;> cases hstep
        · exact ⟨hflag, fun _ => rankLt_of_acceptor (by simp [hacc, Acceptor.toLeave]),
            fun h => absurd trivial h⟩
        · exact ⟨hflag, fun _ => rankLt_of_acceptor (by simp [hacc, Acceptor.toLeave]),
            fun h => absurd trivial h⟩
      · cases hstep
  | refuse =>
      simp only [step] at hstep
      split at hstep
      · rename_i fd hrefused
        cases hstep
        exact ⟨hflag, fun _ => rankLt_of_acceptor (by simp [hrefused, Acceptor.toLeave]),
          fun h => absurd trivial h⟩
      · cases hstep
  | leave =>
      simp only [step, Option.ite_none_right_eq_some, Option.some.injEq] at hstep
      obtain ⟨hleaving, rfl⟩ := hstep
      exact ⟨hflag, fun _ => rankLt_of_acceptor (by simp [hleaving, Acceptor.toLeave]),
        fun h => absurd trivial h⟩
  | thread l =>
      simp only [step, Option.ite_none_right_eq_some, Option.map_eq_some_iff] at hstep
      obtain ⟨hpermits, server, hserver, rfl⟩ := hstep
      have haccept : ∀ fd, l ≠ .accept fd := by
        rintro fd rfl
        cases hpermits
      have hstop : l ≠ .stopAccepting := by
        rintro rfl
        cases hpermits
      refine ⟨hflag, fun hworks => Prod.Lex.right _ ?_, fun hidle => ?_⟩
      · refine Sys.step_toDo hwf hserver hrounds haccept hstop ?_
        rintro rfl
        exact hworks
      · cases l with
        | closeQueue =>
            have hclosed : s.server.requestQueue.closed = true := by simpa [Works] using hidle
            cases hserver
            simp [RequestQueue.close, ← hclosed]
        | _ => exact absurd trivial hidle

/-- The acceptor leaves with the `FdQueue` closed. -/
theorem step_exited {l : Label P W} (hstep : s.step cfg l = some t)
    (h : s.acceptor = .exited → s.server.fdQueue.closed = true) (hexited : t.acceptor = .exited) :
    t.server.fdQueue.closed = true := by
  cases l with
  | signal =>
      cases hstep
      exact h hexited
  | leave =>
      simp only [step, Option.ite_none_right_eq_some, Option.some.injEq] at hstep
      obtain ⟨-, rfl⟩ := hstep
      rfl
  | thread l =>
      simp only [step, Option.ite_none_right_eq_some, Option.map_eq_some_iff] at hstep
      obtain ⟨hpermits, server, hserver, rfl⟩ := hstep
      rw [← h hexited]
      exact (thread_fdQueue hpermits hserver).2
  | push =>
      simp only [step] at hstep
      split at hstep
      · cases hpushed : (s.server.fdQueue.push _).1 <;> rw [hpushed] at hstep <;> cases hstep <;>
          cases hexited
      · cases hstep
  | refuse =>
      simp only [step] at hstep
      split at hstep
      · cases hstep
        cases hexited
      · cases hstep
  | testFlag =>
      simp only [step, Option.ite_none_right_eq_some, Option.some.injEq] at hstep
      obtain ⟨-, rfl⟩ := hstep
      simp only at hexited
      split at hexited <;> cases hexited
  | _ =>
      simp only [step, Option.ite_none_right_eq_some, Option.some.injEq] at hstep
      obtain ⟨-, rfl⟩ := hstep
      cases hexited

/-- Where no step works any more, everybody has left. -/
theorem rest_allExited (hwf : s.server.WellFormed) (hsockets : s.server.Sockets)
    (hclosed : s.acceptor = .exited → s.server.fdQueue.closed = true)
    (hrest : ∀ l, Works s l → s.step cfg l = none) : s.AllExited := by
  have hacceptor : s.acceptor = .exited := by
    cases hacc : s.acceptor with
    | polling => simpa [step, hacc] using hrest .testFlag trivial
    | waiting => simpa [step, hacc] using hrest .retry trivial
    | accepted fd => simpa [step, hacc] using hrest .push trivial
    | refused fd => simpa [step, hacc] using hrest .refuse trivial
    | leaving => simpa [step, hacc] using hrest .leave trivial
    | exited => rfl
  have hthread : ∀ l, Works s (.thread l) → s.permits l = true → s.server.step cfg l = none := by
    intro l hl hpermits
    have hnone := hrest (.thread l) hl
    simpa [step, hpermits] using hnone
  have hparser : ∀ k, s.server.parser k = .exited := by
    intro k
    cases hk : s.server.parser k with
    | exited => rfl
    | busy fd todo =>
        rcases (hsockets.parser_ok k fd todo hk).cases with ⟨hmine, -⟩ | ⟨-, e, next, rfl⟩
        · cases hmine
        · have hnone := hthread (.parserCall k {}) trivial rfl
          simp [Sys.step, hk] at hnone
    | idle =>
        cases hq : s.server.fdQueue.queue with
        | nil =>
            have hnone := hthread (.parserExit k) trivial rfl
            simp [Sys.step, hk, FdQueue.waitPop, FdQueue.waitPredicate, hq, hclosed hacceptor]
              at hnone
        | cons fd rest =>
            have hnone := hthread (.parserTake k) trivial rfl
            simp [Sys.step, hk, FdQueue.waitPop, hq] at hnone
  have hqueue : s.server.requestQueue.closed = true := by
    by_contra hopen
    have hnone := hthread .closeQueue (by simpa [Works] using hopen)
      (by simp [permits, acceptorJoined, hacceptor, parsersJoined, hparser, Parser.isExited])
    simp [Sys.step] at hnone
  have hworker : ∀ k req held todo, s.server.worker k ≠ .busy req held todo := by
    intro k req held todo hk
    rcases (hsockets.worker_ok k req held todo hk).cases with ⟨hmine, -⟩ | ⟨-, e, next, rfl⟩
    · cases hmine
    · have hnone := hthread (.workerCall k {}) trivial rfl
      simp [Sys.step, hk] at hnone
  refine ⟨hacceptor, hparser, fun k => ?_⟩
  have hinflight : s.server.requestQueue.inflight = 0 := by
    rw [hwf.inflight]
    refine Finset.sum_eq_zero fun j _ => ?_
    cases hj : s.server.worker j with
    | busy req held todo => exact absurd hj (hworker j req held todo)
    | _ => rfl
  cases hk : s.server.worker k with
  | exited => rfl
  | busy req held todo => exact absurd hk (hworker k req held todo)
  | idle =>
      cases hnext : cfg.scheduler.next s.server.requestQueue with
      | none =>
          have hnone := hthread (.workerExit k) trivial rfl
          simp [Sys.step, hk, hnext, RequestQueue.waitPredicate, hqueue, hinflight] at hnone
      | some popped =>
          have hnone := hthread (.workerTake k) trivial rfl
          simp [Sys.step, hk, hnext] at hnone

/-- Where everybody has left, no step works. -/
theorem allExited_rest (h : s.AllExited) (hclosed : s.server.requestQueue.closed = true)
    (l : Label P W) (hworks : Works s l) : s.step cfg l = none := by
  have hacceptor := h.acceptor
  cases l with
  | signal => exact hworks.elim
  | thread l =>
      simp only [step, ite_eq_right_iff, Option.map_eq_none_iff]
      intro hpermits
      cases l with
      | accept fd => cases hpermits
      | stopAccepting => cases hpermits
      | closeQueue =>
          rw [Works, hclosed] at hworks
          cases hworks
      | parserTake k => simp [Sys.step, h.parser]
      | parserExit k => simp [Sys.step, h.parser]
      | parserCall k c => simp [Sys.step, h.parser]
      | workerTake k => simp [Sys.step, h.worker]
      | workerExit k => simp [Sys.step, h.worker]
      | workerCall k c => simp [Sys.step, h.worker]
  | _ => simp [step, hacceptor]

/-- What the shutdown leaves behind. -/
structure ShutDown (s : Process P W) : Prop where
  exited : s.AllExited
  /-- Every request that was admitted came to one end, with a row exactly if it was completed. -/
  finished : ∀ request ∈ s.server.admitted, ∃ exit,
    (request.clientFd, exit) ∈ s.server.finished ∧
      s.server.finishedCount request.clientFd = 1 ∧
      s.server.rows request.clientFd = if exit = .completed then 1 else 0
  closed : ∀ fd ∈ s.accepted, closes fd (s.server.log fd) = 1

theorem shutDown_of_exited (hP : 0 < P) (hW : 0 < W) (hreach : Reachable cfg dir s)
    (hexited : s.AllExited) : s.ShutDown := by
  have hinv := reachable_inv hreach
  have hunowned := Sys.run_unowned hP hW hinv.server hexited.parser hexited.worker
  refine ⟨hexited, fun request hmem => ?_, fun fd hfd => ?_⟩
  · have hwf := Sys.run_wellFormed (Sys.init_wellFormed dir) hinv.server
    have hplace := hwf.place hmem
    have hqueued : s.server.queuedCount request.clientFd = 0 := by
      rw [Sys.queuedCount, (Sys.run_drained hinv.server (hexited.worker ⟨0, hW⟩)).empty]
      rfl
    have hheld : s.server.heldCount request.clientFd = 0 :=
      Finset.sum_eq_zero fun k _ => by rw [hexited.worker k]; rfl
    have hone : s.server.finishedCount request.clientFd = 1 := by omega
    obtain ⟨⟨fd, exit⟩, hexit, hfd⟩ := List.mem_map.mp (List.count_pos_iff.mp
      (hone ▸ Nat.one_pos : 0 < s.server.finishedCount request.clientFd))
    change fd = request.clientFd at hfd
    subst hfd
    exact ⟨exit, hexit, hone, hwf.rows_finished _ exit hexit⟩
  · have howned := (Sys.run_sockets (Sys.init_sockets dir) hinv.server).owned fd
    have hmem : fd ∈ s.server.accepted := by
      rw [hinv.accepted, hexited.acceptor] at hfd
      simpa [Acceptor.holds] using hfd
    rw [hunowned fd, if_pos hmem] at howned
    omega

theorem shutDown_of_rest (hP : 0 < P) (hW : 0 < W) (hreach : Reachable cfg dir s)
    (hrest : ∀ l, Works s l → s.step cfg l = none) : s.ShutDown := by
  have hserver := (reachable_inv hreach).server
  have hclosed : s.acceptor = .exited → s.server.fdQueue.closed = true :=
    hreach.invariant (fun s => s.acceptor = .exited → s.server.fdQueue.closed = true)
      (fun h => by cases h) fun _ _ _ h _ hstep => step_exited hstep h
  exact shutDown_of_exited hP hW hreach (rest_allExited
    (Sys.run_wellFormed (Sys.init_wellFormed dir) hserver)
    (Sys.run_sockets (Sys.init_sockets dir) hserver) hclosed hrest)

/-- **The shutdown comes to an end.** After the signal only finitely many steps work, however
the threads interleave and whatever the clients and the storage do, as long as a selection
under round robin finds its file long enough. A process that never rests while somebody can go
on reaches the state in which nobody can; there all threads have exited, every admitted request
came to one end and every accepted socket was closed once. -/
theorem shutdown_ends (hP : 0 < P) (hW : 0 < W) (b : Behaviour (step (P := P) (W := W) cfg))
    (hinit : b.state 0 = start P W dir)
    (hahead : ∀ n, SelectsAhead cfg (b.state n) (b.label n)) {n₀ : ℕ}
    (hflag : (b.state n₀).shutdownFlag = true) :
    (∃ n, n₀ ≤ n ∧ ∀ m, n ≤ m → ¬ Works (b.state m) (b.label m)) ∧
    (∀ n, (∀ l, Works (b.state n) l → (b.state n).step cfg l = none) → (b.state n).ShutDown) ∧
    ((∀ n, (∃ l, Works (b.state n) l ∧ ((b.state n).step cfg l).isSome = true) →
        ∃ m, n ≤ m ∧ Works (b.state m) (b.label m)) →
      ∃ n, n₀ ≤ n ∧ (b.state n).ShutDown) := by
  have hruns : ∀ n, Run (step cfg) (SelectsAhead cfg) (start P W dir) (b.state n) := by
    intro n
    rw [← hinit]
    exact b.run hahead n
  have hwf : ∀ n, (b.state n).server.WellFormed := fun n =>
    Sys.run_wellFormed (Sys.init_wellFormed dir) (run_server (hruns n)).1.server
  have hset : ∀ d, (b.state (n₀ + d)).shutdownFlag = true := by
    intro d
    induction d with
    | zero => exact hflag
    | succ d ih =>
        exact (step_rank ih (hwf _) (b.next _) (Sys.run_rounds (run_server (hruns _)).2)).1
  have hrank : ∀ n, n₀ ≤ n →
      (Works (b.state n) (b.label n) → RankLt (b.state (n + 1)).rank (b.state n).rank) ∧
        (¬ Works (b.state n) (b.label n) → b.state (n + 1) = b.state n) := by
    intro n hn
    obtain ⟨d, rfl⟩ := Nat.exists_eq_add_of_le hn
    exact (step_rank (hset d) (hwf _) (b.next _) (Sys.run_rounds (run_server (hruns _)).2)).2
  have hquiet := b.quiesces rankLt_wellFounded rank Works n₀ (fun n hn => (hrank n hn).1)
    fun n hn h => congrArg rank ((hrank n hn).2 h)
  have hdone : ∀ n, (∀ l, Works (b.state n) l → (b.state n).step cfg l = none) →
      (b.state n).ShutDown := by
    intro n hrest
    exact shutDown_of_rest hP hW ((hruns n).mono fun _ _ _ => trivial) hrest
  refine ⟨hquiet, hdone, fun hbusy => ?_⟩
  obtain ⟨n, hn, hrest⟩ := b.comes_to_rest hquiet hbusy
  exact ⟨n, hn, hdone n hrest⟩

theorem shutdown_ends_late_signal :
    ∃ b : Behaviour (step (P := 1) (W := 1) (plainConfig .DRR 2 (by decide) (by decide))),
      (b.state 17).shutdownFlag = true ∧
      (∃ n, 17 ≤ n ∧ ∀ m, n ≤ m → ¬ Works (b.state m) (b.label m)) ∧
      (b.state lateSignal.length).ShutDown := by
  have htrue : ∀ (s : Process 1 1) (l : Label 1 1), (fun _ _ => true) s l = true →
      (fun _ _ => True) s l := fun _ _ _ => trivial
  have hahead : ∀ (s : Process 1 1) (l : Label 1 1),
      SelectsAhead (plainConfig .DRR 2 (by decide) (by decide)) s l :=
    fun s l l' _ fd call _ hrr => absurd hrr (by decide)
  obtain ⟨u, hu, hcheck⟩ := (Option.any_eq_true _ _).mp
    (show (script (step (plainConfig .DRR 2 (by decide) (by decide))) (fun _ _ => true)
      (start 1 1 (oneFile (ascii "d/a") ⟨ascii "a\nb\n", by decide⟩)) lateSignal).any
        (fun t => t.acceptor = .exited && t.parsersJoined && (t.server.worker 0).isExited &&
          t.server.requestQueue.closed && t.shutdownFlag) = true by decide)
  simp only [Bool.and_eq_true, decide_eq_true_eq, parsersJoined] at hcheck
  obtain ⟨⟨⟨⟨hacceptor, hparsers⟩, hworker⟩, hclosed⟩, hset⟩ := hcheck
  have hexited : u.AllExited := by
    refine ⟨hacceptor, fun k => Parser.isExited_iff.mp (hparsers k), fun k => ?_⟩
    rw [Subsingleton.elim k 0]
    exact Worker.isExited_iff.mp hworker
  obtain ⟨b, hinit, -, hstate, -⟩ := Behaviour.exists_of_script (l := .signal) hu htrue
    (by rw [step, ← hset]) trivial
  have hflag : (script (step (plainConfig .DRR 2 (by decide) (by decide))) (fun _ _ => true)
      (start 1 1 (oneFile (ascii "d/a") ⟨ascii "a\nb\n", by decide⟩)) (lateSignal.take 17)).any
        (·.shutdownFlag) = true := by decide
  rw [hstate 17 (by decide), Option.any_some] at hflag
  have hlast := hstate lateSignal.length le_rfl
  rw [List.take_length, hu, Option.some.injEq] at hlast
  obtain ⟨hquiet, hdone, -⟩ := shutdown_ends (by decide) (by decide) b hinit
    (fun n => hahead _ _) hflag
  refine ⟨b, hflag, hquiet, hdone _ ?_⟩
  rw [← hlast]
  exact allExited_rest hexited hclosed

end Process

end LinkScheduling
