import LinkScheduling.Metatheory.Ownership

/-!
# Following one connection through the server

A `Lifecycle` is a statement about the calls made for one connection: what holds
of its log at every moment, what holds while its request waits in the queue and
what holds once it is finished. It is proved of the thread bodies alone, one
parser pass and one worker round at a time; `Lifecycle.run_holds` carries it to
every run of the whole server, whatever the other connections do meanwhile.
-/

namespace LinkScheduling

open Framework

/-- What the answers of the operating system and of the queue always satisfy. -/
def Call.Possible : Call → Prop
  | ⟨.stat _, some size⟩ => size < 2 ^ 63
  | ⟨.recv _ size _, some data⟩ => data.length ≤ size
  | ⟨.write _ off data, .good⟩ => off + data.length < 2 ^ 63
  | ⟨.requeue _, ok⟩ => ok = true
  | _ => True

theorem Sys.answer_possible {P W : ℕ} (s : Sys P W) (c : Choice) (e : Eff) :
    Call.Possible ⟨e, s.answer c e⟩ := by
  cases e with
  | stat path =>
      cases hfile : s.dir (cstr path) with
      | none => simp [Call.Possible, answer, hfile]
      | some file => simpa [Call.Possible, answer, hfile, File.size] using file.size_lt
  | recv fd size timeout =>
      cases hdata : c.data with
      | none => simp [Call.Possible, answer, hdata]
      | some data => simp [Call.Possible, answer, hdata]
  | write path off data =>
      simp only [answer]
      split
      · rename_i h
        simpa [Call.Possible] using (Bool.and_eq_true_iff.mp h).2
      · trivial
  | requeue req => rfl
  | _ => trivial

/-- The decision `Scheduler::next` makes for the request it popped. -/
def Scheduler.decision (S : Scheduler) (request : Request) : ScheduleDecision where
  request := (S.getBudget request).1
  budget := (S.getBudget request).2

/-- Where the queue is first in, first out, the head is dispatched. -/
theorem Scheduler.next_head {S : Scheduler} {q q' : RequestQueue} {d : ScheduleDecision}
    (hpolicy : S.policy ≠ .SJF) (h : S.next q = some (d, q')) :
    ∃ request, q.queue = request :: q'.queue ∧ d = S.decision request := by
  unfold next at h
  simp only [Option.map_eq_some_iff, Prod.exists, Prod.mk.injEq] at h
  obtain ⟨request, q'', hpop, rfl, rfl⟩ := h
  refine ⟨request, ?_, rfl⟩
  have hpop : q.waitPop = some (request, q'') := by
    split at hpop
    · exact hpop
    · rename_i hsjf
      exact absurd hsjf hpolicy
    · exact hpop
    · exact hpop
  unfold RequestQueue.waitPop at hpop
  cases hq : q.queue with
  | nil => simp [hq] at hpop
  | cons first rest =>
      simp only [hq, Option.some.injEq, Prod.mk.injEq] at hpop
      obtain ⟨rfl, rfl⟩ := hpop
      rfl

structure Lifecycle where
  /-- The calls and answers the statement is about. -/
  allowed : List Call → Call → Prop
  always : List Call → Prop
  queued : Request → List Call → Prop
  ended : Exit → List Call → Prop

namespace Lifecycle

def contract (L : Lifecycle) : Contract Eff Resp (List Call) where
  guarantee log e := L.always log ∧ match e with
    | .push req => L.queued req (log ++ [⟨.push req, true⟩])
    | .requeue req => L.queued req (log ++ [⟨.requeue req, true⟩])
    | .complete exit => L.ended exit (log ++ [⟨.complete exit, ()⟩])
    | _ => True
  rely log e r := Call.Possible ⟨e, r⟩ ∧ L.allowed log ⟨e, r⟩
  next log e r := log ++ [⟨e, r⟩]

/-- The thread bodies keep the lifecycle. -/
structure Sound (L : Lifecycle) (cfg : Config) (fd : Fd) : Prop where
  parse : (parserClient cfg fd).wp L.contract (fun _ => L.always) []
  round : ∀ req log, req.clientFd = fd → L.queued req log →
    (workerRound cfg (cfg.scheduler.decision req)).wp L.contract (fun _ => L.always) log
  close : ∀ exit log, L.ended exit log → L.ended exit (log ++ [⟨.closeSocket fd, ()⟩])

/-- The server keeps the lifecycle of connection `fd`. -/
structure Holds {P W : ℕ} (L : Lifecycle) (fd : Fd) (s : Sys P W) : Prop where
  always : L.always (s.log fd)
  parser : ∀ k todo, s.parser k = .busy fd todo →
    todo.wp L.contract (fun _ => L.always) (s.log fd)
  queued : ∀ req ∈ s.requestQueue.queue, req.clientFd = fd → L.queued req (s.log fd)
  worker : ∀ k req held todo, s.worker k = .busy req held todo → req.clientFd = fd →
    todo.wp L.contract (fun _ => L.always) (s.log fd)
  finished : ∀ exit, (fd, exit) ∈ s.finished → L.ended exit (s.log fd)

/-- A step is permitted when its call, if it is one for `fd`, is allowed. -/
def Permits {P W : ℕ} (L : Lifecycle) (fd : Fd) (s : Sys P W) (l : Label P W) : Prop :=
  ∀ call, s.callOf l = some (fd, call) → L.allowed (s.log fd) call

variable {L : Lifecycle} {cfg : Config} {fd : Fd}

theorem always_of_wp {p : Server Unit} {log : List Call}
    (h : p.wp L.contract (fun _ => L.always) log) : L.always log := by
  cases p with
  | ret a => exact h
  | call e next => exact h.1.1

end Lifecycle

/-! ## A busy thread is the only one of its connection -/

namespace Sys

variable {P W : ℕ} {cfg : Config} {s : Sys P W}

theorem WellFormed.parser_unique (h : s.WellFormed) {j k : Fin P} {fd : Fd}
    {todo todo' : Server Unit} (hj : s.parser j = .busy fd todo)
    (hk : s.parser k = .busy fd todo') : j = k := by
  by_contra hjk
  have h1 : (s.parser j).owns fd + (s.parser k).owns fd ≤ s.parsingCount fd :=
    add_le_sum_pool (Parser.owns fd) s.parser hjk
  have h2 := h.once fd
  simp only [hj, hk, Parser.owns, ↓reduceIte] at h1
  omega

/-- A worker that is busy with `fd` holds it or closes it. -/
theorem busy_weight {w : Worker} {req : Request} {held : Bool} {todo : Server Unit}
    (h : w = .busy req held todo) : w.holds req.clientFd + w.closes req.clientFd = 1 := by
  subst h
  cases held <;> simp [Worker.holds, Worker.closes]

theorem WellFormed.worker_unique (h : s.WellFormed) {j k : Fin W} {req req' : Request}
    {held held' : Bool} {todo todo' : Server Unit} (hj : s.worker j = .busy req held todo)
    (hk : s.worker k = .busy req' held' todo') (hfd : req.clientFd = req'.clientFd) : j = k := by
  by_contra hjk
  have h1 : _ ≤ ∑ i, ((s.worker i).holds req.clientFd + (s.worker i).closes req.clientFd) :=
    add_le_sum_pool (fun w => Worker.holds req.clientFd w + Worker.closes req.clientFd w)
      s.worker hjk
  rw [Finset.sum_add_distrib] at h1
  have h2 := h.once req.clientFd
  have h3 := h.placed req.clientFd
  have h4 := h.closing req.clientFd
  have h5 := busy_weight hj
  have h6 := busy_weight hk
  rw [← hfd] at h6
  simp only [h5, h6] at h1
  unfold heldCount closingCount at *
  omega

theorem WellFormed.no_worker (h : s.WellFormed) {fd : Fd} (hadm : s.admittedCount fd = 0)
    {k : Fin W} {req : Request} {held : Bool} {todo : Server Unit}
    (hk : s.worker k = .busy req held todo) : req.clientFd ≠ fd := by
  rintro rfl
  cases held with
  | true =>
      have := h.worker_held hk
      omega
  | false =>
      have := h.worker_closing hk
      omega

theorem notMem_queue_of_count {fd : Fd} (h : s.queuedCount fd = 0) {req : Request}
    (hmem : req ∈ s.requestQueue.queue) : req.clientFd ≠ fd := by
  rintro rfl
  have hpos : 0 < s.queuedCount req.clientFd :=
    List.count_pos_iff.mpr (List.mem_map.mpr ⟨req, hmem, rfl⟩)
  omega

theorem notMem_finished_of_count {fd : Fd} (h : s.finishedCount fd = 0) {exit : Exit} :
    (fd, exit) ∉ s.finished := by
  intro hmem
  have hpos : 0 < s.finishedCount fd :=
    List.count_pos_iff.mpr (List.mem_map.mpr ⟨_, hmem, rfl⟩)
  omega

theorem WellFormed.no_parser (h : s.WellFormed) {fd : Fd} (hadm : 0 < s.admittedCount fd)
    {k : Fin P} {todo : Server Unit} : s.parser k ≠ .busy fd todo := by
  intro hk
  have := h.parser_owned hk
  omega

theorem log_perform_self (s : Sys P W) (fd : Fd) (e : Eff) (r : Resp e) :
    (s.perform fd e r).log fd = s.log fd ++ [⟨e, r⟩] := by
  simp [perform]

/-! ## The rule -/

variable {L : Lifecycle} {fd : Fd}

open Lifecycle

/-- What a call adds to the queue belongs to the calling connection. -/
theorem mem_queue_perform (s : Sys P W) (fd' : Fd) (e : Eff) (r : Resp e) {req : Request}
    (hmem : req ∈ (s.perform fd' e r).requestQueue.queue) :
    req ∈ s.requestQueue.queue ∨ e = .push req ∨ e = .requeue req := by
  cases e with
  | push req' =>
      simp only [perform, Eff.onQueue, RequestQueue.push] at hmem
      split at hmem
      · exact Or.inl hmem
      · simp only [List.mem_append, List.mem_singleton] at hmem
        rcases hmem with hmem | rfl
        · exact Or.inl hmem
        · exact Or.inr (Or.inl rfl)
  | requeue req' =>
      simp only [perform, Eff.onQueue, RequestQueue.requeue, List.mem_append,
        List.mem_singleton] at hmem
      rcases hmem with hmem | rfl
      · exact Or.inl hmem
      · exact Or.inr (Or.inr rfl)
  | _ => exact Or.inl hmem

theorem mem_finished_perform (s : Sys P W) (fd' : Fd) (e : Eff) (r : Resp e) {exit : Exit}
    (hmem : (fd, exit) ∈ (s.perform fd' e r).finished) :
    (fd, exit) ∈ s.finished ∨ (fd = fd' ∧ e = .complete exit) := by
  cases e with
  | complete exit' =>
      simp only [perform, List.mem_append, List.mem_singleton, Prod.mk.injEq] at hmem
      rcases hmem with hmem | ⟨rfl, rfl⟩
      · exact Or.inl hmem
      · exact Or.inr ⟨rfl, rfl⟩
  | _ => exact Or.inl hmem

/-- A call of another connection. -/
theorem perform_holds_other (h : L.Holds fd s) {fd' : Fd} (hfd : fd' ≠ fd) {e : Eff} (r : Resp e)
    (hown : ∀ req, e = .push req ∨ e = .requeue req → req.clientFd = fd') :
    L.Holds fd (s.perform fd' e r) := by
  have hlog : (s.perform fd' e r).log fd = s.log fd := log_perform_of_ne (Ne.symm hfd) s e _
  refine ⟨?_, ?_, ?_, ?_, ?_⟩
  · rw [hlog]
    exact h.always
  · rw [hlog]
    exact h.parser
  · intro req hmem hreq
    rw [hlog]
    rcases mem_queue_perform s fd' e r hmem with hold | hcall
    · exact h.queued req hold hreq
    · exact absurd ((hown req hcall).symm.trans hreq) hfd
  · rw [hlog]
    exact h.worker
  · intro exit hmem
    rw [hlog]
    rcases mem_finished_perform s fd' e r hmem with hold | ⟨heq, -⟩
    · exact h.finished exit hold
    · exact absurd heq.symm hfd

/-- A parser that has nothing to do with the connection is replaced by another such. -/
theorem setParser_holds_other (h : L.Holds fd s) (k : Fin P) {p : Parser}
    (hp : ∀ todo, p ≠ .busy fd todo) : L.Holds fd (s.setParser k p) := by
  refine ⟨h.always, ?_, h.queued, h.worker, h.finished⟩
  intro j todo hj
  rcases setParser_busy hj with ⟨rfl, hnew⟩ | ⟨-, hold⟩
  · exact absurd hnew (hp todo)
  · exact h.parser j todo hold

theorem setWorker_holds_other (h : L.Holds fd s) (k : Fin W) {w : Worker}
    (hw : ∀ req held todo, w = .busy req held todo → req.clientFd ≠ fd) :
    L.Holds fd (s.setWorker k w) := by
  refine ⟨h.always, h.parser, h.queued, ?_, h.finished⟩
  intro j req held todo hj hreq
  rcases setWorker_busy hj with ⟨rfl, hnew⟩ | ⟨-, hold⟩
  · exact absurd hreq (hw req held todo hnew)
  · exact h.worker j req held todo hold hreq

theorem parserCall_holds (hwf : s.WellFormed) (h : L.Holds fd s) {k : Fin P} (c : Choice)
    {fd' : Fd} {e : Eff} {next : Resp e → Server Unit}
    (hbusy : s.parser k = .busy fd' (.call e next))
    (hallowed : fd' = fd → L.allowed (s.log fd) ⟨e, s.answer c e⟩) :
    L.Holds fd ((s.perform fd' e (s.answer c e)).setParser k
      (.resume fd' (next (s.answer c e)))) := by
  obtain ⟨⟨-, hcall⟩, -⟩ := hwf.parser_ok k fd' _ hbusy
  by_cases hfd : fd' = fd
  · subst hfd
    obtain ⟨hpos, hwait, hadm⟩ := hwf.parser_owned hbusy
    have hplaced := hwf.placed fd'
    obtain ⟨hguar, hrest⟩ := h.parser k _ hbusy
    have hnext := hrest (s.answer c e) ⟨s.answer_possible c e, hallowed rfl⟩
    have hlog : ((s.perform fd' e (s.answer c e)).setParser k
        (.resume fd' (next (s.answer c e)))).log fd' = s.log fd' ++ [⟨e, s.answer c e⟩] :=
      log_perform_self s fd' e _
    refine ⟨?_, ?_, ?_, ?_, ?_⟩
    · rw [hlog]
      exact always_of_wp hnext
    · intro j todo hj
      rw [hlog]
      rcases setParser_busy hj with ⟨rfl, hp⟩ | ⟨hjk, hold⟩
      · obtain ⟨-, rfl⟩ := Parser.resume_busy hp
        exact hnext
      · exact absurd (hwf.parser_unique hold hbusy) hjk
    · intro req hmem hreq
      rw [hlog]
      rcases mem_queue_perform s fd' e (s.answer c e) hmem with hold | rfl | rfl
      · exact absurd hreq (notMem_queue_of_count (by omega) hold)
      · have hopen : s.answer c (.push req) = true := by
          cases hclosed : s.requestQueue.closed with
          | false => simp [answer, RequestQueue.push, hclosed]
          | true =>
              have hold : req ∈ s.requestQueue.queue := by
                simpa [setParser, perform, Eff.onQueue, RequestQueue.push, hclosed] using hmem
              exact absurd hreq (notMem_queue_of_count (by omega) hold)
        rw [hopen]
        exact hguar.2
      · exact hcall.elim
    · intro j req held todo hj hreq
      exact absurd hreq (hwf.no_worker hadm hj)
    · intro exit hmem
      rcases mem_finished_perform s fd' e (s.answer c e) hmem with hold | ⟨-, rfl⟩
      · exact absurd hold (notMem_finished_of_count (by omega))
      · exact hcall.elim
  · have hown : ∀ req, e = .push req ∨ e = .requeue req → req.clientFd = fd' := by
      rintro req (rfl | rfl)
      · exact hcall
      · exact hcall.elim
    refine setParser_holds_other (perform_holds_other h hfd _ hown) k fun todo hp => ?_
    exact hfd (Parser.resume_busy hp).1.symm

theorem workerCall_holds (hwf : s.WellFormed) (hsound : L.Sound cfg fd) (h : L.Holds fd s)
    {k : Fin W} (c : Choice) {req : Request} {held : Bool} {e : Eff}
    {next : Resp e → Server Unit} (hbusy : s.worker k = .busy req held (.call e next))
    (hallowed : req.clientFd = fd → L.allowed (s.log fd) ⟨e, s.answer c e⟩) :
    L.Holds fd ((s.perform req.clientFd e (s.answer c e)).setWorker k
      (.resume req (held && !e.releases) (next (s.answer c e)))) := by
  obtain ⟨hcall, -⟩ := hwf.worker_ok k req held _ hbusy
  by_cases hfd : req.clientFd = fd
  · -- a call of the connection itself: this worker is the only place its request is in
    subst hfd
    have hplaced := hwf.placed req.clientFd
    obtain ⟨hguar, hrest⟩ := h.worker k req held _ hbusy rfl
    have hnext := hrest (s.answer c e) ⟨s.answer_possible c e, hallowed rfl⟩
    have hlog : ((s.perform req.clientFd e (s.answer c e)).setWorker k
        (.resume req (held && !e.releases) (next (s.answer c e)))).log req.clientFd =
          s.log req.clientFd ++ [⟨e, s.answer c e⟩] :=
      log_perform_self s req.clientFd e _
    have hplace : 0 < s.admittedCount req.clientFd ∧ s.queuedCount req.clientFd = 0 := by
      cases held with
      | true =>
          have := hwf.worker_held hbusy
          omega
      | false =>
          have := hwf.worker_closing hbusy
          omega
    refine ⟨?_, ?_, ?_, ?_, ?_⟩
    · rw [hlog]
      exact always_of_wp hnext
    · intro j todo hj
      exact absurd hj (hwf.no_parser hplace.1)
    · intro req' hmem hreq
      rw [hlog]
      rcases mem_queue_perform s req.clientFd e (s.answer c e) hmem with hold | rfl | rfl
      · exact absurd hreq (notMem_queue_of_count hplace.2 hold)
      · cases held with
        | true => exact hcall.elim
        | false => cases hcall
      · exact hguar.2
    · intro j req' held' todo hj hreq
      rw [hlog]
      rcases setWorker_busy hj with ⟨rfl, hw⟩ | ⟨hjk, hold⟩
      · obtain ⟨-, -, rfl⟩ := Worker.resume_busy hw
        exact hnext
      · exact absurd (hwf.worker_unique hold hbusy hreq) hjk
    · intro exit hmem
      rw [hlog]
      rcases mem_finished_perform s req.clientFd e (s.answer c e) hmem with hold | ⟨-, rfl⟩
      · cases held with
        | true =>
            have hnone : s.finishedCount req.clientFd = 0 := by
              have := hwf.worker_held hbusy
              omega
            exact absurd hold (notMem_finished_of_count hnone)
        | false =>
            change e = .closeSocket req.clientFd at hcall
            subst hcall
            exact hsound.close exit _ (h.finished exit hold)
      · exact hguar.2
  · have hown : ∀ req', e = .push req' ∨ e = .requeue req' → req'.clientFd = req.clientFd := by
      rintro req' (rfl | rfl)
      · cases held with
        | true => exact hcall.elim
        | false => cases hcall
      · cases held with
        | true => exact hcall.1.clientFd
        | false => cases hcall
    refine setWorker_holds_other (perform_holds_other h hfd _ hown) k fun req' _ _ hw => ?_
    obtain ⟨rfl, -, -⟩ := Worker.resume_busy hw
    exact hfd

theorem workerTake_holds (hsound : L.Sound cfg fd) (h : L.Holds fd s) {k : Fin W}
    {request : Request} {q : RequestQueue} (hpop : Popped s.requestQueue request q) :
    L.Holds fd ({ s with requestQueue := q }.setWorker k
      (.resume (cfg.scheduler.decision request).request true
        (workerRound cfg (cfg.scheduler.decision request)))) := by
  refine ⟨h.always, h.parser, ?_, ?_, h.finished⟩
  · intro req hmem hreq
    exact h.queued req (hpop.perm.mem_iff.mpr (List.mem_cons_of_mem _ hmem)) hreq
  · intro j req held todo hj hreq
    rcases setWorker_busy hj with ⟨rfl, hw⟩ | ⟨-, hold⟩
    · obtain ⟨rfl, -, rfl⟩ := Worker.resume_busy hw
      have hsame := (cfg.scheduler.getBudget_same request).clientFd
      have hfd : request.clientFd = fd := hsame.symm.trans hreq
      exact hsound.round request _ hfd
        (h.queued request (hpop.perm.mem_iff.mpr List.mem_cons_self) hfd)
    · exact h.worker j req held todo hold hreq

theorem parserTake_holds (hwf : s.WellFormed) (hsound : L.Sound cfg fd) (h : L.Holds fd s)
    {k : Fin P} {fd' : Fd} {rest : List Fd} (hq : s.fdQueue.queue = fd' :: rest) :
    L.Holds fd ({ s with fdQueue := { s.fdQueue with queue := rest } }.setParser k
      (.resume fd' (parserClient cfg fd'))) := by
  refine ⟨h.always, ?_, h.queued, h.worker, h.finished⟩
  intro j todo hj
  rcases setParser_busy hj with ⟨rfl, hp⟩ | ⟨-, hold⟩
  · obtain ⟨rfl, rfl⟩ := Parser.resume_busy hp
    have hnew : s.log fd = [] := by
      refine hwf.log_new fd (Or.inr ?_)
      simp [waitingCount, hq]
    change (parserClient cfg fd).wp L.contract (fun _ => L.always) (s.log fd)
    rw [hnew]
    exact hsound.parse
  · exact h.parser j todo hold

theorem step_holds (hwf : s.WellFormed) (hsound : L.Sound cfg fd) (h : L.Holds fd s)
    {t : Sys P W} {l : Label P W} (hpermits : L.Permits fd s l)
    (hstep : s.step cfg l = some t) : L.Holds fd t := by
  cases step_cases hstep with
  | accept fd' hnew hopen => exact ⟨h.1, h.2, h.3, h.4, h.5⟩
  | stopAccepting => exact ⟨h.1, h.2, h.3, h.4, h.5⟩
  | parserTake k fd' rest hidle hq => exact parserTake_holds hwf hsound h hq
  | parserExit k hidle hq hclosed =>
      refine setParser_holds_other h k fun todo hp => ?_
      cases hp
  | parserCall k c fd' e next hbusy =>
      refine parserCall_holds hwf h c hbusy ?_
      rintro rfl
      exact hpermits _ (by simp [callOf, hbusy])
  | workerTake k d request q hidle hpop hreq hbudget hnext =>
      have hd : d = cfg.scheduler.decision request := by
        cases d
        simp_all [Scheduler.decision]
      subst hd
      exact workerTake_holds hsound h hpop
  | workerExit k hidle hq hclosed hinflight =>
      refine setWorker_holds_other h k fun req held todo hw => ?_
      cases hw
  | workerCall k c req held e next hbusy =>
      refine workerCall_holds hwf hsound h c hbusy ?_
      rintro rfl
      exact hpermits _ (by simp [callOf, hbusy])
  | closeQueue => exact ⟨h.1, h.2, h.3, h.4, h.5⟩

end Sys

/-- **The lifecycle rule.** What one parser pass and one worker round keep holds
of connection `fd` in every state of every run that only makes allowed calls for
it. -/
theorem Lifecycle.run_holds {P W : ℕ} {L : Lifecycle} {cfg : Config} {fd : Fd}
    (hsound : L.Sound cfg fd) {dir : Directory} {t : Sys P W}
    (hrun : Sys.RunWhere cfg (L.Permits fd) (Sys.init P W dir) t) : L.Holds fd t := by
  have hinit : L.Holds fd (Sys.init P W dir) :=
    ⟨always_of_wp hsound.parse, by simp [Sys.init], by simp [Sys.init], by simp [Sys.init],
      by simp [Sys.init]⟩
  refine (hrun.invariant (fun s => s.WellFormed ∧ L.Holds fd s)
    ⟨Sys.init_wellFormed dir, hinit⟩ ?_).2
  rintro s l u ⟨hwf, h⟩ hpermits hstep
  exact ⟨Sys.step_wellFormed hwf hstep, Sys.step_holds hwf hsound h hpermits hstep⟩

end LinkScheduling
