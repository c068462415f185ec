import LinkScheduling.Metatheory.Accounting

/-!
# Who owns a client socket

A client socket has one owner at a time: the `FdQueue`, a parser, the request queue or a
worker. Whoever owns it hands it on or closes it, and makes no call after that, so the
owners of a connection and the `close` calls on it are together exactly one. The last part
is what the exits of the threads say about the two queues.
-/

namespace LinkScheduling

open Framework

/-- The client socket a call sends on, receives from or closes. -/
def Eff.socket : Eff → Option Fd
  | .sendAll fd _ => some fd
  | .recv fd _ _ => some fd
  | .closeSocket fd => some fd
  | _ => none

/-- How often the calls of a log close `fd`. -/
def closes (fd : Fd) (log : List Call) : ℕ :=
  log.countP fun call => call.eff = .closeSocket fd

theorem closes_snoc (fd : Fd) (log : List Call) (call : Call) :
    closes fd (log ++ [call]) =
      closes fd log + if call.eff = .closeSocket fd then 1 else 0 := by
  simp [closes, List.countP_append, List.countP_singleton]

/-! ## The threads -/

/-- A thread may call anything as long as it owns the socket of `fd`, on which it makes all
its socket calls. Closing it and handing it on end the ownership. -/
def socketContract (fd : Fd) : Contract Eff Resp Bool where
  guarantee mine e := mine = true ∧ match e with
    | .push req => req.clientFd = fd
    | .requeue req => req.clientFd = fd
    | e => ∀ f, e.socket = some f → f = fd
  rely _ e r := match e, r with
    | .requeue _, ok => ok = true
    | _, _ => True
  next mine e r := match e, r with
    | .closeSocket _, _ => false
    | .push _, ok => mine && !ok
    | .requeue _, ok => mine && !ok
    | _, _ => mine

/-- A thread body that ends without the socket it started with. -/
def LetsGo (fd : Fd) (p : Server Unit) (mine : Bool) : Prop :=
  p.wp (socketContract fd) (fun _ mine => mine = false) mine

section Threads

variable {cfg : Config} {fd : Fd} {req : Request}

/-- A thread has calls to make exactly as long as it owns its socket. -/
theorem LetsGo.cases {p : Server Unit} {mine : Bool} (h : LetsGo fd p mine) :
    (mine = false ∧ ∃ a, p = .ret a) ∨ (mine = true ∧ ∃ e next, p = .call e next) := by
  cases p with
  | ret a => exact Or.inl ⟨h, a, rfl⟩
  | call e next => exact Or.inr ⟨h.1.1, e, next, rfl⟩

theorem getCall_socket {path : Bytes} {e : Eff} (h : e.getCall fd path) :
    (socketContract fd).guarantee true e ∧ ∀ r, (socketContract fd).next true e r = true := by
  cases e <;> simp_all [Eff.getCall, socketContract, Eff.socket]

theorem putCall_socket {path : Bytes} {e : Eff} (h : e.putCall fd path) :
    (socketContract fd).guarantee true e ∧ ∀ r, (socketContract fd).next true e r = true := by
  cases e <;> simp_all [Eff.putCall, socketContract, Eff.socket]

theorem serveRound_socket {budget : ℕ} (h : req.clientFd = fd) :
    (serveRound cfg budget req).wp (socketContract fd)
      (fun res mine => res.2.1.clientFd = fd ∧ mine = true) true := by
  subst h
  unfold serveRound
  split
  · refine Prog.wp_mono (serveGet_only.wp (fun e he => (getCall_socket he).1)
      (fun e r he => (getCall_socket he).2 r)) ?_
    rintro res mine ⟨hres, rfl⟩
    exact ⟨hres.same.clientFd, rfl⟩
  · have hput : (servePut req cfg.fileDir budget).wp (socketContract req.clientFd)
        (fun res mine => res.2.1.clientFd = req.clientFd ∧ mine = true) true := by
      refine Prog.wp_mono (servePut_only.wp (fun e he => (putCall_socket he).1)
        (fun e r he => (putCall_socket he).2 r)) ?_
      rintro res mine ⟨⟨hsame, -⟩, rfl⟩
      exact ⟨hsame.clientFd, rfl⟩
    split
    · simp only [sendResponse, perform, Prog.wp_bind, Prog.wp_perform, Prog.wp_pure]
      exact ⟨⟨rfl, by simp [Eff.socket]⟩, fun _ _ => hput⟩
    · simpa using hput
  · exact ⟨rfl, rfl⟩

theorem finishRequest_letsGo (h : req.clientFd = fd) : LetsGo fd (finishRequest req) true := by
  simp [LetsGo, finishRequest, perform, socketContract, Eff.socket, h]

theorem abandonRequest_letsGo (h : req.clientFd = fd) :
    LetsGo fd (abandonRequest cfg req) true := by
  unfold abandonRequest
  split <;> simp [LetsGo, perform, socketContract, Eff.socket, h]

theorem commitRequest_letsGo (h : req.clientFd = fd) :
    LetsGo fd (commitRequest cfg req) true := by
  simp only [LetsGo, commitRequest, perform, Prog.wp_bind, Prog.wp_perform]
  refine ⟨⟨rfl, by simp [Eff.socket]⟩, ?_⟩
  rintro (_ | _) -
  · simp [sendError, perform, socketContract, Eff.socket, h]
  · simp only [↓reduceIte, sendResponse, perform, Prog.wp_bind, Prog.wp_perform, Prog.wp_pure]
    exact ⟨⟨rfl, by simp [Eff.socket, h]⟩, fun _ _ => finishRequest_letsGo h⟩

theorem settleRound_letsGo {budget n : ℕ} (h : req.clientFd = fd) :
    LetsGo fd (settleRound cfg budget req n) true := by
  have hacc : (cfg.scheduler.account req n).clientFd = fd :=
    (cfg.scheduler.account_same req n).clientFd.trans h
  unfold settleRound
  simp only
  split
  · simp only [LetsGo, perform, Prog.wp_bind, Prog.wp_perform]
    refine ⟨⟨rfl, ?_⟩, ?_⟩
    · simp only
      split
      · exact hacc
      · exact hacc
    · rintro r hr
      -- `requeue` always succeeds, so its `close_socket` branch is never taken
      change r = true at hr
      subst hr
      exact rfl
  · split
    · exact commitRequest_letsGo hacc
    · exact finishRequest_letsGo hacc

/-- A worker pass requeues its request or closes its socket. -/
theorem workerRound_letsGo {d : ScheduleDecision} :
    LetsGo d.request.clientFd (workerRound cfg d) true := by
  have hdispatch : ∀ req : Request, req.clientFd = d.request.clientFd →
      LetsGo d.request.clientFd (dispatchRound cfg d.budget req) true := by
    intro req hfd
    unfold LetsGo dispatchRound
    rw [Prog.wp_bind]
    refine Prog.wp_mono (serveRound_socket hfd) ?_
    rintro ⟨success, req', n⟩ mine ⟨hfd', rfl⟩
    cases success
    · exact abandonRequest_letsGo hfd'
    · exact settleRound_letsGo hfd'
  unfold LetsGo workerRound stampStart
  rw [Prog.wp_bind]
  split
  · simp only [perform, Prog.wp_bind, Prog.wp_perform, Prog.wp_pure]
    exact ⟨⟨rfl, by simp [Eff.socket]⟩, fun start _ => hdispatch _ rfl⟩
  · exact hdispatch _ rfl

theorem rejectClient_letsGo {reason : Bytes} : LetsGo fd (rejectClient fd reason) true := by
  simp [LetsGo, rejectClient, sendError, perform, socketContract, Eff.socket]

theorem admitRequest_letsGo (h : req.clientFd = fd) : LetsGo fd (admitRequest fd req) true := by
  simp only [LetsGo, admitRequest, perform, Prog.wp_bind, Prog.wp_perform]
  refine ⟨⟨rfl, by simp [Eff.socket]⟩, fun id _ => ⟨⟨rfl, by simp [Eff.socket]⟩, fun now _ =>
    ⟨⟨rfl, h⟩, ?_⟩⟩⟩
  rintro (_ | _) -
  · exact rejectClient_letsGo
  · exact rfl

/-- A parser pass pushes the request of its connection or closes the socket. -/
theorem parserClient_letsGo : LetsGo fd (parserClient cfg fd) true := by
  have hread : (readHeaderLine fd 1000).wp (socketContract fd)
      (fun _ mine => True ∧ mine = true) true := by
    simp only [readHeaderLine, perform, Prog.wp_bind, Prog.wp_perform]
    refine ⟨⟨rfl, by simp [Eff.socket]⟩, fun start _ => ?_⟩
    refine (readHeaderLoop_only 8192 []).wp ?_ ?_
    · rintro e (rfl | ⟨n, t, rfl⟩)
      · exact ⟨rfl, by simp [Eff.socket]⟩
      · exact ⟨rfl, by simp [Eff.socket]⟩
    · rintro e r (rfl | ⟨n, t, rfl⟩) <;> rfl
  unfold LetsGo parserClient
  rw [Prog.wp_bind]
  refine Prog.wp_mono hread ?_
  rintro ⟨header, leftover⟩ mine ⟨-, rfl⟩
  simp only
  split
  · exact rejectClient_letsGo
  · split
    · exact rejectClient_letsGo
    · rename_i req hreq
      have hfd := parseRequestHeader_clientFd hreq
      split
      · simp [sendResponse, perform, socketContract, Eff.socket]
      · split
        · exact rejectClient_letsGo
        · split
          · simp only [fileExists, getFileSize, perform, Prog.wp_bind, Prog.wp_perform,
              Prog.wp_pure]
            refine ⟨⟨rfl, by simp [Eff.socket]⟩, fun found _ => ?_⟩
            split
            · simp only [Prog.wp_bind, Prog.wp_perform, Prog.wp_pure]
              exact ⟨⟨rfl, by simp [Eff.socket]⟩, fun size _ => admitRequest_letsGo hfd⟩
            · exact rejectClient_letsGo
          · exact admitRequest_letsGo hfd

end Threads

/-! ## The owners -/

def Worker.owns (fd : Fd) : Worker → ℕ
  | .busy req _ _ => if req.clientFd = fd then 1 else 0
  | _ => 0

/-- The weight of one connection. -/
def weight (fd fd' : Fd) : ℕ := if fd = fd' then 1 else 0

theorem Parser.resume_owns {fd fd' : Fd} {p : Server Unit} {mine : Bool}
    (h : LetsGo fd p mine) :
    (Parser.resume fd p).owns fd' = if mine then weight fd fd' else 0 := by
  rcases h.cases with ⟨rfl, a, rfl⟩ | ⟨rfl, e, next, rfl⟩ <;> rfl

theorem Worker.resume_owns {req : Request} {fd' : Fd} {held mine : Bool} {p : Server Unit}
    (h : LetsGo req.clientFd p mine) :
    (Worker.resume req held p).owns fd' = if mine then weight req.clientFd fd' else 0 := by
  rcases h.cases with ⟨rfl, a, rfl⟩ | ⟨rfl, e, next, rfl⟩ <;> rfl

namespace Sys

variable {P W : ℕ} {cfg : Config} {s t : Sys P W}

def servedCount (s : Sys P W) (fd : Fd) : ℕ := ∑ k, (s.worker k).owns fd

/-- The places where the open socket of `fd` is. -/
def ownersCount (s : Sys P W) (fd : Fd) : ℕ :=
  s.waitingCount fd + s.parsingCount fd + s.queuedCount fd + s.servedCount fd

theorem servedCount_setWorker (s : Sys P W) (k : Fin W) (w : Worker) (fd : Fd) :
    (s.setWorker k w).servedCount fd + (s.worker k).owns fd = s.servedCount fd + w.owns fd :=
  sum_update_add (Worker.owns fd) s.worker k w

/-- A log that uses only the socket of its connection, and not after closing it. -/
def Orderly (fd : Fd) (log : List Call) : Prop :=
  Along (fun before call => ∀ f, call.eff.socket = some f → f = fd ∧ closes fd before = 0) log

structure Sockets (s : Sys P W) : Prop where
  parser_ok : ∀ k fd todo, s.parser k = .busy fd todo → LetsGo fd todo true
  worker_ok : ∀ k req held todo, s.worker k = .busy req held todo →
    LetsGo req.clientFd todo true
  owned : ∀ fd, s.ownersCount fd + closes fd (s.log fd) = if fd ∈ s.accepted then 1 else 0
  proper : ∀ fd, Orderly fd (s.log fd)

theorem init_sockets (dir : Directory) : (init P W dir).Sockets where
  parser_ok _ _ _ h := by cases h
  worker_ok _ _ _ _ h := by cases h
  owned _ := by
    simp [ownersCount, waitingCount, parsingCount, queuedCount, servedCount, init, Parser.owns,
      Worker.owns, closes]
  proper _ := along_nil

theorem socket_rely (s : Sys P W) (c : Choice) (e : Eff) {fd : Fd} :
    (socketContract fd).rely true e (s.answer c e) := by
  cases e <;> trivial

theorem closes_perform (s : Sys P W) (fd fd' : Fd) (e : Eff) (r : Resp e) :
    closes fd' ((s.perform fd e r).log fd') =
      closes fd' (s.log fd') + if fd = fd' ∧ e = .closeSocket fd' then 1 else 0 := by
  rw [log_perform]
  by_cases hfd : fd = fd'
  · rw [if_pos hfd, closes_snoc]
    simp [hfd]
  · rw [if_neg hfd, List.append_nil]
    simp [hfd]

theorem queuedCount_append (s : Sys P W) (req : Request) (fd' : Fd) :
    ((s.requestQueue.queue ++ [req]).map (·.clientFd)).count fd' =
      s.queuedCount fd' + weight req.clientFd fd' := by
  simp only [queuedCount, List.map_append, List.map_cons, List.map_nil, List.count_append,
    List.count_singleton, beq_iff_eq]
  rfl

/-- What a call takes from its thread it gives to the queue or to the closed sockets. -/
theorem perform_owned (s : Sys P W) (c : Choice) {fd : Fd} {e : Eff}
    (h : (socketContract fd).guarantee true e) (fd' : Fd) :
    (s.perform fd e (s.answer c e)).queuedCount fd' +
        closes fd' ((s.perform fd e (s.answer c e)).log fd') +
        (if (socketContract fd).next true e (s.answer c e) then weight fd fd' else 0) =
      s.queuedCount fd' + closes fd' (s.log fd') + weight fd fd' := by
  rw [closes_perform]
  cases e with
  | closeSocket f =>
      have hf : f = fd := h.2 f rfl
      subst hf
      change s.queuedCount fd' + _ + 0 = _
      by_cases hfd : f = fd' <;> simp [weight, hfd, Nat.add_assoc]
  | push req =>
      have hreq : req.clientFd = fd := h.2
      subst hreq
      cases hclosed : s.requestQueue.closed with
      | true =>
          -- a closed queue refuses, so the parser keeps the socket
          have hstay : (s.requestQueue.push req).2 = s.requestQueue := by
            simp [RequestQueue.push, hclosed]
          have hno : s.answer c (.push req) = false := by
            simp [answer, RequestQueue.push, hclosed]
          have hqueued : (s.perform req.clientFd (.push req)
              (s.answer c (.push req))).queuedCount fd' = s.queuedCount fd' := by
            change ((s.requestQueue.push req).2.queue.map (·.clientFd)).count fd' = _
            rw [hstay]
            rfl
          rw [hqueued, hno]
          simp [socketContract]
      | false =>
          have hmore : (s.requestQueue.push req).2.queue = s.requestQueue.queue ++ [req] := by
            simp [RequestQueue.push, hclosed]
          have hyes : s.answer c (.push req) = true := by
            simp [answer, RequestQueue.push, hclosed]
          have hqueued : (s.perform req.clientFd (.push req)
              (s.answer c (.push req))).queuedCount fd' =
                s.queuedCount fd' + weight req.clientFd fd' := by
            change ((s.requestQueue.push req).2.queue.map (·.clientFd)).count fd' = _
            rw [hmore, queuedCount_append]
          rw [hqueued, hyes]
          simp only [socketContract, reduceCtorEq, and_false, ↓reduceIte, Bool.not_true,
            Bool.and_false, Bool.false_eq_true]
          omega
  | requeue req =>
      have hreq : req.clientFd = fd := h.2
      subst hreq
      have hqueued : (s.perform req.clientFd (.requeue req)
          (s.answer c (.requeue req))).queuedCount fd' =
            s.queuedCount fd' + weight req.clientFd fd' := by
        change ((s.requestQueue.queue ++ [req]).map (·.clientFd)).count fd' = _
        rw [queuedCount_append]
      rw [hqueued]
      simp only [socketContract, answer, RequestQueue.requeue, reduceCtorEq, and_false,
        ↓reduceIte, Bool.not_true, Bool.and_false, Bool.false_eq_true]
      omega
  | _ =>
      simp only [reduceCtorEq, and_false, ↓reduceIte]
      rfl

/-- A thread that owns its socket logs a proper call. -/
theorem perform_proper (h : s.Sockets) {fd : Fd} (c : Choice) {e : Eff}
    (hguar : (socketContract fd).guarantee true e) (hopen : closes fd (s.log fd) = 0) (fd' : Fd) :
    Orderly fd' ((s.perform fd e (s.answer c e)).log fd') := by
  rw [log_perform]
  by_cases hfd : fd = fd'
  · subst hfd
    rw [if_pos rfl]
    refine (h.proper fd).snoc ?_
    intro f hf
    refine ⟨?_, hopen⟩
    cases e with
    | push req => cases hf
    | requeue req => cases hf
    | _ => exact hguar.2 f hf
  · rw [if_neg hfd, List.append_nil]
    exact h.proper fd'

theorem parserTake_sockets (h : s.Sockets) {k : Fin P} {fd : Fd} {rest : List Fd}
    (hidle : s.parser k = .idle) (hq : s.fdQueue.queue = fd :: rest) :
    ({ s with fdQueue := { s.fdQueue with queue := rest } }.setParser k
      (.resume fd (parserClient cfg fd))).Sockets where
  parser_ok j fd' todo hj := by
    rcases setParser_busy hj with ⟨rfl, hp⟩ | ⟨-, hold⟩
    · obtain ⟨rfl, rfl⟩ := Parser.resume_busy hp
      exact parserClient_letsGo
    · exact h.parser_ok j fd' todo hold
  worker_ok := h.worker_ok
  owned fd' := by
    have hparsing := parsingCount_setParser s k (.resume fd (parserClient cfg fd)) fd'
    rw [hidle, Parser.resume_owns parserClient_letsGo] at hparsing
    have hwaiting : s.waitingCount fd' = rest.count fd' + weight fd fd' := by
      simp only [waitingCount, hq, List.count_cons, beq_iff_eq, weight]
    have howned := h.owned fd'
    simp only [ownersCount, Parser.owns, ↓reduceIte] at howned hparsing ⊢
    change _ = if fd' ∈ s.accepted then 1 else 0
    rw [← howned]
    change rest.count fd' + (s.setParser k _).parsingCount fd' + s.queuedCount fd' +
      s.servedCount fd' + closes fd' (s.log fd') = _
    omega
  proper := h.proper

theorem parserCall_sockets (h : s.Sockets) {k : Fin P} (c : Choice) {fd : Fd} {e : Eff}
    {next : Resp e → Server Unit} (hbusy : s.parser k = .busy fd (.call e next)) :
    ((s.perform fd e (s.answer c e)).setParser k
      (.resume fd (next (s.answer c e)))).Sockets := by
  obtain ⟨hguar, hnext⟩ := h.parser_ok k fd _ hbusy
  have hlets : LetsGo fd (next (s.answer c e))
      ((socketContract fd).next true e (s.answer c e)) :=
    hnext _ (socket_rely s c e)
  have howns : (s.parser k).owns fd = 1 := by simp [hbusy, Parser.owns]
  have hopen : closes fd (s.log fd) = 0 := by
    have hle : (s.parser k).owns fd ≤ s.parsingCount fd := le_sum_pool (Parser.owns fd) s.parser k
    have howned := h.owned fd
    simp only [ownersCount] at howned
    split at howned <;> omega
  refine ⟨?_, h.worker_ok, ?_, perform_proper h c hguar hopen⟩
  · intro j fd' todo hj
    rcases setParser_busy hj with ⟨rfl, hp⟩ | ⟨-, hold⟩
    · obtain ⟨rfl, rfl⟩ := Parser.resume_busy hp
      rcases hlets.cases with ⟨-, a, hret⟩ | ⟨hmine, -⟩
      · rw [hret] at hp
        cases hp
      · rwa [hmine] at hlets
    · exact h.parser_ok j fd' todo hold
  · intro fd'
    have hparsing := parsingCount_setParser (s.perform fd e (s.answer c e)) k
      (.resume fd (next (s.answer c e))) fd'
    rw [Parser.resume_owns hlets, parser_perform, hbusy] at hparsing
    have hmoved := perform_owned s c hguar fd'
    have howned := h.owned fd'
    change _ = if fd' ∈ s.accepted then 1 else 0
    rw [← howned]
    simp only [ownersCount]
    change s.waitingCount fd' + _ + (s.perform fd e (s.answer c e)).queuedCount fd' +
      s.servedCount fd' + closes fd' ((s.perform fd e (s.answer c e)).log fd') = _
    change _ + weight fd fd' = s.parsingCount fd' + _ at hparsing
    omega

theorem workerTake_sockets (h : s.Sockets) {k : Fin W} {d : ScheduleDecision}
    {request : Request} {q : RequestQueue} (hidle : s.worker k = .idle)
    (hpop : Popped s.requestQueue request q)
    (hfd : d.request.clientFd = request.clientFd) :
    ({ s with requestQueue := q }.setWorker k
      (.resume d.request true (workerRound cfg d))).Sockets where
  parser_ok := h.parser_ok
  worker_ok j req held todo hj := by
    rcases setWorker_busy hj with ⟨rfl, hw⟩ | ⟨-, hold⟩
    · obtain ⟨rfl, -, rfl⟩ := Worker.resume_busy hw
      exact workerRound_letsGo
    · exact h.worker_ok j req held todo hold
  owned fd' := by
    have hserved := servedCount_setWorker s k (.resume d.request true (workerRound cfg d)) fd'
    rw [hidle, Worker.resume_owns workerRound_letsGo, hfd] at hserved
    have hqueued : s.queuedCount fd' =
        (q.queue.map (·.clientFd)).count fd' + weight request.clientFd fd' := by
      simp only [queuedCount, (hpop.perm.map (·.clientFd)).count_eq, List.map_cons,
        List.count_cons, beq_iff_eq, weight]
    have howned := h.owned fd'
    simp only [ownersCount, Worker.owns, ↓reduceIte] at howned hserved ⊢
    change _ = if fd' ∈ s.accepted then 1 else 0
    rw [← howned]
    change s.waitingCount fd' + s.parsingCount fd' + (q.queue.map (·.clientFd)).count fd' +
      (s.setWorker k _).servedCount fd' + closes fd' (s.log fd') = _
    omega
  proper := h.proper

theorem workerCall_sockets (h : s.Sockets) {k : Fin W} (c : Choice) {req : Request}
    {held : Bool} {e : Eff} {next : Resp e → Server Unit}
    (hbusy : s.worker k = .busy req held (.call e next)) :
    ((s.perform req.clientFd e (s.answer c e)).setWorker k
      (.resume req (held && !e.releases) (next (s.answer c e)))).Sockets := by
  obtain ⟨hguar, hnext⟩ := h.worker_ok k req held _ hbusy
  have hlets : LetsGo req.clientFd (next (s.answer c e))
      ((socketContract req.clientFd).next true e (s.answer c e)) :=
    hnext _ (socket_rely s c e)
  have howns : (s.worker k).owns req.clientFd = 1 := by simp [hbusy, Worker.owns]
  have hopen : closes req.clientFd (s.log req.clientFd) = 0 := by
    have hle : (s.worker k).owns req.clientFd ≤ s.servedCount req.clientFd :=
      le_sum_pool (Worker.owns req.clientFd) s.worker k
    have howned := h.owned req.clientFd
    simp only [ownersCount] at howned
    split at howned <;> omega
  refine ⟨h.parser_ok, ?_, ?_, perform_proper h c hguar hopen⟩
  · intro j req' held' todo hj
    rcases setWorker_busy hj with ⟨rfl, hw⟩ | ⟨-, hold⟩
    · obtain ⟨rfl, -, rfl⟩ := Worker.resume_busy hw
      rcases hlets.cases with ⟨-, a, hret⟩ | ⟨hmine, -⟩
      · rw [hret] at hw
        cases hw
      · rwa [hmine] at hlets
    · exact h.worker_ok j req' held' todo hold
  · intro fd'
    have hserved := servedCount_setWorker (s.perform req.clientFd e (s.answer c e)) k
      (.resume req (held && !e.releases) (next (s.answer c e))) fd'
    rw [Worker.resume_owns hlets, worker_perform, hbusy] at hserved
    have hmoved := perform_owned s c hguar fd'
    have howned := h.owned fd'
    change _ = if fd' ∈ s.accepted then 1 else 0
    rw [← howned]
    simp only [ownersCount]
    change s.waitingCount fd' + s.parsingCount fd' +
      (s.perform req.clientFd e (s.answer c e)).queuedCount fd' + _ +
      closes fd' ((s.perform req.clientFd e (s.answer c e)).log fd') = _
    change _ + weight req.clientFd fd' = s.servedCount fd' + _ at hserved
    omega

theorem accept_sockets (h : s.Sockets) {fd : Fd} (hnew : fd ∉ s.accepted) :
    Sockets { s with
      fdQueue := { s.fdQueue with queue := s.fdQueue.queue ++ [fd] }
      accepted := s.accepted ++ [fd] } where
  parser_ok := h.parser_ok
  worker_ok := h.worker_ok
  owned fd' := by
    have howned := h.owned fd'
    simp only [ownersCount] at howned ⊢
    change (s.fdQueue.queue ++ [fd]).count fd' + s.parsingCount fd' + s.queuedCount fd' +
      s.servedCount fd' + closes fd' (s.log fd') = _
    have hwaiting : (s.fdQueue.queue ++ [fd]).count fd' = s.waitingCount fd' + weight fd fd' := by
      simp only [waitingCount, List.count_append, List.count_singleton, beq_iff_eq, weight]
    rw [hwaiting]
    by_cases hfd : fd = fd'
    · subst hfd
      rw [if_neg hnew] at howned
      simp only [weight, ↓reduceIte, List.mem_append, List.mem_singleton, or_true]
      omega
    · have hmem : fd' ∈ s.accepted ++ [fd] ↔ fd' ∈ s.accepted := by
        simp [Ne.symm hfd]
      simp only [weight, if_neg hfd, hmem]
      omega
  proper := h.proper

theorem step_sockets {l : Label P W} (h : s.Sockets) (hstep : s.step cfg l = some t) :
    t.Sockets := by
  cases step_cases hstep with
  | accept fd hnew hopen => exact accept_sockets h hnew
  | stopAccepting => exact ⟨h.1, h.2, h.3, h.4⟩
  | parserTake k fd rest hidle hq => exact parserTake_sockets h hidle hq
  | parserExit k hidle hq hclosed =>
      refine ⟨?_, h.worker_ok, ?_, h.proper⟩
      · intro j fd todo hj
        rcases setParser_busy hj with ⟨rfl, hp⟩ | ⟨-, hold⟩
        · cases hp
        · exact h.parser_ok j fd todo hold
      · intro fd
        have hparsing := parsingCount_setParser s k .exited fd
        rw [hidle] at hparsing
        have howned := h.owned fd
        simp only [ownersCount] at howned ⊢
        change s.waitingCount fd + _ + s.queuedCount fd + s.servedCount fd + _ = _
        rw [Nat.add_right_cancel hparsing]
        exact howned
  | parserCall k c fd e next hbusy => exact parserCall_sockets h c hbusy
  | workerTake k d request q hidle hpop hreq hbudget hnext =>
      refine workerTake_sockets h hidle hpop ?_
      rw [hreq]
      exact (cfg.scheduler.getBudget_same request).clientFd
  | workerExit k hidle hq hclosed hinflight =>
      refine ⟨h.parser_ok, ?_, ?_, h.proper⟩
      · intro j req held todo hj
        rcases setWorker_busy hj with ⟨rfl, hw⟩ | ⟨-, hold⟩
        · cases hw
        · exact h.worker_ok j req held todo hold
      · intro fd
        have hserved := servedCount_setWorker s k .exited fd
        rw [hidle] at hserved
        have howned := h.owned fd
        simp only [ownersCount] at howned ⊢
        change s.waitingCount fd + s.parsingCount fd + s.queuedCount fd + _ + _ = _
        rw [Nat.add_right_cancel hserved]
        exact howned
  | workerCall k c req held e next hbusy => exact workerCall_sockets h c hbusy
  | closeQueue => exact ⟨h.1, h.2, h.3, h.4⟩

theorem run_sockets {A : Sys P W → Label P W → Prop} (h : s.Sockets)
    (hrun : RunWhere cfg A s t) : t.Sockets :=
  hrun.invariant Sockets h fun _ _ _ hinv _ hstep => step_sockets hinv hstep

/-! ## Exits -/

theorem setParser_exited {k j : Fin P} {p : Parser} (hp : p ≠ .exited)
    (h : (s.setParser k p).parser j = .exited) : s.parser j = .exited := by
  by_cases hjk : j = k
  · subst hjk
    simp only [setParser, Function.update_self] at h
    exact absurd h hp
  · simpa [setParser, Function.update_of_ne hjk] using h

theorem parser_resume_ne_exited (fd : Fd) (p : Server Unit) : Parser.resume fd p ≠ .exited := by
  cases p <;> simp [Parser.resume]

/-- A parser leaves only when nothing waits and nothing more will. -/
theorem step_unattended {l : Label P W} (hstep : s.step cfg l = some t)
    (h : ∀ k, s.parser k = .exited → s.fdQueue.closed = true ∧ s.fdQueue.queue = []) (k : Fin P)
    (hk : t.parser k = .exited) : t.fdQueue.closed = true ∧ t.fdQueue.queue = [] := by
  cases step_cases hstep with
  | accept fd hnew hopen =>
      have hclosed := (h k hk).1
      rw [hopen] at hclosed
      cases hclosed
  | stopAccepting => exact ⟨rfl, (h k hk).2⟩
  | parserTake j fd rest hidle hq =>
      have hempty := (h k (setParser_exited (parser_resume_ne_exited _ _) hk)).2
      rw [hq] at hempty
      cases hempty
  | parserExit j hidle hq hclosed => exact ⟨hclosed, hq⟩
  | parserCall j c fd e next hbusy =>
      have hk' := setParser_exited (parser_resume_ne_exited _ _) hk
      rw [parser_perform] at hk'
      exact h k hk'
  | _ => exact h k hk

theorem run_unattended {dir : Directory}
    (hrun : RunWhere cfg (fun _ _ => True) (init P W dir) t) {k : Fin P}
    (hk : t.parser k = .exited) : t.fdQueue.closed = true ∧ t.fdQueue.queue = [] :=
  hrun.invariant (fun s => ∀ k, s.parser k = .exited →
      s.fdQueue.closed = true ∧ s.fdQueue.queue = [])
    (fun _ h => by cases h) (fun _ _ _ h _ hstep => step_unattended hstep h) k hk

/-- When all parsers and all workers have left, nobody owns a socket. -/
theorem run_unowned {dir : Directory} (hP : 0 < P) (hW : 0 < W)
    (hrun : RunWhere cfg (fun _ _ => True) (init P W dir) t)
    (hparser : ∀ k, t.parser k = .exited) (hworker : ∀ k, t.worker k = .exited) (fd : Fd) :
    t.ownersCount fd = 0 := by
  have hfds := (run_unattended hrun (hparser ⟨0, hP⟩)).2
  have hrequests := (run_drained hrun (hworker ⟨0, hW⟩)).empty
  simp [ownersCount, waitingCount, parsingCount, queuedCount, servedCount, hfds, hrequests,
    hparser, hworker, Parser.owns, Worker.owns]

end Sys

end LinkScheduling
