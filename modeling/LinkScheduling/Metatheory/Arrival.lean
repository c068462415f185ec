import LinkScheduling.Metatheory.Fairness
import LinkScheduling.Metatheory.Log

/-!
# Arrival order under FCFS

A parser stamps `arrival_ns` in one step and pushes the request in a later one, so two
parsers may push in the other order. While they do not, the requests that were never
dispatched stand in the queue in the order of their stamps.
-/

namespace LinkScheduling

open Framework

/-! ## The stamp -/

/-- The ghost state is the answer of the last call if it was a look at the clock: a
request is pushed with the stamp just taken. -/
def stamping : Contract Eff Resp (Option ℕ) where
  guarantee g e := match e with
    | .push req => g = some req.arrivalNs
    | _ => True
  rely _ _ _ := True
  next _ e r := match e, r with
    | .now, t => some t
    | _, _ => none

/-- A program that never pushes. -/
def Eff.pushless : Eff → Prop
  | .push _ => False
  | _ => True

theorem stamping_of_pushless {α : Type} {p : Server α} {Q : α → Prop}
    (h : p.Only Eff.pushless Q) (g : Option ℕ) : p.wp stamping (fun a _ => Q a) g := by
  induction p generalizing g with
  | ret a => exact h
  | call e next ih =>
      refine ⟨?_, fun r _ => ih r (h.2 r) _⟩
      cases e <;> first | trivial | exact h.1.elim

theorem rejectClient_stamping (fd : Fd) (reason : Bytes) (g : Option ℕ) :
    (rejectClient fd reason).wp stamping (fun _ _ => True) g :=
  ⟨trivial, fun _ _ => ⟨trivial, fun _ _ => trivial⟩⟩

theorem admitRequest_stamping (fd : Fd) (req : Request) (g : Option ℕ) :
    (admitRequest fd req).wp stamping (fun _ _ => True) g := by
  simp only [admitRequest, perform, Prog.wp_bind, Prog.wp_perform]
  refine ⟨trivial, fun id _ => ⟨trivial, fun arrival _ => ⟨rfl, ?_⟩⟩⟩
  rintro (_ | _) -
  · exact rejectClient_stamping fd _ _
  · trivial

theorem readHeaderLoop_pushless (fd : Fd) (deadline : ℕ) :
    ∀ (fuel : ℕ) (line : Bytes),
      (readHeaderLoop fd deadline fuel line).Only Eff.pushless (fun _ => True)
  | 0, _ => trivial
  | fuel + 1, line => by
      unfold readHeaderLoop
      split
      · trivial
      simp only [perform, Prog.only_bind, Prog.only_perform]
      refine ⟨trivial, fun now => ?_⟩
      split
      · trivial
      simp only [Prog.only_bind, Prog.only_perform]
      refine ⟨trivial, fun answer => ?_⟩
      rcases answer with _ | _ | ⟨b, buffer⟩
      · trivial
      · trivial
      · simp only
        split
        · trivial
        · exact readHeaderLoop_pushless fd deadline fuel _

theorem parserClient_stamping (cfg : Config) (fd : Fd) :
    (parserClient cfg fd).wp stamping (fun _ _ => True) none := by
  unfold parserClient
  rw [Prog.wp_bind]
  have hread : (readHeaderLine fd 1000).wp stamping (fun _ _ => True) none := by
    refine stamping_of_pushless ?_ none
    simp only [readHeaderLine, perform, Prog.only_bind, Prog.only_perform]
    exact ⟨trivial, fun start => readHeaderLoop_pushless fd _ 8192 []⟩
  refine Prog.wp_mono hread ?_
  rintro ⟨header, leftover⟩ g -
  simp only
  split
  · exact rejectClient_stamping fd _ _
  split
  · exact rejectClient_stamping fd _ _
  split
  · exact ⟨trivial, fun _ _ => ⟨trivial, fun _ _ => ⟨trivial, fun _ _ => trivial⟩⟩⟩
  split
  · exact rejectClient_stamping fd _ _
  split
  · simp only [fileExists, getFileSize, perform, Prog.wp_bind, Prog.wp_perform, Prog.wp_pure]
    refine ⟨trivial, fun found _ => ?_⟩
    split
    · simp only [Prog.wp_bind, Prog.wp_perform, Prog.wp_pure]
      exact ⟨trivial, fun size _ => admitRequest_stamping fd _ _⟩
    · exact rejectClient_stamping fd _ _
  · exact admitRequest_stamping fd _ _

/-! ## Waiting requests -/

def Eff.pushes : Eff → List Request
  | .push req => [req]
  | _ => []

namespace Sys

variable {P W : ℕ} {cfg : Config} {dir : Directory} {s t : Sys P W}

/-- `a` has its stamp and was not pushed yet. -/
def OnItsWay (s : Sys P W) (a : Request) : Prop :=
  ∃ k fd next, s.parser k = .busy fd (.call (.push a) next)

/-- The requests in the queue that no worker has taken yet; what comes back into the
queue was put there by `requeue`. -/
def undispatched (s : Sys P W) : List Request :=
  s.requestQueue.queue.filter fun r => requeues (s.log r.clientFd) = 0

/-- If a request is dispatched for the first time now, no request with a smaller stamp
is waiting in the queue or on its way to it. -/
def InArrivalOrder (cfg : Config) (s : Sys P W) : Prop :=
  ∀ d q, cfg.scheduler.next s.requestQueue = some (d, q) →
    requeues (s.log d.request.clientFd) = 0 →
    ∀ a, a ∈ s.undispatched ∨ s.OnItsWay a → ¬ a.arrivalNs < d.request.arrivalNs

/-- A request is pushed only when no request with a smaller stamp is on its way. -/
def PushesInOrder (s : Sys P W) (l : Label P W) : Prop :=
  ∀ fd req ok, s.callOf l = some (fd, ⟨.push req, ok⟩) →
    ∀ a, s.OnItsWay a → ¬ a.arrivalNs < req.arrivalNs

structure Stamped (s : Sys P W) : Prop where
  parser : ∀ k fd todo, s.parser k = .busy fd todo →
    ∃ g, todo.wp stamping (fun _ _ => True) g ∧ ∀ time, g = some time → time ≤ s.clock
  past : ∀ r ∈ s.undispatched, r.arrivalNs ≤ s.clock
  sorted : s.undispatched.Pairwise fun a b => a.arrivalNs ≤ b.arrivalNs
  ahead : ∀ r ∈ s.undispatched, ∀ a, s.OnItsWay a → r.arrivalNs ≤ a.arrivalNs

theorem init_stamped (dir : Directory) : (init P W dir).Stamped where
  parser k fd todo h := by simp [init] at h
  past r hr := by simp [undispatched, init] at hr
  sorted := by simp [undispatched, init]
  ahead r hr := by simp [undispatched, init] at hr

theorem Stamped.onItsWay_le (h : s.Stamped) {a : Request} (ha : s.OnItsWay a) :
    a.arrivalNs ≤ s.clock := by
  obtain ⟨k, fd, next, hbusy⟩ := ha
  obtain ⟨g, hwp, hg⟩ := h.parser k fd _ hbusy
  exact hg _ hwp.1

/-- What a step may leave: a shorter queue, later clock and no new request on its way. -/
theorem Stamped.shrink (h : s.Stamped) (hclock : s.clock ≤ t.clock)
    (hqueue : t.undispatched.Sublist s.undispatched)
    (hway : ∀ a, t.OnItsWay a → s.OnItsWay a ∨ a.arrivalNs = t.clock)
    (hparser : ∀ k fd todo, t.parser k = .busy fd todo →
      ∃ g, todo.wp stamping (fun _ _ => True) g ∧ ∀ time, g = some time → time ≤ t.clock) :
    t.Stamped where
  parser := hparser
  past r hr := (h.past r (hqueue.subset hr)).trans hclock
  sorted := h.sorted.sublist hqueue
  ahead r hr a ha := by
    rcases hway a ha with ha | ha
    · exact h.ahead r (hqueue.subset hr) a ha
    · rw [ha]
      exact (h.past r (hqueue.subset hr)).trans hclock

/-- A push puts its request behind all others. -/
theorem Stamped.pushed (h : s.Stamped) {req : Request} (hreq : s.OnItsWay req)
    (hfirst : ∀ a, s.OnItsWay a → ¬ a.arrivalNs < req.arrivalNs) (hclock : t.clock = s.clock)
    (hqueue : t.undispatched.Sublist (s.undispatched ++ [req]))
    (hway : ∀ a, t.OnItsWay a → s.OnItsWay a)
    (hparser : ∀ k fd todo, t.parser k = .busy fd todo →
      ∃ g, todo.wp stamping (fun _ _ => True) g ∧ ∀ time, g = some time → time ≤ t.clock) :
    t.Stamped where
  parser := hparser
  past r hr := by
    rw [hclock]
    rcases List.mem_append.mp (hqueue.subset hr) with hr | hr
    · exact h.past r hr
    · rw [List.mem_singleton.mp hr]
      exact h.onItsWay_le hreq
  sorted := by
    refine List.Pairwise.sublist hqueue (List.pairwise_append.mpr ⟨h.sorted, ?_, ?_⟩)
    · exact List.pairwise_singleton _ _
    · intro r hr a ha
      rw [List.mem_singleton.mp ha]
      exact h.ahead r hr req hreq
  ahead r hr a ha := by
    rcases List.mem_append.mp (hqueue.subset hr) with hr | hr
    · exact h.ahead r hr a (hway a ha)
    · rw [List.mem_singleton.mp hr]
      exact Nat.not_lt.mp (hfirst a (hway a ha))

/-! ## The steps -/

theorem undispatched_sublist (hqueue : t.requestQueue.queue.Sublist s.requestQueue.queue)
    (hlog : ∀ fd, requeues (s.log fd) ≤ requeues (t.log fd)) :
    t.undispatched.Sublist s.undispatched := by
  refine (hqueue.filter _).trans (List.monotone_filter_right _ fun r hr => ?_)
  have hzero : requeues (t.log r.clientFd) = 0 := by simpa using hr
  have hle := hlog r.clientFd
  simpa using Nat.le_zero.mp (hzero ▸ hle)

theorem requeues_perform_le (s : Sys P W) (fd fd' : Fd) (e : Eff) (r : Resp e) :
    requeues (s.log fd') ≤ requeues ((s.perform fd e r).log fd') := by
  rw [log_perform, requeues_append]
  exact Nat.le_add_right _ _

/-- A call adds to the undispatched requests only what it pushes. -/
theorem undispatched_perform (s : Sys P W) (fd : Fd) (e : Eff) (r : Resp e)
    (hown : ∀ later, e = .requeue later → later.clientFd = fd) :
    (s.perform fd e r).undispatched.Sublist (s.undispatched ++ e.pushes) := by
  have hkept : ((s.requestQueue.queue).filter fun a =>
      requeues ((s.perform fd e r).log a.clientFd) = 0).Sublist s.undispatched := by
    refine List.monotone_filter_right _ fun a ha => ?_
    have hzero : requeues ((s.perform fd e r).log a.clientFd) = 0 := by simpa using ha
    have hle := requeues_perform_le s fd a.clientFd e r
    simpa using Nat.le_zero.mp (hzero ▸ hle)
  have hsame : (s.perform fd e r).requestQueue.queue = s.requestQueue.queue →
      (s.perform fd e r).undispatched.Sublist (s.undispatched ++ e.pushes) := by
    intro hqueue
    unfold undispatched
    rw [hqueue]
    exact hkept.trans (List.sublist_append_left _ _)
  cases e with
  | push req =>
      by_cases hclosed : s.requestQueue.closed = true
      · exact hsame (by simp [perform, Eff.onQueue, RequestQueue.push, hclosed])
      · have hqueue : (s.perform fd (.push req) r).requestQueue.queue =
            s.requestQueue.queue ++ [req] := by
          simp [perform, Eff.onQueue, RequestQueue.push, hclosed]
        unfold undispatched
        rw [hqueue, List.filter_append]
        exact hkept.append List.filter_sublist
  | requeue later =>
      have hqueue : (s.perform fd (.requeue later) r).requestQueue.queue =
          s.requestQueue.queue ++ [later] := rfl
      have hgone : [later].filter (fun a =>
          requeues ((s.perform fd (.requeue later) r).log a.clientFd) = 0) = [] := by
        rw [List.filter_cons_of_neg, List.filter_nil]
        rw [hown later rfl, log_perform, requeues_append]
        simp [Eff.requeued]
      unfold undispatched
      rw [hqueue, List.filter_append, hgone, List.append_nil]
      exact hkept.trans (List.sublist_append_left _ _)
  | _ => exact hsame rfl

theorem clock_perform_le (s : Sys P W) (fd : Fd) (c : Choice) (e : Eff) :
    s.clock ≤ (s.perform fd e (s.answer c e)).clock := by
  cases e with
  | now => exact Nat.le_add_right _ _
  | _ => exact le_rfl

theorem parserCall_stamped (hwf : s.WellFormed) (h : s.Stamped) {k : Fin P} (c : Choice)
    {fd : Fd} {e : Eff} {next : Resp e → Server Unit}
    (hbusy : s.parser k = .busy fd (.call e next))
    (hfirst : ∀ req, e = .push req → ∀ a, s.OnItsWay a → ¬ a.arrivalNs < req.arrivalNs) :
    ((s.perform fd e (s.answer c e)).setParser k
      (.resume fd (next (s.answer c e)))).Stamped := by
  set t := (s.perform fd e (s.answer c e)).setParser k (.resume fd (next (s.answer c e))) with ht
  obtain ⟨g, ⟨hcall, hnext⟩, hg⟩ := h.parser k fd _ hbusy
  have hclock : s.clock ≤ t.clock := clock_perform_le s fd c e
  -- the new ghost state is a stamp only right after a look at the clock
  have hstamp : ∀ time, stamping.next g e (s.answer c e) = some time →
      e = .now ∧ time = t.clock := by
    intro time htime
    cases e with
    | now => exact ⟨rfl, (Option.some.inj htime).symm⟩
    | _ => cases htime
  have hparser : ∀ j fd' todo, t.parser j = .busy fd' todo →
      ∃ g, todo.wp stamping (fun _ _ => True) g ∧ ∀ time, g = some time → time ≤ t.clock := by
    intro j fd' todo hj
    rcases setParser_busy hj with ⟨-, hj⟩ | ⟨-, hj⟩
    · obtain ⟨-, rfl⟩ := Parser.resume_busy hj
      exact ⟨_, hnext _ trivial, fun time htime => (hstamp time htime).2.le⟩
    · obtain ⟨g', hwp, hg'⟩ := h.parser j fd' todo hj
      exact ⟨g', hwp, fun time htime => (hg' time htime).trans hclock⟩
  have hway : ∀ a, t.OnItsWay a → s.OnItsWay a ∨ e = .now ∧ a.arrivalNs = t.clock := by
    rintro a ⟨j, fd', next', hj⟩
    rcases setParser_busy hj with ⟨-, hj⟩ | ⟨-, hj⟩
    · obtain ⟨-, hpush⟩ := Parser.resume_busy hj
      have hwp := hnext (s.answer c e) trivial
      rw [← hpush] at hwp
      exact Or.inr (hstamp _ hwp.1)
    · exact Or.inl ⟨j, fd', next', hj⟩
  have hown : ∀ later, e = .requeue later → later.clientFd = fd := by
    rintro later rfl
    exact (hwf.parser_ok k fd _ hbusy).1.2.elim
  have hqueue : t.undispatched.Sublist (s.undispatched ++ e.pushes) :=
    undispatched_perform s fd e _ hown
  by_cases hpush : ∃ req, e = .push req
  · obtain ⟨req, rfl⟩ := hpush
    refine h.pushed ⟨k, fd, next, hbusy⟩ (hfirst req rfl) rfl hqueue (fun a ha => ?_) hparser
    rcases hway a ha with ha | ⟨hnow, -⟩
    · exact ha
    · cases hnow
  · have hnone : e.pushes = [] := by
      cases e with
      | push req => exact absurd ⟨req, rfl⟩ hpush
      | _ => rfl
    rw [hnone, List.append_nil] at hqueue
    refine h.shrink hclock hqueue (fun a ha => ?_) hparser
    rcases hway a ha with ha | ⟨-, ha⟩
    · exact Or.inl ha
    · exact Or.inr ha

theorem workerCall_stamped (hwf : s.WellFormed) (h : s.Stamped) {k : Fin W} (c : Choice)
    {req : Request} {held : Bool} {e : Eff} {next : Resp e → Server Unit}
    (hbusy : s.worker k = .busy req held (.call e next)) :
    ((s.perform req.clientFd e (s.answer c e)).setWorker k
      (.resume req (held && !e.releases) (next (s.answer c e)))).Stamped := by
  have hcall : (∀ later, e = .requeue later → later.clientFd = req.clientFd) ∧
      e.pushes = [] := by
    have hok := (hwf.worker_ok k req held _ hbusy).1
    cases held with
    | false =>
        change e = .closeSocket req.clientFd at hok
        subst hok
        exact ⟨by simp, rfl⟩
    | true =>
        change e.servingCall req _ at hok
        cases e with
        | requeue later => exact ⟨by rintro _ ⟨⟩; exact hok.1.clientFd, rfl⟩
        | push later => exact hok.elim
        | _ => exact ⟨by simp, rfl⟩
  have hclock := clock_perform_le s req.clientFd c e
  have hqueue := undispatched_perform s req.clientFd e (s.answer c e) hcall.1
  rw [hcall.2, List.append_nil] at hqueue
  refine h.shrink hclock hqueue (fun a ha => Or.inl ha) fun j fd todo hj => ?_
  obtain ⟨g, hwp, hg⟩ := h.parser j fd todo hj
  exact ⟨g, hwp, fun time htime => (hg time htime).trans hclock⟩

theorem step_stamped (hpolicy : cfg.scheduler.policy = .FCFS) (hwf : s.WellFormed)
    (h : s.Stamped) {l : Label P W} (horder : s.PushesInOrder l)
    (hstep : s.step cfg l = some t) : t.Stamped := by
  cases step_cases hstep with
  | accept fd hnew hopen => exact ⟨h.1, h.2, h.3, h.4⟩
  | stopAccepting => exact ⟨h.1, h.2, h.3, h.4⟩
  | parserTake k fd rest hidle hq =>
      have hstart := parserClient_stamping cfg fd
      refine h.shrink le_rfl (List.Sublist.refl _) ?_ fun j fd' todo hj => ?_
      · rintro a ⟨j, fd', next, hj⟩
        rcases setParser_busy hj with ⟨-, hj⟩ | ⟨-, hj⟩
        · obtain ⟨-, hpush⟩ := Parser.resume_busy hj
          rw [← hpush] at hstart
          cases hstart.1
        · exact Or.inl ⟨j, fd', next, hj⟩
      · rcases setParser_busy hj with ⟨-, hj⟩ | ⟨-, hj⟩
        · obtain ⟨-, rfl⟩ := Parser.resume_busy hj
          exact ⟨none, hstart, fun _ hnone => by cases hnone⟩
        · exact h.parser j fd' todo hj
  | parserExit k hidle hq hclosed =>
      refine h.shrink le_rfl (List.Sublist.refl _) ?_ fun j fd' todo hj => ?_
      · rintro a ⟨j, fd', next, hj⟩
        rcases setParser_busy hj with ⟨-, hj⟩ | ⟨-, hj⟩
        · cases hj
        · exact Or.inl ⟨j, fd', next, hj⟩
      · rcases setParser_busy hj with ⟨-, hj⟩ | ⟨-, hj⟩
        · cases hj
        · exact h.parser j fd' todo hj
  | parserCall k c fd e next hbusy =>
      refine parserCall_stamped hwf h c hbusy ?_
      rintro req rfl
      exact horder fd req (s.answer c (.push req)) (by simp [callOf, hbusy])
  | workerTake k d request q hidle hpop hreq hbudget hnext =>
      obtain ⟨request', hqueue, -⟩ := Scheduler.next_head (by simp [hpolicy]) hnext
      refine h.shrink le_rfl (undispatched_sublist ?_ fun _ => le_rfl) (fun a ha => Or.inl ha)
        h.parser
      show q.queue.Sublist s.requestQueue.queue
      rw [hqueue]
      exact List.sublist_cons_self _ _
  | workerExit k hidle hq hclosed hinflight => exact ⟨h.1, h.2, h.3, h.4⟩
  | workerCall k c req held e next hbusy => exact workerCall_stamped hwf h c hbusy
  | closeQueue => exact ⟨h.1, h.2, h.3, h.4⟩

theorem run_stamped (hpolicy : cfg.scheduler.policy = .FCFS)
    (hrun : RunWhere cfg PushesInOrder (init P W dir) s) : s.Stamped := by
  refine hrun.invariant_along Stamped (init_stamped dir) ?_
  intro u l v hrun' hu horder hstep
  exact step_stamped hpolicy (run_wellFormed (init_wellFormed dir) hrun') hu horder hstep

theorem decision_request_fcfs (hpolicy : cfg.scheduler.policy = .FCFS) (request : Request) :
    (cfg.scheduler.decision request).request = request := by
  simp only [Scheduler.decision, Scheduler.getBudget, hpolicy]
  split <;> rfl

/-- **FCFS.** In every run in which no request is pushed past one that has a smaller
stamp and is still on its way, requests are first dispatched in the order of their
stamps. -/
theorem fcfs_in_arrival_order (hpolicy : cfg.scheduler.policy = .FCFS)
    (hrun : RunWhere cfg PushesInOrder (init P W dir) s) : s.InArrivalOrder cfg := by
  have h := run_stamped hpolicy hrun
  intro d q hnext hfirst a ha
  obtain ⟨request, hqueue, rfl⟩ := Scheduler.next_head (by simp [hpolicy]) hnext
  rw [decision_request_fcfs hpolicy] at hfirst ⊢
  -- the head of the queue is the first of the undispatched requests
  have hhead : s.undispatched = request :: q.queue.filter fun r =>
      requeues (s.log r.clientFd) = 0 := by
    unfold undispatched
    rw [hqueue, List.filter_cons_of_pos (by simpa using hfirst)]
  have hmem : request ∈ s.undispatched := by
    rw [hhead]
    exact List.mem_cons_self
  rcases ha with ha | ha
  · have hsorted := h.sorted
    rw [hhead] at hsorted ha
    rcases List.mem_cons.mp ha with rfl | ha
    · exact Nat.lt_irrefl _
    · exact Nat.not_lt.mpr (List.rel_of_pairwise_cons hsorted ha)
  · exact Nat.not_lt.mpr (h.ahead request hmem a ha)

/-! ## Two parsers -/

/-- The stamp of the request parser `k` is about to push. -/
def stampOf (s : Sys P W) (k : Fin P) : Option ℕ :=
  match s.parser k with
  | .busy _ (.call (.push a) _) => some a.arrivalNs
  | _ => none

theorem stampOf_onItsWay {a : Request} (h : s.OnItsWay a) :
    ∃ k, s.stampOf k = some a.arrivalNs := by
  obtain ⟨k, fd, next, hbusy⟩ := h
  exact ⟨k, by simp [stampOf, hbusy]⟩

theorem onItsWay_of_stampOf {k : Fin P} {time : ℕ} (h : s.stampOf k = some time) :
    ∃ a, s.OnItsWay a ∧ a.arrivalNs = time := by
  unfold stampOf at h
  split at h
  · rename_i fd a next hbusy
    exact ⟨a, ⟨k, fd, next, hbusy⟩, Option.some.inj h⟩
  · cases h

/-- A step of a parser that is about to push: no other parser has a smaller stamp. -/
def pushesInOrder (s : Sys P W) : Label P W → Bool
  | .parserCall k _ => (s.stampOf k).all fun time =>
      decide (∀ j, (s.stampOf j).all fun other => !decide (other < time))
  | .workerCall k _ => match s.worker k with
      | .busy _ _ (.call (.push _) _) => false
      | _ => true
  | _ => true

theorem of_pushesInOrder (s : Sys P W) (l : Label P W) (h : s.pushesInOrder l = true) :
    s.PushesInOrder l := by
  intro fd req ok hcall a ha
  cases l with
  | parserCall k c =>
      simp only [callOf] at hcall
      split at hcall
      · rename_i fd' e next hbusy
        obtain ⟨rfl, -⟩ := Event.mk.inj (Prod.mk.inj (Option.some.inj hcall)).2
        obtain ⟨j, hj⟩ := stampOf_onItsWay ha
        have hk : s.stampOf k = some req.arrivalNs := by simp [stampOf, hbusy]
        simp only [pushesInOrder, hk, Option.all_some, decide_eq_true_eq] at h
        simpa [hj] using h j
      · cases hcall
  | workerCall k c =>
      simp only [callOf] at hcall
      split at hcall
      · rename_i req' held e next hbusy
        obtain ⟨rfl, -⟩ := Event.mk.inj (Prod.mk.inj (Option.some.inj hcall)).2
        simp [pushesInOrder, hbusy] at h
      · cases hcall
  | _ => cases hcall

/-- Parser `k` reads a header and stamps the request. -/
def stamps (k : Fin 2) (text : Bytes) (tick : ℕ) : List (Label 2 1) :=
  [.parserCall k {}, .parserCall k {}, .parserCall k { data := some text }, .parserCall k {},
    .parserCall k { tick := tick }]

/-- Two uploads arrive and are stamped one after the other. -/
def twoStamps : List (Label 2 1) :=
  [.accept 7, .accept 8, .parserTake 0, .parserTake 1] ++ stamps 0 (ascii "PUT a 0\n") 0 ++
    stamps 1 (ascii "PUT b 0\n") 1

theorem fcfs_in_arrival_order_two :
    ∃ s : Sys 2 1, RunWhere (plainConfig .FCFS 1 (by decide) (by decide)) PushesInOrder
      (init 2 1 fun _ => none) s ∧ s.requestQueue.queue.map (·.arrivalNs) = [1, 2] ∧
      s.InArrivalOrder (plainConfig .FCFS 1 (by decide) (by decide)) := by
  have hscript : (script (step (plainConfig .FCFS 1 (by decide) (by decide))) pushesInOrder
      (init 2 1 fun _ => none) (twoStamps ++ [.parserCall 0 {}, .parserCall 1 {}])).any
      (fun s => s.requestQueue.queue.map (·.arrivalNs) = [1, 2]) = true := by decide
  obtain ⟨s, hrun, hcheck⟩ := script_exists _ _ of_pushesInOrder hscript
  exact ⟨s, hrun, of_decide_eq_true hcheck, fcfs_in_arrival_order rfl hrun⟩

/-- The parser that stamped second pushes first, and a worker takes its request while
the one stamped before is still on its way. -/
theorem fcfs_overtaken :
    ∃ s : Sys 2 1, RunWhere (plainConfig .FCFS 1 (by decide) (by decide)) (fun _ _ => True)
      (init 2 1 fun _ => none) s ∧ s.worker 0 = .idle ∧
      ¬ s.InArrivalOrder (plainConfig .FCFS 1 (by decide) (by decide)) := by
  have htrue : ∀ (s : Sys 2 1) (l : Label 2 1), (fun _ _ => true) s l = true → True :=
    fun _ _ _ => trivial
  have hscript : (script (step (plainConfig .FCFS 1 (by decide) (by decide))) (fun _ _ => true)
      (init 2 1 fun _ => none) (twoStamps ++ [.parserCall 1 {}])).any
      (fun s => (s.worker 0).isIdle && s.stampOf 0 = some 1 &&
        s.requestQueue.queue.map (fun r => (r.arrivalNs, requeues (s.log r.clientFd))) = [(2, 0)])
      = true := by decide
  obtain ⟨s, hrun, hcheck⟩ := script_exists _ _ htrue hscript
  simp only [Bool.and_eq_true, decide_eq_true_eq] at hcheck
  obtain ⟨⟨hidle, hstamp⟩, hqueue⟩ := hcheck
  obtain ⟨a, ha, hone⟩ := onItsWay_of_stampOf hstamp
  obtain ⟨b, hb, hbq⟩ := List.map_eq_singleton_iff.mp hqueue
  refine ⟨s, hrun, ?_, fun horder => ?_⟩
  · exact Worker.isIdle_iff.mp hidle
  · have hnext : (plainConfig .FCFS 1 (by decide) (by decide)).scheduler.next s.requestQueue =
        some ((plainConfig .FCFS 1 (by decide) (by decide)).scheduler.decision b,
          { s.requestQueue with queue := [], inflight := s.requestQueue.inflight + 1 }) := by
      simp [Scheduler.next, plainConfig, RequestQueue.waitPop, hb, Scheduler.decision]
    obtain ⟨htwo, hzero⟩ := Prod.mk.inj hbq
    have hle := horder _ _ hnext (by rw [decision_request_fcfs rfl]; exact hzero) a (Or.inr ha)
    rw [decision_request_fcfs rfl] at hle
    omega

end Sys

end LinkScheduling
