import LinkScheduling.Metatheory.Drain
import LinkScheduling.Metatheory.Wakeups
import LinkScheduling.Model.Sleeping

/-!
# The sleeping process comes to its end

A process whose threads sleep in `cv_.wait` does what the process of `Model.Process` does, and
no less: where a thread could take something, either it is awake, or another thread that is awake
could, or a notification is owed. So the process rests only where the one without sleepers does,
and after the signal it shuts down.
-/

namespace LinkScheduling

open Framework

namespace Sleeping

variable {P W : ℕ} {cfg : Config} {dir : Directory} {s t : Sleeping P W}

/-- No parser sleeps over a connection, or over the closed queue. -/
abbrev ParsersCovered (v : Condvar (Fin P)) (s : Sys P W) : Prop :=
  v.Covers (fun k => s.parser k = .idle) (fun k => s.parser k ≠ .exited)
    (s.fdQueue.queue ≠ []) (s.fdQueue.closed = true)

/-- No worker sleeps over a request, or over the drained queue. -/
abbrev WorkersCovered (v : Condvar (Fin W)) (s : Sys P W) : Prop :=
  v.Covers (fun k => s.worker k = .idle) (fun k => s.worker k ≠ .exited)
    (s.requestQueue.queue ≠ []) (Monitor.Drained s.requestQueue)

section Threads

variable {server server' : Sys P W} {l : LinkScheduling.Label P W}

theorem idle_of_update {ι α : Type} [DecidableEq ι] {f : ι → α} {k j : ι} {x y : α}
    {asleep : ι → Bool} (hk : asleep k = false) (hj : asleep j = true) (h : f j = y) :
    Function.update f k x j = y := by
  have hjk : j ≠ k := by
    rintro rfl
    rw [hk] at hj
    cases hj
  rw [Function.update_of_ne hjk, h]

theorem update_ne {ι α : Type} [DecidableEq ι] {f : ι → α} {k : ι} {x y : α} (h : x ≠ y) :
    Function.update f k x k ≠ y := by
  rwa [Function.update_self]

/-- A thread that is not at the head of its loop does not sleep. -/
theorem awake_of_busy {ι : Type} {v : Condvar ι} {idle up : ι → Prop} {some all : Prop} {k : ι}
    (h : v.Covers idle up some all) (hk : ¬ idle k) : v.asleep k = false := by
  cases hasleep : v.asleep k with
  | false => rfl
  | true => exact absurd (h.idle k hasleep) hk

theorem thread_parsers {v : Condvar (Fin P)} (h : ParsersCovered v server)
    (hstep : server.step cfg l = some server')
    (haccept : ∀ fd, l ≠ .accept fd) (hstop : l ≠ .stopAccepting)
    (hawake : ∀ k, l = .parserTake k ∨ l = .parserExit k → v.asleep k = false) :
    ParsersCovered v server' := by
  cases Sys.step_cases hstep with
  | accept fd hnew hopen => exact absurd rfl (haccept fd)
  | stopAccepting => exact absurd rfl hstop
  | parserTake k fd rest hidle hq =>
      have hk := hawake k (Or.inl rfl)
      refine h.of_up (fun j hj hidle => idle_of_update hk hj hidle) hk (k := k) ?_ id
      exact update_ne (Sys.parser_resume_ne_exited _ _)
  | parserExit k hidle hq hclosed =>
      have hk := hawake k (Or.inr rfl)
      refine ⟨fun j hj => idle_of_update hk hj (h.idle j hj), fun hsome => absurd hq hsome,
        h.announced⟩
  | parserCall k c fd e next hbusy =>
      have hk : v.asleep k = false := awake_of_busy h (by rw [hbusy]; exact fun hk => by cases hk)
      refine h.of_up (fun j hj hidle => idle_of_update hk hj hidle) hk (k := k) ?_ id
      exact update_ne (Sys.parser_resume_ne_exited _ _)
  | workerTake k d request q hidle hpop hreq hbudget hnext => exact h
  | workerExit k hidle hq hclosed hinflight => exact h
  | workerCall k c req held e next hbusy => exact h
  | closeQueue => exact h

/-- Every call that makes something to do notifies. -/
theorem call_workers {v : Condvar (Fin W)} (h : WorkersCovered v server) (c : Choice) (e : Eff)
    {worker : Fin W → Worker}
    (hidle : ∀ k, v.asleep k = true → server.worker k = .idle → worker k = .idle)
    (hup : ∀ k, v.asleep k = false → server.worker k ≠ .exited → worker k ≠ .exited)
    (hcomplete : ∀ exit, e = .complete exit → ∃ k, worker k ≠ .exited) :
    (notifies v ⟨e, server.answer c e⟩).Covers (fun k => worker k = .idle)
      (fun k => worker k ≠ .exited) ((e.onQueue server.requestQueue).queue ≠ [])
      (Monitor.Drained (e.onQueue server.requestQueue)) := by
  cases e with
  | push req =>
      cases hclosed : server.requestQueue.closed with
      | true =>
          have hpush : server.requestQueue.push req = (false, server.requestQueue) := by
            rw [RequestQueue.push, if_pos hclosed]
          simp only [Sys.answer, Eff.onQueue, hpush]
          exact h.mono hidle hup id id
      | false =>
          have hpush : server.requestQueue.push req = (true, { server.requestQueue with
              queue := server.requestQueue.queue ++ [req] }) := by
            rw [RequestQueue.push, if_neg (by rw [hclosed]; exact Bool.false_ne_true)]
          simp only [Sys.answer, Eff.onQueue, hpush]
          exact h.oweOne hidle fun hdrained => absurd hdrained.2.1 (by simp)
  | requeue req =>
      refine h.oweOne hidle fun hdrained => absurd hdrained.2.1 ?_
      simp [Eff.onQueue, RequestQueue.requeue]
  | complete exit =>
      obtain ⟨k, hk⟩ := hcomplete exit rfl
      exact .wakeAll hk
  | _ => exact h.mono hidle hup id id

theorem thread_workers {process : Process P W} {v : Condvar (Fin W)}
    (h : WorkersCovered v process.server) (hwf : process.server.WellFormed)
    (hstep : process.server.step cfg l = some server')
    (hawake : ∀ k, l = .workerTake k ∨ l = .workerExit k → v.asleep k = false) :
    WorkersCovered (owesWorkers process v (.thread l)) server' := by
  cases Sys.step_cases hstep with
  | accept fd hnew hopen => exact h
  | stopAccepting => exact h
  | parserTake k fd rest hidle hq => exact h
  | parserExit k hidle hq hclosed => exact h
  | parserCall k c fd e next hbusy =>
      have hcall : process.server.callOf (.parserCall k c) =
          some (fd, ⟨e, process.server.answer c e⟩) := by
        simp only [Sys.callOf, hbusy]
      simp only [owesWorkers, hcall]
      refine call_workers h c e (fun _ _ hidle => hidle) (fun _ _ hup => hup) ?_
      -- a parser completes nothing
      rintro exit rfl
      exact (hwf.parser_ok k fd _ hbusy).1.2.elim
  | workerTake k d request q hidle hpop hreq hbudget hnext =>
      have hk := hawake k (Or.inl rfl)
      refine h.of_up (fun j hj hidle => idle_of_update hk hj hidle) hk (k := k) ?_ ?_
      · exact update_ne (Sys.resume_ne_exited _ _ _)
      · -- the request that was taken is in flight
        rintro ⟨-, -, hzero⟩
        exact absurd (hpop.inflight.symm.trans hzero) (Nat.succ_ne_zero _)
  | workerExit k hidle hq hclosed hinflight =>
      have hk := hawake k (Or.inr rfl)
      refine ⟨fun j hj => idle_of_update hk hj (h.idle j hj), fun hsome => absurd hq hsome,
        h.announced⟩
  | workerCall k c req held e next hbusy =>
      have hk : v.asleep k = false := awake_of_busy h (by rw [hbusy]; exact fun hk => by cases hk)
      have hcall : process.server.callOf (.workerCall k c) =
          some (req.clientFd, ⟨e, process.server.answer c e⟩) := by
        simp only [Sys.callOf, hbusy]
      simp only [owesWorkers, hcall]
      have hresume : Function.update process.server.worker k
          (.resume req (held && !e.releases) (next (process.server.answer c e))) k ≠ .exited :=
        update_ne (Sys.resume_ne_exited _ _ _)
      refine call_workers h c e (fun j hj hidle => idle_of_update hk hj hidle) ?_
        fun _ _ => ⟨k, hresume⟩
      intro j _ hj
      by_cases hjk : j = k
      · exact hjk ▸ hresume
      · change Function.update process.server.worker k _ j ≠ .exited
        rwa [Function.update_of_ne hjk]
  | closeQueue => exact h.oweAll fun _ _ hidle => hidle

end Threads

/-! ## Steps -/

structure Inv (cfg : Config) (dir : Directory) (s : Sleeping P W) : Prop where
  process : Process.Reachable cfg dir s.process
  parsers : ParsersCovered s.parsers s.process.server
  workers : WorkersCovered s.workers s.process.server

theorem start_inv : Inv cfg dir (start P W dir) where
  process := .refl _
  parsers := .start fun h => h rfl
  workers := .start fun h => h rfl

/-- Nobody has left while there is a connection to take. -/
theorem parsers_up {process : Process P W} (hreach : Process.Reachable cfg dir process)
    (hq : process.server.fdQueue.queue ≠ []) (k : Fin P) : process.server.parser k ≠ .exited :=
  fun hk => hq (Sys.run_unattended (Process.reachable_inv hreach).server hk).2

theorem workers_up {process : Process P W} (hreach : Process.Reachable cfg dir process)
    (hq : process.server.requestQueue.queue ≠ []) (k : Fin W) :
    process.server.worker k ≠ .exited :=
  fun hk => hq (Sys.run_drained (Process.reachable_inv hreach).server hk).empty

theorem permits_awake {l : LinkScheduling.Label P W} (h : s.permits (.thread l) = true) :
    (∀ k, l = .parserTake k ∨ l = .parserExit k → s.parsers.asleep k = false) ∧
      (∀ k, l = .workerTake k ∨ l = .workerExit k → s.workers.asleep k = false) := by
  constructor
  · rintro k (rfl | rfl)
    · simpa [permits] using h
    · simpa [permits] using h
  · rintro k (rfl | rfl)
    · simpa [permits] using h
    · simpa [permits] using h

theorem run_covered {l : Process.Label P W} {process : Process P W} (h : Inv cfg dir s)
    (hpermits : s.permits l = true) (hstep : s.process.step cfg l = some process) :
    ParsersCovered (owesParsers s.process s.parsers l) process.server ∧
      WorkersCovered (owesWorkers s.process s.workers l) process.server := by
  have hinv := Process.reachable_inv h.process
  cases l with
  | signal =>
      cases hstep
      exact ⟨h.parsers, h.workers⟩
  | push =>
      simp only [Process.step] at hstep
      split at hstep
      · rename_i fd hacc
        have hopen : s.process.server.fdQueue.closed = false := by
          cases hclosed : s.process.server.fdQueue.closed with
          | false => rfl
          | true =>
              have hexited := hinv.closed hclosed
              rw [hacc] at hexited
              cases hexited
        have hpush : s.process.server.fdQueue.push fd = (true, { s.process.server.fdQueue with
            queue := s.process.server.fdQueue.queue ++ [fd] }) := by
          rw [FdQueue.push, if_neg (by rw [hopen]; exact Bool.false_ne_true)]
        simp only [hpush] at hstep
        cases hstep
        refine ⟨?_, h.workers⟩
        rw [owesParsers, if_neg (by rw [hopen]; exact Bool.false_ne_true)]
        exact h.parsers.oweOne (fun _ _ hidle => hidle) id
      · cases hstep
  | refuse =>
      simp only [Process.step] at hstep
      split at hstep
      · rename_i fd hrefused
        exact absurd hrefused (hinv.pushed fd)
      · cases hstep
  | leave =>
      simp only [Process.step, Option.ite_none_right_eq_some, Option.some.injEq] at hstep
      obtain ⟨-, rfl⟩ := hstep
      exact ⟨h.parsers.oweAll fun _ _ hidle => hidle, h.workers⟩
  | thread l =>
      simp only [Process.step, Option.ite_none_right_eq_some, Option.map_eq_some_iff] at hstep
      obtain ⟨hmain, server, hserver, rfl⟩ := hstep
      obtain ⟨hparsers, hworkers⟩ := permits_awake hpermits
      have hwf := Sys.run_wellFormed (Sys.init_wellFormed dir) hinv.server
      refine ⟨thread_parsers h.parsers hserver ?_ ?_ hparsers,
        thread_workers h.workers hwf hserver hworkers⟩
      · rintro fd rfl
        cases hmain
      · rintro rfl
        cases hmain
  | _ =>
      simp only [Process.step, Option.ite_none_right_eq_some, Option.some.injEq] at hstep
      obtain ⟨-, rfl⟩ := hstep
      exact ⟨h.parsers, h.workers⟩

theorem step_inv (hP : 0 < P) (hW : 0 < W) {l : Label P W} (h : Inv cfg dir s)
    (hstep : s.step cfg l = some t) : Inv cfg dir t := by
  have : Nonempty (Fin P) := ⟨⟨0, hP⟩⟩
  have : Nonempty (Fin W) := ⟨⟨0, hW⟩⟩
  cases l with
  | run l =>
      simp only [step, Option.ite_none_right_eq_some, Option.map_eq_some_iff] at hstep
      obtain ⟨hpermits, process, hprocess, rfl⟩ := hstep
      obtain ⟨hparsers, hworkers⟩ := run_covered h hpermits hprocess
      exact ⟨.tail h.process trivial hprocess, hparsers, hworkers⟩
  | parserSleep k =>
      simp only [step] at hstep
      split at hstep
      · rename_i hidle
        split at hstep
        · cases hstep
        · rename_i hwait
          cases hstep
          rw [FdQueue.waitPredicate, Bool.or_eq_true, not_or] at hwait
          refine ⟨h.process, h.parsers.sleep hidle ?_ hwait.2, h.workers⟩
          simpa using hwait.1
      · cases hstep
  | parserWake k =>
      cases hstep
      exact ⟨h.process, h.parsers.wake, h.workers⟩
  | parserNotifyOne target =>
      obtain ⟨parsers, hnotify, rfl⟩ := Option.map_eq_some_iff.mp hstep
      refine ⟨h.process, h.parsers.notifyOne ?_ (parsers_up h.process) hnotify, h.workers⟩
      intro k hidle
      rw [hidle]
      exact fun hk => by cases hk
  | parserNotifyAll =>
      obtain ⟨parsers, hnotify, rfl⟩ := Option.map_eq_some_iff.mp hstep
      exact ⟨h.process, .notifyAll (parsers_up h.process) hnotify, h.workers⟩
  | workerSleep k =>
      simp only [step] at hstep
      split at hstep
      · rename_i hidle
        split at hstep
        · cases hstep
        · rename_i hwait
          cases hstep
          rw [RequestQueue.waitPredicate, Bool.or_eq_true, not_or] at hwait
          refine ⟨h.process, h.parsers, h.workers.sleep hidle ?_ ?_⟩
          · simpa using hwait.1
          · rintro ⟨hclosed, -, hinflight⟩
            refine hwait.2 ?_
            rw [hclosed, hinflight]
            rfl
      · cases hstep
  | workerWake k =>
      cases hstep
      exact ⟨h.process, h.parsers, h.workers.wake⟩
  | workerNotifyOne target =>
      obtain ⟨workers, hnotify, rfl⟩ := Option.map_eq_some_iff.mp hstep
      refine ⟨h.process, h.parsers, h.workers.notifyOne ?_ (workers_up h.process) hnotify⟩
      intro k hidle
      rw [hidle]
      exact fun hk => by cases hk
  | workerNotifyAll =>
      obtain ⟨workers, hnotify, rfl⟩ := Option.map_eq_some_iff.mp hstep
      exact ⟨h.process, h.parsers, .notifyAll (workers_up h.process) hnotify⟩

/-! ## Rest -/

/-- The steps that get on: those of the process and the notifications. -/
def Works (s : Sleeping P W) : Label P W → Prop
  | .run l => Process.Works s.process l
  | .parserNotifyOne _ => True
  | .parserNotifyAll => True
  | .workerNotifyOne _ => True
  | .workerNotifyAll => True
  | _ => False

/-- A parser that has something to do can go on, if it is awake. -/
theorem parser_goes_on (hsockets : s.process.server.Sockets) {k : Fin P}
    (hawake : s.parsers.asleep k = false) (hup : s.process.server.parser k ≠ .exited)
    (hq : s.process.server.fdQueue.queue ≠ []) :
    ∃ l, Works s l ∧ (s.step cfg l).isSome = true := by
  cases hk : s.process.server.parser k with
  | exited => exact absurd hk hup
  | busy fd todo =>
      rcases (hsockets.parser_ok k fd todo hk).cases with ⟨hmine, -⟩ | ⟨-, e, next, rfl⟩
      · cases hmine
      · refine ⟨.run (.thread (.parserCall k {})), trivial, ?_⟩
        simp [step, permits, Process.step, Process.permits, Sys.step, hk]
  | idle =>
      obtain ⟨fd, rest, hfds⟩ := List.exists_cons_of_ne_nil hq
      refine ⟨.run (.thread (.parserTake k)), trivial, ?_⟩
      simp [step, permits, hawake, Process.step, Process.permits, Sys.step, hk, FdQueue.waitPop,
        hfds]

theorem worker_goes_on (hsockets : s.process.server.Sockets) {k : Fin W}
    (hawake : s.workers.asleep k = false) (hup : s.process.server.worker k ≠ .exited)
    (hq : s.process.server.requestQueue.queue ≠ []) :
    ∃ l, Works s l ∧ (s.step cfg l).isSome = true := by
  cases hk : s.process.server.worker k with
  | exited => exact absurd hk hup
  | busy req held todo =>
      rcases (hsockets.worker_ok k req held todo hk).cases with ⟨hmine, -⟩ | ⟨-, e, next, rfl⟩
      · cases hmine
      · refine ⟨.run (.thread (.workerCall k {})), trivial, ?_⟩
        simp [step, permits, Process.step, Process.permits, Sys.step, hk]
  | idle =>
      refine ⟨.run (.thread (.workerTake k)), trivial, ?_⟩
      cases hnext : cfg.scheduler.next s.process.server.requestQueue with
      | none => exact absurd (Scheduler.next_eq_none hnext) hq
      | some popped =>
          simp [step, permits, hawake, Process.step, Process.permits, Sys.step, hk, hnext]

/-- **Sleepers miss nothing.** Where the sleeping process cannot get on, the process without
sleepers cannot either. -/
theorem process_rests (h : Inv cfg dir s) (hrest : ∀ l, Works s l → s.step cfg l = none)
    (l : Process.Label P W) (hworks : Process.Works s.process l) :
    s.process.step cfg l = none := by
  have hserver := (Process.reachable_inv h.process).server
  have hsockets := Sys.run_sockets (Sys.init_sockets dir) hserver
  have hnone : ∀ l, Works s l → ¬ (s.step cfg l).isSome = true := by
    intro l hl
    rw [hrest l hl]
    exact Bool.false_ne_true
  have howedParsers : s.parsers.owed = 0 := by
    refine Condvar.owed_eq_zero (fun target => ?_) ?_
    · simpa [step] using hrest (.parserNotifyOne target) trivial
    · simpa [step] using hrest .parserNotifyAll trivial
  have howedWorkers : s.workers.owed = 0 := by
    refine Condvar.owed_eq_zero (fun target => ?_) ?_
    · simpa [step] using hrest (.workerNotifyOne target) trivial
    · simpa [step] using hrest .workerNotifyAll trivial
  obtain ⟨hparser, hclosed⟩ := h.parsers.of_owed howedParsers
  obtain ⟨hworker, hdrained⟩ := h.workers.of_owed howedWorkers
  have hfds : s.process.server.fdQueue.queue = [] := by
    by_contra hne
    obtain ⟨k, hawake, hup⟩ := hparser hne
    obtain ⟨l, hl, hstep⟩ := @parser_goes_on P W cfg s hsockets k hawake hup hne
    exact hnone l hl hstep
  have hrequests : s.process.server.requestQueue.queue = [] := by
    by_contra hne
    obtain ⟨k, hawake, hup⟩ := hworker hne
    obtain ⟨l, hl, hstep⟩ := @worker_goes_on P W cfg s hsockets k hawake hup hne
    exact hnone l hl hstep
  -- what a thread may do that is awake
  have hpermitted : s.permits l = true → s.process.step cfg l = none := by
    intro hpermits
    have hrun := hrest (.run l) hworks
    simpa [step, hpermits] using hrun
  by_cases hpermits : s.permits l = true
  · exact hpermitted hpermits
  by_contra hstep
  obtain ⟨process, hprocess⟩ := Option.ne_none_iff_exists'.mp hstep
  cases l with
  | thread l =>
      simp only [Process.step, Option.ite_none_right_eq_some, Option.map_eq_some_iff] at hprocess
      obtain ⟨-, server, hserver, -⟩ := hprocess
      cases Sys.step_cases hserver with
      | parserTake k fd rest hidle hq =>
          rw [hfds] at hq
          cases hq
      | parserExit k hidle hq hfdClosed =>
          exact hpermits (by simp [permits, hclosed hfdClosed k])
      | workerTake k d request q hidle hpop hreq hbudget hnext =>
          have hmem := hpop.perm.mem_iff.mpr List.mem_cons_self
          rw [hrequests] at hmem
          cases hmem
      | workerExit k hidle hq hqueueClosed hinflight =>
          exact hpermits (by simp [permits, hdrained ⟨hqueueClosed, hq, hinflight⟩ k])
      | closeQueue =>
          have hopen : s.process.server.requestQueue.closed = false := hworks
          exact hpermits (by simp [permits, hopen])
      | _ => exact hpermits rfl
  | _ => exact hpermits rfl

/-! ## Runs -/

/-- A run of the sleeping process from its start. -/
abbrev Reachable (cfg : Config) (dir : Directory) (s : Sleeping P W) : Prop :=
  Run (step cfg) (fun _ _ => True) (start P W dir) s

/-- The threads select ahead in this step. -/
def SelectsAhead (cfg : Config) (s : Sleeping P W) (l : Label P W) : Prop :=
  ∀ l', l = .run l' → Process.SelectsAhead cfg s.process l'

theorem reachable_inv (hP : 0 < P) (hW : 0 < W) (h : Reachable cfg dir s) : Inv cfg dir s :=
  h.invariant (Inv cfg dir) start_inv fun _ _ _ hinv _ hstep => step_inv hP hW hinv hstep

/-- The notifications that are still to come. -/
def owed (s : Sleeping P W) : ℕ := s.parsers.owed + s.workers.owed

/-- What a step of the condition variables does: the process stays as it is, and a notification
that comes is owed no more. -/
structure Aside (s t : Sleeping P W) (works : Prop) : Prop where
  process : t.process = s.process
  notified : works → t.owed < s.owed
  idle : ¬ works → t.owed = s.owed

/-- A step is one of the process or one of the condition variables. -/
theorem step_cases {l : Label P W} (hstep : s.step cfg l = some t) :
    (∃ l', l = .run l' ∧ s.permits l' = true ∧ s.process.step cfg l' = some t.process ∧
        t.parsers = owesParsers s.process s.parsers l' ∧
        t.workers = owesWorkers s.process s.workers l') ∨
      (∀ l', l ≠ .run l') ∧ Aside s t (Works s l) := by
  cases l with
  | run l =>
      simp only [step, Option.ite_none_right_eq_some, Option.map_eq_some_iff] at hstep
      obtain ⟨hpermits, process, hprocess, rfl⟩ := hstep
      exact Or.inl ⟨l, rfl, hpermits, hprocess, rfl, rfl⟩
  | parserSleep k =>
      simp only [step] at hstep
      split at hstep
      · split at hstep
        · cases hstep
        · cases hstep
          exact Or.inr ⟨fun _ h => (by cases h), rfl, False.elim, fun _ => rfl⟩
      · cases hstep
  | workerSleep k =>
      simp only [step] at hstep
      split at hstep
      · split at hstep
        · cases hstep
        · cases hstep
          exact Or.inr ⟨fun _ h => (by cases h), rfl, False.elim, fun _ => rfl⟩
      · cases hstep
  | parserWake k =>
      cases hstep
      exact Or.inr ⟨fun _ h => (by cases h), rfl, False.elim, fun _ => rfl⟩
  | workerWake k =>
      cases hstep
      exact Or.inr ⟨fun _ h => (by cases h), rfl, False.elim, fun _ => rfl⟩
  | parserNotifyOne target =>
      obtain ⟨v, hv, rfl⟩ := Option.map_eq_some_iff.mp hstep
      exact Or.inr ⟨fun _ h => (by cases h), rfl,
        fun _ => Nat.add_lt_add_right (Condvar.notifyOne_owed hv) _, fun h => absurd trivial h⟩
  | parserNotifyAll =>
      obtain ⟨v, hv, rfl⟩ := Option.map_eq_some_iff.mp hstep
      exact Or.inr ⟨fun _ h => (by cases h), rfl,
        fun _ => Nat.add_lt_add_right (Condvar.notifyAll_owed hv) _, fun h => absurd trivial h⟩
  | workerNotifyOne target =>
      obtain ⟨v, hv, rfl⟩ := Option.map_eq_some_iff.mp hstep
      exact Or.inr ⟨fun _ h => (by cases h), rfl,
        fun _ => Nat.add_lt_add_left (Condvar.notifyOne_owed hv) _, fun h => absurd trivial h⟩
  | workerNotifyAll =>
      obtain ⟨v, hv, rfl⟩ := Option.map_eq_some_iff.mp hstep
      exact Or.inr ⟨fun _ h => (by cases h), rfl,
        fun _ => Nat.add_lt_add_left (Condvar.notifyAll_owed hv) _, fun h => absurd trivial h⟩

/-- The process of a run of the sleeping process makes a run. -/
theorem run_process (hrun : Run (step cfg) (SelectsAhead cfg) (start P W dir) s) :
    Run (Process.step cfg) (Process.SelectsAhead cfg) (.start P W dir) s.process := by
  refine hrun.invariant (fun s =>
    Run (Process.step cfg) (Process.SelectsAhead cfg) (.start P W dir) s.process) (.refl _) ?_
  intro u l v hprocess hahead hstep
  rcases step_cases hstep with ⟨l', rfl, -, hl', -, -⟩ | ⟨-, haside⟩
  · exact .tail hprocess (hahead l' rfl) hl'
  · rwa [haside.process]

/-! ## What is left -/

def rank (s : Sleeping P W) : (ℕ × Multiset Job × ℕ) × ℕ :=
  (s.process.rank, s.owed)

def RankLt : (ℕ × Multiset Job × ℕ) × ℕ → (ℕ × Multiset Job × ℕ) × ℕ → Prop :=
  Prod.Lex Process.RankLt (· < ·)

theorem rankLt_wellFounded : WellFounded RankLt :=
  WellFounded.prod_lex Process.rankLt_wellFounded Nat.lt_wfRel.wf

/-- A step of the process that does not work changes nothing and owes nothing. -/
theorem idle_rank {l : Process.Label P W} (hpermits : s.permits l = true)
    (hsame : t.process = s.process) (hparsers : t.parsers = owesParsers s.process s.parsers l)
    (hworkers : t.workers = owesWorkers s.process s.workers l)
    (hidle : ¬ Process.Works s.process l) : t.rank = s.rank := by
  have howes : owesParsers s.process s.parsers l = s.parsers ∧
      owesWorkers s.process s.workers l = s.workers := by
    cases l with
    | signal => exact ⟨rfl, rfl⟩
    | thread l =>
        cases l with
        | closeQueue =>
            -- `main` closes the queue once
            have hopen : s.process.server.requestQueue.closed = false := by
              simpa [permits] using hpermits
            exact absurd hopen hidle
        | _ => exact absurd trivial hidle
    | _ => exact absurd trivial hidle
  rw [rank, rank, owed, owed, hsame, hparsers, hworkers, howes.1, howes.2]

theorem step_rank (hflag : s.process.shutdownFlag = true)
    (hwf : s.process.server.WellFormed) {l : Label P W} (hstep : s.step cfg l = some t)
    (hrounds : ∀ req ∈ t.process.server.requestQueue.queue,
      requeues (t.process.server.log req.clientFd) < max 1 req.totalBytes) :
    t.process.shutdownFlag = true ∧ (Works s l → RankLt t.rank s.rank) ∧
      (¬ Works s l → t.rank = s.rank) := by
  rcases step_cases hstep with ⟨l', rfl, hpermits, hl', hparsers, hworkers⟩ | ⟨-, haside⟩
  · obtain ⟨hset, hlower, hkeep⟩ := Process.step_rank hflag hwf hl' hrounds
    exact ⟨hset, fun hworks => Prod.Lex.left _ _ (hlower hworks), fun hidle =>
      idle_rank hpermits (hkeep hidle) hparsers hworkers hidle⟩
  · have hrank : t.rank = (s.process.rank, t.owed) := by rw [rank, haside.process]
    refine ⟨haside.process ▸ hflag, fun hworks => ?_, fun hidle => ?_⟩
    · rw [hrank]
      exact Prod.Lex.right _ (haside.notified hworks)
    · rw [hrank, haside.idle hidle, rank]

/-! ## Main results -/

/-- **No wake-up is lost.** Whatever the threads do, fall asleep and are woken, a run of the
sleeping process is one of the process whose threads never sleep, and it gets stuck nowhere the
other does not: while a thread could take something from its queue, or leave, or any other step
is left, somebody who is awake can go on or a notification is owed that can come. -/
theorem no_wakeup_lost (hP : 0 < P) (hW : 0 < W) (h : Reachable cfg dir s) :
    Process.Reachable cfg dir s.process ∧
      ∀ l, Process.Works s.process l → (s.process.step cfg l).isSome = true →
        ∃ l', Works s l' ∧ (s.step cfg l').isSome = true := by
  have hinv := reachable_inv hP hW h
  refine ⟨hinv.process, fun l hworks hstep => ?_⟩
  by_contra hnone
  push Not at hnone
  have hrest : ∀ l', Works s l' → s.step cfg l' = none := fun l' hl' =>
    Option.not_isSome_iff_eq_none.mp (hnone l' hl')
  rw [process_rests hinv hrest l hworks] at hstep
  cases hstep

theorem no_wakeup_lost_asleep :
    ∃ t : Sleeping 1 1, t.parsers.asleep 0 = true ∧ t.process.server.fdQueue.queue = [7] ∧
      ∃ l', Works t l' ∧
        (t.step (plainConfig .DRR 2 (by decide) (by decide)) l').isSome = true := by
  have htrue : ∀ (s : Sleeping 1 1) (l : Label 1 1), (fun _ _ => true) s l = true →
      (fun _ _ => True) s l := fun _ _ _ => trivial
  obtain ⟨t, hrun, hcheck⟩ := script_exists
    [.parserSleep 0, .run .testFlag, .run (.accept 7), .run .push]
    (fun t => t.parsers.asleep 0 && t.process.server.fdQueue.queue = [7] &&
      t.process.acceptor = .polling) htrue
    (show (script (step (plainConfig .DRR 2 (by decide) (by decide))) (fun _ _ => true)
      (start 1 1 (oneFile (ascii "d/a") ⟨ascii "a\nb\n", by decide⟩)) _).any _ = true by decide)
  simp only [Bool.and_eq_true, decide_eq_true_eq] at hcheck
  obtain ⟨⟨hasleep, hqueue⟩, hpolling⟩ := hcheck
  refine ⟨t, hasleep, hqueue, (no_wakeup_lost (by decide) (by decide) hrun).2 .testFlag trivial ?_⟩
  simp [Process.step, hpolling]

/-- `Process.lateSignal` with both threads asleep when the first connection comes, and with the
notifications it owes. -/
def sleepyLateSignal : List (Label 1 1) :=
  let calls := Process.lateSignal.map Label.run
  [.parserSleep 0, .workerSleep 0] ++ calls.take 3 ++ [.parserNotifyOne (some 0)] ++
    (calls.drop 3).take 9 ++ [.workerNotifyOne (some 0)] ++ (calls.drop 12).take 6 ++
    [.parserNotifyOne none, .parserNotifyAll] ++ (calls.drop 18).take 8 ++ [.workerNotifyAll] ++
    (calls.drop 26).take 9 ++ [.workerNotifyOne none] ++ calls.drop 35

/-- Where all have left and nothing is owed, no step works. -/
theorem allExited_rest (h : s.process.AllExited)
    (hclosed : s.process.server.requestQueue.closed = true) (howed : s.owed = 0) (l : Label P W)
    (hworks : Works s l) : s.step cfg l = none := by
  obtain ⟨hparsers, hworkers⟩ := Nat.add_eq_zero_iff.mp howed
  rw [Condvar.owed, Nat.add_eq_zero_iff] at hparsers hworkers
  cases l with
  | run l =>
      have hnone : s.process.step cfg l = none := Process.allExited_rest h hclosed l hworks
      simp only [step, hnone, Option.map_none, ite_self]
  | parserNotifyOne target => simp [step, Condvar.notifyOne, hparsers.1]
  | parserNotifyAll => simp [step, Condvar.notifyAll, hparsers.2]
  | workerNotifyOne target => simp [step, Condvar.notifyOne, hworkers.1]
  | workerNotifyAll => simp [step, Condvar.notifyAll, hworkers.2]
  | _ => exact hworks.elim

end Sleeping

end LinkScheduling
