import LinkScheduling.Metatheory.Ownership

/-!
# Reading the log of a connection

What a connection's log says: the bytes sent on its socket, the bytes received
from it, how often its request was put back into the queue. Every entry of a log
was made by one step of the run, in a state from which that answer came.
-/

namespace LinkScheduling

open Framework

def Eff.sent : Eff → List Bytes
  | .sendAll _ data => [data]
  | _ => []

def Call.received : Call → Bytes
  | ⟨.recv _ _ _, some data⟩ => data
  | _ => []

def Eff.requeued : Eff → ℕ
  | .requeue _ => 1
  | _ => 0

/-- What was sent on the connection, one entry per `send_all`. -/
def sends (log : List Call) : List Bytes := log.flatMap (fun call => call.eff.sent)

/-- The bytes received from the connection. -/
def received (log : List Call) : Bytes := log.flatMap Call.received

/-- How often the request was put back into the queue. -/
def requeues (log : List Call) : ℕ := (log.map (fun call => call.eff.requeued)).sum

@[simp] theorem sends_nil : sends [] = [] := rfl

@[simp] theorem sends_cons (call : Call) (log : List Call) :
    sends (call :: log) = call.eff.sent ++ sends log := by
  simp [sends]

@[simp] theorem sends_append (log log' : List Call) :
    sends (log ++ log') = sends log ++ sends log' := by
  simp [sends]

@[simp] theorem received_nil : received [] = [] := rfl

@[simp] theorem received_cons (call : Call) (log : List Call) :
    received (call :: log) = call.received ++ received log := by
  simp [received]

@[simp] theorem received_append (log log' : List Call) :
    received (log ++ log') = received log ++ received log' := by
  simp [received]

@[simp] theorem requeues_nil : requeues [] = 0 := rfl

@[simp] theorem requeues_cons (call : Call) (log : List Call) :
    requeues (call :: log) = call.eff.requeued + requeues log := by
  simp [requeues]

@[simp] theorem requeues_append (log log' : List Call) :
    requeues (log ++ log') = requeues log + requeues log' := by
  simp [requeues]

/-- Every call of the log has the property `F` when it is made. -/
def Along (F : List Call → Call → Prop) (log : List Call) : Prop :=
  ∀ before call after, log = before ++ call :: after → F before call

theorem along_nil {F : List Call → Call → Prop} : Along F [] := by
  intro before call after h
  simp at h

theorem Along.snoc {F : List Call → Call → Prop} {log : List Call} {call : Call}
    (h : Along F log) (hcall : F log call) : Along F (log ++ [call]) := by
  intro before call' after heq
  rcases List.eq_nil_or_concat after with rfl | ⟨init, last, rfl⟩
  · obtain ⟨rfl, hlast⟩ := List.append_inj' heq rfl
    cases hlast
    exact hcall
  · have heq' : log ++ [call] = (before ++ call' :: init) ++ [last] := by simpa using heq
    exact h before call' init (List.append_inj' heq' rfl).1

/-- `request` was pushed. -/
def Pushed (request : Request) (log : List Call) : Prop := ⟨.push request, true⟩ ∈ log

theorem pushed_snoc_of_ne {request : Request} {log : List Call} {e : Eff} {r : Resp e}
    (h : ∀ req, e ≠ .push req) : Pushed request (log ++ [⟨e, r⟩]) ↔ Pushed request log := by
  simp only [Pushed, List.mem_append, List.mem_singleton, or_iff_left_iff_imp]
  intro heq
  cases heq
  exact absurd rfl (h request)

/-- The push that admits a request is a push of the request. -/
theorem pushed_snoc_push {request req : Request} {log : List Call} {ok : Bool}
    (hnone : ¬ Pushed request log) (h : Pushed request (log ++ [⟨.push req, ok⟩])) :
    request = req := by
  rcases List.mem_append.mp h with h | h
  · exact absurd h hnone
  · cases List.mem_singleton.mp h
    rfl

namespace Sys

variable {P W : ℕ} {cfg : Config} {s t : Sys P W} {A : Sys P W → Label P W → Prop}

/-- The entry a step adds to the log of `fd`. -/
def newCalls (s : Sys P W) (l : Label P W) (fd : Fd) : List Call :=
  match s.callOf l with
  | some (fd', call) => if fd' = fd then [call] else []
  | none => []

theorem log_perform (s : Sys P W) (fd' fd : Fd) (e : Eff) (r : Resp e) :
    (s.perform fd' e r).log fd = s.log fd ++ if fd' = fd then [⟨e, r⟩] else [] := by
  by_cases h : fd' = fd
  · subst h
    simp [perform]
  · simp [log_perform_of_ne (Ne.symm h), h]

theorem step_log {l : Label P W} (h : s.step cfg l = some t) (fd : Fd) :
    t.log fd = s.log fd ++ s.newCalls l fd := by
  cases step_cases h with
  | parserCall k c fd' e next hbusy =>
      simp only [newCalls, callOf, hbusy]
      exact log_perform s fd' fd e _
  | workerCall k c req held e next hbusy =>
      simp only [newCalls, callOf, hbusy]
      exact log_perform s req.clientFd fd e _
  | _ => exact (List.append_nil _).symm

theorem run_log_extends (hrun : RunWhere cfg A s t) (fd : Fd) : s.log fd <+: t.log fd := by
  induction hrun with
  | refl => exact List.prefix_rfl
  | tail _ _ hstep ih =>
      rw [step_log hstep fd]
      exact ih.trans (List.prefix_append _ _)

/-- A step of a run that makes the call `call` for connection `fd`. -/
structure Moment (cfg : Config) (A : Sys P W → Label P W → Prop) (s t : Sys P W) (fd : Fd)
    (call : Call) (u : Sys P W) (l : Label P W) : Prop where
  before : RunWhere cfg A s u
  allowed : A u l
  after : ∃ u', u.step cfg l = some u' ∧ RunWhere cfg A u' t
  call : u.callOf l = some (fd, call)

/-- Every entry of a log was made at some moment of the run, when the log held the
entries before it. -/
theorem run_moment (hrun : RunWhere cfg A s t) {fd : Fd} {call : Call} {before after : List Call}
    (hlog : t.log fd = before ++ call :: after) (hnew : s.log fd = []) :
    ∃ u l, Moment cfg A s t fd call u l ∧ u.log fd = before := by
  induction hrun generalizing after with
  | refl =>
      rw [hnew] at hlog
      simp at hlog
  | @tail v t l hrun hA hstep ih =>
      rw [step_log hstep fd] at hlog
      -- an entry that was there already, or the one this step made
      have hearlier : ∀ after', v.log fd = before ++ call :: after' →
          ∃ u l, Moment cfg A s t fd call u l ∧ u.log fd = before := by
        intro after' hv
        obtain ⟨u, l', hm, hu⟩ := ih hv
        obtain ⟨u', hu', hafter⟩ := hm.after
        exact ⟨u, l', ⟨hm.before, hm.allowed, ⟨u', hu', .tail hafter hA hstep⟩, hm.call⟩, hu⟩
      unfold newCalls at hlog
      split at hlog
      · rename_i fd' call' hcall
        split at hlog
        · rename_i hfd
          rcases List.eq_nil_or_concat after with rfl | ⟨after', last, rfl⟩
          · obtain ⟨hv, hlast⟩ := List.append_inj' hlog rfl
            cases hlast
            refine ⟨v, l, ⟨hrun, hA, ⟨t, hstep, .refl t⟩, ?_⟩, hv⟩
            rw [hcall, hfd]
          · have hlog' : v.log fd ++ [call'] = (before ++ call :: after') ++ [last] := by
              simpa using hlog
            exact hearlier after' (List.append_inj' hlog' rfl).1
        · exact hearlier after (by simpa using hlog)
      · exact hearlier after (by simpa using hlog)

/-- What was admitted was pushed on its own connection. -/
theorem step_admitted {l : Label P W} (hwf : s.WellFormed) (h : s.step cfg l = some t)
    {request : Request} (hmem : request ∈ t.admitted) :
    request ∈ s.admitted ∨ Pushed request (t.log request.clientFd) := by
  cases step_cases h with
  | parserCall k c fd e next hbusy =>
      obtain ⟨⟨-, hcall⟩, -⟩ := hwf.parser_ok k fd _ hbusy
      by_cases hpush : ∃ req, e = .push req
      · obtain ⟨req, rfl⟩ := hpush
        change req.clientFd = fd at hcall
        cases hr : s.answer c (.push req) with
        | false =>
            rw [hr] at hmem
            exact Or.inl hmem
        | true =>
            rw [hr] at hmem
            simp only [setParser, perform, List.mem_append, List.mem_singleton] at hmem
            rcases hmem with hmem | rfl
            · exact Or.inl hmem
            · right
              simp [Pushed, setParser, log_perform, hcall]
      · have hsame : (s.perform fd e (s.answer c e)).admitted = s.admitted := by
          cases e <;> simp_all [perform]
        exact Or.inl (by simpa [setParser, hsame] using hmem)
  | workerCall k c req held e next hbusy =>
      obtain ⟨hcall, -⟩ := hwf.worker_ok k req held _ hbusy
      have hsame : (s.perform req.clientFd e (s.answer c e)).admitted = s.admitted := by
        cases e with
        | push req' =>
            cases held with
            | true => exact hcall.elim
            | false => cases hcall
        | _ => rfl
      exact Or.inl (by simpa [setWorker, hsame] using hmem)
  | _ => exact Or.inl hmem

theorem run_admitted {dir : Directory} (hrun : RunWhere cfg A (init P W dir) t)
    {request : Request} (hmem : request ∈ t.admitted) :
    Pushed request (t.log request.clientFd) := by
  refine (hrun.invariant (fun s => s.WellFormed ∧ (request ∈ s.admitted →
    Pushed request (s.log request.clientFd))) ⟨init_wellFormed dir, by simp [init]⟩ ?_).2 hmem
  rintro u l v ⟨hwf, h⟩ - hstep
  refine ⟨step_wellFormed hwf hstep, fun hv => ?_⟩
  rcases step_admitted hwf hstep hv with hu | hpushed
  · rw [step_log hstep]
    exact List.mem_append_left _ (h hu)
  · exact hpushed

/-- What was pushed was admitted. -/
theorem run_pushed {dir : Directory} (hrun : RunWhere cfg A (init P W dir) t) :
    ∀ {fd : Fd} {request : Request}, Pushed request (t.log fd) → request ∈ t.admitted := by
  refine hrun.invariant (fun s => ∀ {fd : Fd} {request : Request}, Pushed request (s.log fd) →
    request ∈ s.admitted) (by simp [Pushed, init]) ?_
  intro u l v h _ hstep fd request hpushed
  have hperform : ∀ (fd' : Fd) (e : Eff) (r : Resp e),
      Pushed request ((u.perform fd' e r).log fd) → request ∈ (u.perform fd' e r).admitted := by
    intro fd' e r hp
    rw [log_perform] at hp
    rcases List.mem_append.mp hp with hp | hp
    · have hold := h hp
      cases e with
      | push req => cases r <;> simp [perform, hold]
      | _ => exact hold
    · split at hp
      · cases List.mem_singleton.mp hp
        simp [perform]
      · cases hp
  cases step_cases hstep with
  | parserCall k c fd' e next hbusy => exact hperform fd' e _ hpushed
  | workerCall k c req held e next hbusy => exact hperform req.clientFd e _ hpushed
  | _ => exact h hpushed

/-- The metrics hold a row for every request that was recorded. -/
theorem run_recorded {dir : Directory} (hrun : RunWhere cfg A (init P W dir) t) :
    ∀ {fd : Fd} {row : Request}, ⟨.record row, ()⟩ ∈ t.log fd →
      (fd, RequestMetrics.ofRequest row) ∈ t.records := by
  refine hrun.invariant (fun s => ∀ {fd : Fd} {row : Request}, ⟨.record row, ()⟩ ∈ s.log fd →
    (fd, RequestMetrics.ofRequest row) ∈ s.records) (by simp [init]) ?_
  intro u l v h _ hstep fd row hmem
  have hperform : ∀ (fd' : Fd) (e : Eff) (r : Resp e),
      ⟨.record row, ()⟩ ∈ (u.perform fd' e r).log fd →
      (fd, RequestMetrics.ofRequest row) ∈ (u.perform fd' e r).records := by
    intro fd' e r hr
    rw [log_perform] at hr
    rcases List.mem_append.mp hr with hp | hp
    · have hold := h hp
      cases e with
      | record req => exact List.mem_append_left _ hold
      | _ => exact hold
    · split at hp
      · rename_i hfd
        subst hfd
        cases List.mem_singleton.mp hp
        simp [perform]
      · cases hp
  cases step_cases hstep with
  | parserCall k c fd' e next hbusy => exact hperform fd' e _ hmem
  | workerCall k c req held e next hbusy => exact hperform req.clientFd e _ hmem
  | _ => exact h hmem

/-- A completed request has one row in the metrics. -/
theorem run_row {dir : Directory} (hrun : RunWhere cfg A (init P W dir) t) {fd : Fd}
    {row : Request} (hfin : (fd, .completed) ∈ t.finished) (hmem : ⟨.record row, ()⟩ ∈ t.log fd) :
    t.records.filter (fun entry => entry.1 = fd) = [(fd, .ofRequest row)] := by
  have hone := (run_wellFormed (init_wellFormed dir) hrun).rows_finished fd .completed hfin
  rw [if_pos rfl, rows, List.count_eq_countP, List.countP_map, List.countP_eq_length_filter] at hone
  obtain ⟨entry, hentry⟩ := List.length_eq_one_iff.mp hone
  have hfilter : t.records.filter (fun entry => decide (entry.1 = fd)) = [entry] := by
    rw [← hentry]
    exact List.filter_congr fun _ _ => rfl
  have hin : (fd, RequestMetrics.ofRequest row) ∈
      t.records.filter (fun entry => decide (entry.1 = fd)) := by
    simpa using run_recorded hrun hmem
  rw [hfilter] at hin ⊢
  rw [List.mem_singleton.mp hin]

end Sys

end LinkScheduling
