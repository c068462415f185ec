import LinkScheduling.Metatheory.Admission

/-!
# Following an admitted request

Most statements are about a request from its admission on. `Lifecycle.SoundFor`
asks for two things: the lifecycle starts with every admissible push of the
request, and a worker round on a later record of the request keeps it. The
parser, the other requests of the queue and the discipline of the threads are
dealt with here once.
-/

namespace LinkScheduling

open Framework

namespace Lifecycle

/-- The lifecycle from the push of `request` on. -/
def since (L : Lifecycle) (request : Request) : Lifecycle where
  allowed := L.allowed
  always log := Pushed request log → L.always log
  queued req log := Pushed request log → request.Same req ∧ L.queued req log
  ended exit log := Pushed request log → L.ended exit log

structure SoundFor (L : Lifecycle) (cfg : Config) (request : Request) : Prop where
  enter : ∀ log, Admissible cfg request log → Along L.allowed log →
    L.always (log ++ [⟨.push request, true⟩]) ∧
      L.queued request (log ++ [⟨.push request, true⟩])
  round : ∀ req log, request.Same req → L.queued req log →
    (workerRound cfg (cfg.scheduler.decision req)).wp L.contract (fun _ => L.always) log
  close : ∀ exit log, L.ended exit log →
    L.ended exit (log ++ [⟨.closeSocket request.clientFd, ()⟩])

variable {L : Lifecycle} {cfg : Config} {request : Request}

/-- The parser keeps every lifecycle that starts with an admissible push. -/
theorem parse_since (hsound : L.SoundFor cfg request) {p : Server Unit} {log : List Call}
    (hdisc : p.wp (parserContract request.clientFd) (fun _ _ => True) false)
    (hadm : p.wp (admission cfg request.clientFd) (fun _ _ => True) log)
    (hnone : ¬ Pushed request log) (hlog : Along L.allowed log) :
    p.wp (L.since request).contract (fun _ => (L.since request).always) log := by
  induction p generalizing log with
  | ret a => exact fun h => absurd h hnone
  | call e next ih =>
      obtain ⟨⟨-, hcall⟩, hdisc⟩ := hdisc
      obtain ⟨hguar, hadm⟩ := hadm
      refine ⟨⟨fun h => absurd h hnone, ?_⟩, ?_⟩
      · cases e with
        | push req =>
            intro hpushed
            obtain rfl : request = req := pushed_snoc_push hnone hpushed
            exact ⟨.refl _, (hsound.enter log hguar.2 hlog).2⟩
        | requeue req => exact hcall.elim
        | complete exit => exact hcall.elim
        | _ => trivial
      · rintro r ⟨hpossible, hallowed⟩
        have hdisc := hdisc r trivial
        have hadm := hadm r hpossible
        have hlog' := hlog.snoc hallowed
        by_cases hpush : ∃ req, e = .push req
        · obtain ⟨req, rfl⟩ := hpush
          cases r with
          | false =>
              -- the push was refused: the parser still holds the connection
              refine ih false hdisc hadm ?_ hlog'
              intro h
              rcases List.mem_append.mp h with h | h
              · exact hnone h
              · simp at h
          | true =>
              obtain ⟨a, hret⟩ := pushed_ret hdisc
              rw [hret]
              intro hpushed
              obtain rfl : request = req := pushed_snoc_push hnone hpushed
              exact (hsound.enter log hguar.2 hlog).1
        · have hne : ∀ req, e ≠ .push req := fun req h => hpush ⟨req, h⟩
          rw [parserContract_next hne] at hdisc
          exact ih r hdisc hadm (fun h => hnone ((pushed_snoc_of_ne hne).mp h)) hlog'

/-- What a worker owes at a call that is no push. -/
theorem since_guarantee {orig : Request} {stage : Stage} {log : List Call} {e : Eff}
    (hdisc : (workerContract orig).guarantee stage e) (hL : L.contract.guarantee log e)
    (hsame : request.Same orig) : (L.since request).contract.guarantee log e := by
  refine ⟨fun _ => hL.1, ?_⟩
  cases e with
  | push req =>
      cases stage with
      | serving rows => exact hdisc.elim
      | requeued => exact hdisc.elim
      | completed => cases hdisc
  | requeue later =>
      cases stage with
      | serving rows => exact fun _ => ⟨hsame.trans hdisc.1, hL.2⟩
      | requeued => exact hdisc.elim
      | completed => cases hdisc
  | complete exit => exact fun _ => hL.2
  | _ => trivial

theorem round_since {orig : Request} {p : Server Unit} {stage : Stage} {log : List Call}
    {Q : Unit → Stage → Prop} (hdisc : p.wp (workerContract orig) Q stage)
    (hL : p.wp L.contract (fun _ => L.always) log) (hsame : request.Same orig) :
    p.wp (L.since request).contract (fun _ => (L.since request).always) log := by
  induction p generalizing stage log with
  | ret a => exact fun _ => hL
  | call e next ih =>
      refine ⟨since_guarantee hdisc.1 hL.1 hsame, fun r hr => ?_⟩
      refine ih r (hdisc.2 r ?_) (hL.2 r hr)
      cases e <;> first | trivial | exact hr.1

/-- Rounds of other requests owe the lifecycle nothing. -/
theorem round_since_other {orig : Request} {p : Server Unit} {stage : Stage} {log : List Call}
    {Q : Unit → Stage → Prop} (hdisc : p.wp (workerContract orig) Q stage)
    (hno : ¬ Pushed request log) :
    p.wp (L.since request).contract (fun _ => (L.since request).always) log := by
  induction p generalizing stage log with
  | ret a => exact fun h => absurd h hno
  | call e next ih =>
      have hne : ∀ req, e ≠ .push req := by
        rintro req rfl
        cases stage with
        | serving rows => exact hdisc.1.elim
        | requeued => exact hdisc.1.elim
        | completed => cases hdisc.1
      refine ⟨⟨fun h => absurd h hno, ?_⟩, fun r hr => ?_⟩
      · cases e with
        | push req => exact absurd rfl (hne req)
        | requeue later =>
            exact fun h => absurd ((pushed_snoc_of_ne (by simp)).mp h) hno
        | complete exit =>
            exact fun h => absurd ((pushed_snoc_of_ne (by simp)).mp h) hno
        | _ => trivial
      · refine ih r (hdisc.2 r ?_) ?_
        · cases e <;> first | trivial | exact hr.1
        · exact fun h => hno ((pushed_snoc_of_ne hne).mp h)

theorem SoundFor.sound (h : L.SoundFor cfg request) :
    (L.since request).Sound cfg request.clientFd where
  parse := parse_since h parserClient_disciplined parserClient_admits (by simp [Pushed])
    along_nil
  round := by
    intro req log hfd hqueued
    by_cases hpushed : Pushed request log
    · obtain ⟨hsame, hq⟩ := hqueued hpushed
      exact round_since workerRound_disciplined (h.round req log hsame hq)
        (hsame.trans (cfg.scheduler.getBudget_same req))
    · exact round_since_other workerRound_disciplined hpushed
  close := by
    intro exit log hover hpushed
    exact h.close exit log (hover ((pushed_snoc_of_ne (by simp)).mp hpushed))

/-- What a lifecycle says about an admitted request. -/
structure HoldsFor {P W : ℕ} (L : Lifecycle) (request : Request) (s : Sys P W) : Prop where
  always : L.always (s.log request.clientFd)
  queued : ∀ req ∈ s.requestQueue.queue, req.clientFd = request.clientFd →
    request.Same req ∧ L.queued req (s.log request.clientFd)
  finished : ∀ exit, (request.clientFd, exit) ∈ s.finished →
    L.ended exit (s.log request.clientFd)

/-- **The lifecycle rule for requests.** -/
theorem run_holdsFor {P W : ℕ} (hsound : L.SoundFor cfg request) {dir : Directory}
    {t : Sys P W}
    (hrun : Sys.RunWhere cfg (L.Permits request.clientFd) (Sys.init P W dir) t)
    (hmem : request ∈ t.admitted) : L.HoldsFor request t := by
  have hpushed := Sys.run_admitted hrun hmem
  have hholds : (L.since request).Holds request.clientFd t := run_holds hsound.sound hrun
  exact ⟨hholds.always hpushed, fun req hreq hfd => hholds.queued req hreq hfd hpushed,
    fun exit hexit => hholds.finished exit hexit hpushed⟩

end Lifecycle

end LinkScheduling
