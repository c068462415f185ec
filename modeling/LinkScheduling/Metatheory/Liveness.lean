import LinkScheduling.Framework.Crew
import LinkScheduling.Metatheory.Drain
import LinkScheduling.Metatheory.Waiting

/-!
# Every client comes to its end

Under FCFS, RR and DRR nobody starves. Where every thread that could go on for ever does go on,
every connection is taken by a parser, every request that is admitted is dispatched again until
it is finished, and every socket is closed, whatever arrives meanwhile.
-/

namespace LinkScheduling

open Framework

namespace Sys

variable {P W : ℕ} {cfg : Config} {dir : Directory} {s t : Sys P W} {fd : Fd}

/-! ## The two crews -/

/-- A pass of a thread's loop: whom it is for, and what is left of it. -/
abbrev Pass : Type := Fd × Server Unit

def PassLt (a b : Pass) : Prop := a.1 = b.1 ∧ Prog.Child a.2 b.2

theorem passLt_wellFounded : WellFounded PassLt :=
  Subrelation.wf (fun h => h.2) (InvImage.wf Prod.snd Prog.child_wellFounded)

theorem passLt_path {a b : Pass} (h : Relation.ReflTransGen PassLt a b) : a.1 = b.1 := by
  induction h with
  | refl => rfl
  | tail _ hlt ih => exact ih.trans hlt.1

def parserOf : Label P W → Option (Fin P)
  | .parserTake k => some k
  | .parserExit k => some k
  | .parserCall k _ => some k
  | _ => none

def workerOf : Label P W → Option (Fin W)
  | .workerTake k => some k
  | .workerExit k => some k
  | .workerCall k _ => some k
  | _ => none

def parsing (s : Sys P W) (k : Fin P) : Option Pass :=
  match s.parser k with
  | .busy fd todo => some (fd, todo)
  | _ => none

def serving (s : Sys P W) (k : Fin W) : Option Pass :=
  match s.worker k with
  | .busy req _ todo => some (req.clientFd, todo)
  | _ => none

theorem parsing_eq_some {k : Fin P} {todo : Server Unit} :
    s.parsing k = some (fd, todo) ↔ s.parser k = .busy fd todo := by
  unfold parsing
  split <;> simp_all

theorem serving_eq_some {k : Fin W} {todo : Server Unit} :
    s.serving k = some (fd, todo) ↔
      ∃ req held, s.worker k = .busy req held todo ∧ req.clientFd = fd := by
  unfold serving
  split <;> simp_all [and_comm]

/-- The connection a parser takes from the `FdQueue`. -/
def fetched (s : Sys P W) : Label P W → List Fd
  | .parserTake _ => s.fdQueue.queue.take 1
  | _ => []

theorem step_parser_frame {l : Label P W} (hstep : s.step cfg l = some t) {j : Fin P}
    (hj : parserOf l ≠ some j) : t.parser j = s.parser j := by
  have hother : ∀ {k : Fin P} (p : Parser), parserOf l = some k →
      Function.update s.parser k p j = s.parser j := fun p hk =>
    Function.update_of_ne (fun h => hj (hk.trans (congrArg some h.symm))) p s.parser
  cases step_cases hstep with
  | parserTake k fd rest hidle hq => exact hother _ rfl
  | parserExit k hidle hq hclosed => exact hother _ rfl
  | parserCall k c fd e next hbusy => exact hother _ rfl
  | _ => rfl

theorem step_worker_frame {l : Label P W} (hstep : s.step cfg l = some t) {j : Fin W}
    (hj : workerOf l ≠ some j) : t.worker j = s.worker j := by
  have hother : ∀ {k : Fin W} (w : Worker), workerOf l = some k →
      Function.update s.worker k w j = s.worker j := fun w hk =>
    Function.update_of_ne (fun h => hj (hk.trans (congrArg some h.symm))) w s.worker
  cases step_cases hstep with
  | workerTake k d request q hidle hpop hreq hbudget hnext => exact hother _ rfl
  | workerExit k hidle hq hclosed hinflight => exact hother _ rfl
  | workerCall k c req held e next hbusy => exact hother _ rfl
  | _ => rfl

/-- A step of a thread gets on with its pass or ends it. -/
theorem step_parsing {l : Label P W} (hstep : s.step cfg l = some t) {j : Fin P} {a a' : Pass}
    (hj : parserOf l = some j) (ha : s.parsing j = some a) (ha' : t.parsing j = some a') :
    PassLt a' a := by
  obtain ⟨fd, todo⟩ := a
  obtain ⟨fd', todo'⟩ := a'
  have hbefore := parsing_eq_some.mp ha
  cases step_cases hstep with
  | parserTake k fd rest hidle hq =>
      cases Option.some.inj hj
      rw [hidle] at hbefore
      cases hbefore
  | parserExit k hidle hq hclosed =>
      cases Option.some.inj hj
      rw [hidle] at hbefore
      cases hbefore
  | parserCall k c fd e next hbusy =>
      cases Option.some.inj hj
      rw [hbusy] at hbefore
      cases hbefore
      have hnext := parsing_eq_some.mp ha'
      simp only [setParser, Function.update_self] at hnext
      obtain ⟨rfl, rfl⟩ := Parser.resume_busy hnext
      exact ⟨rfl, e, next, _, rfl, rfl⟩
  | _ => cases hj

theorem step_serving {l : Label P W} (hstep : s.step cfg l = some t) {j : Fin W} {a a' : Pass}
    (hj : workerOf l = some j) (ha : s.serving j = some a) (ha' : t.serving j = some a') :
    PassLt a' a := by
  obtain ⟨fd, todo⟩ := a
  obtain ⟨fd', todo'⟩ := a'
  obtain ⟨req, held, hbefore, hfd⟩ := serving_eq_some.mp ha
  cases step_cases hstep with
  | workerTake k d request q hidle hpop hreq hbudget hnext =>
      cases Option.some.inj hj
      rw [hidle] at hbefore
      cases hbefore
  | workerExit k hidle hq hclosed hinflight =>
      cases Option.some.inj hj
      rw [hidle] at hbefore
      cases hbefore
  | workerCall k c req held e next hbusy =>
      cases Option.some.inj hj
      rw [hbusy] at hbefore
      cases hbefore
      obtain ⟨req', held', hnext, hfd'⟩ := serving_eq_some.mp ha'
      simp only [setWorker, Function.update_self] at hnext
      obtain ⟨rfl, rfl, rfl⟩ := Worker.resume_busy hnext
      exact ⟨hfd'.symm.trans hfd, e, next, _, rfl, rfl⟩
  | _ => cases hj

/-! ## Fair behaviours -/

/-- Every parser and every worker that could go on for ever does. -/
structure ThreadsFair (b : Behaviour (step (P := P) (W := W) cfg)) : Prop where
  parsers : b.Fair parserOf
  workers : b.Fair workerOf

section Behaviours

variable {b : Behaviour (step (P := P) (W := W) cfg)}

theorem behaviour_reaches (hinit : b.state 0 = init P W dir) (n : ℕ) :
    RunWhere cfg (fun _ _ => True) (init P W dir) (b.state n) := by
  rw [← hinit]
  exact b.run (fun _ => trivial) n

theorem behaviour_sockets (hinit : b.state 0 = init P W dir) (n : ℕ) : (b.state n).Sockets :=
  run_sockets (init_sockets dir) (behaviour_reaches hinit n)

theorem behaviour_wellFormed (hinit : b.state 0 = init P W dir) (n : ℕ) :
    (b.state n).WellFormed :=
  run_wellFormed (init_wellFormed dir) (behaviour_reaches hinit n)

theorem parserCrew (hinit : b.state 0 = init P W dir) (hfair : b.Fair parserOf) :
    Crew b parserOf PassLt parsing where
  wf := passLt_wellFounded
  frame n k hk := by rw [parsing, parsing, step_parser_frame (b.next n) hk]
  works n k a a' := step_parsing (b.next n)
  able n k := by
    rintro ⟨fd, todo⟩ hjob
    have hbusy := parsing_eq_some.mp hjob
    rcases ((behaviour_sockets hinit n).parser_ok k fd todo hbusy).cases with
      ⟨hmine, -⟩ | ⟨-, e, next, rfl⟩
    · cases hmine
    · exact ⟨.parserCall k {}, rfl, by simp [step, hbusy]⟩
  fair := hfair

theorem workerCrew (hinit : b.state 0 = init P W dir) (hfair : b.Fair workerOf) :
    Crew b workerOf PassLt serving where
  wf := passLt_wellFounded
  frame n k hk := by rw [serving, serving, step_worker_frame (b.next n) hk]
  works n k a a' := step_serving (b.next n)
  able n k := by
    rintro ⟨fd, todo⟩ hjob
    obtain ⟨req, held, hbusy, -⟩ := serving_eq_some.mp hjob
    rcases ((behaviour_sockets hinit n).worker_ok k req held todo hbusy).cases with
      ⟨hmine, -⟩ | ⟨-, e, next, rfl⟩
    · cases hmine
    · exact ⟨.workerCall k {}, rfl, by simp [step, hbusy]⟩
  fair := hfair

theorem step_fetched {l : Label P W} (hstep : s.step cfg l = some t) :
    s.fdQueue.queue <+: s.fetched l ++ t.fdQueue.queue := by
  cases step_cases hstep with
  | accept fd hnew hopen => exact List.prefix_append _ _
  | parserTake k fd rest hidle hq =>
      rw [fetched, hq]
      exact List.prefix_rfl
  | _ => exact List.prefix_rfl

/-- An idle parser that moves takes somebody while there is somebody. -/
theorem step_fetches {l : Label P W} (hstep : s.step cfg l = some t) {k : Fin P}
    (hmover : parserOf l = some k) (hjob : s.parsing k = none) (hline : s.fdQueue.queue ≠ []) :
    s.fetched l ≠ [] := by
  cases step_cases hstep with
  | parserTake j fd rest hidle hq => simp [fetched, hq]
  | parserExit j hidle hq hclosed => exact absurd hq hline
  | parserCall j c fd e next hbusy =>
      cases Option.some.inj hmover
      simp [parsing, hbusy] at hjob
  | _ => cases hmover

theorem step_dispatches {l : Label P W} (hstep : s.step cfg l = some t) {k : Fin W}
    (hmover : workerOf l = some k) (hjob : s.serving k = none) (hline : s.waitingLine ≠ []) :
    s.dispatched cfg l ≠ [] := by
  cases step_cases hstep with
  | workerTake j d request q hidle hpop hreq hbudget hnext => simp [dispatched, hnext]
  | workerExit j hidle hq hclosed hinflight => exact absurd (by rw [waitingLine, hq]; rfl) hline
  | workerCall j c req held e next hbusy =>
      cases Option.some.inj hmover
      simp [serving, hbusy] at hjob
  | _ => cases hmover

/-- The parsers serve the `FdQueue`. -/
theorem parserLine (hinit : b.state 0 = init P W dir) :
    Crew.Serves b parserOf parsing (fun s => s.fdQueue.queue) fetched where
  law n := step_fetched (b.next n)
  takes n k := step_fetches (b.next n)
  able n k hjob hline := by
    obtain ⟨fd, rest, hq⟩ := List.exists_cons_of_ne_nil hline
    cases hk : (b.state n).parser k with
    | idle => exact ⟨.parserTake k, rfl, by simp [step, hk, FdQueue.waitPop, hq]⟩
    | busy fd' todo => simp [parsing, hk] at hjob
    | exited => exact absurd (run_unattended (behaviour_reaches hinit n) hk).2 hline

/-- The workers serve the request queue. -/
theorem workerLine (hpolicy : cfg.scheduler.policy ≠ .SJF) (hinit : b.state 0 = init P W dir) :
    Crew.Serves b workerOf serving waitingLine (dispatched cfg) where
  law n := step_waitingLine hpolicy (b.next n)
  takes n k := step_dispatches (b.next n)
  able n k hjob hline := by
    have hq : (b.state n).requestQueue.queue ≠ [] := fun hq =>
      hline (by rw [waitingLine, hq]; rfl)
    cases hk : (b.state n).worker k with
    | idle =>
        cases hnext : cfg.scheduler.next (b.state n).requestQueue with
        | none => exact absurd (Scheduler.next_eq_none hnext) hq
        | some popped => exact ⟨.workerTake k, rfl, by simp [step, hk, hnext]⟩
    | busy req held todo => simp [serving, hk] at hjob
    | exited => exact absurd (run_drained (behaviour_reaches hinit n) hk).empty hq

/-! ## Where a connection is -/

/-- A connection that was accepted waits, is dealt with or is closed. -/
theorem Sockets.whereabouts (h : s.Sockets) (hacc : fd ∈ s.accepted) :
    fd ∈ s.fdQueue.queue ∨ (∃ k todo, s.parsing k = some (fd, todo)) ∨ fd ∈ s.waitingLine ∨
      (∃ k todo, s.serving k = some (fd, todo)) ∨ closes fd (s.log fd) = 1 := by
  by_contra hnot
  push Not at hnot
  obtain ⟨hwaiting, hparsing, hqueued, hserving, hclosed⟩ := hnot
  have howned := h.owned fd
  rw [if_pos hacc] at howned
  have hzero : s.ownersCount fd = 0 := by
    have hw : s.waitingCount fd = 0 := List.count_eq_zero.mpr hwaiting
    have hq : s.queuedCount fd = 0 := List.count_eq_zero.mpr hqueued
    have hp : s.parsingCount fd = 0 := by
      refine Finset.sum_eq_zero fun k _ => ?_
      cases hk : s.parser k with
      | busy fd' todo =>
          have hne : fd' ≠ fd := by
            rintro rfl
            exact hparsing k todo (parsing_eq_some.mpr hk)
          simp [Parser.owns, hne]
      | _ => rfl
    have hs : s.servedCount fd = 0 := by
      refine Finset.sum_eq_zero fun k _ => ?_
      cases hk : s.worker k with
      | busy req held todo =>
          have hne : req.clientFd ≠ fd := fun hfd =>
            hserving k todo (serving_eq_some.mpr ⟨req, held, hk, hfd⟩)
          simp [Worker.owns, hne]
      | _ => rfl
    rw [ownersCount, hw, hp, hq, hs]
  exact hclosed (by rw [hzero, zero_add] at howned; exact howned)

/-- The last step of a parser's pass takes the connection from the parser and from nobody else. -/
theorem parser_last {l : Label P W} (hstep : s.step cfg l = some t) {k : Fin P}
    {todo : Server Unit} (hmover : parserOf l = some k) (hjob : s.parsing k = some (fd, todo))
    (hdone : t.parsing k = none) :
    t.accepted = s.accepted ∧ t.waitingCount fd = s.waitingCount fd ∧
      t.servedCount fd = s.servedCount fd ∧ t.parsingCount fd + 1 = s.parsingCount fd := by
  have hbusy := parsing_eq_some.mp hjob
  cases step_cases hstep with
  | parserTake j fd' rest hidle hq =>
      cases Option.some.inj hmover
      rw [hidle] at hbusy
      cases hbusy
  | parserExit j hidle hq hclosed =>
      cases Option.some.inj hmover
      rw [hidle] at hbusy
      cases hbusy
  | parserCall j c fd' e next hbusy' =>
      cases Option.some.inj hmover
      rw [hbusy] at hbusy'
      cases hbusy'
      have hcount := parsingCount_setParser (s.perform fd e (s.answer c e)) k
        (.resume fd (next (s.answer c e))) fd
      have hone : ((s.perform fd e (s.answer c e)).parser k).owns fd = 1 := by
        rw [show (s.perform fd e (s.answer c e)).parser k = s.parser k from rfl, hbusy]
        exact if_pos rfl
      have hnone : (Parser.resume fd (next (s.answer c e))).owns fd = 0 := by
        cases hnext : next (s.answer c e) with
        | ret a => rfl
        | call e' next' => simp [parsing, setParser, hnext, Parser.resume] at hdone
      rw [hone, hnone] at hcount
      exact ⟨rfl, rfl, rfl, hcount⟩
  | _ => cases hmover

/-- The last step of a worker's pass takes the connection from the worker and from no parser. -/
theorem worker_last {l : Label P W} (hstep : s.step cfg l = some t) {k : Fin W}
    {todo : Server Unit} (hmover : workerOf l = some k) (hjob : s.serving k = some (fd, todo))
    (hdone : t.serving k = none) :
    t.accepted = s.accepted ∧ t.waitingCount fd = s.waitingCount fd ∧
      t.parsingCount fd = s.parsingCount fd ∧ t.servedCount fd + 1 = s.servedCount fd := by
  obtain ⟨req, held, hbusy, rfl⟩ := serving_eq_some.mp hjob
  cases step_cases hstep with
  | workerTake j d request q hidle hpop hreq hbudget hnext =>
      cases Option.some.inj hmover
      rw [hidle] at hbusy
      cases hbusy
  | workerExit j hidle hq hclosed hinflight =>
      cases Option.some.inj hmover
      rw [hidle] at hbusy
      cases hbusy
  | workerCall j c req' held' e next hbusy' =>
      cases Option.some.inj hmover
      rw [hbusy] at hbusy'
      cases hbusy'
      have hcount := servedCount_setWorker (s.perform req.clientFd e (s.answer c e)) k
        (.resume req (held && !e.releases) (next (s.answer c e))) req.clientFd
      have hone : ((s.perform req.clientFd e (s.answer c e)).worker k).owns req.clientFd = 1 := by
        rw [show (s.perform req.clientFd e (s.answer c e)).worker k = s.worker k from rfl, hbusy]
        exact if_pos rfl
      have hnone : (Worker.resume req (held && !e.releases) (next (s.answer c e))).owns
          req.clientFd = 0 := by
        cases hnext : next (s.answer c e) with
        | ret a => rfl
        | call e' next' => simp [serving, setWorker, hnext, Worker.resume] at hdone
      rw [hone, hnone] at hcount
      exact ⟨rfl, rfl, rfl, hcount⟩
  | _ => cases hmover

/-- A parser leaves its connection to the request queue or closes it. -/
theorem parser_leaves (hs : s.Sockets) (ht : t.Sockets) {l : Label P W}
    (hstep : s.step cfg l = some t) {k : Fin P} {todo : Server Unit} (hmover : parserOf l = some k)
    (hjob : s.parsing k = some (fd, todo)) (hdone : t.parsing k = none) (hacc : fd ∈ s.accepted) :
    fd ∈ t.waitingLine ∨ closes fd (t.log fd) = 1 := by
  obtain ⟨haccepted, hwaiting, hserved, hparsing⟩ := parser_last hstep hmover hjob hdone
  have hbefore := hs.owned fd
  have hafter := ht.owned fd
  rw [if_pos hacc, ownersCount] at hbefore
  rw [haccepted, if_pos hacc, ownersCount] at hafter
  have hone : 0 < t.queuedCount fd ∨ closes fd (t.log fd) = 1 := by omega
  exact hone.imp_left List.count_pos_iff.mp

/-- A worker that is done with a request that is finished has closed its socket. -/
theorem worker_leaves (hs : s.Sockets) (ht : t.Sockets) (hwf : t.WellFormed) {l : Label P W}
    (hstep : s.step cfg l = some t) {k : Fin W} {todo : Server Unit} (hmover : workerOf l = some k)
    (hjob : s.serving k = some (fd, todo)) (hdone : t.serving k = none) (hacc : fd ∈ s.accepted)
    (hfin : t.Finished fd) : closes fd (t.log fd) = 1 := by
  obtain ⟨haccepted, hwaiting, hparsing, hserved⟩ := worker_last hstep hmover hjob hdone
  have hbefore := hs.owned fd
  have hafter := ht.owned fd
  rw [if_pos hacc, ownersCount] at hbefore
  rw [haccepted, if_pos hacc, ownersCount] at hafter
  have hqueued : t.queuedCount fd = 0 := by
    obtain ⟨exit, hexit⟩ := hfin
    have hpos : 0 < t.finishedCount fd :=
      List.count_pos_iff.mpr (List.mem_map.mpr ⟨_, hexit, rfl⟩)
    have hplaced := hwf.placed fd
    have honce := hwf.once fd
    omega
  omega

theorem fetched_parsing {l : Label P W} (hstep : s.step cfg l = some t)
    (hfd : fd ∈ s.fetched l) : ∃ k todo, t.parsing k = some (fd, todo) := by
  cases step_cases hstep with
  | parserTake k fd' rest hidle hq =>
      have hfirst : fd = fd' := by simpa [fetched, hq] using hfd
      subst hfirst
      have hgo : LetsGo fd (parserClient cfg fd) true := parserClient_letsGo
      rcases hgo.cases with ⟨hmine, -⟩ | ⟨-, e, next, hcall⟩
      · cases hmine
      · refine ⟨k, .call e next, parsing_eq_some.mpr ?_⟩
        simp only [setParser, Function.update_self, hcall]
        rfl
  | _ => cases hfd

theorem dispatched_serves {l : Label P W} (hfd : fd ∈ s.dispatched cfg l) :
    Serves cfg s fd l := by
  unfold dispatched at hfd
  split at hfd
  · split at hfd
    · rename_i d q hnext
      exact ⟨d, q, hnext, (List.mem_singleton.mp hfd).symm⟩
    · cases hfd
  · cases hfd

/-! ## Main results -/

section Fair

variable (hinit : b.state 0 = init P W dir) (hfair : ThreadsFair b)
include hinit hfair

/-- A connection that waits for a parser comes to the request queue or is closed. -/
theorem eventually_parsed (hP : 0 < P) {n : ℕ}
    (hfd : fd ∈ (b.state n).fdQueue.queue ∨ ∃ k todo, (b.state n).parsing k = some (fd, todo))
    (hacc : ∀ m, n ≤ m → fd ∈ (b.state m).accepted) :
    ∃ m, n ≤ m ∧ (fd ∈ (b.state m).waitingLine ∨ closes fd ((b.state m).log fd) = 1) := by
  have : Nonempty (Fin P) := ⟨⟨0, hP⟩⟩
  have hcrew := parserCrew hinit hfair.parsers
  have htaken : ∃ m, n ≤ m ∧ ∃ k todo, (b.state m).parsing k = some (fd, todo) := by
    rcases hfd with hwaits | hparsing
    · obtain ⟨m, hm, hout⟩ := hcrew.taken (parserLine hinit) hwaits
      exact ⟨m + 1, by omega, fetched_parsing (b.next m) hout⟩
    · exact ⟨n, le_rfl, hparsing⟩
  obtain ⟨m, hm, k, todo, hjob⟩ := htaken
  obtain ⟨m', ⟨fd', todo'⟩, hm', hpath, hmover, hlast, hdone⟩ := hcrew.job_ends hjob
  obtain rfl : fd' = fd := passLt_path hpath
  exact ⟨m' + 1, by omega, parser_leaves (behaviour_sockets hinit m')
    (behaviour_sockets hinit (m' + 1)) (b.next m') hmover hlast hdone (hacc m' (by omega))⟩

/-- The scheduler is fair to every request. -/
theorem fairFor_of_fair (hpolicy : cfg.scheduler.policy ≠ .SJF) (hW : 0 < W) (fd : Fd) :
    FairFor b fd := by
  have : Nonempty (Fin W) := ⟨⟨0, hW⟩⟩
  intro n hadm hopen
  have hplaced := (behaviour_wellFormed hinit n).placed fd
  have hfinished : (b.state n).finishedCount fd = 0 := by
    refine List.count_eq_zero.mpr fun hmem => hopen ?_
    obtain ⟨⟨fd', exit⟩, hexit, rfl⟩ := List.mem_map.mp hmem
    exact ⟨exit, hexit⟩
  rcases Nat.eq_zero_or_pos ((b.state n).queuedCount fd) with hqueued | hqueued
  · -- a worker holds the request and makes its next call
    have hheld : ∃ k ∈ Finset.univ, ((b.state n).worker k).holds fd ≠ 0 :=
      Finset.exists_ne_zero_of_sum_ne_zero (by
        change (b.state n).heldCount fd ≠ 0
        omega)
    obtain ⟨k, -, hk⟩ := hheld
    have hcrew := workerCrew hinit hfair.workers
    obtain ⟨m, hm, ⟨req, todo, hbusy, hfd⟩, hmover⟩ := hfair.workers.moves
      (I := fun s => ∃ req todo, s.worker k = .busy req true todo ∧ req.clientFd = fd) (n := n)
      (k := k) (by
        cases hw : (b.state n).worker k with
        | busy req held todo =>
            cases held with
            | true =>
                refine ⟨req, todo, rfl, ?_⟩
                by_contra hne
                simp [hw, Worker.holds, hne] at hk
            | false => simp [hw, Worker.holds] at hk
        | idle => simp [hw, Worker.holds] at hk
        | exited => simp [hw, Worker.holds] at hk)
      (fun m _ hbusy hmover => by rwa [step_worker_frame (b.next m) hmover])
      fun m _ ⟨req, todo, hbusy, hfd⟩ =>
        hcrew.able m k _ (serving_eq_some.mpr ⟨req, true, hbusy, hfd⟩)
    refine ⟨m, hm, ?_⟩
    have hstep := b.next m
    cases hl : b.label m with
    | workerTake j =>
        rw [hl] at hmover
        cases Option.some.inj hmover
        simp [hl, step, hbusy] at hstep
    | workerExit j =>
        rw [hl] at hmover
        cases Option.some.inj hmover
        simp [hl, step, hbusy] at hstep
    | workerCall j c =>
        rw [hl] at hmover
        cases Option.some.inj hmover
        exact ⟨req, todo, hbusy, hfd⟩
    | _ =>
        rw [hl] at hmover
        cases hmover
  · obtain ⟨m, hm, hout⟩ := (workerCrew hinit hfair.workers).taken (workerLine hpolicy hinit)
      (List.count_pos_iff.mp hqueued)
    exact ⟨m, hm, dispatched_serves hout⟩

/-- The socket of a request that is finished is closed. -/
theorem eventually_closed {n : ℕ} (hacc : ∀ m, n ≤ m → fd ∈ (b.state m).accepted)
    (hfin : (b.state n).Finished fd) :
    ∃ m, n ≤ m ∧ closes fd ((b.state m).log fd) = 1 := by
  have hpos : 0 < (b.state n).finishedCount fd := by
    obtain ⟨exit, hexit⟩ := hfin
    exact List.count_pos_iff.mpr (List.mem_map.mpr ⟨_, hexit, rfl⟩)
  have hwf := behaviour_wellFormed hinit n
  have hplaced := hwf.placed fd
  have honce := hwf.once fd
  rcases (behaviour_sockets hinit n).whereabouts (hacc n le_rfl) with
    hwaits | ⟨k, todo, hjob⟩ | hline | ⟨k, todo, hjob⟩ | hclosed
  · have hwaiting : 0 < (b.state n).waitingCount fd := List.count_pos_iff.mpr hwaits
    omega
  · have hone : ((b.state n).parser k).owns fd = 1 := by
      rw [parsing_eq_some.mp hjob]
      exact if_pos rfl
    have hle : ((b.state n).parser k).owns fd ≤ (b.state n).parsingCount fd :=
      le_sum_pool (Parser.owns fd) (b.state n).parser k
    omega
  · have hqueued : 0 < (b.state n).queuedCount fd := List.count_pos_iff.mpr hline
    omega
  · obtain ⟨m, ⟨fd', todo'⟩, hm, hpath, hmover, hlast, hdone⟩ :=
      (workerCrew hinit hfair.workers).job_ends hjob
    obtain rfl : fd' = fd := passLt_path hpath
    exact ⟨m + 1, by omega, worker_leaves (behaviour_sockets hinit m)
      (behaviour_sockets hinit (m + 1)) (behaviour_wellFormed hinit (m + 1)) (b.next m) hmover
      hlast hdone (hacc m hm) (behaviour_finished b (by omega) hfin)⟩
  · exact ⟨n, le_rfl, hclosed⟩

end Fair

/-- A worker serves what was admitted. -/
theorem WellFormed.admitted_of_serving (h : s.WellFormed) {k : Fin W} {todo : Server Unit}
    (hjob : s.serving k = some (fd, todo)) : 0 < s.admittedCount fd := by
  obtain ⟨req, held, hbusy, hfd⟩ := serving_eq_some.mp hjob
  have hplaced := h.placed fd
  cases held with
  | true =>
      have hone : (s.worker k).holds fd = 1 := by
        rw [hbusy]
        exact if_pos hfd
      have hle : (s.worker k).holds fd ≤ s.heldCount fd := le_sum_pool (Worker.holds fd) s.worker k
      omega
  | false =>
      have hone : (s.worker k).closes fd = 1 := by
        rw [hbusy]
        exact if_pos hfd
      have hle : (s.worker k).closes fd ≤ s.closingCount fd :=
        le_sum_pool (Worker.closes fd) s.worker k
      have hclosing := h.closing fd
      omega

theorem step_accepted {l : Label P W} (hstep : s.step cfg l = some t) :
    s.accepted <+: t.accepted := by
  cases step_cases hstep with
  | accept fd hnew hopen => exact List.prefix_append _ _
  | _ => exact List.prefix_rfl

theorem behaviour_accepted {n m : ℕ} (h : n ≤ m) (hacc : fd ∈ (b.state n).accepted) :
    fd ∈ (b.state m).accepted := by
  obtain ⟨d, rfl⟩ := Nat.exists_eq_add_of_le h
  induction d with
  | zero => exact hacc
  | succ d ih => exact (step_accepted (b.next (n + d))).subset (ih (Nat.le_add_right _ _))

/-- The end of a connection: its socket was closed, and its request, if it was admitted, came
to one end, with a row exactly if it was completed. -/
structure Ended (s : Sys P W) (fd : Fd) : Prop where
  closed : closes fd (s.log fd) = 1
  finished : ∀ request ∈ s.admitted, request.clientFd = fd → ∃ exit,
    (fd, exit) ∈ s.finished ∧ s.finishedCount fd = 1 ∧
      s.rows fd = if exit = .completed then 1 else 0

theorem Sockets.ended (h : s.Sockets) (hwf : s.WellFormed) (hacc : fd ∈ s.accepted)
    (hclosed : closes fd (s.log fd) = 1) : s.Ended fd where
  closed := hclosed
  finished := by
    rintro request hmem rfl
    have howned := h.owned request.clientFd
    rw [if_pos hacc, hclosed, ownersCount] at howned
    have hplace := hwf.place hmem
    have hheld : s.heldCount request.clientFd ≤ s.servedCount request.clientFd := by
      refine Finset.sum_le_sum fun k _ => ?_
      cases s.worker k with
      | busy req held todo => cases held <;> simp [Worker.holds, Worker.owns]
      | _ => exact le_rfl
    have hone : s.finishedCount request.clientFd = 1 := by omega
    obtain ⟨⟨fd, exit⟩, hexit, hfd⟩ := List.mem_map.mp (List.count_pos_iff.mp
      (hone ▸ Nat.one_pos : 0 < s.finishedCount request.clientFd))
    change fd = request.clientFd at hfd
    subst hfd
    exact ⟨exit, hexit, hone, hwf.rows_finished _ exit hexit⟩

/-- **Every client comes to its end.** Under FCFS, RR and DRR, where every thread that could go
on for ever goes on, every connection that was accepted is closed at last, and its request, if
it was admitted, is finished, however many connections arrive meanwhile and whatever the other
threads, the clients and the storage do. -/
theorem every_client_ends (hpolicy : cfg.scheduler.policy ≠ .SJF) (hP : 0 < P) (hW : 0 < W)
    (hinit : b.state 0 = init P W dir) (hfair : ThreadsFair b)
    (hahead : ∀ n, SelectsAheadAll cfg (b.state n) (b.label n)) {n₀ : ℕ}
    (hacc : fd ∈ (b.state n₀).accepted) : ∃ n, n₀ ≤ n ∧ (b.state n).Ended fd := by
  have hlater : ∀ m, n₀ ≤ m → fd ∈ (b.state m).accepted := fun m hm => behaviour_accepted hm hacc
  suffices hclosed : ∃ n, n₀ ≤ n ∧ closes fd ((b.state n).log fd) = 1 by
    obtain ⟨n, hn, hclosed⟩ := hclosed
    exact ⟨n, hn, (behaviour_sockets hinit n).ended (behaviour_wellFormed hinit n) (hlater n hn)
      hclosed⟩
  -- a request that was admitted is finished, and then its socket is closed
  have hadmitted : ∀ n, n₀ ≤ n → ∀ request ∈ (b.state n).admitted, request.clientFd = fd →
      ∃ m, n₀ ≤ m ∧ closes fd ((b.state m).log fd) = 1 := by
    intro n hn request hmem hfd
    have hbound : ∀ m, n ≤ m → requeues ((b.state m).log fd) < max 1 request.totalBytes := by
      intro m hm
      have hrun : RunWhere cfg (SelectsAheadAll cfg) (init P W dir) (b.state m) := by
        rw [← hinit]
        exact b.run hahead m
      rw [← hfd]
      exact admitted_rounds hrun (behaviour_admitted b hm hmem)
    obtain ⟨m, hm, hfin⟩ := eventually_finished b (behaviour_wellFormed hinit 0)
      (fairFor_of_fair hinit hfair hpolicy hW fd) hfd hmem hbound
    obtain ⟨m', hm', hclosed⟩ := eventually_closed hinit hfair
      (fun m' hm' => hlater m' (by omega)) hfin
    exact ⟨m', by omega, hclosed⟩
  have hcounted : ∀ n, n₀ ≤ n → 0 < (b.state n).admittedCount fd →
      ∃ m, n₀ ≤ m ∧ closes fd ((b.state m).log fd) = 1 := by
    intro n hn hpos
    obtain ⟨request, hmem, hfd⟩ := List.mem_map.mp (List.count_pos_iff.mp hpos)
    exact hadmitted n hn request hmem hfd
  have hqueued : ∀ n, n₀ ≤ n → fd ∈ (b.state n).waitingLine →
      ∃ m, n₀ ≤ m ∧ closes fd ((b.state m).log fd) = 1 := by
    intro n hn hline
    have hpos : 0 < (b.state n).queuedCount fd := List.count_pos_iff.mpr hline
    have hplaced := (behaviour_wellFormed hinit n).placed fd
    exact hcounted n hn (by omega)
  have hparsed : fd ∈ (b.state n₀).fdQueue.queue ∨
      (∃ k todo, (b.state n₀).parsing k = some (fd, todo)) →
        ∃ m, n₀ ≤ m ∧ closes fd ((b.state m).log fd) = 1 := by
    intro hfd
    obtain ⟨m, hm, hline | hclosed⟩ := eventually_parsed hinit hfair hP hfd hlater
    · exact hqueued m hm hline
    · exact ⟨m, hm, hclosed⟩
  rcases (behaviour_sockets hinit n₀).whereabouts hacc with
    hwaits | hparsing | hline | ⟨k, todo, hjob⟩ | hclosed
  · exact hparsed (Or.inl hwaits)
  · exact hparsed (Or.inr hparsing)
  · exact hqueued n₀ le_rfl hline
  · exact hcounted n₀ le_rfl ((behaviour_wellFormed hinit n₀).admitted_of_serving hjob)
  · exact ⟨n₀, le_rfl, hclosed⟩

/-- Where all threads have left, the rest of the behaviour is fair. -/
theorem fair_of_exited {n : ℕ} (hparser : ∀ k, (b.state n).parser k = .exited)
    (hworker : ∀ k, (b.state n).worker k = .exited) : ThreadsFair b := by
  have hstep : ∀ {u : Sys P W} (l : Label P W), (∀ k, u.parser k = .exited) →
      (∀ k, u.worker k = .exited) → parserOf l ≠ none ∨ workerOf l ≠ none →
        u.step cfg l = none := by
    intro u l hparser hworker hl
    cases l <;> simp_all [parserOf, workerOf, step]
  have hstay : ∀ d, (∀ k, (b.state (n + d)).parser k = .exited) ∧
      ∀ k, (b.state (n + d)).worker k = .exited := by
    intro d
    induction d with
    | zero => exact ⟨hparser, hworker⟩
    | succ d ih =>
        have hnext := b.next (n + d)
        constructor
        · intro k
          rw [← ih.1 k]
          refine step_parser_frame hnext fun hk => ?_
          rw [hstep _ ih.1 ih.2 (Or.inl (by rw [hk]; exact fun h => by cases h))] at hnext
          cases hnext
        · intro k
          rw [← ih.2 k]
          refine step_worker_frame hnext fun hk => ?_
          rw [hstep _ ih.1 ih.2 (Or.inr (by rw [hk]; exact fun h => by cases h))] at hnext
          cases hnext
  constructor
  · intro k m hable
    obtain ⟨l, hl, hstepped⟩ := hable (n + m) (by omega)
    rw [hstep l (hstay m).1 (hstay m).2 (Or.inl (by rw [hl]; exact fun h => by cases h))]
      at hstepped
    cases hstepped
  · intro k m hable
    obtain ⟨l, hl, hstepped⟩ := hable (n + m) (by omega)
    rw [hstep l (hstay m).1 (hstay m).2 (Or.inr (by rw [hl]; exact fun h => by cases h))]
      at hstepped
    cases hstepped

end Behaviours

/-- Two connections ask for a file of two lines; each has two rounds, and then the server
shuts down. -/
def bothServed : List (Label 1 1) :=
  bothArrive ++ work 8 ++ work 8 ++ work 8 ++ work 8 ++
    [.stopAccepting, .parserExit 0, .closeQueue, .workerExit 0]

theorem every_client_ends_two :
    ∃ b : Behaviour (step (P := 1) (W := 1) (plainConfig .DRR 2 (by decide) (by decide))),
      ThreadsFair b ∧ 8 ∈ (b.state 11).accepted ∧ ∃ n, 11 ≤ n ∧ (b.state n).Ended 8 := by
  have htrue : ∀ (s : Sys 1 1) (l : Label 1 1), (fun _ _ => true) s l = true →
      (fun _ _ => True) s l := fun _ _ _ => trivial
  have hahead : ∀ (s : Sys 1 1) (l : Label 1 1),
      SelectsAheadAll (plainConfig .DRR 2 (by decide) (by decide)) s l :=
    fun s l fd call _ hrr => absurd hrr (by decide)
  obtain ⟨u, hu, hcheck⟩ := (Option.any_eq_true _ _).mp
    (show (script (step (plainConfig .DRR 2 (by decide) (by decide))) (fun _ _ => true)
      (init 1 1 (oneFile (ascii "d/a") ⟨ascii "a\nb\n", by decide⟩)) bothServed).any
        (fun t => (t.parser 0).isExited && (t.worker 0).isExited && t.fdQueue.closed) = true
      by decide)
  simp only [Bool.and_eq_true] at hcheck
  obtain ⟨⟨hparser, hworker⟩, hclosed⟩ := hcheck
  have hloop : u.step (plainConfig .DRR 2 (by decide) (by decide)) .stopAccepting = some u := by
    have hq : u.fdQueue.close = u.fdQueue := by
      unfold FdQueue.close
      rw [← hclosed]
    simp only [step, hq]
  obtain ⟨b, hinit, -, hstate, -⟩ := Behaviour.exists_of_script hu htrue hloop trivial
  have hlast := hstate bothServed.length le_rfl
  rw [List.take_length, hu, Option.some.injEq] at hlast
  have hfair : ThreadsFair b := by
    refine fair_of_exited (n := bothServed.length) (fun k => ?_) fun k => ?_
    · rw [Subsingleton.elim k 0, ← hlast]
      exact Parser.isExited_iff.mp hparser
    · rw [Subsingleton.elim k 0, ← hlast]
      exact Worker.isExited_iff.mp hworker
  have haccepted : (script (step (plainConfig .DRR 2 (by decide) (by decide))) (fun _ _ => true)
      (init 1 1 (oneFile (ascii "d/a") ⟨ascii "a\nb\n", by decide⟩)) (bothServed.take 11)).any
        (8 ∈ ·.accepted) = true := by decide
  rw [hstate 11 (by decide), Option.any_some, decide_eq_true_eq] at haccepted
  exact ⟨b, hfair, haccepted, every_client_ends (by decide) (by decide) (by decide) hinit hfair
    (fun n => hahead _ _) haccepted⟩

end Sys

end LinkScheduling
