import LinkScheduling.Metatheory.Lifecycle
import LinkScheduling.Metatheory.Log

/-!
# Every fairly served request finishes

A request that is put back into the queue only boundedly often and that the server
keeps serving while it is unfinished leaves the system. The rank of a request is the
number of rounds it may still take, whether it waits or is held, and what is left of
the program of the worker that holds it.
-/

namespace LinkScheduling

open Framework

namespace Sys

variable {P W : ℕ} {cfg : Config} {s t : Sys P W} {fd : Fd}

def Finished (s : Sys P W) (fd : Fd) : Prop := ∃ exit, (fd, exit) ∈ s.finished

/-- The step serves connection `fd`: its request is taken from the queue, or the
worker that holds it makes its next call. -/
def Serves (cfg : Config) (s : Sys P W) (fd : Fd) : Label P W → Prop
  | .workerTake _ => ∃ d q, cfg.scheduler.next s.requestQueue = some (d, q) ∧
      d.request.clientFd = fd
  | .workerCall k _ => ∃ req todo, s.worker k = .busy req true todo ∧ req.clientFd = fd
  | _ => False

/-- While the request of `fd` is unfinished, it is served again and again. -/
def FairFor (b : Behaviour (step (P := P) (W := W) cfg)) (fd : Fd) : Prop :=
  ∀ t, 0 < (b.state t).admittedCount fd → ¬ (b.state t).Finished fd →
    ∃ u, t ≤ u ∧ Serves cfg (b.state u) fd (b.label u)

/-- A worker holds the request of `fd` and has `todo` left. -/
def Doing (s : Sys P W) (fd : Fd) (todo : Server Unit) : Prop :=
  ∃ k req, s.worker k = .busy req true todo ∧ req.clientFd = fd

theorem Doing.unique (hwf : s.WellFormed) {p q : Server Unit} (hp : s.Doing fd p)
    (hq : s.Doing fd q) : p = q := by
  obtain ⟨j, req, hj, hfd⟩ := hp
  obtain ⟨k, req', hk, hfd'⟩ := hq
  have hjk := hwf.worker_unique hj hk (hfd.trans hfd'.symm)
  subst hjk
  rw [hj] at hk
  cases hk
  rfl

open Classical in
/-- How far the request of `fd` is from its end, if it may take `bound` rounds. -/
noncomputable def rank (bound : ℕ) (fd : Fd) (s : Sys P W) : ℕ × ℕ × Server Unit :=
  (bound - requeues (s.log fd),
    if h : ∃ todo, s.Doing fd todo then (0, h.choose) else (1, .ret ()))

def RankLt : ℕ × ℕ × Server Unit → ℕ × ℕ × Server Unit → Prop :=
  Prod.Lex (· < ·) (Prod.Lex (· < ·) Prog.Child)

theorem rankLt_wellFounded : WellFounded RankLt :=
  WellFounded.prod_lex Nat.lt_wfRel.wf (WellFounded.prod_lex Nat.lt_wfRel.wf
    Prog.child_wellFounded)

theorem rank_doing (hwf : s.WellFormed) {todo : Server Unit} (h : s.Doing fd todo) (bound : ℕ) :
    s.rank bound fd = (bound - requeues (s.log fd), 0, todo) := by
  have hex : ∃ p, s.Doing fd p := ⟨todo, h⟩
  simp only [rank, hex, ↓reduceDIte]
  rw [hex.choose_spec.unique hwf h]

theorem rank_waiting (h : ∀ todo, ¬ s.Doing fd todo) (bound : ℕ) :
    s.rank bound fd = (bound - requeues (s.log fd), 1, .ret ()) := by
  have hex : ¬ ∃ p, s.Doing fd p := fun ⟨p, hp⟩ => h p hp
  simp only [rank, hex, ↓reduceDIte]

theorem rank_congr (hwf : s.WellFormed) (hwf' : t.WellFormed)
    (hlog : requeues (t.log fd) = requeues (s.log fd))
    (h : ∀ todo, t.Doing fd todo ↔ s.Doing fd todo) (bound : ℕ) :
    t.rank bound fd = s.rank bound fd := by
  by_cases hex : ∃ todo, s.Doing fd todo
  · obtain ⟨todo, hdo⟩ := hex
    rw [rank_doing hwf hdo, rank_doing hwf' ((h todo).mpr hdo), hlog]
  · have hno : ∀ todo, ¬ s.Doing fd todo := fun todo hdo => hex ⟨todo, hdo⟩
    rw [rank_waiting hno, rank_waiting fun todo hdo => hno todo ((h todo).mp hdo), hlog]

/-- Replacing a worker that has nothing to do with `fd` by another such worker. -/
theorem doing_setWorker {k : Fin W} {w : Worker}
    (hold : ∀ req todo, s.worker k = .busy req true todo → req.clientFd ≠ fd)
    (hnew : ∀ req todo, w = .busy req true todo → req.clientFd ≠ fd) (todo : Server Unit) :
    (s.setWorker k w).Doing fd todo ↔ s.Doing fd todo := by
  constructor
  · rintro ⟨j, req, hj, hfd⟩
    rcases setWorker_busy hj with ⟨rfl, hw⟩ | ⟨-, hj⟩
    · exact absurd hfd (hnew req todo hw)
    · exact ⟨j, req, hj, hfd⟩
  · rintro ⟨j, req, hj, hfd⟩
    have hjk : j ≠ k := by
      rintro rfl
      exact hold req todo hj hfd
    exact ⟨j, req, by simpa [setWorker, Function.update_of_ne hjk] using hj, hfd⟩

theorem doing_self {k : Fin W} {req : Request} {todo : Server Unit} (hfd : req.clientFd = fd) :
    (s.setWorker k (.busy req true todo)).Doing fd todo :=
  ⟨k, req, by simp [setWorker], hfd⟩

theorem rely_of_not_releases {req : Request} {stage : Stage} {e : Eff}
    (h : e.releases = false) (r : Resp e) : (workerContract req).rely stage e r := by
  cases e with
  | requeue later => cases h
  | _ => trivial

/-- A worker that did not release its request has another call to make. -/
theorem serving_next {req : Request} {rows : ℕ} {e : Eff} {r : Resp e} {p : Server Unit}
    (h : e.releases = false)
    (hp : p.wp (workerContract req) (fun _ stage => stage.released)
      ((workerContract req).next (.serving rows) e r)) : ∃ e' next', p = .call e' next' := by
  have hstage : ∃ rows', (workerContract req).next (.serving rows) e r = .serving rows' := by
    cases e <;> first | exact ⟨_, rfl⟩ | cases h
  obtain ⟨rows', hrows⟩ := hstage
  rw [hrows] at hp
  exact serving_call hp

/-- A worker that takes the request from the queue lowers its rank: it was waiting and is
held now. -/
theorem workerTake_rank (hwf : s.WellFormed) {k : Fin W} {d : ScheduleDecision}
    {request : Request} {q : RequestQueue} (hpop : Popped s.requestQueue request q)
    (hsame : request.clientFd = d.request.clientFd)
    (hwf' : ({ s with requestQueue := q }.setWorker k
      (.resume d.request true (workerRound cfg d))).WellFormed) (bound : ℕ) :
    RankLt (({ s with requestQueue := q }.setWorker k
        (.resume d.request true (workerRound cfg d))).rank bound d.request.clientFd)
      (s.rank bound d.request.clientFd) := by
  have hno : ∀ todo, ¬ s.Doing d.request.clientFd todo := by
    rintro todo ⟨j, req, hj, hfd⟩
    have hmem : request ∈ s.requestQueue.queue := hpop.perm.mem_iff.mpr List.mem_cons_self
    refine notMem_queue_of_count (hwf.worker_held hj).2.1 hmem ?_
    rw [hfd, hsame]
  have hdo : ({ s with requestQueue := q }.setWorker k
      (.resume d.request true (workerRound cfg d))).Doing d.request.clientFd
        (workerRound cfg d) := by
    rw [Worker.resume_serving workerRound_disciplined]
    exact doing_self rfl
  rw [rank_doing hwf' hdo, rank_waiting hno]
  exact Prod.Lex.right _ (Prod.Lex.left _ _ Nat.zero_lt_one)

theorem WellFormed.held_of_open (hwf : s.WellFormed) {k : Fin W} {req : Request} {held : Bool}
    {e : Eff} {next : Resp e → Server Unit} (hbusy : s.worker k = .busy req held (.call e next))
    (hopen : ¬ s.Finished req.clientFd) : held = true := by
  cases held with
  | true => rfl
  | false =>
      have hfin := (hwf.worker_closing hbusy).2.2.1
      have hpos : 0 < (s.finished.map Prod.fst).count req.clientFd := by
        unfold finishedCount at hfin
        omega
      obtain ⟨⟨fd, exit⟩, hmem, hfd⟩ := List.mem_map.mp (List.count_pos_iff.mp hpos)
      exact absurd ⟨exit, hfd ▸ hmem⟩ hopen

/-- A call of the worker that holds the request lowers its rank or finishes it: `requeue`
by the round, every other call by what the worker has left. -/
theorem workerCall_rank (hwf : s.WellFormed) {k : Fin W} (c : Choice) {req : Request} {e : Eff}
    {next : Resp e → Server Unit} (hbusy : s.worker k = .busy req true (.call e next))
    (ht : t = (s.perform req.clientFd e (s.answer c e)).setWorker k
      (.resume req (true && !e.releases) (next (s.answer c e))))
    (hwf' : t.WellFormed) {bound : ℕ} (hbound : requeues (t.log req.clientFd) < bound)
    (hlog : requeues (t.log req.clientFd) = requeues (s.log req.clientFd) + e.requeued) :
    RankLt (t.rank bound req.clientFd) (s.rank bound req.clientFd) ∨ t.Finished req.clientFd := by
  obtain ⟨-, hnext⟩ := hwf.worker_ok k req true _ hbusy
  cases hrel : e.releases with
  | true =>
      cases e with
      | requeue later =>
          left
          refine Prod.lex_def.mpr (Or.inl ?_)
          have hone : (Eff.requeue later).requeued = 1 := rfl
          rw [hone] at hlog
          change bound - requeues _ < bound - requeues _
          omega
      | complete exit =>
          right
          subst ht
          exact ⟨exit, by simp [setWorker, perform]⟩
      | _ => cases hrel
  | false =>
      left
      have hdo : s.Doing req.clientFd (.call e next) := ⟨k, req, hbusy, rfl⟩
      obtain ⟨e', next', hcall⟩ := serving_next hrel (hnext (s.answer c e)
        (rely_of_not_releases hrel _))
      have hdo' : t.Doing req.clientFd (next (s.answer c e)) := by
        have hresume : Worker.resume req (true && !e.releases) (next (s.answer c e)) =
            .busy req true (next (s.answer c e)) := by rw [hrel, hcall]; rfl
        rw [ht, hresume]
        exact doing_self rfl
      have hzero : e.requeued = 0 := by
        cases e <;> first | rfl | cases hrel
      rw [rank_doing hwf hdo, rank_doing hwf' hdo', hlog, hzero, Nat.add_zero]
      exact Prod.Lex.right _ (Prod.Lex.right _ ⟨e, next, _, rfl, rfl⟩)

/-- The rank does not rise while the request is unfinished, and it falls when the
request is served. -/
theorem step_rank (hwf : s.WellFormed) {l : Label P W} (hstep : s.step cfg l = some t)
    {bound : ℕ} (hbound : requeues (t.log fd) < bound) (hadm : 0 < s.admittedCount fd)
    (hopen : ¬ s.Finished fd) :
    (t.rank bound fd = s.rank bound fd ∧ ¬ Serves cfg s fd l) ∨
      RankLt (t.rank bound fd) (s.rank bound fd) ∨ t.Finished fd := by
  have hwf' := step_wellFormed hwf hstep
  have hlog := step_log hstep fd
  cases step_cases hstep with
  | accept fd' hnew hacc =>
      exact Or.inl ⟨rank_congr hwf hwf' rfl (fun _ => Iff.rfl) bound, id⟩
  | stopAccepting => exact Or.inl ⟨rank_congr hwf hwf' rfl (fun _ => Iff.rfl) bound, id⟩
  | parserTake k fd' rest hidle hq =>
      exact Or.inl ⟨rank_congr hwf hwf' rfl (fun _ => Iff.rfl) bound, id⟩
  | parserExit k hidle hq hclosed =>
      exact Or.inl ⟨rank_congr hwf hwf' rfl (fun _ => Iff.rfl) bound, id⟩
  | closeQueue => exact Or.inl ⟨rank_congr hwf hwf' rfl (fun _ => Iff.rfl) bound, id⟩
  | parserCall k c fd' e next hbusy =>
      have hne : fd' ≠ fd := by
        rintro rfl
        exact hwf.no_parser hadm hbusy
      refine Or.inl ⟨rank_congr hwf hwf' ?_ (fun _ => Iff.rfl) bound, id⟩
      rw [hlog]
      simp [newCalls, callOf, hbusy, hne]
  | workerExit k hidle hq hclosed hinflight =>
      refine Or.inl ⟨rank_congr hwf hwf' rfl (doing_setWorker ?_ ?_) bound, id⟩
      · simp [hidle]
      · simp
  | workerTake k d request q hidle hpop hreq hbudget hnext =>
      -- a take of `fd` serves it; a take of another leaves `fd` where it is
      by_cases hfd : d.request.clientFd = fd
      · subst hfd
        have hsame := (cfg.scheduler.getBudget_same request).clientFd
        rw [← hreq] at hsame
        exact Or.inr (Or.inl (workerTake_rank hwf hpop hsame.symm hwf' bound))
      · left
        refine ⟨rank_congr hwf hwf' rfl ?_ bound, ?_⟩
        · rw [Worker.resume_serving workerRound_disciplined]
          exact doing_setWorker (s := { s with requestQueue := q }) (by simp [hidle])
            (by rintro _ _ ⟨⟩; exact hfd)
        · rintro ⟨d', q', hnext', hfd'⟩
          rw [hnext] at hnext'
          cases hnext'
          exact hfd hfd'
  | workerCall k c req held e next hbusy =>
      by_cases hfd : req.clientFd = fd
      · subst hfd
        obtain rfl := hwf.held_of_open hbusy hopen
        right
        refine workerCall_rank hwf c hbusy rfl hwf' hbound ?_
        rw [hlog]
        simp [newCalls, callOf, hbusy]
      · left
        refine ⟨rank_congr hwf hwf' ?_ ?_ bound, ?_⟩
        · rw [hlog]
          simp [newCalls, callOf, hbusy, hfd]
        · refine doing_setWorker (s := s.perform req.clientFd e (s.answer c e)) ?_ ?_
          · intro req' todo' h
            rw [worker_perform, hbusy] at h
            cases h
            exact hfd
          · intro req' todo' h
            obtain ⟨rfl, -, -⟩ := Worker.resume_busy h
            exact hfd
        · rintro ⟨req', todo', h, hfd'⟩
          rw [hbusy] at h
          cases h
          exact hfd hfd'

/-- The history lists only grow. -/
theorem step_history {l : Label P W} (hstep : s.step cfg l = some t) :
    s.admitted <+: t.admitted ∧ s.finished <+: t.finished := by
  have hperform : ∀ (fd' : Fd) (e : Eff) (r : Resp e),
      s.admitted <+: (s.perform fd' e r).admitted ∧
        s.finished <+: (s.perform fd' e r).finished := by
    intro fd' e r
    cases e with
    | push req =>
        cases r with
        | false => exact ⟨List.prefix_rfl, List.prefix_rfl⟩
        | true => exact ⟨List.prefix_append _ _, List.prefix_rfl⟩
    | complete exit => exact ⟨List.prefix_rfl, List.prefix_append _ _⟩
    | _ => exact ⟨List.prefix_rfl, List.prefix_rfl⟩
  cases step_cases hstep with
  | parserCall k c fd' e next hbusy => exact hperform fd' e _
  | workerCall k c req held e next hbusy => exact hperform req.clientFd e _
  | _ => exact ⟨List.prefix_rfl, List.prefix_rfl⟩

theorem run_history {A : Sys P W → Label P W → Prop} (hrun : RunWhere cfg A s t) :
    s.admitted <+: t.admitted ∧ s.finished <+: t.finished := by
  induction hrun with
  | refl => exact ⟨List.prefix_rfl, List.prefix_rfl⟩
  | tail _ _ hstep ih =>
      have h := step_history hstep
      exact ⟨ih.1.trans h.1, ih.2.trans h.2⟩

section Behaviours

variable (b : Behaviour (step (P := P) (W := W) cfg))

theorem behaviour_run (n d : ℕ) :
    RunWhere cfg (fun _ _ => True) (b.state n) (b.state (n + d)) :=
  (b.drop n).run (fun _ => trivial) d

theorem behaviour_admitted {n m : ℕ} (h : n ≤ m) {request : Request}
    (hmem : request ∈ (b.state n).admitted) : request ∈ (b.state m).admitted := by
  obtain ⟨d, rfl⟩ := Nat.exists_eq_add_of_le h
  exact (run_history (behaviour_run b n d)).1.subset hmem

theorem behaviour_exit {n m : ℕ} (h : n ≤ m) {exit : Exit}
    (hmem : (fd, exit) ∈ (b.state n).finished) : (fd, exit) ∈ (b.state m).finished := by
  obtain ⟨d, rfl⟩ := Nat.exists_eq_add_of_le h
  exact (run_history (behaviour_run b n d)).2.subset hmem

theorem behaviour_finished {n m : ℕ} (h : n ≤ m) (hfin : (b.state n).Finished fd) :
    (b.state m).Finished fd := by
  obtain ⟨exit, hmem⟩ := hfin
  exact ⟨exit, behaviour_exit b h hmem⟩

/-- A behaviour that serves the request until it is finished is fair to it. -/
theorem fairFor_of_finished {n : ℕ} (hserves : Serves cfg (b.state n) fd (b.label n))
    (hfin : (b.state (n + 1)).Finished fd) : FairFor b fd := by
  intro t _ hopen
  rcases Nat.lt_or_ge n t with h | h
  · exact absurd (behaviour_finished b h hfin) hopen
  · exact ⟨n, h, hserves⟩

/-- **Fair service ends.** In a behaviour that serves the request of `fd` again and
again and puts it back fewer than `bound` times, the request finishes once it is
admitted. -/
theorem eventually_finished (hwf : (b.state 0).WellFormed) (hfair : FairFor b fd) {bound : ℕ}
    {request : Request} (hfd : request.clientFd = fd) {t₀ : ℕ}
    (hadm : request ∈ (b.state t₀).admitted)
    (hbound : ∀ t, t₀ ≤ t → requeues ((b.state t).log fd) < bound) :
    ∃ t, t₀ ≤ t ∧ (b.state t).Finished fd := by
  have hwf' : ∀ t, (b.state t).WellFormed := fun t =>
    run_wellFormed hwf (b.run (P := fun _ _ => True) (fun _ => trivial) t)
  have hadm' : ∀ d, 0 < (b.state (t₀ + d)).admittedCount fd := fun d =>
    List.count_pos_iff.mpr (List.mem_map.mpr
      ⟨request, behaviour_admitted b (Nat.le_add_right t₀ d) hadm, hfd⟩)
  have hstep : ∀ d, ¬ (b.state (t₀ + d)).Finished fd →
      ((b.state (t₀ + d + 1)).rank bound fd = (b.state (t₀ + d)).rank bound fd ∧
        ¬ Serves cfg (b.state (t₀ + d)) fd (b.label (t₀ + d))) ∨
      RankLt ((b.state (t₀ + d + 1)).rank bound fd) ((b.state (t₀ + d)).rank bound fd) ∨
        (b.state (t₀ + d + 1)).Finished fd :=
    fun d hopen => step_rank (hwf' _) (b.next (t₀ + d)) (hbound _ (by omega))
      (hadm' d) hopen
  have hev : ∃ d, ((b.drop t₀).state d).Finished fd := by
    refine (b.drop t₀).eventually rankLt_wellFounded (rank bound fd)
      (fun s => s.Finished fd) ?_ ?_
    · intro d hopen
      exact (hstep d hopen).imp And.left id
    · intro d hopen
      obtain ⟨u, hu, hserves⟩ := hfair (t₀ + d) (hadm' d) hopen
      obtain ⟨d', rfl⟩ := Nat.exists_eq_add_of_le (Nat.le_trans (Nat.le_add_right t₀ d) hu)
      refine ⟨d', by omega, ?_⟩
      by_cases hdone : (b.state (t₀ + d')).Finished fd
      · exact Or.inl hdone
      · rcases hstep d' hdone with h | h
        · exact absurd hserves h.2
        · exact Or.inr h
  obtain ⟨d, hd⟩ := hev
  exact ⟨t₀ + d, Nat.le_add_right t₀ d, hd⟩

end Behaviours

/-- The call of worker `k` serves `fd`. -/
def servesCall (s : Sys P W) (fd : Fd) (k : Fin W) : Bool :=
  match s.worker k with
  | .busy req true _ => req.clientFd = fd
  | _ => false

/-- A script that serves `fd` until its request is finished and then shuts the door,
as a fair behaviour. -/
theorem exists_fair (cfg : Config) (s : Sys P W) (fd : Fd) (ls : List (Label P W)) (n : ℕ)
    (k : Fin W) (c : Choice) {ok : Sys P W → Label P W → Bool}
    {A : Sys P W → Label P W → Prop} (hok : ∀ s l, ok s l = true → A s l)
    (hloop : ∀ s, A s .stopAccepting)
    (hclosed : (script (step cfg) ok s ls).any (·.fdQueue.closed) = true)
    (hlabel : ls[n]? = some (.workerCall k c))
    (hserves : (script (step cfg) ok s (ls.take n)).any (·.servesCall fd k) = true)
    (hfin : (script (step cfg) ok s (ls.take (n + 1))).any
      (·.finished.any (·.1 = fd)) = true) :
    ∃ b : Behaviour (step (P := P) (W := W) cfg), b.state 0 = s ∧
      (∀ m, A (b.state m) (b.label m)) ∧ FairFor b fd ∧
      (∀ m, m ≤ ls.length → script (step cfg) ok s (ls.take m) = some (b.state m)) := by
  obtain ⟨u, hu, hclosed⟩ := (Option.any_eq_true _ _).mp hclosed
  have hstep : u.step cfg .stopAccepting = some u := by
    have hq : u.fdQueue.close = u.fdQueue := by
      unfold FdQueue.close
      rw [← hclosed]
    simp only [step, hq]
  obtain ⟨b, h0, hA, hstate, hlabels⟩ := Behaviour.exists_of_script hu hok hstep (hloop u)
  have hlt : n < ls.length := (List.getElem?_eq_some_iff.mp hlabel).1
  refine ⟨b, h0, hA, fairFor_of_finished b (n := n) ?_ ?_, hstate⟩
  · rw [hstate n hlt.le, Option.any_some] at hserves
    rw [hlabels n _ hlabel]
    unfold servesCall at hserves
    split at hserves
    · rename_i req todo hbusy
      exact ⟨req, todo, hbusy, by simpa using hserves⟩
    · cases hserves
  · rw [hstate (n + 1) hlt, Option.any_some, List.any_eq_true] at hfin
    obtain ⟨⟨fd', exit⟩, hmem, hfd⟩ := hfin
    have hfd : fd' = fd := by simpa using hfd
    exact ⟨exit, hfd ▸ hmem⟩

end Sys

/-! ## Concrete runs

A server with one parser and one worker on a directory `d`, and the labels of its
usual moves. -/

def plainConfig (policy : SchedulingPolicy) (quantum : ℕ) (hlt : quantum < 2 ^ 64)
    (hpos : 0 < quantum) : Config where
  scheduler := ⟨policy, quantum, hlt, fun _ => hpos⟩
  fileDir := ascii "d"
  packetization := 1
  fileDir_cstr := by decide
  packetization_pos := by decide

/-- A directory with one file. -/
def oneFile (path : Bytes) (file : File) : Directory :=
  fun p => if p = path then some file else none

/-- A pool of one thread has a first thread. -/
instance oneThread : NeZero 1 := ⟨one_ne_zero⟩

def Worker.isIdle : Worker → Bool
  | .idle => true
  | _ => false

theorem Worker.isIdle_iff {w : Worker} : w.isIdle = true ↔ w = .idle := by
  cases w <;> simp [Worker.isIdle]

/-- A client connects and sends `text`; the parser makes `calls` more calls. -/
def arrive (fd : Fd) (text : Bytes) (calls : ℕ) : List (Label 1 1) :=
  .accept fd :: .parserTake 0 :: .parserCall 0 {} :: .parserCall 0 {} ::
    .parserCall 0 { data := some text } :: List.replicate calls (.parserCall 0 {})

/-- The worker takes a request and makes `calls` calls. -/
def work (calls : ℕ) : List (Label 1 1) :=
  .workerTake 0 :: List.replicate calls (.workerCall 0 {})

/-- The call of the step, if it makes one, succeeds where it may fail. -/
def Label.succeeds {P W : ℕ} : Label P W → Bool
  | .parserCall _ c => c.ok
  | .workerCall _ c => c.ok
  | _ => true

theorem Sys.callOf_succeeds {P W : ℕ} {s : Sys P W} {l : Label P W} (h : l.succeeds = true)
    (fd fd' : Fd) (data : Bytes) : s.callOf l ≠ some (fd, ⟨.sendAll fd' data, false⟩) := by
  have hanswer : ∀ (c : Choice) (e : Eff), c.ok = true →
      (⟨e, s.answer c e⟩ : Call) ≠ ⟨.sendAll fd' data, false⟩ := by
    intro c e hok heq
    obtain ⟨rfl, hres⟩ := Event.mk.inj heq
    have hres : c.ok = false := eq_of_heq hres
    rw [hok] at hres
    cases hres
  intro hcall
  cases l with
  | parserCall k c =>
      simp only [callOf] at hcall
      split at hcall
      · exact hanswer c _ h (Prod.mk.inj (Option.some.inj hcall)).2
      · cases hcall
  | workerCall k c =>
      simp only [callOf] at hcall
      split at hcall
      · exact hanswer c _ h (Prod.mk.inj (Option.some.inj hcall)).2
      · cases hcall
  | _ => cases hcall

end LinkScheduling
