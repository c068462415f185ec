import LinkScheduling.Metatheory.Rows
import LinkScheduling.Metatheory.Workload
import LinkScheduling.Put.Store

/-!
# The numbers of the requests

A parser fetches at most one number for its connection and pushes the request with it, so
the numbers are those of `next_request_id` one after the other, on an `int` that wraps. While
fewer than `2 ^ 32` connections were accepted no two requests have the same number, and no two
uploads the same staging file.
-/

namespace LinkScheduling

open Framework

/-! ## One connection -/

/-- The ghost state is the number that was fetched. -/
def numbering : Contract Eff Resp (Option ℤ) where
  guarantee g e := match e with
    | .fetchId => g = none
    | .push req => g = some req.requestId
    | _ => True
  rely _ _ _ := True
  next g e r := match e, r with
    | .fetchId, number => some number
    | _, _ => g

theorem rejectClient_numbering (fd : Fd) (reason : Bytes) (g : Option ℤ) :
    (rejectClient fd reason).wp numbering (fun _ _ => True) g :=
  ⟨trivial, fun _ _ => ⟨trivial, fun _ _ => trivial⟩⟩

theorem admitRequest_numbering (fd : Fd) (req : Request) :
    (admitRequest fd req).wp numbering (fun _ _ => True) none := by
  simp only [admitRequest, perform, Prog.wp_bind, Prog.wp_perform]
  refine ⟨rfl, fun number _ => ⟨trivial, fun arrival _ => ⟨rfl, ?_⟩⟩⟩
  rintro (_ | _) -
  · exact rejectClient_numbering fd _ _
  · trivial

theorem parserClient_numbering (cfg : Config) (fd : Fd) :
    (parserClient cfg fd).wp numbering (fun _ _ => True) none := by
  have hread : (readHeaderLine fd 1000).wp numbering (fun _ g => True ∧ g = none) none := by
    simp only [readHeaderLine, perform, Prog.wp_bind, Prog.wp_perform]
    refine ⟨trivial, fun start _ => (readHeaderLoop_only 8192 []).wp ?_ ?_⟩
    · rintro e (rfl | ⟨n, t, rfl⟩) <;> trivial
    · rintro e r (rfl | ⟨n, t, rfl⟩) <;> rfl
  unfold parserClient
  rw [Prog.wp_bind]
  refine Prog.wp_mono hread ?_
  rintro ⟨header, leftover⟩ g ⟨-, rfl⟩
  simp only
  split
  · exact rejectClient_numbering fd _ _
  split
  · exact rejectClient_numbering fd _ _
  split
  · exact ⟨trivial, fun _ _ => ⟨trivial, fun _ _ => ⟨trivial, fun _ _ => trivial⟩⟩⟩
  split
  · exact rejectClient_numbering fd _ _
  split
  · simp only [fileExists, getFileSize, perform, Prog.wp_bind, Prog.wp_perform, Prog.wp_pure]
    refine ⟨trivial, fun found _ => ?_⟩
    split
    · simp only [Prog.wp_bind, Prog.wp_perform, Prog.wp_pure]
      exact ⟨trivial, fun size _ => admitRequest_numbering fd _⟩
    · exact rejectClient_numbering fd _ _
  · exact admitRequest_numbering fd _

/-- The connection fetched the number. -/
def Fetched (number : ℤ) (log : List Call) : Prop := ⟨.fetchId, number⟩ ∈ log

/-- A number is fetched at most once, and requests are pushed with the fetched number. -/
structure Numbered (log : List Call) : Prop where
  once : Along (fun before call => call.eff = .fetchId → ∀ number, ¬ Fetched number before) log
  pushed : ∀ req, Pushed req log → Fetched req.requestId log

theorem Numbered.snoc {log : List Call} {e : Eff} (r : Resp e) (h : Numbered log)
    (hfetch : e = .fetchId → ∀ number, ¬ Fetched number log)
    (hpush : ∀ req, e = .push req → Fetched req.requestId log) : Numbered (log ++ [⟨e, r⟩]) where
  once := h.once.snoc hfetch
  pushed req hpushed := by
    apply List.mem_append_left
    rcases List.mem_append.mp hpushed with hpushed | hpushed
    · exact h.pushed req hpushed
    · cases List.mem_singleton.mp hpushed
      exact hpush req rfl

def numberLife : Lifecycle where
  allowed _ _ := True
  always := Numbered
  queued _ := Numbered
  ended _ := Numbered

theorem numbered_of_numbering {p : Server Unit} {g : Option ℤ} {log : List Call}
    (h : p.wp numbering (fun _ _ => True) g) (hg : ∀ number, Fetched number log → g = some number)
    (hg' : ∀ number, g = some number → Fetched number log) (hlog : Numbered log) :
    p.wp numberLife.contract (fun _ => Numbered) log := by
  induction p generalizing g log with
  | ret a => exact hlog
  | call e next ih =>
      have hsnoc : ∀ r, Numbered (log ++ [⟨e, r⟩]) := by
        refine fun r => hlog.snoc r ?_ ?_
        · rintro rfl number hfetched
          have hnone : g = none := h.1
          rw [hg number hfetched] at hnone
          cases hnone
        · rintro req rfl
          exact hg' _ h.1
      refine ⟨⟨hlog, by cases e <;> first | trivial | exact hsnoc _⟩, fun r _ => ?_⟩
      refine ih r (h.2 r trivial) (fun number hnumber => ?_) (fun number hnumber => ?_) (hsnoc r)
      · rcases List.mem_append.mp hnumber with hnumber | hnumber
        · have hold := hg number hnumber
          cases e with
          | fetchId =>
              have hnone : g = none := h.1
              rw [hold] at hnone
              cases hnone
          | _ => exact hold
        · cases List.mem_singleton.mp hnumber
          rfl
      · cases e with
        | fetchId =>
            cases hnumber
            exact List.mem_append_right _ List.mem_cons_self
        | _ => exact List.mem_append_left _ (hg' number hnumber)

/-- Workers fetch no number. -/
theorem workerContract_fetchless {orig : Request} {stage : Stage} :
    ¬ (workerContract orig).guarantee stage .fetchId := by
  intro h
  cases stage with
  | completed => cases h
  | _ => exact h.elim

theorem numbered_of_disciplined {orig : Request} {p : Server Unit} {stage : Stage}
    {Q : Unit → Stage → Prop} {log : List Call} (h : p.wp (workerContract orig) Q stage)
    (hlog : Numbered log) : p.wp numberLife.contract (fun _ => Numbered) log := by
  induction p generalizing stage log with
  | ret a => exact hlog
  | call e next ih =>
      have hsnoc : ∀ r, Numbered (log ++ [⟨e, r⟩]) := by
        refine fun r => hlog.snoc r ?_ ?_
        · rintro rfl
          exact absurd h.1 workerContract_fetchless
        · rintro req rfl
          exact absurd h.1 workerContract_pushless
      refine ⟨⟨hlog, by cases e <;> first | trivial | exact hsnoc _⟩, fun r hr => ?_⟩
      refine ih r (h.2 r ?_) (hsnoc r)
      cases e <;> first | trivial | exact hr.1

theorem numberLife_sound (cfg : Config) (fd : Fd) : numberLife.Sound cfg fd where
  parse := numbered_of_numbering (parserClient_numbering cfg fd) (fun _ h => by cases h)
    (fun _ h => by cases h) ⟨along_nil, fun _ h => by cases h⟩
  round _ _ _ h := numbered_of_disciplined workerRound_disciplined h
  close _ _ h := h.snoc _ (fun he => by cases he) fun _ he => by cases he

/-! ## All connections -/

namespace Sys

variable {P W : ℕ} {cfg : Config} {dir : Directory} {s t : Sys P W} {A : Sys P W → Label P W → Prop}

theorem run_numbered (hrun : RunWhere cfg A (init P W dir) t) (fd : Fd) : Numbered (t.log fd) :=
  (Lifecycle.run_holds (numberLife_sound cfg fd) (hrun.mono fun _ _ _ _ _ => trivial)).always

/-- `order` lists the connections that fetched a number, in their order. -/
structure FetchOrder (s : Sys P W) (order : List Fd) : Prop where
  nodup : order.Nodup
  accepted : ∀ fd ∈ order, fd ∈ s.accepted
  fetched : ∀ fd ∈ order, ∃ number, Fetched number (s.log fd)
  next : s.nextRequestId = int32 (order.length + 1)
  number : ∀ fd number, Fetched number (s.log fd) →
    ∃ k : ℕ, order[k]? = some fd ∧ number = int32 (k + 1)

/-- A call that fetches no number. -/
theorem FetchOrder.perform {order : List Fd} (h : s.FetchOrder order) (fd : Fd) {e : Eff}
    (r : Resp e) (he : e ≠ .fetchId) : (s.perform fd e r).FetchOrder order where
  nodup := h.nodup
  accepted := h.accepted
  fetched fd' hmem := by
    obtain ⟨number, hnumber⟩ := h.fetched fd' hmem
    exact ⟨number, by rw [log_perform]; exact List.mem_append_left _ hnumber⟩
  next := by
    rw [← h.next]
    cases e <;> first | rfl | exact absurd rfl he
  number fd' number hnumber := by
    rw [log_perform] at hnumber
    rcases List.mem_append.mp hnumber with hnumber | hnumber
    · exact h.number fd' number hnumber
    · split at hnumber
      · cases List.mem_singleton.mp hnumber
        exact absurd rfl he
      · cases hnumber

/-- A connection that fetches its number. -/
theorem FetchOrder.fetch {order : List Fd} (h : s.FetchOrder order) {fd : Fd} {c : Choice}
    (hfd : fd ∈ s.accepted) (hnew : ∀ number, ¬ Fetched number (s.log fd)) :
    (s.perform fd .fetchId (s.answer c .fetchId)).FetchOrder (order ++ [fd]) where
  nodup := by
    refine List.nodup_append.mpr ⟨h.nodup, List.nodup_singleton fd, ?_⟩
    rintro fd' hmem _ hlast rfl
    rw [List.mem_singleton] at hlast
    subst hlast
    obtain ⟨number, hnumber⟩ := h.fetched _ hmem
    exact hnew number hnumber
  accepted fd' hmem := by
    rcases List.mem_append.mp hmem with hmem | hmem
    · exact h.accepted fd' hmem
    · rw [List.mem_singleton.mp hmem]
      exact hfd
  fetched fd' hmem := by
    rcases List.mem_append.mp hmem with hmem | hmem
    · obtain ⟨number, hnumber⟩ := h.fetched fd' hmem
      exact ⟨number, by rw [log_perform]; exact List.mem_append_left _ hnumber⟩
    · rw [List.mem_singleton.mp hmem]
      exact ⟨s.nextRequestId, by
        rw [log_perform, if_pos rfl]
        exact List.mem_append_right _ List.mem_cons_self⟩
  next := by
    change int32 (s.nextRequestId + 1) = _
    rw [h.next, Workload.int32_succ, List.length_append]
    rfl
  number fd' number hnumber := by
    rw [log_perform] at hnumber
    rcases List.mem_append.mp hnumber with hnumber | hnumber
    · obtain ⟨k, hk, hnumber⟩ := h.number fd' number hnumber
      obtain ⟨hlt, -⟩ := List.getElem?_eq_some_iff.mp hk
      exact ⟨k, by rw [List.getElem?_append_left hlt]; exact hk, hnumber⟩
    · by_cases hfd' : fd = fd'
      · subst hfd'
        rw [if_pos rfl] at hnumber
        cases List.mem_singleton.mp hnumber
        exact ⟨order.length, List.getElem?_concat_length, h.next⟩
      · rw [if_neg hfd'] at hnumber
        cases hnumber

theorem step_fetchOrder (hwf : s.WellFormed) {l : Label P W} (hstep : s.step cfg l = some t)
    (hnumbered : ∀ fd, Numbered (t.log fd)) (h : ∃ order, s.FetchOrder order) :
    ∃ order, t.FetchOrder order := by
  obtain ⟨order, h⟩ := h
  cases step_cases hstep with
  | accept fd hnew hopen =>
      exact ⟨order, h.nodup, fun fd' hmem => List.mem_append_left _ (h.accepted fd' hmem),
        h.fetched, h.next, h.number⟩
  | parserCall k c fd e next hbusy =>
      by_cases he : e = .fetchId
      · subst he
        have hfd : fd ∈ s.accepted := by
          obtain ⟨hparsing, -⟩ := hwf.parser_owned hbusy
          by_contra hnone
          have := hwf.unaccepted fd hnone
          omega
        have hnew : ∀ number, ¬ Fetched number (s.log fd) :=
          (hnumbered fd).once _ _ [] (log_perform_self s fd _ _) rfl
        have hnext := h.fetch (c := c) hfd hnew
        exact ⟨_, hnext.nodup, hnext.accepted, hnext.fetched, hnext.next, hnext.number⟩
      · have hnext := h.perform fd (s.answer c e) he
        exact ⟨order, hnext.nodup, hnext.accepted, hnext.fetched, hnext.next, hnext.number⟩
  | workerCall k c req held e next hbusy =>
      have he : e ≠ .fetchId := by
        rintro rfl
        exact workerContract_fetchless (hwf.worker_ok k req held _ hbusy).1
      have hnext := h.perform req.clientFd (s.answer c e) he
      exact ⟨order, hnext.nodup, hnext.accepted, hnext.fetched, hnext.next, hnext.number⟩
  | _ => exact ⟨order, h.nodup, h.accepted, h.fetched, h.next, h.number⟩

theorem run_fetchOrder (hrun : RunWhere cfg A (init P W dir) t) : ∃ order, t.FetchOrder order := by
  have hinit : (init P W dir).FetchOrder [] := by
    constructor
    · exact List.nodup_nil
    · exact fun _ h => by cases h
    · exact fun _ h => by cases h
    · exact rfl
    · exact fun _ _ h => by cases h
  refine hrun.invariant_along (fun s => ∃ order, FetchOrder s order) ⟨[], hinit⟩ ?_
  intro u l v hu h hA hstep
  have hv : RunWhere cfg A (init P W dir) v := .tail hu hA hstep
  exact step_fetchOrder (run_wellFormed (init_wellFormed dir) hu) hstep (run_numbered hv) h

/-- The first `2 ^ 32` numbers are different. -/
theorem int32_inj {j k : ℕ} (hj : j < 2 ^ 32) (hk : k < 2 ^ 32)
    (h : int32 (j + 1) = int32 (k + 1)) : j = k := by
  unfold int32 at h
  omega

theorem FetchOrder.length_le {order : List Fd} (h : s.FetchOrder order) :
    order.length ≤ s.accepted.length :=
  (List.subperm_of_subset h.nodup h.accepted).length_le

/-- Connections with the same number are the same. -/
theorem fetched_inj (hrun : RunWhere cfg A (init P W dir) t) (hfew : t.accepted.length ≤ 2 ^ 32)
    {fd fd' : Fd} {number : ℤ} (h : Fetched number (t.log fd)) (h' : Fetched number (t.log fd')) :
    fd = fd' := by
  obtain ⟨order, horder⟩ := run_fetchOrder hrun
  obtain ⟨j, hj, hnumber⟩ := horder.number fd number h
  obtain ⟨k, hk, hnumber'⟩ := horder.number fd' number h'
  have hlength := horder.length_le
  obtain ⟨hjlt, -⟩ := List.getElem?_eq_some_iff.mp hj
  obtain ⟨hklt, -⟩ := List.getElem?_eq_some_iff.mp hk
  have hsame : j = k := int32_inj (by omega) (by omega) (hnumber.symm.trans hnumber')
  subst hsame
  exact Option.some.inj (hj.symm.trans hk)

theorem request_fetched (hrun : RunWhere cfg A (init P W dir) t) {request : Request}
    (hmem : request ∈ t.admitted) : Fetched request.requestId (t.log request.clientFd) :=
  (run_numbered hrun _).pushed request (run_admitted hrun hmem)

theorem requestId_inj (hrun : RunWhere cfg A (init P W dir) t)
    (hfew : t.accepted.length ≤ 2 ^ 32) {a b : Request} (ha : a ∈ t.admitted)
    (hb : b ∈ t.admitted) (h : a.requestId = b.requestId) : a = b := by
  have hfd : a.clientFd = b.clientFd :=
    fetched_inj hrun hfew (request_fetched hrun ha) (h ▸ request_fetched hrun hb)
  exact List.inj_on_of_nodup_map (run_wellFormed (init_wellFormed dir) hrun).distinct ha hb hfd

/-- Only a row that is recorded for the connection counts for it. -/
theorem rows_perform (s : Sys P W) (fd' fd : Fd) (e : Eff) (r : Resp e) :
    (s.perform fd' e r).rows fd = s.rows fd ∨
      (s.perform fd' e r).rows fd = s.rows fd + 1 ∧ fd' = fd ∧ ∃ req, e = .record req := by
  cases e with
  | record req =>
      have hrows : (s.perform fd' (.record req) r).rows fd = s.rows fd + [fd'].count fd := by
        simp only [rows, perform, List.map_append, List.count_append, List.map_cons, List.map_nil]
      by_cases hfd : fd' = fd
      · subst hfd
        rw [List.count_singleton_self] at hrows
        exact Or.inr ⟨hrows, rfl, req, rfl⟩
      · rw [List.count_singleton, if_neg (by simpa using hfd)] at hrows
        exact Or.inl hrows
  | _ => exact Or.inl rfl

theorem step_rows_le (hwf : s.WellFormed) {l : Label P W} (hstep : s.step cfg l = some t)
    (h : ∀ fd, s.rows fd ≤ 1) (fd : Fd) : t.rows fd ≤ 1 := by
  have hfd := h fd
  cases step_cases hstep with
  | parserCall k c fd' e next hbusy =>
      change (s.perform fd' e (s.answer c e)).rows fd ≤ 1
      rcases rows_perform s fd' fd e (s.answer c e) with hrows | ⟨-, -, req, rfl⟩
      · omega
      · exact (hwf.parser_ok k fd' _ hbusy).1.2.elim
  | workerCall k c req held e next hbusy =>
      change (s.perform req.clientFd e (s.answer c e)).rows fd ≤ 1
      rcases rows_perform s req.clientFd fd e (s.answer c e) with hrows | ⟨hrows, rfl, row, rfl⟩
      · omega
      · -- a worker records only what has no row yet
        have hcall := (hwf.worker_ok k req held _ hbusy).1
        cases held with
        | true =>
            have hnone : s.rows req.clientFd = 0 := hcall
            omega
        | false => cases hcall
  | _ => exact hfd

/-- A connection has at most one row. -/
theorem records_nodup (hrun : RunWhere cfg A (init P W dir) t) :
    (t.records.map Prod.fst).Nodup := by
  refine List.nodup_iff_count_le_one.mpr fun fd => ?_
  refine (hrun.invariant (fun s => s.WellFormed ∧ ∀ fd, s.rows fd ≤ 1)
    ⟨init_wellFormed dir, fun _ => Nat.zero_le _⟩ ?_).2 fd
  rintro u l v ⟨hwf, h⟩ - hstep
  exact ⟨step_wellFormed hwf hstep, step_rows_le hwf hstep h⟩

/-- The rows of a run have different numbers. -/
theorem rows_numbers_nodup (hrun : RunWhere cfg A (init P W dir) t)
    (hfew : t.accepted.length ≤ 2 ^ 32) : (t.records.map (·.2.requestId)).Nodup := by
  refine List.Nodup.map_on ?_ (records_nodup hrun).of_map
  rintro ⟨fd, row⟩ hrow ⟨fd', row'⟩ hrow' (hnumber : row.requestId = row'.requestId)
  obtain ⟨a, ha, rfl, hdescribes⟩ := rowDescribed hrun hrow
  obtain ⟨b, hb, rfl, hdescribes'⟩ := rowDescribed hrun hrow'
  have hsame : a = b :=
    requestId_inj hrun hfew ha hb (hdescribes.requestId.symm.trans (hnumber.trans hdescribes'.requestId))
  subst hsame
  exact List.inj_on_of_nodup_map (records_nodup hrun) hrow hrow' rfl

/-- The staging path of an upload whose name holds no NUL byte is its own, if no upload has
the staging name for its name. -/
theorem run_ownStaging (hrun : RunWhere cfg A (init P W dir) t)
    (hfew : t.accepted.length ≤ 2 ^ 32) {a : Request} (ha : a ∈ t.admitted)
    (hnul : (0 : UInt8) ∉ a.filename)
    (hnames : ∀ b ∈ t.admitted, b.op = .PUT → cstr b.filename ≠ stagingName a) :
    RunWhere cfg (OwnPath (cstr (stagingPath cfg a)) a.clientFd) (init P W dir) t := by
  have hstaging : cstr (stagingPath cfg a) = filePath cfg.fileDir (stagingName a) :=
    cstr_stagingPath_of_notMem hnul
  have hfinal : ∀ b ∈ t.admitted, b.op = .PUT →
      cstr (stagingPath cfg a) ≠ cstr (finalPath cfg b) := by
    intro b hb hop heq
    rw [hstaging, finalPath, cstr_filePath, filePath_inj] at heq
    exact hnames b hb hop heq.symm
  have hown : ∀ b ∈ t.admitted, b.op = .PUT →
      cstr (stagingPath cfg a) = cstr (stagingPath cfg b) → a = b := by
    intro b hb hop heq
    rw [hstaging, stagingPath, cstr_filePath, filePath_inj, cstr_stagingName] at heq
    split at heq
    · exact absurd heq.symm (hnames b hb hop)
    · exact requestId_inj hrun hfew ha hb (requestId_eq_of_stagingName heq)
  refine hrun.mono_reach fun u l v hu _ hstep hrest fd call hcall => ?_
  have hwriter : ∀ {p}, call.Changes p → ∃ b ∈ t.admitted, b.clientFd = fd ∧ b.op = .PUT ∧
      Proper cfg b (u.log fd) call := by
    intro p hchanges
    obtain ⟨b, hb, hproper⟩ := step_writer hu hstep hcall hchanges
    have hsub := (step_history hstep).1.trans (run_history hrest).1
    exact ⟨b, hsub.subset hb, hproper⟩
  refine ⟨fun hne hchanges => ?_, fun _ honto => ?_⟩
  · obtain ⟨b, hb, rfl, hop, hproper⟩ := hwriter hchanges
    rcases hproper.changes hchanges with hpath | ⟨hpath, -⟩
    · exact hne (congrArg Request.clientFd (hown b hb hop hpath).symm)
    · exact hfinal b hb hop hpath
  · rcases call with ⟨e, r⟩
    cases e with
    | rename src dst =>
        obtain ⟨b, hb, -, hop, -, hdst, -⟩ := hwriter ⟨honto.1, Or.inr honto.2⟩
        have hpath : cstr dst = cstr (stagingPath cfg a) := honto.2
        rw [hdst] at hpath
        exact hfinal b hb hop hpath.symm
    | _ => exact honto

end Sys

end LinkScheduling
