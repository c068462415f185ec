import LinkScheduling.Metatheory.Accounting
import LinkScheduling.Put.Failure

/-!
# The directory as a store of committed uploads

What the directory is for: a name holds the body of the last upload committed under it,
or its first content. `Store` follows the commits of a run and nothing else. The
directory agrees with it as long as no staging name is the name of a served file: staging
files share the directory and the name space with the served files, so an upload named
like a staging file of another one breaks the agreement.
-/

namespace LinkScheduling

open Framework

/-! ## Who changes the directory -/

/-- Calls of a request that has nothing to store. -/
def Eff.harmless : Eff → Prop
  | .create _ => False
  | .write _ _ _ => False
  | .remove _ => False
  | .rename _ _ => False
  | .push _ => False
  | .requeue later => later.op = .GET ∧ later.stagingFilename = []
  | _ => True

theorem Eff.harmless.unchanged {call : Call} (h : call.eff.harmless) (p : Bytes) :
    ¬ call.Changes p := by
  rcases call with ⟨e, r⟩
  cases e <;> first | exact h.elim | exact id

section Harmless

variable {cfg : Config} {req : Request}

theorem finishRequest_harmless : (finishRequest req).Only Eff.harmless (fun _ => True) := by
  simp [finishRequest, perform, Eff.harmless]

theorem settleRound_harmless {budget n : ℕ} (hget : req.op = .GET)
    (hstaging : req.stagingFilename = []) :
    (settleRound cfg budget req n).Only Eff.harmless (fun _ => True) := by
  have hop : (cfg.scheduler.account req n).op = .GET :=
    (cfg.scheduler.account_same req n).op.trans hget
  have hst : (cfg.scheduler.account req n).stagingFilename = [] := by
    unfold Scheduler.account
    simp only
    split
    · split <;> exact hstaging
    · exact hstaging
  unfold settleRound
  simp only
  split
  · rw [Prog.only_bind]
    simp only [perform, Prog.only_perform]
    refine ⟨?_, fun ok => ?_⟩
    · split
      · exact ⟨hop, hst⟩
      · exact ⟨hop, hst⟩
    · cases ok <;> simp [Eff.harmless]
  · rw [if_neg (by rw [hop]; simp)]
    exact finishRequest_harmless

/-- A round of a GET changes no file. -/
theorem workerRound_harmless (hget : req.op = .GET) (hstaging : req.stagingFilename = []) :
    (workerRound cfg (cfg.scheduler.decision req)).Only Eff.harmless (fun _ => True) := by
  have hround : ∀ (req' : Request), req'.op = .GET → req'.stagingFilename = [] → ∀ budget,
      (dispatchRound cfg budget req').Only Eff.harmless (fun _ => True) := by
    intro req' hget' hstaging' budget
    unfold dispatchRound
    rw [serveRound_get hget', Prog.only_bind]
    refine serveGet_only.mono (fun e he => ?_) fun res hres => ?_
    · cases e <;> first | exact he.elim | trivial
    · obtain ⟨ok, later, n⟩ := res
      have hlater : later.op = .GET := hres.same.op.trans hget'
      have hst : later.stagingFilename = [] := hres.stagingFilename.trans hstaging'
      cases ok with
      | true => exact settleRound_harmless hlater hst
      | false => simp [abandonRequest, hst, perform, Eff.harmless]
  generalize hd : cfg.scheduler.decision req = d
  obtain ⟨hop, hst⟩ : d.request.op = .GET ∧ d.request.stagingFilename = [] := by
    rw [← hd, Scheduler.decision, Scheduler.getBudget_eq]
    exact ⟨hget, hstaging⟩
  unfold workerRound stampStart
  split
  · simp only [perform, Prog.only_bind, Prog.only_perform, Prog.only_pure]
    exact ⟨trivial, fun start => hround { d.request with startNs := start } hop hst _⟩
  · exact hround d.request hop hst _

end Harmless

/-- The calls change no file. -/
def Idle (log : List Call) : Prop := ∀ call ∈ log, ∀ p, ¬ call.Changes p

theorem Idle.snoc {log : List Call} {call : Call} (h : Idle log)
    (hcall : ∀ p, ¬ call.Changes p) : Idle (log ++ [call]) := by
  intro call' hmem
  rcases List.mem_append.mp hmem with hmem | hmem
  · exact h call' hmem
  · rw [List.mem_singleton.mp hmem]
    exact hcall

/-- The lifecycle of a request that changes no file. -/
def idleLife : Lifecycle where
  allowed _ _ := True
  always := Idle
  queued req log := req.op = .GET ∧ req.stagingFilename = [] ∧ Idle log
  ended _ := Idle

theorem harmless_idle {p : Server Unit} {log : List Call}
    (hp : p.Only Eff.harmless (fun _ => True)) (h : Idle log) :
    p.wp idleLife.contract (fun _ => Idle) log := by
  induction p generalizing log with
  | ret a => exact h
  | call e next ih =>
      have hnext : ∀ r : Resp e, Idle (log ++ [⟨e, r⟩]) := fun r =>
        h.snoc (Eff.harmless.unchanged (show (⟨e, r⟩ : Call).eff.harmless from hp.1))
      refine ⟨⟨h, ?_⟩, fun r _ => ih r (hp.2 r) (hnext r)⟩
      cases e with
      | push req => exact hp.1.elim
      | requeue later => exact ⟨hp.1.1, hp.1.2, hnext true⟩
      | complete exit => exact hnext ()
      | _ => trivial

theorem idleLife_soundFor {cfg : Config} {request : Request} (hget : request.op = .GET) :
    idleLife.SoundFor cfg request where
  enter log hadm _ := by
    have hlog : Idle (log ++ [⟨.push request, true⟩]) := by
      refine Idle.snoc ?_ fun p => id
      rintro ⟨e, r⟩ hmem p
      have := hadm.calls _ hmem
      cases e <;> first | exact this.elim | exact id
    exact ⟨hlog, hget, hadm.fresh.stagingFilename, hlog⟩
  round _ _ _ h := harmless_idle (workerRound_harmless h.1 h.2.1) h.2.2
  close _ _ h := h.snoc fun _ => id

namespace Sys

variable {P W : ℕ} {cfg : Config} {dir : Directory} {s t : Sys P W}

/-- **Only uploads change the directory**, in the way that is proper for them. -/
theorem step_writer {A : Sys P W → Label P W → Prop} (hrun : RunWhere cfg A (init P W dir) s)
    {l : Label P W} (hstep : s.step cfg l = some t) {fd : Fd} {call : Call}
    (hcall : s.callOf l = some (fd, call)) {p : Bytes} (hchanges : call.Changes p) :
    ∃ request ∈ s.admitted, request.clientFd = fd ∧ request.op = .PUT ∧
      Proper cfg request (s.log fd) call := by
  have hwf := run_wellFormed (init_wellFormed dir) hrun
  have hrun' : RunWhere cfg (fun _ _ => True) (init P W dir) t :=
    .tail (hrun.mono fun _ _ _ => trivial) trivial hstep
  have hadm : ∃ request ∈ s.admitted, request.clientFd = fd := by
    cases l with
    | parserCall k c =>
        simp only [callOf] at hcall
        split at hcall
        · rename_i fd' e next hbusy
          obtain ⟨rfl, rfl⟩ := Prod.mk.inj (Option.some.inj hcall)
          have hparser := (hwf.parser_ok k _ _ hbusy).1.2
          cases e <;> first | exact hparser.elim | exact hchanges.elim
        · cases hcall
    | workerCall k c =>
        simp only [callOf] at hcall
        split at hcall
        · rename_i req held e next hbusy
          obtain ⟨rfl, rfl⟩ := Prod.mk.inj (Option.some.inj hcall)
          have hcount : s.admittedCount req.clientFd = 1 := by
            cases held with
            | true => exact (hwf.worker_held hbusy).2.2.2.1
            | false => exact (hwf.worker_closing hbusy).2.2.2.1
          have hmem : req.clientFd ∈ s.admitted.map (·.clientFd) :=
            List.count_pos_iff.mp (by unfold admittedCount at hcount; omega)
          obtain ⟨request, hmem, hfd⟩ := List.mem_map.mp hmem
          exact ⟨request, hmem, hfd⟩
        · cases hcall
    | _ => cases hcall
  obtain ⟨request, hmem, rfl⟩ := hadm
  have hmem' : request ∈ t.admitted := (step_history hstep).1.subset hmem
  have hlog := callOf_log hcall hstep
  obtain ⟨before, -, -, hadm⟩ := (run_tracked hrun hmem).admitted
  rcases hadm.op with hget | hput
  · have hidle := (Lifecycle.run_holdsFor (idleLife_soundFor hget)
      (hrun'.mono fun _ _ _ _ _ => trivial) hmem').always
    exact absurd hchanges (hidle call (by rw [hlog]; simp) p)
  · exact ⟨request, hmem, rfl, hput, (run_putLife hput hrun' hmem').always.trail _ _ [] hlog⟩

/-! ## The store -/

/-- What each path should hold: the abstract view of the directory. -/
abbrev Store : Type := Bytes → Option Bytes

def Store.ofDir (dir : Directory) : Store := fun p => (dir p).map File.bytes

/-- The body of the upload of connection `fd`, as far as it was received. -/
def bodyOf (s : Sys P W) (fd : Fd) : Bytes :=
  match s.admitted.find? (fun request => request.clientFd = fd) with
  | some request => (payload (s.log fd)).take request.totalBytes
  | none => []

/-- A rename that succeeds commits the body of its connection; nothing else counts. -/
def commit (s : Sys P W) (store : Store) (l : Label P W) : Store :=
  match s.callOf l with
  | some (fd, ⟨.rename _ dst, true⟩) => Function.update store (cstr dst) (some (s.bodyOf fd))
  | _ => store

/-- A step of the server together with its store. -/
def storeStep (cfg : Config) (st : Sys P W × Store) (l : Label P W) :
    Option (Sys P W × Store) :=
  (st.1.step cfg l).map fun t => (t, st.1.commit st.2 l)

/-- The uploads are told apart: no name holds a NUL byte and no two have the same id. -/
structure Distinct (admitted : List Request) : Prop where
  nul : ∀ a ∈ admitted, a.op = .PUT → (0 : UInt8) ∉ a.filename
  ids : ∀ a ∈ admitted, ∀ b ∈ admitted, a.op = .PUT → b.op = .PUT →
    a.requestId = b.requestId → a = b

/-- No staging name is the name of a file that was there from the start or of an upload. -/
structure Separate (cfg : Config) (dir : Directory) (admitted : List Request) : Prop where
  fresh : ∀ a ∈ admitted, a.op = .PUT → dir (cstr (stagingPath cfg a)) = none
  apart : ∀ a ∈ admitted, ∀ b ∈ admitted, a.op = .PUT → b.op = .PUT →
    stagingName a ≠ b.filename

theorem Distinct.mono {admitted later : List Request} (h : Distinct later)
    (hsub : admitted ⊆ later) : Distinct admitted :=
  ⟨fun a ha => h.nul a (hsub ha), fun a ha b hb => h.ids a (hsub ha) b (hsub hb)⟩

theorem Separate.mono {admitted later : List Request} (h : Separate cfg dir later)
    (hsub : admitted ⊆ later) : Separate cfg dir admitted :=
  ⟨fun a ha => h.fresh a (hsub ha), fun a ha b hb => h.apart a (hsub ha) b (hsub hb)⟩

section Paths

variable {admitted : List Request} (hd : Distinct admitted) (hs : Separate cfg dir admitted)
  {a b : Request} (ha : a ∈ admitted) (hb : b ∈ admitted) (hpa : a.op = .PUT) (hpb : b.op = .PUT)

include hd ha hb hpa hpb

theorem Distinct.staging_inj
    (h : cstr (stagingPath cfg a) = cstr (stagingPath cfg b)) : a = b := by
  unfold stagingPath at h
  rw [cstr_filePath, cstr_filePath, filePath_inj, cstr_stagingName, cstr_stagingName,
    if_neg (hd.nul a ha hpa), if_neg (hd.nul b hb hpb)] at h
  exact hd.ids a ha b hb hpa hpb (requestId_eq_of_stagingName h)

include hs

theorem Separate.staging_ne_final : cstr (stagingPath cfg a) ≠ cstr (finalPath cfg b) := by
  unfold stagingPath finalPath
  rw [cstr_filePath, cstr_filePath, Ne, filePath_inj, cstr_stagingName,
    if_neg (hd.nul a ha hpa), cstr_of_notMem (hd.nul b hb hpb)]
  exact hs.apart a ha b hb hpa hpb

end Paths

/-- The staging path of an upload is its own. -/
theorem run_separate {A : Sys P W → Label P W → Prop} (hrun : RunWhere cfg A (init P W dir) t)
    (hd : Distinct t.admitted) (hs : Separate cfg dir t.admitted) {request : Request}
    (hmem : request ∈ t.admitted) (hput : request.op = .PUT) :
    RunWhere cfg (OwnPath (cstr (stagingPath cfg request)) request.clientFd)
      (init P W dir) t := by
  refine hrun.mono_reach fun u l v hu _ hstep hrest => ?_
  intro fd call hcall
  have hwriter : ∀ {p}, call.Changes p → ∃ other ∈ t.admitted, other.clientFd = fd ∧
      other.op = .PUT ∧ Proper cfg other (u.log fd) call := by
    intro p hchanges
    obtain ⟨other, hother, hrest'⟩ := step_writer hu hstep hcall hchanges
    have hlater := (run_history (.trans (.tail (.refl u) trivial hstep)
      (hrest.mono fun _ _ _ => trivial))).1.subset hother
    exact ⟨other, hlater, hrest'⟩
  refine ⟨fun hne hchanges => ?_, ?_⟩
  · obtain ⟨other, hother, rfl, hop, hproper⟩ := hwriter hchanges
    rcases hproper.changes hchanges with hpath | ⟨hpath, -⟩
    · exact hne (congrArg Request.clientFd
        (hd.staging_inj hother hmem hop hput hpath.symm))
    · exact hs.staging_ne_final hd hmem hother hput hop hpath
  · rintro - honto
    rcases call with ⟨e, r⟩
    cases e with
    | rename src dst =>
        obtain ⟨other, hother, -, hop, -, hdst, -⟩ := hwriter ⟨honto.1, Or.inr honto.2⟩
        have hpath : cstr dst = cstr (stagingPath cfg request) := honto.2
        rw [hdst] at hpath
        exact hs.staging_ne_final hd hmem hother hput hop hpath.symm
    | _ => exact honto

/-! ## The directory agrees with the store -/

/-- The directory holds what the store says. -/
def Agrees (t : Sys P W) (store : Store) : Prop :=
  ∀ p body, store p = some body → ∃ file, t.dir p = some file ∧ file.bytes = body

/-- A path of the store was there from the start or is the final path of an upload. -/
def Known (cfg : Config) (dir : Directory) (t : Sys P W) (store : Store) : Prop :=
  ∀ p, store p ≠ none → dir p ≠ none ∨
    ∃ request ∈ t.admitted, request.op = .PUT ∧ p = cstr (finalPath cfg request)

theorem Known.ne_staging {store : Store} (h : Known cfg dir t store) (hd : Distinct t.admitted)
    (hs : Separate cfg dir t.admitted) {p : Bytes} (hp : store p ≠ none) {request : Request}
    (hmem : request ∈ t.admitted) (hput : request.op = .PUT) :
    p ≠ cstr (stagingPath cfg request) := by
  rintro rfl
  rcases h _ hp with hold | ⟨other, hother, hop, hpath⟩
  · exact hold (hs.fresh request hmem hput)
  · exact hs.staging_ne_final hd hmem hother hput hop hpath

theorem storeStep_some {st st' : Sys P W × Store} {l : Label P W}
    (h : storeStep cfg st l = some st') :
    st.1.step cfg l = some st'.1 ∧ st'.2 = st.1.commit st.2 l := by
  obtain ⟨t, ht, rfl⟩ := Option.map_eq_some_iff.mp h
  exact ⟨ht, rfl⟩

/-- The steps of the server, the store aside. -/
theorem run_of_storeRun {st st' : Sys P W × Store}
    (h : Run (storeStep cfg) (fun _ _ => True) st st') :
    RunWhere cfg (fun _ _ => True) st.1 st'.1 := by
  induction h with
  | refl => exact .refl _
  | tail _ _ hs ih => exact .tail ih trivial (storeStep_some hs).1

/-- A step that commits nothing leaves the store. -/
theorem commit_of_ne {store : Store} {l : Label P W}
    (h : ∀ fd src dst, s.callOf l ≠ some (fd, ⟨.rename src dst, true⟩)) :
    s.commit store l = store := by
  unfold commit
  split
  · rename_i fd src dst hcall
    exact absurd hcall (h fd src dst)
  · rfl

theorem bodyOf_eq (hwf : s.WellFormed) {request : Request} (hmem : request ∈ s.admitted) :
    s.bodyOf request.clientFd = (payload (s.log request.clientFd)).take request.totalBytes := by
  unfold bodyOf
  cases hfind : s.admitted.find? (fun r => r.clientFd = request.clientFd) with
  | none =>
      have := List.find?_eq_none.mp hfind request hmem
      simp at this
  | some other =>
      have hother := List.mem_of_find?_eq_some hfind
      have hfd : other.clientFd = request.clientFd := by simpa using List.find?_some hfind
      rw [List.inj_on_of_nodup_map hwf.distinct hother hmem hfd]

/-- What a step does to a path of the store: it leaves the file under it, or it is the
rename of an upload whose final path it is. -/
theorem store_change {store : Store} (hrun : RunWhere cfg (fun _ _ => True) (init P W dir) s)
    (hd : Distinct s.admitted) (hs : Separate cfg dir s.admitted)
    (hknown : Known cfg dir s store) {l : Label P W} (hstep : s.step cfg l = some t) {fd : Fd}
    {call : Call} (hcall : s.callOf l = some (fd, call)) {p : Bytes} (hp : store p ≠ none)
    (hchanges : call.Changes p) : ∃ request ∈ s.admitted, request.clientFd = fd ∧
      request.op = .PUT ∧ p = cstr (finalPath cfg request) ∧
      call = ⟨.rename (stagingPath cfg request) (finalPath cfg request), true⟩ ∧
      (s.bodyOf fd).length = request.totalBytes := by
  obtain ⟨request, hmem, rfl, hput, hproper⟩ := step_writer hrun hstep hcall hchanges
  rcases hproper.changes hchanges with hstaging | ⟨hfinal, rfl⟩
  · exact absurd hstaging (hknown.ne_staging hd hs hp hmem hput)
  · refine ⟨request, hmem, rfl, hput, hfinal, rfl, ?_⟩
    obtain ⟨-, -, -, hle, -⟩ := hproper
    rw [bodyOf_eq (run_wellFormed (init_wellFormed dir) hrun) hmem, List.length_take]
    exact Nat.min_eq_left hle

theorem Known.mono {store : Store} (h : Known cfg dir s store) (hsub : s.admitted ⊆ t.admitted) :
    Known cfg dir t store := by
  intro p hp
  refine (h p hp).imp_right ?_
  rintro ⟨request, hmem, hput, hpath⟩
  exact ⟨request, hsub hmem, hput, hpath⟩

/-- A step that changes no path of the store keeps the agreement. -/
theorem Agrees.step {store : Store} (h : Agrees s store) {l : Label P W}
    (hstep : s.step cfg l = some t) {p body : Bytes} (hp : store p = some body)
    (hcalm : ∀ fd call, s.callOf l = some (fd, call) → ¬ call.Changes p) :
    ∃ file, t.dir p = some file ∧ file.bytes = body := by
  have hdir : t.dir p = s.dir p := by
    rw [step_dir hstep]
    split
    · rename_i fd call hcall
      exact Call.onDir_of_not_changes (hcalm fd call hcall) s.dir
    · rfl
  rw [hdir]
  exact h p body hp

/-- The rename of an upload brings the directory and the store to the same new body. -/
theorem commit_agrees {store : Store} (hrun : RunWhere cfg (fun _ _ => True) (init P W dir) s)
    (hd : Distinct s.admitted) (hs : Separate cfg dir s.admitted) (hagrees : Agrees s store)
    (hknown : Known cfg dir s store) {l : Label P W} (hstep : s.step cfg l = some t) {fd : Fd}
    {src dst : Bytes} (hcall : s.callOf l = some (fd, ⟨.rename src dst, true⟩)) :
    Agrees t (s.commit store l) ∧ Known cfg dir t (s.commit store l) := by
  obtain ⟨request, hmem, rfl, hput, rfl, rfl, -, -, file, hstaged, hbytes⟩ :=
    step_writer hrun hstep hcall (p := cstr dst) ⟨rfl, Or.inr rfl⟩
  have hsub := (step_history hstep).1.subset
  have hstore : s.commit store l = Function.update store (cstr (finalPath cfg request))
      (some (s.bodyOf request.clientFd)) := by
    unfold commit
    rw [hcall]
  have hfile : s.dir (cstr (stagingPath cfg request)) = some file := by
    rw [run_fileAt (run_separate hrun hd hs hmem hput)]
    exact hstaged _
  have hdir : t.dir = Function.update (Function.update s.dir (cstr (stagingPath cfg request)) none)
      (cstr (finalPath cfg request)) (s.dir (cstr (stagingPath cfg request))) := by
    rw [step_dir hstep, hcall]
    rfl
  rw [hstore]
  constructor
  · intro p body hp
    by_cases hfinal : p = cstr (finalPath cfg request)
    · subst hfinal
      rw [Function.update_self, Option.some.injEq,
        bodyOf_eq (run_wellFormed (init_wellFormed dir) hrun) hmem] at hp
      rw [hdir, Function.update_self]
      exact ⟨file, hfile, hbytes.trans hp⟩
    · rw [Function.update_of_ne hfinal] at hp
      have hne := hknown.ne_staging hd hs (by rw [hp]; simp) hmem hput
      rw [hdir, Function.update_of_ne hfinal, Function.update_of_ne hne]
      exact hagrees p body hp
  · intro p hp
    by_cases hfinal : p = cstr (finalPath cfg request)
    · exact Or.inr ⟨request, hsub hmem, hput, hfinal⟩
    · rw [Function.update_of_ne hfinal] at hp
      exact hknown.mono hsub p hp

theorem storeStep_agrees {store store' : Store}
    (hrun : RunWhere cfg (fun _ _ => True) (init P W dir) s) (hd : Distinct s.admitted)
    (hs : Separate cfg dir s.admitted) (hagrees : Agrees s store)
    (hknown : Known cfg dir s store) {l : Label P W}
    (hstep : storeStep cfg (s, store) l = some (t, store')) :
    Agrees t store' ∧ Known cfg dir t store' := by
  obtain ⟨hstep, rfl⟩ := storeStep_some hstep
  by_cases hcommit : ∃ fd src dst, s.callOf l = some (fd, ⟨.rename src dst, true⟩)
  · obtain ⟨fd, src, dst, hcall⟩ := hcommit
    exact commit_agrees hrun hd hs hagrees hknown hstep hcall
  · rw [commit_of_ne fun fd src dst hcall => hcommit ⟨fd, src, dst, hcall⟩]
    refine ⟨fun p body (hp : store p = some body) => hagrees.step hstep hp
      fun fd call hcall hchanges => ?_, hknown.mono (step_history hstep).1.subset⟩
    obtain ⟨request, -, -, -, -, rfl, -⟩ :=
      store_change hrun hd hs hknown hstep hcall (by rw [hp]; simp) hchanges
    exact hcommit ⟨fd, _, _, hcall⟩

/-- **The directory is the store of committed uploads.** In every run whose uploads have
NUL-free names and distinct ids, and none of whose staging names is the name of a served
file, every path that was there from the start or was committed holds the complete body
of the last upload committed to it, or its first content; no other call changes it. -/
theorem store_holds {store : Store}
    (hrun : Run (storeStep cfg) (fun _ _ => True) (init P W dir, Store.ofDir dir) (t, store))
    (hd : Distinct t.admitted) (hs : Separate cfg dir t.admitted) :
    (∀ p body, store p = some body → ∃ file, t.dir p = some file ∧ file.bytes = body) ∧
    (∀ l v fd call p, t.step cfg l = some v → t.callOf l = some (fd, call) → store p ≠ none →
      call.Changes p → ∃ request ∈ t.admitted, request.clientFd = fd ∧
        p = cstr (finalPath cfg request) ∧
        call = ⟨.rename (stagingPath cfg request) (finalPath cfg request), true⟩ ∧
        (t.bodyOf fd).length = request.totalBytes) := by
  have key : ∀ st : Sys P W × Store,
      Run (storeStep cfg) (fun _ _ => True) (init P W dir, Store.ofDir dir) st →
      Distinct st.1.admitted → Separate cfg dir st.1.admitted →
      Agrees st.1 st.2 ∧ Known cfg dir st.1 st.2 := by
    intro st h
    induction h with
    | refl =>
        intro _ _
        refine ⟨fun p body hp => ?_, fun p hp => Or.inl ?_⟩
        · obtain ⟨file, hfile, hbytes⟩ := Option.map_eq_some_iff.mp hp
          exact ⟨file, hfile, hbytes⟩
        · intro hnone
          exact hp (by simp [Store.ofDir, hnone])
    | tail h _ hstep ih =>
        intro hd hs
        have hsub := (step_history (storeStep_some hstep).1).1.subset
        obtain ⟨hagrees, hknown⟩ := ih (hd.mono hsub) (hs.mono hsub)
        exact storeStep_agrees (run_of_storeRun h) (hd.mono hsub) (hs.mono hsub) hagrees hknown
          hstep
  obtain ⟨hagrees, hknown⟩ := key _ hrun hd hs
  refine ⟨hagrees, fun l v fd call p hstep hcall hp hchanges => ?_⟩
  obtain ⟨request, hmem, hfd, -, hrest⟩ :=
    store_change (run_of_storeRun hrun) hd hs hknown hstep hcall hp hchanges
  exact ⟨request, hmem, hfd, hrest⟩

/-- Two uploads, one round each in turn: `a`, then `other`, then the rest of `a`. -/
def twoUploads (other : Bytes) : List (Label 1 1) :=
  arrive 7 (ascii "PUT a 2\nxy") 3 ++ arrive 8 (ascii "PUT " ++ other ++ ascii " 0\n") 3 ++
    work 8 ++ work 9 ++ work 10

/-- Uploads with names without NUL bytes and with the ids one and two. -/
def plainUploads (admitted : List Request) : Bool :=
  admitted.all (fun a => !a.filename.contains 0) && admitted.map (·.requestId) = [1, 2]

theorem distinct_of_plainUploads {admitted : List Request} (h : plainUploads admitted = true) :
    Distinct admitted := by
  simp only [plainUploads, Bool.and_eq_true, List.all_eq_true, decide_eq_true_eq] at h
  refine ⟨fun a ha _ => by simpa using h.1 a ha, fun a ha b hb _ _ hid => ?_⟩
  have hnodup : (admitted.map (·.requestId)).Nodup := by
    rw [h.2]
    decide
  exact List.inj_on_of_nodup_map hnodup ha hb hid

theorem store_holds_two_uploads : ∃ (t : Sys 1 1) (store : Store),
    Run (storeStep (plainConfig .RR 1 (by decide) (by decide))) (fun _ _ => True)
      (init 1 1 (fun _ => none), Store.ofDir (fun _ => none)) (t, store) ∧
    store (ascii "d/a") = some (ascii "xy") ∧
    ∃ file, t.dir (ascii "d/a") = some file ∧ file.bytes = ascii "xy" := by
  have htrue : ∀ (s : Sys 1 1 × Store) (l : Label 1 1), (fun _ _ => true) s l = true → True :=
    fun _ _ _ => trivial
  obtain ⟨⟨t, store⟩, hrun, hcheck⟩ := script_exists (twoUploads (ascii "b"))
    (fun st => plainUploads st.1.admitted && st.1.admitted.all (fun a =>
      st.1.admitted.all (fun b => stagingName a != b.filename)) &&
      st.2 (ascii "d/a") = some (ascii "xy")) htrue
    (show (script (storeStep (plainConfig .RR 1 (by decide) (by decide))) (fun _ _ => true)
      (init 1 1 (fun _ => none), Store.ofDir (fun _ => none)) (twoUploads (ascii "b"))).any _ = true
      by decide +kernel)
  simp only [Bool.and_eq_true, decide_eq_true_eq, List.all_eq_true, bne_iff_ne] at hcheck
  obtain ⟨⟨hplain, hapart⟩, hstore⟩ := hcheck
  have hseparate : Separate (plainConfig .RR 1 (by decide) (by decide)) (fun _ => none)
      t.admitted := ⟨fun _ _ _ => rfl, fun a ha b hb _ _ => hapart a ha b hb⟩
  exact ⟨t, store, hrun, hstore,
    (store_holds hrun (distinct_of_plainUploads hplain) hseparate).1 _ _ hstore⟩

/-- The upload `a.upload.1` takes the staging path of the upload `a`, which has id one: both
files are lost. -/
theorem store_overwritten : ∃ (t : Sys 1 1) (store : Store),
    Run (storeStep (plainConfig .RR 1 (by decide) (by decide))) (fun _ _ => True)
      (init 1 1 (fun _ => none), Store.ofDir (fun _ => none)) (t, store) ∧
    Distinct t.admitted ∧ (∀ request ∈ t.admitted, isValidFilename request.filename = true) ∧
    store (ascii "d/a") = some (ascii "xy") ∧
    (t.dir (ascii "d/a")).map File.bytes = some [0, 121] ∧
    store (ascii "d/a.upload.1") = some [] ∧ t.dir (ascii "d/a.upload.1") = none := by
  have htrue : ∀ (s : Sys 1 1 × Store) (l : Label 1 1), (fun _ _ => true) s l = true → True :=
    fun _ _ _ => trivial
  obtain ⟨⟨t, store⟩, hrun, hcheck⟩ := script_exists (twoUploads (ascii "a.upload.1"))
    (fun st => plainUploads st.1.admitted &&
      st.1.admitted.all (fun a => isValidFilename a.filename) &&
      st.2 (ascii "d/a") = some (ascii "xy") &&
      (st.1.dir (ascii "d/a")).map File.bytes = some [0, 121] &&
      st.2 (ascii "d/a.upload.1") = some [] && st.1.dir (ascii "d/a.upload.1") = none) htrue
    (show (script (storeStep (plainConfig .RR 1 (by decide) (by decide))) (fun _ _ => true)
      (init 1 1 (fun _ => none), Store.ofDir (fun _ => none))
      (twoUploads (ascii "a.upload.1"))).any _ = true by decide +kernel)
  simp only [Bool.and_eq_true, decide_eq_true_eq, List.all_eq_true] at hcheck
  obtain ⟨⟨⟨⟨⟨hplain, hvalid⟩, hstore⟩, hdir⟩, hstore'⟩, hdir'⟩ := hcheck
  exact ⟨t, store, hrun, distinct_of_plainUploads hplain, hvalid, hstore, hdir, hstore', hdir'⟩

end Sys

end LinkScheduling
