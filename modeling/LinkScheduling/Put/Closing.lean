import LinkScheduling.Put.Failure

/-!
# Rounds close what they write

A round of a PUT that succeeds leaves no stream open, and no write of it was refused. A staging
file is created or renamed only in such a state. So a buffer never outlives its round.
-/

namespace LinkScheduling

open Framework

/-- No write was refused, nothing was renamed or removed. -/
def Call.smooth : Call → Prop
  | ⟨.write _ _ _, .bad _⟩ => False
  | ⟨.rename _ _, _⟩ => False
  | ⟨.remove _, _⟩ => False
  | _ => True

/-- A stream was written to and not closed yet. -/
def unclosed (log : List Call) : Bool :=
  log.foldl (fun wrote call => match call.eff with
    | .write _ _ _ => true
    | .closeFile _ => false
    | _ => wrote) false

/-- The log of a PUT between two rounds, or before its rename. -/
structure Tidy (log : List Call) : Prop where
  smooth : ∀ call ∈ log, call.smooth
  closed : unclosed log = false

/-- The calls that come only after a tidy log. -/
def Eff.fresh : Eff → Prop
  | .create _ => True
  | .rename _ _ => True
  | _ => False

/-- Files are created and renamed only while no stream has bytes to write. -/
def Careful (log : List Call) : Prop := Along (fun before call => call.eff.fresh → Tidy before) log

def tidyLife : Lifecycle where
  allowed _ _ := True
  always := Careful
  queued _ log := Careful log ∧ Tidy log
  ended _ := Careful

section Tidy

variable {cfg : Config} {request req : Request} {log : List Call}

theorem smooth_snoc {call : Call} (h : ∀ call ∈ log, call.smooth) (hcall : call.smooth) :
    ∀ call' ∈ log ++ [call], call'.smooth := by
  intro call' hmem
  rcases List.mem_append.mp hmem with hold | hnew
  · exact h call' hold
  · rw [List.mem_singleton.mp hnew]
    exact hcall

theorem unclosed_snoc (log : List Call) (call : Call) :
    unclosed (log ++ [call]) = match call.eff with
      | .write _ _ _ => true
      | .closeFile _ => false
      | _ => unclosed log := by
  rw [unclosed, List.foldl_append]
  rfl

theorem Careful.quiet (h : Careful log) {call : Call} (hcall : ¬ call.eff.fresh) :
    Careful (log ++ [call]) :=
  h.snoc fun hfresh => absurd hfresh hcall

theorem Careful.tidy (h : Careful log) (htidy : Tidy log) (call : Call) :
    Careful (log ++ [call]) :=
  h.snoc fun _ => htidy

/-- Calls that neither hand the request on nor start a file or put it under its name. -/
def Eff.calm : Eff → Prop
  | .push _ => False
  | .requeue _ => False
  | .create _ => False
  | .rename _ _ => False
  | _ => True

theorem calm_rule {α : Type} {p : Server α} (h : p.Only Eff.calm (fun _ => True))
    (hlog : Careful log) : p.wp tidyLife.contract (fun _ => Careful) log := by
  refine Prog.wp_mono (h.wp_inv (fun log e hlog he => ⟨hlog, ?_⟩)
    (fun log e r hlog he => Careful.quiet hlog ?_) hlog) fun _ _ h => h.2
  · cases e with
    | push req => exact he.elim
    | requeue req => exact he.elim
    | complete exit => exact hlog.quiet id
    | _ => trivial
  · cases e <;> first | exact he.elim | exact id

/-- What a part of a round leaves: it is careful, and if it succeeds nothing was refused. -/
def Unrefused {α : Type} (res : Option α) (log : List Call) : Prop :=
  Careful log ∧ (res.isSome → ∀ call ∈ log, call.smooth)

theorem failUpload_unrefused {α : Type} (fd : Fd) (path : Bytes) (reason : String)
    (h : Careful log) :
    (failUpload fd path reason : Server (Option α)).wp tidyLife.contract Unrefused log := by
  simp only [failUpload, sendError, perform, Prog.wp_bind, Prog.wp_perform, Prog.wp_pure]
  refine ⟨⟨h, trivial⟩, fun _ _ => ⟨⟨h.quiet id, trivial⟩, fun _ _ => ?_⟩⟩
  exact ⟨(h.quiet id).quiet id, fun hsome => by cases hsome⟩

theorem writePending_unrefused {fd : Fd} {path : Bytes} {offset : ℕ} {pending : Bytes} :
    ∀ (fuel pendingOffset bytesProcessed remaining : ℕ) (log : List Call), Careful log →
      (∀ call ∈ log, call.smooth) →
      (writePending fd path offset pending fuel pendingOffset bytesProcessed remaining).wp
        tidyLife.contract Unrefused log
  | 0, _, _, _, log, h, hsmooth => ⟨h, fun _ => hsmooth⟩
  | fuel + 1, pendingOffset, bytesProcessed, remaining, log, h, hsmooth => by
      unfold writePending
      split
      · simp only [perform, Prog.wp_bind, Prog.wp_perform]
        refine ⟨⟨h, trivial⟩, ?_⟩
        rintro (_ | stored) -
        · exact writePending_unrefused fuel _ _ _ _ (h.quiet id) (smooth_snoc hsmooth trivial)
        · exact failUpload_unrefused _ _ _ (h.quiet id)
      · exact ⟨h, fun _ => hsmooth⟩

theorem receiveBody_unrefused {fd : Fd} {path : Bytes} {offset bufferSize : ℕ} :
    ∀ (fuel bytesProcessed remaining : ℕ) (log : List Call), Careful log →
      (∀ call ∈ log, call.smooth) →
      (receiveBody fd path offset bufferSize fuel bytesProcessed remaining).wp
        tidyLife.contract Unrefused log
  | 0, _, _, log, h, hsmooth => ⟨h, fun _ => hsmooth⟩
  | fuel + 1, bytesProcessed, remaining, log, h, hsmooth => by
      unfold receiveBody
      split
      · simp only [perform, Prog.wp_bind, Prog.wp_perform]
        refine ⟨⟨h, trivial⟩, ?_⟩
        rintro (_ | _ | ⟨byte, data⟩) -
        · exact failUpload_unrefused _ _ _ (h.quiet id)
        · exact failUpload_unrefused _ _ _ (h.quiet id)
        · simp only [Prog.wp_bind, Prog.wp_perform]
          refine ⟨⟨h.quiet id, trivial⟩, ?_⟩
          rintro (_ | stored) -
          · exact receiveBody_unrefused fuel _ _ _ ((h.quiet id).quiet id)
              (smooth_snoc (smooth_snoc hsmooth trivial) trivial)
          · exact failUpload_unrefused _ _ _ ((h.quiet id).quiet id)
      · exact ⟨h, fun _ => hsmooth⟩

/-- What a round leaves: a successful one leaves a tidy log. -/
def Tidily (res : Bool × Request × ℕ) (log : List Call) : Prop :=
  Careful log ∧ (res.1 = true → Tidy log)

theorem tidily_failed {req : Request} {n : ℕ} (h : Careful log) : Tidily (false, req, n) log :=
  ⟨h, fun hok => by cases hok⟩

theorem servePutBody_tidily {path : Bytes} {budget : ℕ} (h : Careful log)
    (hsmooth : ∀ call ∈ log, call.smooth) :
    (servePutBody req path budget).wp tidyLife.contract Tidily log := by
  unfold servePutBody
  simp only [perform, Prog.wp_bind, Prog.wp_perform]
  refine ⟨⟨h, trivial⟩, ?_⟩
  rintro (_ | _) -
  · simp only [Bool.false_eq_true, ↓reduceIte, sendError, perform, Prog.wp_bind, Prog.wp_perform,
      Prog.wp_pure]
    exact ⟨⟨h.quiet id, trivial⟩, fun _ _ => tidily_failed ((h.quiet id).quiet id)⟩
  · simp only [↓reduceIte, Prog.wp_bind, Prog.wp_perform]
    refine ⟨⟨h.quiet id, trivial⟩, ?_⟩
    rintro (_ | _) -
    · simp only [Bool.false_eq_true, ↓reduceIte, Prog.wp_bind, Prog.wp_pure]
      exact Prog.wp_mono (failUpload_unrefused _ _ _ ((h.quiet id).quiet id))
        fun _ _ hres => tidily_failed hres.1
    · simp only [↓reduceIte, Prog.wp_bind]
      have hopened : ∀ call ∈ log ++ [⟨.openRW path, true⟩], call.smooth :=
        smooth_snoc hsmooth trivial
      have hseeked : ∀ call ∈ log ++ [⟨.openRW path, true⟩] ++ [⟨.seekp path req.offset, true⟩],
          call.smooth := smooth_snoc hopened trivial
      refine Prog.wp_mono (writePending_unrefused _ _ _ _ _ ((h.quiet id).quiet id) hseeked) ?_
      rintro (_ | ⟨po, bp, left⟩) log₁ ⟨h₁, hsmooth₁⟩
      · exact tidily_failed h₁
      · simp only [Prog.wp_bind]
        refine Prog.wp_mono (receiveBody_unrefused _ _ _ _ h₁ (hsmooth₁ rfl)) ?_
        rintro (_ | bp) log₂ ⟨h₂, hsmooth₂⟩
        · exact tidily_failed h₂
        · simp only [Prog.wp_bind, Prog.wp_perform, Prog.wp_pure]
          refine ⟨⟨h₂, trivial⟩, fun _ _ => ⟨h₂.quiet id, fun _ => ⟨?_, ?_⟩⟩⟩
          · exact smooth_snoc (hsmooth₂ rfl) trivial
          · exact unclosed_snoc _ _

theorem servePutStaged_tidily {path : Bytes} {budget : ℕ} (h : Careful log) (htidy : Tidy log) :
    (servePutStaged req path budget).wp tidyLife.contract Tidily log := by
  have hcreate : ∀ ok, Careful (log ++ [⟨.create path, ok⟩]) := fun ok => h.tidy htidy _
  unfold servePutStaged
  split
  · simp only [perform, Prog.wp_bind, Prog.wp_perform, Prog.wp_pure]
    refine ⟨⟨h, trivial⟩, fun ok _ => ⟨hcreate ok, fun _ => ⟨?_, ?_⟩⟩⟩
    · exact smooth_snoc htidy.smooth trivial
    · exact (unclosed_snoc _ _).trans htidy.closed
  · split
    · simp only [perform, Prog.wp_bind, Prog.wp_perform]
      refine ⟨⟨h, trivial⟩, ?_⟩
      rintro (_ | _) -
      · simp only [Bool.false_eq_true, ↓reduceIte, sendError, perform, Prog.wp_bind,
          Prog.wp_perform, Prog.wp_pure]
        exact ⟨⟨hcreate false, trivial⟩, fun _ _ => tidily_failed ((hcreate false).quiet id)⟩
      · exact servePutBody_tidily (hcreate true) (smooth_snoc htidy.smooth trivial)
    · exact servePutBody_tidily h htidy.smooth

theorem serveRound_tidily {budget : ℕ} (hop : req.op = .PUT) (h : Careful log)
    (htidy : Tidy log) : (serveRound cfg budget req).wp tidyLife.contract Tidily log := by
  have hput : ∀ log, Careful log → Tidy log →
      (servePut req cfg.fileDir budget).wp tidyLife.contract Tidily log := by
    intro log h htidy
    unfold servePut
    split
    · simp only [sendError, perform, Prog.wp_bind, Prog.wp_perform, Prog.wp_pure]
      exact ⟨⟨h, trivial⟩, fun _ _ => tidily_failed (h.quiet id)⟩
    · exact servePutStaged_tidily h htidy
  rw [serveRound_put hop]
  split
  · simp only [sendResponse, perform, Prog.wp_bind, Prog.wp_perform, Prog.wp_pure]
    refine ⟨⟨h, trivial⟩, fun ok _ => hput _ (h.quiet id) ⟨?_, ?_⟩⟩
    · exact smooth_snoc htidy.smooth trivial
    · exact (unclosed_snoc _ _).trans htidy.closed
  · exact hput _ h htidy

theorem settleRound_careful {budget n : ℕ} (h : Careful log) (htidy : Tidy log) :
    (settleRound cfg budget req n).wp tidyLife.contract (fun _ => Careful) log := by
  unfold settleRound
  simp only
  split
  · simp only [perform, Prog.wp_bind, Prog.wp_perform]
    refine ⟨⟨h, h.quiet id, ?_, ?_⟩, ?_⟩
    · exact smooth_snoc htidy.smooth trivial
    · exact (unclosed_snoc _ _).trans htidy.closed
    · rintro (_ | _) -
      · refine calm_rule ?_ (h.quiet id)
        simp [Eff.calm]
      · exact h.quiet id
  · split
    · simp only [commitRequest, perform, Prog.wp_bind, Prog.wp_perform]
      refine ⟨⟨h, trivial⟩, fun ok _ => calm_rule ?_ (h.tidy htidy _)⟩
      split <;> simp [finishRequest, Eff.calm]
    · refine calm_rule ?_ h
      simp [finishRequest, Eff.calm]

/-- **One round of a PUT leaves no open stream behind.** -/
theorem tidyRound (hop : req.op = .PUT) (h : Careful log) (htidy : Tidy log) :
    (workerRound cfg (cfg.scheduler.decision req)).wp tidyLife.contract (fun _ => Careful)
      log := by
  refine workerRound_rule h fun start calls hcalls => ?_
  have hnow : Careful (log ++ calls) ∧ Tidy (log ++ calls) := by
    have hstep : ∀ log t, Careful log ∧ Tidy log →
        Careful (log ++ [⟨.now, t⟩]) ∧ Tidy (log ++ [⟨.now, t⟩]) := by
      rintro log t ⟨h, htidy⟩
      exact ⟨h.quiet id, smooth_snoc htidy.smooth trivial,
        (unclosed_snoc _ _).trans htidy.closed⟩
    exact now_calls hstep hcalls ⟨h, htidy⟩
  unfold dispatchRound
  rw [Prog.wp_bind]
  refine Prog.wp_mono (serveRound_tidily hop hnow.1 hnow.2) ?_
  rintro ⟨success, later, n⟩ log' ⟨hcareful, hok⟩
  cases success with
  | true => exact settleRound_careful hcareful (hok rfl)
  | false =>
      refine calm_rule ?_ hcareful
      simp only [Bool.false_eq_true, ↓reduceIte, abandonRequest]
      split <;> simp [Eff.calm]

theorem tidyLife_soundFor (hput : request.op = .PUT) : tidyLife.SoundFor cfg request where
  enter log hadm _ := by
    have hcalls : ∀ call ∈ log ++ [⟨.push request, true⟩], call.smooth ∧ ¬ call.eff.fresh ∧
        ∀ path off data, call.eff ≠ .write path off data := by
      rintro ⟨e, r⟩ hmem
      rcases List.mem_append.mp hmem with hold | hnew
      · have hcall := hadm.calls _ hold
        cases e <;> first | exact hcall.elim | exact ⟨trivial, id, by simp⟩
      · cases List.mem_singleton.mp hnew
        exact ⟨trivial, id, by simp⟩
    have hcareful : Careful (log ++ [⟨.push request, true⟩]) := by
      intro before call after heq hfresh
      exact absurd hfresh (hcalls call (by rw [heq]; simp)).2.1
    refine ⟨hcareful, hcareful, fun call hmem => (hcalls call hmem).1, ?_⟩
    generalize log ++ [⟨.push request, true⟩] = calls at hcalls
    induction calls using List.reverseRecOn with
    | nil => rfl
    | append_singleton calls call ih =>
        have hwrite := (hcalls call (by simp)).2.2
        have hbefore := ih fun call hmem => hcalls call (List.mem_append_left _ hmem)
        rw [unclosed_snoc]
        rcases call with ⟨e, r⟩
        cases e <;> first | exact hbefore | rfl | exact absurd rfl (hwrite _ _ _)
  round req log hsame hqueued := tidyRound (hsame.op.trans hput) hqueued.1 hqueued.2
  close exit log h := h.quiet id

end Tidy

end LinkScheduling
