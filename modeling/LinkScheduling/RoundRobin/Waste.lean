import Mathlib
import LinkScheduling.Get.Packing
import LinkScheduling.Put.Commit

/-!
# What round robin wastes

A GET forfeits what a round leaves of its quantum. A group of the packing leaves less than
the first line of the next group, so all rounds together forfeit less than the size of the
file, and two neighbouring rounds send more than one quantum. A PUT forfeits nothing and
takes as many rounds as its size has quanta.
-/

namespace LinkScheduling

open Framework

/-! ## A PUT pays nothing -/

/-- The request goes back to the queue, and into the metrics, with nothing forfeited. -/
def Eff.uncharged : Eff → Prop
  | .push _ => False
  | .requeue req => req.forfeitedBytes = 0
  | .record row => row.forfeitedBytes = 0
  | _ => True

/-- Every row in the log has nothing forfeited. -/
def UnchargedRows (log : List Call) : Prop :=
  ∀ row, ⟨.record row, ()⟩ ∈ log → row.forfeitedBytes = 0

def unchargedLife : Lifecycle where
  allowed _ _ := True
  always := UnchargedRows
  queued req log := req.forfeitedBytes = 0 ∧ UnchargedRows log
  ended _ := UnchargedRows

section Life

variable {cfg : Config} {request req : Request} {log : List Call}

theorem UnchargedRows.snoc (h : UnchargedRows log) {call : Call} (hcall : call.eff.uncharged) :
    UnchargedRows (log ++ [call]) := by
  intro row hmem
  rcases List.mem_append.mp hmem with hold | hnew
  · exact h row hold
  · rw [← List.mem_singleton.mp hnew] at hcall
    exact hcall

theorem unchargedLife_guarantee {e : Eff} (h : UnchargedRows log) (he : e.uncharged) :
    unchargedLife.contract.guarantee log e := by
  refine ⟨h, ?_⟩
  cases e with
  | push req => exact he.elim
  | requeue req => exact ⟨he, h.snoc he⟩
  | complete exit => exact h.snoc trivial
  | _ => trivial

theorem serveRound_uncharged {budget : ℕ} (hop : req.op = .PUT) (hfree : req.forfeitedBytes = 0) :
    (serveRound cfg budget req).Only Eff.uncharged
      (fun res => res.2.1.op = .PUT ∧ res.2.1.forfeitedBytes = 0) := by
  have hput : (servePut req cfg.fileDir budget).Only Eff.uncharged
      (fun res => res.2.1.op = .PUT ∧ res.2.1.forfeitedBytes = 0) := by
    refine servePut_only.mono (fun e he => ?_) fun res ⟨hsame, _, hkeep⟩ =>
      ⟨hsame.op.trans hop, hkeep.trans hfree⟩
    cases e <;> first | exact he.elim | trivial
  rw [serveRound_put hop]
  split
  · simpa [Eff.uncharged] using hput
  · exact hput

/-- The forfeit is for a GET only. -/
theorem settleRound_uncharged {budget n : ℕ} (hop : req.op = .PUT)
    (hfree : req.forfeitedBytes = 0) :
    (settleRound cfg budget req n).Only Eff.uncharged (fun _ => True) := by
  have hop' : (cfg.scheduler.account req n).op = .PUT :=
    (cfg.scheduler.account_same req n).op.trans hop
  have hfree' : (cfg.scheduler.account req n).forfeitedBytes = 0 :=
    (cfg.scheduler.account_counters req n).1.trans hfree
  have hget : ¬ (cfg.scheduler.policy = .RR ∧ (cfg.scheduler.account req n).op = .GET ∧
      n < budget) := by
    rw [hop']
    simp
  unfold settleRound
  simp only [if_pos hop']
  split
  · simp [Eff.uncharged, if_neg hget, hfree']
  · simp [commitRequest, finishRequest, Eff.uncharged, hfree']

theorem workerRound_uncharged {d : ScheduleDecision} (hop : d.request.op = .PUT)
    (hfree : d.request.forfeitedBytes = 0) :
    (workerRound cfg d).Only Eff.uncharged (fun _ => True) := by
  have hdispatch : ∀ req : Request, req.op = .PUT → req.forfeitedBytes = 0 →
      (dispatchRound cfg d.budget req).Only Eff.uncharged (fun _ => True) := by
    intro req hop hfree
    unfold dispatchRound
    rw [Prog.only_bind]
    refine (serveRound_uncharged hop hfree).mono (fun _ he => he) ?_
    rintro ⟨success, req', n⟩ ⟨hop', hfree'⟩
    simp only
    split
    · exact settleRound_uncharged hop' hfree'
    · unfold abandonRequest
      split <;> simp [Eff.uncharged]
  unfold workerRound stampStart
  split
  · simp only [perform, Prog.only_bind, Prog.only_perform, Prog.only_pure]
    exact ⟨trivial, fun _ => hdispatch _ hop hfree⟩
  · exact hdispatch _ hop hfree

theorem unchargedLife_soundFor (hput : request.op = .PUT) :
    unchargedLife.SoundFor cfg request where
  enter log hadm _ := by
    have hrows : UnchargedRows log := by
      intro row hmem
      exact (hadm.calls _ hmem).elim
    have hpushed : UnchargedRows (log ++ [⟨.push request, true⟩]) := by
      intro row hmem
      exact hrows row (by simpa using hmem)
    exact ⟨hpushed, hadm.fresh.forfeitedBytes, hpushed⟩
  round req log hsame hqueued := by
    have hround : (workerRound cfg (cfg.scheduler.decision req)).Only Eff.uncharged
        (fun _ => True) := by
      apply workerRound_uncharged
      · rw [Scheduler.decision, cfg.scheduler.getBudget_eq req]
        exact hsame.op.trans hput
      · rw [Scheduler.decision, cfg.scheduler.getBudget_eq req]
        exact hqueued.1
    refine Prog.wp_mono (hround.wp_inv (fun _ _ h he => unchargedLife_guarantee h he)
      (fun _ _ _ h he => UnchargedRows.snoc h he) hqueued.2) fun _ _ h => h.2
  close exit log h := h.snoc trivial

end Life

/-! ## The bounds -/

/-- With one quantum a round a request takes as many rounds as it has quanta. -/
theorem Scheduler.Quota.rounds_ceil {S : Scheduler} {total rounds : ℕ} (h : S.Quota total rounds)
    (hrr : S.policy = .RR) (hpos : 1 ≤ total) : rounds + 1 = total ⌈/⌉ S.quantum := by
  have hquantum := S.quantum_pos (Or.inl hrr)
  obtain ⟨hle, hlt⟩ := h (Or.inl hrr)
  have hfirst : rounds * S.quantum < total := by
    rcases hlt with rfl | hlt
    · rw [Nat.zero_mul]
      exact hpos
    · exact hlt
  apply Nat.le_antisymm
  · by_contra hmore
    have hmore : total ⌈/⌉ S.quantum ≤ rounds := by omega
    rw [ceilDiv_le_iff_le_mul hquantum, Nat.mul_comm] at hmore
    omega
  · rw [ceilDiv_le_iff_le_mul hquantum, Nat.mul_comm]
    exact hle

/-- The bounds are those of the packing. -/
theorem PackedRow.waste {quantum : ℕ} {file : File} {groups : List (List Bytes)}
    {log : List Call} {row : Request} (h : PackedRow quantum file groups log row)
    (hfile : file.bytes ≠ []) :
    row.forfeitedBytes < file.size ∧ (row.rounds - 1) * quantum < 2 * file.size := by
  have hpos : ∀ line ∈ lines newline file.bytes, 0 < line.length :=
    fun line hline => List.length_pos_iff.mpr (lines_ne_nil hline)
  have hne : lines newline file.bytes ≠ [] := by
    intro hnil
    have hflat := lines_flatten newline file.bytes
    rw [hnil] at hflat
    exact hfile hflat.symm
  have htotal : total List.length (lines newline file.bytes) = file.size := by
    have hflat := lineBytes_eq (lines newline file.bytes)
    rwa [lines_flatten] at hflat
  have hgroups : roundGroups groups = groups := by
    apply if_neg
    rintro rfl
    exact hne h.packs.flatten.symm
  have hleft := h.packs.leftOver_lt hpos hne
  have hrounds := h.packs.length_mul_lt hpos hne
  rw [htotal] at hleft hrounds
  rw [h.forfeitedBytes, h.rounds, hgroups]
  exact ⟨hleft, hrounds⟩

namespace Sys

variable {P W : ℕ} {cfg : Config} {dir : Directory}

/-- **What round robin wastes.** A completed GET of an unchanging file that is not empty has
forfeited less than the size of the file, and all its rounds but one have quanta of less than
twice the size. A completed PUT of one byte or more has forfeited nothing and has taken one
round for each quantum, the last of them begun. -/
theorem round_robin_waste (hrr : cfg.scheduler.policy = .RR) :
    (∀ (t : Sys P W) (request : Request) (file : File), request.op = .GET → file.bytes ≠ [] →
      RunWhere cfg (Unchanging (filePath cfg.fileDir request.filename) file request.clientFd)
        (init P W dir) t →
      request ∈ t.admitted → (request.clientFd, .completed) ∈ t.finished →
      ∃ row, t.records.filter (fun entry => entry.1 = request.clientFd) =
          [(request.clientFd, row)] ∧
        row.forfeitedBytes < file.size ∧
        (row.rounds - 1) * cfg.scheduler.quantum < 2 * file.size) ∧
    (∀ (t : Sys P W) (request : Request), request.op = .PUT → 1 ≤ request.totalBytes →
      RunWhere cfg (fun _ _ => True) (init P W dir) t →
      request ∈ t.admitted → (request.clientFd, .completed) ∈ t.finished →
      ∃ row, t.records.filter (fun entry => entry.1 = request.clientFd) =
          [(request.clientFd, row)] ∧
        row.forfeitedBytes = 0 ∧ row.rounds = request.totalBytes ⌈/⌉ cfg.scheduler.quantum) := by
  constructor
  · intro t request file hget hfile hrun hmem hfin
    have hlife := run_steady hget hrun hmem
    obtain ⟨groups, row, hrow, hrecord⟩ := hlife.finished _ hfin rfl hrr
    exact ⟨.ofRequest row, run_row hrun hfin hrecord, hrow.waste hfile⟩
  · intro t request hput hpos hrun hmem hfin
    obtain ⟨before, ok, after, row, -, hlog, -, hrecord, hcount, hquota⟩ :=
      (run_putLife hput hrun hmem).finished _ hfin
    have hfree : unchargedLife.HoldsFor request t :=
      Lifecycle.run_holdsFor (unchargedLife_soundFor hput)
        (hrun.mono fun _ _ _ _ _ => trivial) hmem
    have hmem' : ⟨.record row, ()⟩ ∈ t.log request.clientFd := by
      rw [hlog]
      simp [hrecord]
    refine ⟨.ofRequest row, run_row hrun hfin hmem', hfree.always row hmem', ?_⟩
    exact hcount.trans (hquota.rounds_ceil hrr hpos)

theorem round_robin_waste_both :
    (∃ (t : Sys 1 1) (fd : Fd) (row : RequestMetrics),
      t.records.filter (fun entry => entry.1 = fd) = [(fd, row)] ∧
      row.forfeitedBytes < longFirst.size ∧ (row.rounds - 1) * 2 < 2 * longFirst.size) ∧
    ∃ (t : Sys 1 1) (fd : Fd) (row : RequestMetrics),
      t.records.filter (fun entry => entry.1 = fd) = [(fd, row)] ∧
      row.forfeitedBytes = 0 ∧ row.rounds = 3 ⌈/⌉ 2 := by
  constructor
  · obtain ⟨t, request, hmem, hget, hfin, hrun⟩ := longFirstRounds_run
    obtain ⟨row, hrow⟩ :=
      (round_robin_waste rfl).1 t request longFirst hget (by decide) hrun hmem hfin
    exact ⟨t, request.clientFd, row, hrow⟩
  · have htrue : ∀ (s : Sys 1 1) (l : Label 1 1), (fun _ _ => true) s l = true → True :=
      fun _ _ _ => trivial
    obtain ⟨t, hrun, hcheck⟩ := script_exists threeBytes
      (fun t => t.admitted.any (fun r => r.op = .PUT ∧ r.clientFd = 7 ∧ r.totalBytes = 3) &&
        (7, .completed) ∈ t.finished) htrue
      (show (script (step (plainConfig .RR 2 (by decide) (by decide))) (fun _ _ => true)
        (init 1 1 (fun _ => none)) threeBytes).any _ = true by decide +kernel)
    simp only [Bool.and_eq_true, decide_eq_true_eq, List.any_eq_true] at hcheck
    obtain ⟨⟨request, hmem, hput, hfd, htotal⟩, hfin⟩ := hcheck
    rw [← hfd] at hfin
    obtain ⟨row, hrow⟩ :=
      (round_robin_waste rfl).2 t request hput (by omega) hrun hmem hfin
    rw [htotal] at hrow
    exact ⟨t, request.clientFd, row, hrow⟩

end Sys

end LinkScheduling
