import LinkScheduling.Metatheory.Sockets
import LinkScheduling.Model.Process

/-!
# Shutting down

Every run of the process is a run of the server: a push of the acceptor is its `accept`, the
end of the acceptor its `stopAccepting`. Only the acceptor closes the `FdQueue`, after its
last push, so no push is refused. With the owners of the sockets this gives what the
shutdown leaves behind: every socket that was ever accepted is closed, once.
-/

namespace LinkScheduling

open Framework

theorem Parser.isExited_iff {p : Parser} : p.isExited = true ↔ p = .exited := by
  cases p <;> simp [Parser.isExited]

theorem Worker.isExited_iff {w : Worker} : w.isExited = true ↔ w = .exited := by
  cases w <;> simp [Worker.isExited]

namespace Process

variable {P W : ℕ} {cfg : Config} {dir : Directory} {s t : Process P W}

structure Inv (cfg : Config) (dir : Directory) (s : Process P W) : Prop where
  server : Sys.RunWhere cfg (fun _ _ => True) (.init P W dir) s.server
  accepted : s.accepted = s.server.accepted ++ s.acceptor.holds
  distinct : s.accepted.Nodup
  closed : s.server.fdQueue.closed = true → s.acceptor = .exited
  pushed : ∀ fd, s.acceptor ≠ .refused fd

theorem start_inv : (start P W dir).Inv cfg dir where
  server := .refl _
  accepted := rfl
  distinct := List.nodup_nil
  closed h := by cases h
  pushed _ h := by cases h

/-- The threads take no connection in and do not close the `FdQueue`. -/
theorem thread_fdQueue {l : LinkScheduling.Label P W} {server : Sys P W}
    (hpermits : s.permits l = true) (hstep : s.server.step cfg l = some server) :
    server.accepted = s.server.accepted ∧
      server.fdQueue.closed = s.server.fdQueue.closed := by
  cases Sys.step_cases hstep with
  | accept fd hnew hopen => cases hpermits
  | stopAccepting => cases hpermits
  | _ => exact ⟨rfl, rfl⟩

/-- What the acceptor does without touching the server. -/
theorem Inv.acceptor (h : s.Inv cfg dir) {flag : Bool} {acceptor : Acceptor}
    (hopen : s.acceptor ≠ .exited) (hholds : acceptor.holds = s.acceptor.holds)
    (hpushed : ∀ fd, acceptor ≠ .refused fd) :
    Inv cfg dir { s with shutdownFlag := flag, acceptor := acceptor } where
  server := h.server
  accepted := h.accepted.trans (by rw [hholds])
  distinct := h.distinct
  closed hclosed := absurd (h.closed hclosed) hopen
  pushed := hpushed

theorem push_inv (h : s.Inv cfg dir) {fd : Fd} (hacc : s.acceptor = .accepted fd) :
    Inv cfg dir { s with
      server := { s.server with
        fdQueue := (s.server.fdQueue.push fd).2
        accepted := s.server.accepted ++ [fd] }
      acceptor := .polling } ∧ (s.server.fdQueue.push fd).1 = true := by
  have hopen : s.server.fdQueue.closed = false := by
    cases hclosed : s.server.fdQueue.closed with
    | false => rfl
    | true =>
        have hexited := h.closed hclosed
        rw [hacc] at hexited
        cases hexited
  have hall : s.accepted = s.server.accepted ++ [fd] := by
    rw [h.accepted, hacc]
    rfl
  have hnew : fd ∉ s.server.accepted := by
    have hdistinct := h.distinct
    rw [hall, List.nodup_append] at hdistinct
    intro hmem
    exact hdistinct.2.2 fd hmem fd List.mem_cons_self rfl
  refine ⟨⟨?_, ?_, h.distinct, ?_, fun _ hr => by cases hr⟩, by simp [FdQueue.push, hopen]⟩
  · refine .tail h.server (l := .accept fd) trivial ?_
    simp [Sys.step, hnew, hopen]
  · simpa [Acceptor.holds] using hall
  · intro hclosed
    simp [FdQueue.push, hopen] at hclosed

theorem step_inv {l : Label P W} (h : s.Inv cfg dir) (hstep : s.step cfg l = some t) :
    t.Inv cfg dir := by
  cases l with
  | signal =>
      cases hstep
      exact ⟨h.server, h.accepted, h.distinct, h.closed, h.pushed⟩
  | testFlag =>
      simp only [step, Option.ite_none_right_eq_some, Option.some.injEq] at hstep
      obtain ⟨hpolling, rfl⟩ := hstep
      have hholds : s.acceptor.holds = [] := by rw [hpolling]; rfl
      refine h.acceptor (by simp [hpolling]) ?_ ?_
      · rw [hholds]
        split <;> rfl
      · intro fd
        split <;> simp
  | retry =>
      simp only [step, Option.ite_none_right_eq_some, Option.some.injEq] at hstep
      obtain ⟨hwaiting, rfl⟩ := hstep
      exact h.acceptor (by simp [hwaiting]) (by rw [hwaiting]; rfl) (by simp)
  | giveUp =>
      simp only [step, Option.ite_none_right_eq_some, Option.some.injEq] at hstep
      obtain ⟨⟨hwaiting, -⟩, rfl⟩ := hstep
      exact h.acceptor (by simp [hwaiting]) (by rw [hwaiting]; rfl) (by simp)
  | accept fd =>
      simp only [step, Option.ite_none_right_eq_some, Option.some.injEq] at hstep
      obtain ⟨⟨hwaiting, hnew⟩, rfl⟩ := hstep
      refine ⟨h.server, ?_, ?_, ?_, by simp⟩
      · simp only [h.accepted, hwaiting, Acceptor.holds, List.append_nil]
      · exact List.nodup_append.mpr ⟨h.distinct, by simp, fun a ha b hb hab =>
          hnew (List.mem_singleton.mp hb ▸ hab ▸ ha)⟩
      · intro hclosed
        -- an acceptor that waits has not left, so it has not closed the queue
        have hexited := h.closed hclosed
        rw [hwaiting] at hexited
        cases hexited
  | push =>
      simp only [step] at hstep
      split at hstep
      · rename_i fd hacc
        obtain ⟨hinv, hpushed⟩ := push_inv h hacc
        rw [hpushed] at hstep
        cases hstep
        exact hinv
      · cases hstep
  | refuse =>
      simp only [step] at hstep
      split at hstep
      · -- the queue was open at the push
        rename_i fd hrefused
        exact absurd hrefused (h.pushed fd)
      · cases hstep
  | leave =>
      simp only [step, Option.ite_none_right_eq_some, Option.some.injEq] at hstep
      obtain ⟨hleaving, rfl⟩ := hstep
      refine ⟨.tail h.server (l := .stopAccepting) trivial rfl, ?_, h.distinct,
        fun _ => rfl, by simp⟩
      rw [h.accepted, hleaving]
      rfl
  | thread l =>
      simp only [step, Option.ite_none_right_eq_some, Option.map_eq_some_iff] at hstep
      obtain ⟨hpermits, server, hserver, rfl⟩ := hstep
      obtain ⟨hacc, hclosed⟩ := thread_fdQueue hpermits hserver
      refine ⟨.tail h.server trivial hserver, ?_, h.distinct, ?_, h.pushed⟩
      · simp only [h.accepted, hacc]
      · simp only [hclosed]
        exact h.closed

theorem reachable_inv (h : Reachable cfg dir s) : s.Inv cfg dir :=
  h.invariant (Inv cfg dir) start_inv fun _ _ _ hinv _ hstep => step_inv hinv hstep

/-- **Every socket is closed once.** However the acceptor, the parsers and the workers
interleave and whenever the signal comes, a socket is used only by calls of its own
connection and by none after it was closed, and when all threads have exited every socket
that was accepted has been closed exactly once. -/
theorem sockets_closed_once (hP : 0 < P) (hW : 0 < W) (h : Reachable cfg dir t) :
    (∀ fd fd', ∀ call ∈ t.server.log fd', call.eff.socket = some fd →
      fd' = fd ∧ fd ∈ t.accepted) ∧
    (∀ fd before call after, t.server.log fd = before ++ call :: after →
      call.eff = .closeSocket fd → ∀ later ∈ after, later.eff.socket ≠ some fd) ∧
    (t.AllExited → ∀ fd ∈ t.accepted, closes fd (t.server.log fd) = 1) := by
  have hinv := reachable_inv h
  have hsockets := Sys.run_sockets (Sys.init_sockets dir) hinv.server
  have hwf := Sys.run_wellFormed (Sys.init_wellFormed dir) hinv.server
  refine ⟨?_, ?_, ?_⟩
  · intro fd fd' call hcall hsocket
    obtain ⟨before, after, hlog⟩ := List.append_of_mem hcall
    have hfd := (hsockets.proper fd' before call after hlog fd hsocket).1
    refine ⟨hfd.symm, ?_⟩
    subst hfd
    rw [hinv.accepted]
    refine List.mem_append_left _ (by_contra fun hnew => ?_)
    rw [hwf.log_new fd (Or.inl hnew)] at hcall
    cases hcall
  · intro fd before call after hlog hclose later hlater hsocket
    obtain ⟨mid, rest, rfl⟩ := List.append_of_mem hlater
    have hlog' : t.server.log fd = (before ++ call :: mid) ++ later :: rest := by
      rw [hlog]
      simp
    have hnone := (hsockets.proper fd _ later rest hlog' fd hsocket).2
    rw [closes, List.countP_eq_zero] at hnone
    exact hnone call (by simp) (by simpa using hclose)
  · intro hexited fd hfd
    have howned := hsockets.owned fd
    rw [Sys.run_unowned hP hW hinv.server hexited.parser hexited.worker fd] at howned
    have hmem : fd ∈ t.server.accepted := by
      rw [hinv.accepted, hexited.acceptor] at hfd
      simpa [Acceptor.holds] using hfd
    rw [if_pos hmem] at howned
    omega

/-- Connection 7 asks for a file; the signal comes while the acceptor has connection 8 in its
hands, whose client sends nothing. -/
def lateSignal : List (Label 1 1) :=
  [.testFlag, .accept 7, .push] ++
    ((arrive 7 (ascii "GET a\n") 5).tail).map Label.thread ++
    [.testFlag, .accept 8, .signal, .push, .testFlag, .leave] ++
    (.parserTake 0 :: List.replicate 5 (.parserCall 0 {})).map Label.thread ++
    [.thread (.parserExit 0), .thread .closeQueue] ++
    (work 8 ++ work 8).map Label.thread ++ [.thread (.workerExit 0)]

theorem sockets_closed_once_late_signal :
    ∃ t : Process 1 1, t.AllExited ∧ t.accepted = [7, 8] ∧
      closes 7 (t.server.log 7) = 1 ∧ closes 8 (t.server.log 8) = 1 := by
  have htrue : ∀ (s : Process 1 1) (l : Label 1 1), (fun _ _ => true) s l = true →
      (fun _ _ => True) s l := fun _ _ _ => trivial
  obtain ⟨t, hrun, hcheck⟩ := script_exists lateSignal
    (fun t => t.acceptor = .exited && t.parsersJoined && (t.server.worker 0).isExited &&
      t.accepted = [7, 8]) htrue
    (show (script (step (plainConfig .DRR 2 (by decide) (by decide))) (fun _ _ => true)
      (start 1 1 (oneFile (ascii "d/a") ⟨ascii "a\nb\n", by decide⟩)) lateSignal).any _ = true
      by decide)
  simp only [Bool.and_eq_true, decide_eq_true_eq, parsersJoined] at hcheck
  obtain ⟨⟨⟨hacceptor, hparsers⟩, hworker⟩, haccepted⟩ := hcheck
  have hexited : t.AllExited := by
    refine ⟨hacceptor, fun k => Parser.isExited_iff.mp (hparsers k), fun k => ?_⟩
    rw [Subsingleton.elim k 0]
    exact Worker.isExited_iff.mp hworker
  have hclosed := (sockets_closed_once (by decide) (by decide) hrun).2.2 hexited
  rw [haccepted] at hclosed
  exact ⟨t, hexited, haccepted, hclosed 7 (by simp), hclosed 8 (by simp)⟩

end Process

end LinkScheduling
