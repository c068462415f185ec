import LinkScheduling.Get.Packing

/-!
# The packets of a round

`--p` groups the lines of a round into packets. On an unchanging file it decides nothing
else: two values of it give the same result, the same record and the same bytes.
-/

namespace LinkScheduling

open Framework

/-- A round of a GET with `packetization`, on a path on which `file` does not change and all
sends succeed, returns `res` after the calls `log`. -/
def ServesRound (file : File) (fileDir : Bytes) (req : Request) (budget : ℕ) (allow : Bool)
    (packetization : ℤ) (res : Bool × Request × ℕ) (log : List Call) : Prop :=
  Prog.Steps (serveGet req fileDir budget allow packetization) log (.ret res) ∧
    (∀ call ∈ log, call.Steady file (filePath fileDir req.filename)) ∧ ¬ SendFailed log

section Packets

variable {file : File} {fileDir : Bytes} {req : Request} {budget : ℕ} {allow : Bool}
  {packetization : ℤ} {res : Bool × Request × ℕ} {log : List Call}

/-- A directory that has `file` everywhere answers such a round. -/
theorem servesRound_exists (file : File) (fileDir : Bytes) (req : Request) (budget : ℕ) (allow : Bool)
    (packetization : ℤ) :
    ∃ res log, ServesRound file fileDir req budget allow packetization res log := by
  let ok (call : Call) : Prop := call.Steady file (filePath fileDir req.filename) ∧
    ∀ fd data, call ≠ ⟨.sendAll fd data, false⟩
  have hok : ∀ e, ∃ r, ok ⟨e, r⟩ := by
    intro e
    refine ⟨(Sys.init 1 1 fun _ => some file).answer {} e, ?_⟩
    cases e <;> simp [ok, Call.Steady, Sys.answer, Sys.init]
  obtain ⟨log, res, hsteps, hlog⟩ := Prog.Steps.exists_ret ok hok
    (serveGet req fileDir budget allow packetization)
  refine ⟨res, log, hsteps, fun call hmem => (hlog call hmem).1, ?_⟩
  rintro ⟨fd, data, hmem⟩
  exact (hlog _ hmem).2 fd data rfl

theorem steady_foldl {path planned : Bytes} (log calls : List Call) :
    log.foldl (fun calls call => (steady file path planned).next calls call.eff call.res) calls =
      calls ++ log := by
  induction log generalizing calls with
  | nil => rw [List.foldl_nil, List.append_nil]
  | cons call log ih =>
      rw [List.foldl_cons, ih]
      exact List.append_assoc calls [call] log

/-- What such a round returns and sends. -/
theorem ServesRound.round (h : ServesRound file fileDir req budget allow packetization res log)
    (hpack : 1 ≤ packetization) (hvalid : isValidFilename req.filename = true)
    (htotal : req.totalBytes = file.size) :
    res = (true, req.afterLines file allow budget,
        lineBytes (roundLines file allow budget req.offset)) ∧
      ∃ packets, Cut packetization.toNat (roundLines file allow budget req.offset) packets ∧
        sends log = req.greeting file ++ packets.map List.flatten := by
  obtain ⟨hsteps, hsteady, hsent⟩ := h
  have hround := hsteps.wp (@serveGet_steady file fileDir allow budget _ req hpack hvalid htotal
    (req.greeting file) rfl) fun _ call hmem => hsteady call hmem
  rw [steady_foldl, List.nil_append] at hround
  cases hround with
  | served packets hcut hsends => exact ⟨rfl, packets, hcut, hsends⟩
  | lost _ _ _ hfailed => exact absurd hfailed hsent

end Packets

namespace Sys

variable {P W : ℕ} {cfg : Config} {dir : Directory} {t : Sys P W} {request req : Request}
  {file : File}

/-- **The packets do not matter.** Take a GET of an unchanging file at the start of any round,
with any budget. If all sends succeed, two values of `--p` give the same result, the same
record, the same count and the same bytes. With one value, every send of the body has at most
that many whole lines of the file, and every send but the last exactly that many. -/
theorem get_packets (hget : request.op = .GET)
    (hrun : RunWhere cfg (Unchanging (filePath cfg.fileDir request.filename) file
      request.clientFd) (init P W dir) t) (hmem : request ∈ t.admitted)
    (hqueued : req ∈ t.requestQueue.queue) (hfd : req.clientFd = request.clientFd)
    (start budget : ℕ) (allow : Bool) :
    (∀ p : ℤ, ∃ res log,
      ServesRound file cfg.fileDir (cfg.scheduler.started req start) budget allow p res log) ∧
    (∀ (p₁ p₂ : ℤ) res₁ res₂ log₁ log₂, 1 ≤ p₁ → 1 ≤ p₂ →
      ServesRound file cfg.fileDir (cfg.scheduler.started req start) budget allow p₁ res₁ log₁ →
      ServesRound file cfg.fileDir (cfg.scheduler.started req start) budget allow p₂ res₂ log₂ →
      res₁ = res₂ ∧ (sends log₁).flatten = (sends log₂).flatten) ∧
    ∀ (p : ℤ) res log, 1 ≤ p →
      ServesRound file cfg.fileDir (cfg.scheduler.started req start) budget allow p res log →
      ∃ packets, sends log = req.greeting file ++ packets.map List.flatten ∧
        Cut p.toNat packets.flatten packets ∧
        ∃ first rest, lines newline file.bytes = first ++ packets.flatten ++ rest := by
  obtain ⟨hsame, hwaiting⟩ := (run_steady hget hrun hmem).queued req hqueued hfd
  refine ⟨fun p => servesRound_exists _ _ _ _ _ _, ?_, ?_⟩
  · intro p₁ p₂ res₁ res₂ log₁ log₂ hp₁ hp₂ h₁ h₂
    obtain ⟨rfl, packets₁, hcut₁, hsends₁⟩ := h₁.round hp₁ hwaiting.valid hwaiting.total
    obtain ⟨rfl, packets₂, hcut₂, hsends₂⟩ := h₂.round hp₂ hwaiting.valid hwaiting.total
    refine ⟨rfl, ?_⟩
    rw [hsends₁, hsends₂, List.flatten_append, List.flatten_append, ← List.flatten_flatten,
      ← List.flatten_flatten, hcut₁.flatten, hcut₂.flatten]
  · intro p res log hp h
    obtain ⟨-, packets, hcut, hsends⟩ := h.round hp hwaiting.valid hwaiting.total
    refine ⟨packets, hsends, hcut.flatten.symm ▸ hcut, ?_⟩
    obtain ⟨first, hfirst⟩ := hwaiting.lines
    obtain ⟨rest, hrest⟩ := roundLines_initial file allow budget req.offset
    refine ⟨first, rest, ?_⟩
    rw [hcut.flatten, List.append_assoc, hfirst]
    exact congrArg (first ++ ·) hrest.symm

/-- The GET of three lines, back in the queue after its first round. -/
theorem get_packets_longFirst : ∃ (req : Request) (res : Bool × Request × ℕ)
    (log₁ log₂ : List Call), req.offset = 4 ∧
      ServesRound longFirst (ascii "d") req 4 false 1 res log₁ ∧
      ServesRound longFirst (ascii "d") req 4 false 2 res log₂ ∧
      (sends log₁).flatten = (sends log₂).flatten ∧
      ∃ packets, sends log₂ = packets.map List.flatten ∧ Cut 2 packets.flatten packets := by
  have hok : ∀ (s : Sys 1 1) (l : Label 1 1), calm (ascii "d/a") longFirst s l = true →
      Unchanging (ascii "d/a") longFirst 7 s l := fun _ l => unchanging_of_calm 7 l
  obtain ⟨t, hrun, hcheck⟩ := script_exists (longFirstRounds.take 19)
    (fun t => t.admitted.any (fun r => r.op = .GET ∧ r.clientFd = 7 ∧ r.filename = ascii "a") &&
      t.requestQueue.queue.any (fun r => r.clientFd = 7 ∧ r.offset = 4 ∧ r.responseSent)) hok
    (show (script (step (plainConfig .RR 2 (by decide) (by decide)))
      (calm (ascii "d/a") longFirst) (init 1 1 (oneFile (ascii "d/a") longFirst))
      (longFirstRounds.take 19)).any _ = true by decide)
  simp only [Bool.and_eq_true, decide_eq_true_eq, List.any_eq_true] at hcheck
  obtain ⟨⟨request, hmem, hget, hfd, hname⟩, req, hqueued, hfd', hoffset, hsent⟩ := hcheck
  have hpath : filePath (ascii "d") request.filename = ascii "d/a" := by
    rw [hname]
    decide
  have hrun' : RunWhere (plainConfig .RR 2 (by decide) (by decide))
      (Unchanging (filePath (ascii "d") request.filename) longFirst request.clientFd)
      (init 1 1 (oneFile (ascii "d/a") longFirst)) t := by
    rw [hpath, hfd]
    exact hrun
  obtain ⟨hexists, hequal, hpackets⟩ :=
    get_packets hget hrun' hmem hqueued (hfd'.trans hfd.symm) 0 4 false
  obtain ⟨res₁, log₁, h₁⟩ := hexists 1
  obtain ⟨res₂, log₂, h₂⟩ := hexists 2
  obtain ⟨rfl, hsame⟩ := hequal 1 2 res₁ res₂ log₁ log₂ le_rfl (by decide) h₁ h₂
  obtain ⟨packets, hsends, hcut, -⟩ := hpackets 2 res₁ log₂ (by decide) h₂
  refine ⟨(plainConfig .RR 2 (by decide) (by decide)).scheduler.started req 0, res₁, log₁, log₂,
    hoffset, h₁, h₂, hsame, packets, ?_, hcut⟩
  rw [hsends, Request.greeting, if_pos hsent, List.nil_append]

end Sys

end LinkScheduling
