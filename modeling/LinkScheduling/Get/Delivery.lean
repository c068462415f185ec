import LinkScheduling.Get.Progress
import LinkScheduling.Get.Service
import LinkScheduling.Metatheory.Tracking

/-!
# A GET of an unchanging file

As long as the file stays as it is and sends succeed, a GET sends the header in its
first round and then the bytes of the file, in order, however its rounds are cut and
interleaved with those of other requests.
-/

namespace LinkScheduling

open Framework

/-! ## The view of one content -/

namespace View

/-- Nothing but the bytes of `file`, no fault. -/
def exactly (file : File) : View where
  content := file.bytes
  good k b := file.bytes[k]? = some b
  faults := False
  missing := False
  size_lt := file.size_lt

variable {file : File}

theorem exactly_accepts : (exactly file).Accepts file :=
  ⟨fun _ _ => Iff.rfl, fun _ _ _ h => h⟩

theorem exactly_goodAt {bytes : Bytes} (h : (exactly file).GoodAt 0 bytes) :
    bytes <+: file.bytes := by
  refine List.prefix_iff_getElem?.mpr fun k hk => ?_
  have := h k bytes[k] (List.getElem?_eq_getElem hk)
  rwa [Nat.zero_add] at this

theorem exactly_sent {p : ℕ} {l : List Bytes} (h : (exactly file).Sent p l) :
    ∃ pieces, l = okLine file.size :: pieces ∧ pieces.flatten <+: file.bytes ∧
      pieces.flatten.length = p := by
  obtain ⟨pieces, hl, hp, -, hgood⟩ := h
  exact ⟨pieces, hl, exactly_goodAt hgood, hp⟩

theorem exactly_shape {l : List Bytes} (h : (exactly file).Shape l) :
    l = [] ∨ ∃ pieces, l = okLine file.size :: pieces ∧ pieces.flatten <+: file.bytes := by
  cases h with
  | silent h => exact Or.inl h
  | refused h => exact (h.elim id id).elim
  | sent p h =>
      obtain ⟨pieces, hl, hpre, -⟩ := exactly_sent h
      exact Or.inr ⟨pieces, hl, hpre⟩
  | broken p l' reason h => exact h.elim

theorem exactly_complete {l : List Bytes} (h : (exactly file).Sent file.size l) :
    ∃ pieces, l = okLine file.size :: pieces ∧ pieces.flatten = file.bytes := by
  obtain ⟨pieces, hl, hpre, hlen⟩ := exactly_sent h
  exact ⟨pieces, hl, hpre.eq_of_length hlen⟩

end View

/-! ## Runs that leave the file alone -/

/-- The record a round works on is a record of the request. -/
theorem Tracked.roundOf_same {cfg : Config} {request req : Request} {b : Bool} :
    ∀ {log log' : List Call}, Tracked cfg request log' → log <+: log' →
      roundOf log = (some req, b) → request.Same req := by
  intro log
  induction log using List.reverseRecOn generalizing b with
  | nil =>
      intro log' _ _ h
      cases h
  | append_singleton log call ih =>
      intro log' htracked hpre h
      have hrecord := htracked.records call (hpre.subset (by simp))
      have hlog : log <+: log' := (List.prefix_append _ _).trans hpre
      rw [roundOf_snoc] at h
      cases hround : roundOf log with
      | mk current opened =>
          rw [hround] at h
          rcases call with ⟨e, r⟩
          have hold : current = some req → request.Same req := by
            rintro rfl
            exact ih htracked hlog hround
          cases e with
          | push req' =>
              cases r with
              | true =>
                  cases h
                  exact hrecord req (Or.inl rfl)
              | false => exact hold (congrArg Prod.fst h)
          | requeue req' =>
              cases h
              exact hrecord req (Or.inr rfl)
          | _ => exact hold (congrArg Prod.fst h)

namespace Sys

variable {P W : ℕ} {cfg : Config} {dir : Directory} {s t : Sys P W} {request : Request}
  {file : File}

/-- Calls for connection `fd` find `file` under `path`, and sends on it succeed. -/
def Undisturbed (path : Bytes) (file : File) (fd : Fd) (s : Sys P W) (l : Label P W) : Prop :=
  ∀ call, s.callOf l = some (fd, call) → s.dir (cstr path) = some file ∧
    ∀ fd' data, call ≠ ⟨.sendAll fd' data, false⟩

theorem undisturbed_size (hget : request.op = .GET)
    (hrun : RunWhere cfg (Undisturbed (filePath cfg.fileDir request.filename) file
      request.clientFd) (init P W dir) t) (hmem : request ∈ t.admitted) :
    request.totalBytes = file.size := by
  obtain ⟨u, l, hm, -, htotal⟩ := run_size hrun hmem hget
  rw [(hm.allowed _ hm.call).1] at htotal
  exact htotal

theorem undisturbed_permits {path : Bytes} {fd : Fd} {l : Label P W}
    (h : Undisturbed path file fd s l)
    (hlooks : ∀ call, s.callOf l = some (fd, call) → call.eff.looksAt path) :
    (View.exactly file).life.Permits fd s l := by
  intro call hcall
  obtain ⟨hfile, hsend⟩ := h call hcall
  have hlook := hlooks call hcall
  obtain ⟨c, hres⟩ := callOf_answer hcall
  rcases call with ⟨e, r⟩
  simp only at hres hlook hsend
  cases e with
  | stat p =>
      cases hlook
      rw [answer, hfile] at hres
      subst hres
      trivial
  | openRead p =>
      cases hlook
      rw [answer, hfile] at hres
      subst hres
      exact View.exactly_accepts
  | sendAll fd' data =>
      cases r with
      | true => trivial
      | false => exact absurd rfl (hsend fd' data)
  | _ => trivial

/-- The file is longer than the offset of a round that cannot send all that is left. -/
theorem undisturbed_ahead {l : Label P W} {log : List Call}
    (h : Undisturbed (filePath cfg.fileDir request.filename) file request.clientFd s l)
    (htracked : Tracked cfg request log) (htotal : request.totalBytes = file.size)
    (hpre : ∀ call, s.callOf l = some (request.clientFd, call) →
      s.log request.clientFd ++ [call] <+: log) :
    SelectsAheadFor cfg request.clientFd s l := by
  intro call hcall hrr path r req heq hround hpart
  have hpre := hpre call hcall
  have hlook := htracked.looks call (hpre.subset (by simp))
  have hsame := htracked.roundOf_same ((List.prefix_append _ _).trans hpre) hround
  obtain ⟨c, hres⟩ := callOf_answer hcall
  obtain ⟨hfile, -⟩ := h call hcall
  subst heq
  cases hlook
  refine ⟨file, by simpa [answer, hfile] using hres, ?_⟩
  have := hsame.totalBytes
  omega

/-- What a GET of an unchanging file looks like at every moment. -/
theorem run_delivers (hget : request.op = .GET)
    (hrun : RunWhere cfg (Undisturbed (filePath cfg.fileDir request.filename) file
      request.clientFd) (init P W dir) t) (hmem : request ∈ t.admitted) :
    (View.exactly file).life.HoldsFor request t ∧
      InTime request.totalBytes (t.log request.clientFd) := by
  have htotal := undisturbed_size hget hrun hmem
  have htracked := run_tracked hrun hmem
  constructor
  · have hpermits : RunWhere cfg ((View.exactly file).life.Permits request.clientFd)
        (init P W dir) t :=
      (run_looks hrun hmem).mono fun u l h =>
        undisturbed_permits h.1 fun call hcall => (h.2 call hcall).2
    exact Lifecycle.run_holdsFor (View.life_soundFor (V := .exactly file) hget htotal)
      hpermits hmem
  · refine run_inTime hget (hrun.mono_reach fun u l v _ hA hstep hafter => ?_) hmem
    refine undisturbed_ahead hA htracked htotal fun call hcall => ?_
    rw [← callOf_log hcall hstep]
    exact run_log_extends hafter _

/-- **A GET delivers the file.** While the file does not change and sends succeed,
what was sent on the connection of an admitted GET is nothing, or the header, sent in
the first round, and then a part of the file from its start; a finished GET completed
and sent all of the file. It takes at most `max 1 n` rounds and finishes in every fair
behaviour. -/
theorem get_delivers (hget : request.op = .GET) :
    (∀ t : Sys P W, RunWhere cfg (Undisturbed (filePath cfg.fileDir request.filename) file
        request.clientFd) (init P W dir) t → request ∈ t.admitted →
      requeues (t.log request.clientFd) + 1 ≤ max 1 file.size ∧
      (sends (t.log request.clientFd) = [] ∧ requeues (t.log request.clientFd) = 0 ∨
        ∃ pieces, sends (t.log request.clientFd) = okLine file.size :: pieces ∧
          pieces.flatten <+: file.bytes) ∧
      ∀ exit, (request.clientFd, exit) ∈ t.finished → exit = .completed ∧
        ∃ pieces, sends (t.log request.clientFd) = okLine file.size :: pieces ∧
          pieces.flatten = file.bytes) ∧
    (∀ b : Behaviour (step (P := P) (W := W) cfg), b.state 0 = init P W dir →
      (∀ n, Undisturbed (filePath cfg.fileDir request.filename) file request.clientFd
        (b.state n) (b.label n)) →
      FairFor b request.clientFd → ∀ n, request ∈ (b.state n).admitted →
      ∃ m, (request.clientFd, .completed) ∈ (b.state m).finished ∧
        (sends ((b.state m).log request.clientFd)).flatten = okLine file.size ++ file.bytes) := by
  have hsafe : ∀ t : Sys P W, RunWhere cfg (Undisturbed (filePath cfg.fileDir request.filename)
      file request.clientFd) (init P W dir) t → request ∈ t.admitted →
      ∀ exit, (request.clientFd, exit) ∈ t.finished → exit = .completed ∧
        ∃ pieces, sends (t.log request.clientFd) = okLine file.size :: pieces ∧
          pieces.flatten = file.bytes := by
    intro t hrun hmem exit hexit
    have hover := (run_delivers hget hrun hmem).1.finished exit hexit
    cases exit with
    | completed => exact ⟨rfl, View.exactly_complete hover⟩
    | _ =>
        obtain ⟨stop, hout⟩ := hover
        cases hout with
        | lost h => exact h.elim
        | refused h => exact (h.elim id id).elim
  refine ⟨fun t hrun hmem => ?_, fun b hinit hcalm hfair n hmem => ?_⟩
  · -- safety: the shape of what was sent and the number of rounds
    obtain ⟨hlife, htime⟩ := run_delivers hget hrun hmem
    have hrounds := htime.rounds
    rw [undisturbed_size hget hrun hmem] at hrounds
    refine ⟨hrounds, ?_, hsafe t hrun hmem⟩
    rcases View.exactly_shape hlife.always with hnil | hsent
    · exact Or.inl ⟨hnil, htime.header.resolve_right (fun h => h hnil)⟩
    · exact Or.inr hsent
  · -- liveness: an undisturbed file is always found longer than the offset
    have hrun : ∀ m, RunWhere cfg (Undisturbed (filePath cfg.fileDir request.filename) file
        request.clientFd) (init P W dir) (b.state m) := by
      intro m
      rw [← hinit]
      exact b.run hcalm m
    have hahead : ∀ m, SelectsAheadFor cfg request.clientFd (b.state m) (b.label m) := by
      intro m
      have hlate := behaviour_admitted b (Nat.le_max_left n (m + 1)) hmem
      refine undisturbed_ahead (hcalm m) (run_tracked (hrun _) hlate)
        (undisturbed_size hget (hrun _) hlate) fun call hcall => ?_
      rw [← callOf_log hcall (b.next m)]
      obtain ⟨d, hd⟩ := Nat.exists_eq_add_of_le (Nat.le_max_right n (m + 1))
      rw [hd]
      exact run_log_extends (behaviour_run b (m + 1) d) _
    obtain ⟨m, hm, exit, hexit⟩ := eventually_finished_get hget hinit hahead hfair hmem
    obtain ⟨rfl, pieces, hpieces, hall⟩ :=
      hsafe _ (hrun _) (behaviour_admitted b hm hmem) exit hexit
    exact ⟨m, hexit, by rw [hpieces, List.flatten_cons, hall]⟩

/-- A step that finds `file` under `path` and whose call succeeds. -/
def calm (path : Bytes) (file : File) (s : Sys P W) (l : Label P W) : Bool :=
  l.succeeds && s.dir (cstr path) = some file

theorem undisturbed_of_calm {path : Bytes} (fd : Fd) (l : Label P W)
    (h : calm path file s l = true) : Undisturbed path file fd s l := by
  simp only [calm, Bool.and_eq_true, decide_eq_true_eq] at h
  intro call hcall
  refine ⟨h.2, ?_⟩
  rintro fd' data rfl
  exact callOf_succeeds h.1 fd fd' data hcall

def twoLines : File := ⟨ascii "a\nb\n", by decide⟩

/-- The GET of the two lines under DRR, from the round in which it is admitted on. -/
theorem twoRounds_behaviour :
    ∃ (b : Behaviour (step (P := 1) (W := 1) (plainConfig .DRR 2 (by decide) (by decide))))
      (request : Request), request.op = .GET ∧ request ∈ (b.state 10).admitted ∧
        b.state 0 = init 1 1 (oneFile (ascii "d/a") twoLines) ∧
        (∀ n, Undisturbed (filePath (ascii "d") request.filename) twoLines request.clientFd
          (b.state n) (b.label n)) ∧ FairFor b request.clientFd := by
  have hok : ∀ (s : Sys 1 1) (l : Label 1 1), calm (ascii "d/a") twoLines s l = true →
      Undisturbed (ascii "d/a") twoLines 7 s l := fun _ l => undisturbed_of_calm 7 l
  obtain ⟨b, hinit, hcalm, hfair, hstate⟩ := exists_fair
    (plainConfig .DRR 2 (by decide) (by decide)) (init 1 1 (oneFile (ascii "d/a") twoLines))
    7 twoRounds 26 0 {} hok (fun _ _ h => by cases h) (by decide) rfl (by decide) (by decide)
  have hadm : (script (step (plainConfig .DRR 2 (by decide) (by decide)))
      (calm (ascii "d/a") twoLines) (init 1 1 (oneFile (ascii "d/a") twoLines))
      (twoRounds.take 10)).any (·.admitted.any
        (fun r => r.op = .GET ∧ r.clientFd = 7 ∧ r.filename = ascii "a")) = true := by decide
  rw [hstate 10 (by decide), Option.any_some] at hadm
  obtain ⟨request, hmem, hreq⟩ := List.any_eq_true.mp hadm
  obtain ⟨hget, hfd, hname⟩ := of_decide_eq_true hreq
  have hpath : filePath (ascii "d") request.filename = ascii "d/a" := by
    rw [hname]
    decide
  rw [← hpath, ← hfd] at hcalm
  rw [← hfd] at hfair
  exact ⟨b, request, hget, hmem, hinit, hcalm, hfair⟩

theorem get_delivers_two_rounds :
    ∃ (b : Behaviour (step (P := 1) (W := 1) (plainConfig .DRR 2 (by decide) (by decide))))
      (request : Request), request.op = .GET ∧ request ∈ (b.state 10).admitted ∧
        requeues ((b.state 28).log request.clientFd) + 1 ≤ max 1 twoLines.size ∧
        ∃ m, (request.clientFd, .completed) ∈ (b.state m).finished ∧
          (sends ((b.state m).log request.clientFd)).flatten =
            okLine twoLines.size ++ twoLines.bytes := by
  obtain ⟨b, request, hget, hmem, hinit, hcalm, hfair⟩ := twoRounds_behaviour
  have hrun := b.run hcalm 28
  rw [hinit] at hrun
  exact ⟨b, request, hget, hmem,
    ((get_delivers hget).1 _ hrun (behaviour_admitted b (by decide) hmem)).1,
    (get_delivers hget).2 b hinit hcalm hfair 10 hmem⟩

end Sys

end LinkScheduling
