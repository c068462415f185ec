import LinkScheduling.Framework.Lines
import LinkScheduling.Metatheory.Lifecycle
import LinkScheduling.Metatheory.Log

/-!
# What a parser admits

The parser pass as a whole: when it pushes a request, what the log says about
that request (`Admissible`), and when it answers the client itself, why it did
(`Refused`).
-/

namespace LinkScheduling

open Framework

/-! ## Reading the header line -/

/-- A header line ends with its only newline. -/
def HeaderLine (header : Bytes) : Prop := ∃ text, newline ∉ text ∧ header = text ++ [newline]

theorem HeaderLine.ne_nil {header : Bytes} (h : HeaderLine header) : header ≠ [] := by
  obtain ⟨text, -, rfl⟩ := h
  simp

theorem takeWhile_header {text : Bytes} (h : newline ∉ text) (rest : Bytes) :
    (text ++ newline :: rest).takeWhile (· ≠ newline) = text := by
  rw [List.takeWhile_append_of_pos]
  · simp
  · intro c hc
    have hne : c ≠ newline := fun heq => h (heq ▸ hc)
    simpa using hne

/-- A stream starts with at most one header line. -/
theorem HeaderLine.unique {header header' rest rest' : Bytes} (h : HeaderLine header)
    (h' : HeaderLine header') (heq : header ++ rest = header' ++ rest') :
    header = header' ∧ rest = rest' := by
  obtain ⟨text, hno, rfl⟩ := h
  obtain ⟨text', hno', rfl⟩ := h'
  simp only [List.append_assoc, List.cons_append, List.nil_append] at heq
  have htext : text = text' := by
    rw [← takeWhile_header hno rest, ← takeWhile_header hno' rest', heq]
  subst htext
  exact ⟨rfl, by simpa using heq⟩

theorem scanBuffer_some {rest : Bytes} :
    ∀ {buffer line line' : Bytes}, scanBuffer line buffer = (line', some rest) →
      ∃ text, newline ∉ text ∧ buffer = text ++ newline :: rest ∧
        line' = line ++ text ++ [newline]
  | [], line, line', h => by cases h
  | c :: buffer, line, line', h => by
      unfold scanBuffer at h
      split at h
      · rename_i hc
        simp only [Prod.mk.injEq, Option.some.injEq] at h
        exact ⟨[], by simp, by simp [hc, h.2], by simp [← h.1, hc]⟩
      · rename_i hc
        obtain ⟨text, hno, rfl, rfl⟩ := scanBuffer_some h
        exact ⟨c :: text, by simp [hno, Ne.symm hc], rfl, by simp⟩

theorem scanBuffer_none :
    ∀ {buffer line line' : Bytes}, scanBuffer line buffer = (line', none) →
      newline ∉ buffer ∧ line' = line ++ buffer
  | [], line, line', h => by
      cases h
      simp
  | c :: buffer, line, line', h => by
      unfold scanBuffer at h
      split at h
      · cases h
      · rename_i hc
        obtain ⟨hno, rfl⟩ := scanBuffer_none h
        exact ⟨by simp [hno, Ne.symm hc], by simp⟩

/-- Why no header line could be read: the client closed or was too slow, or its
first `8192` bytes hold no newline. -/
inductive Unread (log : List Call) : Prop
  | failed (fd : Fd) (size t : ℕ) : ⟨.recv fd size t, none⟩ ∈ log → Unread log
  | ended (fd : Fd) (size t : ℕ) : ⟨.recv fd size t, some []⟩ ∈ log → Unread log
  | late (start now : ℕ) : log.head? = some ⟨.now, start⟩ → ⟨.now, now⟩ ∈ log →
      start + 1000 * 1000000 ≤ now → Unread log
  | long : 8192 ≤ (received log).length → newline ∉ received log → Unread log

/-- The result of `read_header_line`: an empty line with a reason, or the header
line and what came after it. -/
def HeaderRead (res : Bytes × Bytes) (log : List Call) : Prop :=
  res.1 = [] ∧ Unread log ∨ HeaderLine res.1 ∧ received log = res.1 ++ res.2

/-- Why a parser answered the client itself. -/
inductive Refused (cfg : Config) (fd : Fd) (log : List Call) : Prop
  | unread : Unread log → Refused cfg fd log
  | header (header rest : Bytes) : received log = header ++ rest → HeaderLine header →
      (∀ req, parseRequestHeader header fd = .ok req → req.op ≠ .HEALTH →
        isValidFilename req.filename = false) → Refused cfg fd log
  | missing (header rest path : Bytes) (base : Request) : received log = header ++ rest →
      HeaderLine header → parseRequestHeader header fd = .ok base → base.op = .GET →
      ⟨.stat path, none⟩ ∈ log → Refused cfg fd log
  | closed (req : Request) : ⟨.push req, false⟩ ∈ log → Refused cfg fd log

/-- The parts of a request that no parser sets. -/
structure Request.Fresh (req : Request) : Prop where
  offset : req.offset = 0
  rounds : req.rounds = 0
  forfeitedBytes : req.forfeitedBytes = 0
  deficit : req.deficit = 0
  a14Events : req.a14Events = 0
  startNs : req.startNs = 0
  pendingOffset : req.pendingOffset = 0
  stagingFilename : req.stagingFilename = []
  responseSent : req.responseSent = false

/-- The calls a parser makes before it pushes. -/
def Eff.admitting (path : Bytes) : Eff → Prop
  | .stat p => p = path
  | .recv _ _ _ => True
  | .now => True
  | .fetchId => True
  | _ => False

structure Admissible (cfg : Config) (req : Request) (log : List Call) : Prop where
  fresh : req.Fresh
  op : req.op = .GET ∨ req.op = .PUT
  valid : isValidFilename req.filename = true
  calls : ∀ call ∈ log, call.eff.admitting (filePath cfg.fileDir req.filename)
  size : req.op = .GET → ∃ size,
    ⟨.stat (filePath cfg.fileDir req.filename), size⟩ ∈ log ∧ req.totalBytes = size.getD 0 ∧
      req.totalBytes < 2 ^ 63
  header : ∃ header base, HeaderLine header ∧ received log = header ++ req.pendingBytes ∧
    parseRequestHeader header req.clientFd = .ok base ∧ base.op = req.op ∧
    base.filename = req.filename ∧ (req.op = .PUT → base.totalBytes = req.totalBytes)

/-- Nothing was sent before the push. -/
theorem Admissible.sends {cfg : Config} {req : Request} {log : List Call}
    (h : Admissible cfg req log) : sends log = [] := by
  simp only [LinkScheduling.sends, List.flatMap_eq_nil_iff]
  intro call hmem
  have hcall := h.calls call hmem
  rcases call with ⟨e, r⟩
  cases e <;> first | rfl | exact hcall.elim

/-- Nor was anything put back into the queue. -/
theorem Admissible.requeues {cfg : Config} {req : Request} {log : List Call}
    (h : Admissible cfg req log) : requeues log = 0 := by
  simp only [LinkScheduling.requeues, List.sum_eq_zero_iff, List.mem_map]
  rintro _ ⟨⟨e, r⟩, hmem, rfl⟩
  have hcall := h.calls _ hmem
  cases e <;> first | rfl | exact hcall.elim

def admission (cfg : Config) (fd : Fd) : Contract Eff Resp (List Call) where
  guarantee log e := match e with
    | .push req => req.clientFd = fd ∧ Admissible cfg req log
    | .sendAll _ _ => Refused cfg fd log
    | _ => True
  rely _ e r := Call.Possible ⟨e, r⟩
  next log e r := log ++ [⟨e, r⟩]

@[simp] theorem admission_next (cfg : Config) (fd : Fd) (log : List Call) (e : Eff)
    (r : Resp e) : (admission cfg fd).next log e r = log ++ [⟨e, r⟩] := rfl

section Parser

variable {cfg : Config} {fd : Fd}

/-- Calls made while reading the header. -/
def Eff.reading : Eff → Prop
  | .recv _ _ _ => True
  | .now => True
  | _ => False

theorem readHeaderLoop_reads {start : ℕ} :
    ∀ (fuel : ℕ) (line : Bytes) (log : List Call), 8192 ≤ fuel + line.length →
      received log = line → newline ∉ line → log.head? = some ⟨.now, start⟩ →
      (∀ call ∈ log, call.eff.reading) →
      (readHeaderLoop fd (start + 1000 * 1000000) fuel line).wp (admission cfg fd)
        (fun res log => HeaderRead res log ∧ ∀ call ∈ log, call.eff.reading) log
  | 0, line, log, hfuel, hline, hno, hhead, hcalls => by
      refine ⟨Or.inl ⟨rfl, .long ?_ ?_⟩, hcalls⟩
      · rw [hline]
        omega
      · rwa [hline]
  | fuel + 1, line, log, hfuel, hline, hno, hhead, hcalls => by
      unfold readHeaderLoop
      split
      · rename_i hlong
        exact ⟨Or.inl ⟨rfl, .long (hline ▸ hlong) (hline ▸ hno)⟩, hcalls⟩
      simp only [perform, Prog.wp_bind, Prog.wp_perform]
      refine ⟨trivial, fun now _ => ?_⟩
      have hcalls' : ∀ call ∈ log ++ [⟨.now, now⟩], call.eff.reading := by
        simp only [List.mem_append, List.mem_singleton]
        rintro call (hmem | rfl)
        · exact hcalls call hmem
        · trivial
      have hhead' : (log ++ [(⟨.now, now⟩ : Call)]).head? = some ⟨.now, start⟩ := by
        simp [List.head?_append, hhead]
      split
      · rename_i hlate
        exact ⟨Or.inl ⟨rfl, .late start now hhead' (by simp) hlate⟩, hcalls'⟩
      simp only [Prog.wp_bind, Prog.wp_perform]
      generalize (if (start + 1000 * 1000000 - now) / 1000000 > 0 then
        (start + 1000 * 1000000 - now) / 1000000 else 1) = ms
      refine ⟨trivial, fun answer _ => ?_⟩
      rw [admission_next, admission_next]
      set log' := log ++ [(⟨.now, now⟩ : Call)] ++ [⟨.recv fd 4096 ms, answer⟩] with hlog'
      have hlast : (⟨.recv fd 4096 ms, answer⟩ : Call) ∈ log' := by simp [hlog']
      have hcalls'' : ∀ call ∈ log', call.eff.reading := by
        simp only [hlog', List.mem_append, List.mem_singleton]
        rintro call (hmem | rfl)
        · exact hcalls' call (by simpa using hmem)
        · trivial
      rcases answer with _ | _ | ⟨b, buffer⟩
      · exact ⟨Or.inl ⟨rfl, .failed fd 4096 _ hlast⟩, hcalls''⟩
      · exact ⟨Or.inl ⟨rfl, .ended fd 4096 _ hlast⟩, hcalls''⟩
      · have hrec : received log' = line ++ b :: buffer := by
          simp [hlog', hline, Call.received]
        simp only
        split
        · rename_i line' leftover hscan
          obtain ⟨text, htext, hbuf, rfl⟩ := scanBuffer_some hscan
          refine ⟨Or.inr ⟨⟨line ++ text, by simp [hno, htext], rfl⟩, ?_⟩, hcalls''⟩
          rw [hrec, hbuf]
          simp
        · rename_i line' hscan
          obtain ⟨hbuf, rfl⟩ := scanBuffer_none hscan
          refine readHeaderLoop_reads fuel _ log' ?_ hrec ?_ ?_ hcalls''
          · simp only [List.length_append, List.length_cons]
            omega
          · simp only [List.mem_append, not_or]
            exact ⟨hno, hbuf⟩
          · simp [hlog', List.head?_append, hhead]

theorem readHeaderLine_reads :
    (readHeaderLine fd 1000).wp (admission cfg fd)
      (fun res log => HeaderRead res log ∧ ∀ call ∈ log, call.eff.reading) [] := by
  simp only [readHeaderLine, perform, Prog.wp_bind, Prog.wp_perform]
  refine ⟨trivial, fun start _ => ?_⟩
  refine readHeaderLoop_reads 8192 [] _ (by simp) (by simp [Call.received])
    (by simp) rfl ?_
  simp [Eff.reading]

/-! ## The pass -/

theorem rejectClient_refused {reason : Bytes} {log : List Call} (h : Refused cfg fd log) :
    (rejectClient fd reason).wp (admission cfg fd) (fun _ _ => True) log := by
  simp only [rejectClient, sendError, perform, Prog.wp_bind, Prog.wp_perform, Prog.wp_pure]
  exact ⟨h, fun _ _ => ⟨trivial, fun _ _ => trivial⟩⟩

theorem parseRequestHeader_fresh {header : Bytes} {req : Request}
    (h : parseRequestHeader header fd = .ok req) : req.Fresh := by
  unfold parseRequestHeader at h
  simp only at h
  repeat' split at h
  all_goals first
    | (cases h; done)
    | (cases h; exact ⟨rfl, rfl, rfl, rfl, rfl, rfl, rfl, rfl, rfl⟩)

theorem admitRequest_admissible (req : Request) {log : List Call}
    (h : ∀ id arrival calls, (∀ call ∈ calls, call.eff = .now ∨ call.eff = .fetchId) →
      received calls = [] →
      Admissible cfg { req with requestId := id, arrivalNs := arrival } (log ++ calls)) :
    (admitRequest req.clientFd req).wp (admission cfg req.clientFd) (fun _ _ => True) log := by
  simp only [admitRequest, perform, Prog.wp_bind, Prog.wp_perform]
  refine ⟨trivial, fun id _ => ⟨trivial, fun arrival _ => ⟨⟨rfl, ?_⟩, ?_⟩⟩⟩
  · have hadm := h id arrival [⟨.fetchId, id⟩, ⟨.now, arrival⟩] (by simp) rfl
    simpa using hadm
  · rintro (_ | _) -
    · exact rejectClient_refused
        (.closed { req with requestId := id, arrivalNs := arrival } (by simp))
    · trivial

/-- A parsed header is admitted with the bytes read behind it: a GET with the size it found
and a PUT with its own. -/
theorem admissible_of_parse (req : Request) {header leftover : Bytes} {log calls : List Call}
    {total arrival : ℕ} {id : ℤ} (hline : HeaderLine header)
    (hrec : received log = header ++ leftover)
    (hparse : parseRequestHeader header req.clientFd = .ok req)
    (hop : req.op = .GET ∨ req.op = .PUT) (hvalid : isValidFilename req.filename = true)
    (hcalls : ∀ call ∈ log, call.eff.admitting (filePath cfg.fileDir req.filename))
    (hget : req.op = .GET → ∃ size,
      ⟨.stat (filePath cfg.fileDir req.filename), size⟩ ∈ log ∧ total = size.getD 0 ∧
        total < 2 ^ 63)
    (hput : req.op = .PUT → req.totalBytes = total)
    (hquiet : ∀ call ∈ calls, call.eff = .now ∨ call.eff = .fetchId)
    (hnone : received calls = []) :
    Admissible cfg { req with
      pendingBytes := leftover, totalBytes := total, requestId := id, arrivalNs := arrival }
      (log ++ calls) := by
  have hfresh := parseRequestHeader_fresh hparse
  refine ⟨⟨hfresh.1, hfresh.2, hfresh.3, hfresh.4, hfresh.5, hfresh.6, hfresh.7, hfresh.8,
    hfresh.9⟩, hop, hvalid, ?_, ?_, ?_⟩
  · intro call hmem
    rcases List.mem_append.mp hmem with hmem | hmem
    · exact hcalls call hmem
    · rcases call with ⟨e, r⟩
      rcases hquiet _ hmem with rfl | rfl <;> trivial
  · intro h
    obtain ⟨size, hmem, htotal, hsmall⟩ := hget h
    exact ⟨size, List.mem_append_left _ hmem, htotal, hsmall⟩
  · exact ⟨header, req, hline, by simp [hrec, hnone], hparse, rfl, rfl, hput⟩

/-- **Parser admission.** A parser pass pushes only admissible requests and
answers the client itself only for one of the listed reasons. -/
theorem parserClient_admits :
    (parserClient cfg fd).wp (admission cfg fd) (fun _ _ => True) [] := by
  unfold parserClient
  rw [Prog.wp_bind]
  refine Prog.wp_mono readHeaderLine_reads ?_
  rintro ⟨header, leftover⟩ log ⟨hread, hcalls⟩
  simp only
  split
  · -- no header line came in time
    rename_i hempty
    rcases hread with ⟨-, hun⟩ | ⟨hline, -⟩
    · exact rejectClient_refused (.unread hun)
    · exact absurd (List.isEmpty_iff.mp hempty) hline.ne_nil
  rename_i hne
  have hheader : HeaderLine header ∧ received log = header ++ leftover := by
    rcases hread with ⟨hempty, -⟩ | h
    · exact absurd (List.isEmpty_iff.mpr hempty) hne
    · exact h
  obtain ⟨hline, hrec⟩ := hheader
  split
  · rename_i text hparse
    exact rejectClient_refused (.header header leftover hrec hline (by simp [hparse]))
  rename_i req hparse
  have hfd := parseRequestHeader_clientFd hparse
  subst hfd
  split
  · -- HEALTH is answered here and never admitted
    rename_i hop
    simp only [sendResponse, perform, Prog.wp_bind, Prog.wp_perform, Prog.wp_pure]
    refine ⟨trivial, fun depth _ => ⟨?_, fun _ _ => ⟨trivial, fun _ _ => trivial⟩⟩⟩
    refine .header header leftover ?_ hline fun req' hreq' hne' => ?_
    · simpa [Call.received] using hrec
    · rw [hparse] at hreq'
      cases hreq'
      exact absurd hop hne'
  rename_i hop
  split
  · rename_i hinvalid
    refine rejectClient_refused (.header header leftover hrec hline fun req' hreq' _ => ?_)
    rw [hparse] at hreq'
    cases hreq'
    simpa using hinvalid
  rename_i hvalid
  have hvalid : isValidFilename req.filename = true := by simpa using hvalid
  have hreading : ∀ call : Call, call.eff.reading →
      call.eff.admitting (filePath cfg.fileDir req.filename) := by
    rintro ⟨e, r⟩ h
    cases e <;> trivial
  split
  · rename_i hget
    simp only [fileExists, getFileSize, perform, Prog.wp_bind, Prog.wp_perform, Prog.wp_pure]
    refine ⟨trivial, fun found _ => ?_⟩
    cases found with
    | none =>
        refine rejectClient_refused (.missing header leftover
          (filePath cfg.fileDir req.filename) req ?_ hline hparse hget ?_)
        · simpa [Call.received] using hrec
        · exact List.mem_append_right _ (List.mem_singleton_self _)
    | some _ =>
        simp only [Option.isSome_some, ↓reduceIte, Prog.wp_bind, Prog.wp_perform, Prog.wp_pure]
        refine ⟨trivial, fun size hsize => ?_⟩
        -- the size is read by a second call, which may no longer find the file
        have hsmall : size.getD 0 < 2 ^ 63 := by
          cases size with
          | none => decide
          | some n => exact hsize
        refine admitRequest_admissible
          { req with pendingBytes := leftover, totalBytes := size.getD 0 } ?_
        intro id arrival calls hquiet hnone
        refine admissible_of_parse req hline ?_ hparse (Or.inl hget) hvalid ?_
          (fun _ => ⟨size, by simp, rfl, hsmall⟩) (fun hput => ?_) hquiet hnone
        · simp [hrec, Call.received]
        · simp only [admission_next, List.mem_append, List.mem_singleton]
          rintro call ((hmem | rfl) | rfl)
          · exact hreading call (hcalls call hmem)
          · rfl
          · rfl
        · rw [hget] at hput
          cases hput
  · rename_i hget
    refine admitRequest_admissible { req with pendingBytes := leftover } ?_
    intro id arrival calls hquiet hnone
    have hput : req.op = .PUT := by
      cases h : req.op <;> simp_all
    exact admissible_of_parse req hline hrec hparse (Or.inr hput) hvalid
      (fun call hmem => hreading call (hcalls call hmem)) (fun h => absurd h hget)
      (fun _ => rfl) hquiet hnone

/-! ## Answers before admission -/

/-- The connection's request was pushed, or nothing was sent, or the parser had a reason
to refuse. -/
def Answered (cfg : Config) (fd : Fd) (log : List Call) : Prop :=
  (∃ req : Request, req.clientFd = fd ∧ Pushed req log) ∨ sends log = [] ∨
    ∃ before, before <+: log ∧ Refused cfg fd before

def answerLife (cfg : Config) (fd : Fd) : Lifecycle where
  allowed _ _ := True
  always := Answered cfg fd
  queued _ log := ∃ req : Request, req.clientFd = fd ∧ Pushed req log
  ended _ log := ∃ req : Request, req.clientFd = fd ∧ Pushed req log

theorem pushed_append {req : Request} {log : List Call} (h : Pushed req log)
    (calls : List Call) : Pushed req (log ++ calls) := List.mem_append_left _ h

/-- After the push the parser's answers are no longer at issue. -/
theorem answered_of_pushed {req : Request} (hfd : req.clientFd = fd) :
    ∀ {p : Server Unit} {log : List Call}, Pushed req log →
      p.wp (answerLife cfg fd).contract (fun _ => Answered cfg fd) log := by
  intro p
  induction p with
  | ret a => exact fun h => Or.inl ⟨req, hfd, h⟩
  | call e next ih =>
      intro log h
      refine ⟨⟨Or.inl ⟨req, hfd, h⟩, ?_⟩, fun r _ => ih r (pushed_append h _)⟩
      cases e with
      | push later => exact ⟨req, hfd, pushed_append h _⟩
      | requeue later => exact ⟨req, hfd, pushed_append h _⟩
      | complete exit => exact ⟨req, hfd, pushed_append h _⟩
      | _ => trivial

theorem Answered.snoc {log : List Call} {e : Eff} (r : Resp e) (h : Answered cfg fd log)
    (hsend : ∀ fd' data, e = .sendAll fd' data → Refused cfg fd log) :
    Answered cfg fd (log ++ [⟨e, r⟩]) := by
  rcases h with ⟨req, hfd, h⟩ | h | ⟨before, hpre, h⟩
  · exact Or.inl ⟨req, hfd, pushed_append h _⟩
  · by_cases hs : ∃ fd' data, e = .sendAll fd' data
    · obtain ⟨fd', data, rfl⟩ := hs
      exact Or.inr (Or.inr ⟨log, List.prefix_append _ _, hsend fd' data rfl⟩)
    · refine Or.inr (Or.inl ?_)
      rw [sends_append, h]
      cases e with
      | sendAll fd' data => exact absurd ⟨fd', data, rfl⟩ hs
      | _ => rfl
  · exact Or.inr (Or.inr ⟨before, hpre.trans (List.prefix_append _ _), h⟩)

theorem parse_answered {p : Server Unit} {log : List Call}
    (hadm : p.wp (admission cfg fd) (fun _ _ => True) log)
    (hdisc : p.wp (parserContract fd) (fun _ _ => True) false) (h : Answered cfg fd log) :
    p.wp (answerLife cfg fd).contract (fun _ => Answered cfg fd) log := by
  induction p generalizing log with
  | ret a => exact h
  | call e next ih =>
      obtain ⟨hguar, hadm⟩ := hadm
      have hsend : ∀ fd' data, e = .sendAll fd' data → Refused cfg fd log := by
        rintro fd' data rfl
        exact hguar
      refine ⟨⟨h, ?_⟩, fun r hr => ?_⟩
      · cases e with
        | push req => exact ⟨req, hguar.1, List.mem_append_right _ (List.mem_singleton_self _)⟩
        | requeue later => exact hdisc.1.2.elim
        | complete exit => exact hdisc.1.2.elim
        | _ => trivial
      · by_cases hpush : ∃ req, e = .push req
        · obtain ⟨req, rfl⟩ := hpush
          cases r with
          | false => exact ih false (hadm false hr.1) (hdisc.2 false trivial) (h.snoc _ hsend)
          | true =>
              exact answered_of_pushed hguar.1
                (List.mem_append_right _ (List.mem_singleton_self _))
        · have hne : ∀ req, e ≠ .push req := fun req he => hpush ⟨req, he⟩
          have hd := hdisc.2 r trivial
          rw [parserContract_next hne] at hd
          exact ih r (hadm r hr.1) hd (h.snoc _ hsend)

theorem answerLife_sound : (answerLife cfg fd).Sound cfg fd where
  parse := parse_answered parserClient_admits parserClient_disciplined (Or.inr (Or.inl rfl))
  round _ _ _ h := by
    obtain ⟨pushed, hfd, h⟩ := h
    exact answered_of_pushed hfd h
  close _ _ h := by
    obtain ⟨pushed, hfd, h⟩ := h
    exact ⟨pushed, hfd, pushed_append h _⟩

end Parser

/-- In every run a connection on which something was sent has an admitted request, or
its parser had a reason to refuse. -/
theorem Sys.run_answered {P W : ℕ} {cfg : Config} {dir : Directory} {t : Sys P W}
    {A : Sys P W → Label P W → Prop} (hrun : RunWhere cfg A (init P W dir) t) (fd : Fd) :
    Answered cfg fd (t.log fd) :=
  (Lifecycle.run_holds answerLife_sound (hrun.mono fun _ _ _ _ _ => trivial)).always

end LinkScheduling
