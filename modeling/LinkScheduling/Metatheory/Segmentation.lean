import LinkScheduling.Metatheory.Decoding

/-!
# The header line and the network's cuts

`read_header_line` looks at the length of the line only between two receives. So a line of more
than 8192 bytes is returned or refused as the network happens to cut the stream: it is returned
when the receive that brings its newline starts before byte 8192.
-/

namespace LinkScheduling

open Framework

/-- What of the stream is still to arrive at a reader with a deadline, and what was received. -/
structure Arrival where
  deadline : Option ℕ
  waiting : List Bytes
  taken : Bytes

/-- Every receive delivers the next piece, and nothing after the last one; all of them come
before the deadline, which is set when the reader first looks at the clock. -/
def arrives (timeoutMs : ℕ) : Contract Eff Resp Arrival where
  guarantee _ _ := True
  rely a e r := match e, r with
    | .now, now => ∀ deadline, a.deadline = some deadline → now < deadline
    | .recv _ _ _, data => data = a.waiting.head? ∨ a.waiting = [] ∧ data = some []
    | _, _ => True
  next a e r := match e, r with
    | .now, now => { a with deadline := some (a.deadline.getD (now + timeoutMs * 1000000)) }
    | .recv _ _ _, data =>
        { a with waiting := a.waiting.tail, taken := a.taken ++ data.getD [] }
    | _, _ => a

theorem arrives_now (timeoutMs now : ℕ) (a : Arrival) : (arrives timeoutMs).next a .now now =
    { a with deadline := some (a.deadline.getD (now + timeoutMs * 1000000)) } := rfl

/-- The reader returns `res` after the calls `log`, the network having cut the stream into
`pieces`. -/
def ReadsHeader (fd : Fd) (timeoutMs : ℕ) (pieces : List Bytes) (res : Bytes × Bytes)
    (log : List Call) : Prop :=
  Prog.Steps (readHeaderLine fd timeoutMs) log (.ret res) ∧
    Prog.Steps.Keeps (arrives timeoutMs) ⟨none, pieces, []⟩ log

/-- The line a reader with a limit of 8192 bytes returns. -/
def headerPrefix (stream : Bytes) : Bytes :=
  if newline ∈ stream.take 8192 then firstLine newline stream else []

/-- After `line`, no piece that starts within the limit brings the first newline beyond it. -/
def CutWithin (line : Bytes) (pieces : List Bytes) : Prop :=
  ∀ before piece after, pieces = before ++ piece :: after → newline ∉ before.flatten →
    newline ∈ piece → (line ++ before.flatten).length < 8192 →
    newline ∈ (line ++ before.flatten ++ piece).take 8192

/-- The loop of `read_header_line` on the pieces of the stream. -/
def readPieces : Bytes → List Bytes → Bytes × Bytes
  | _, [] => ([], [])
  | line, piece :: pieces =>
      if 8192 ≤ line.length then ([], [])
      else match scanBuffer line piece with
        | (line, some leftover) => (line, leftover)
        | (line, none) => readPieces line pieces

section Pieces

variable {line piece : Bytes} {pieces : List Bytes}

theorem firstLine_text {text : Bytes} (hno : newline ∉ text) (rest : Bytes) :
    firstLine newline (text ++ newline :: rest) = text ++ [newline] := by
  induction text with
  | nil => exact if_pos rfl
  | cons c text ih =>
      rw [List.mem_cons, not_or] at hno
      rw [List.cons_append, firstLine, if_neg fun hc => hno.1 hc.symm, ih hno.2]
      rfl

theorem newline_mem_take {text : Bytes} (hno : newline ∉ text) (rest : Bytes) (n : ℕ) :
    newline ∈ (text ++ newline :: rest).take n ↔ text.length < n := by
  rw [List.take_append, List.mem_append]
  constructor
  · rintro (hmem | hmem)
    · exact absurd (List.mem_of_mem_take hmem) hno
    · by_contra hle
      rw [Nat.sub_eq_zero_of_le (Nat.not_lt.mp hle), List.take_zero] at hmem
      cases hmem
  · intro hlt
    obtain ⟨k, hk⟩ := Nat.exists_eq_add_of_lt hlt
    have hsub : n - text.length = k + 1 := by omega
    rw [hsub]
    exact Or.inr List.mem_cons_self

/-- A piece without a newline becomes part of the line. -/
theorem cutWithin_more (hno : newline ∉ piece) :
    CutWithin line (piece :: pieces) ↔ CutWithin (line ++ piece) pieces := by
  constructor
  · intro h before next after heq hbefore hnext hlt
    have hcut := h (piece :: before) next after (by rw [heq]; rfl)
      (by simpa [hno] using hbefore) hnext (by simpa using hlt)
    simpa using hcut
  · intro h before next after heq hbefore hnext hlt
    cases before with
    | nil =>
        cases heq
        exact absurd hnext hno
    | cons first before =>
        obtain ⟨rfl, hrest⟩ := List.cons.inj heq
        rw [List.flatten_cons, List.mem_append, not_or] at hbefore
        have hcut := h before next after hrest hbefore.2 hnext (by simpa using hlt)
        simpa using hcut

/-- A piece with a newline decides. -/
theorem cutWithin_last {text leftover : Bytes} (hline : newline ∉ line) (hno : newline ∉ text)
    (hlt : line.length < 8192) :
    CutWithin line ((text ++ newline :: leftover) :: pieces) ↔
      (line ++ text).length < 8192 := by
  have hall : newline ∉ line ++ text := by simp [hline, hno]
  have htake : ∀ rest, newline ∈ (line ++ (text ++ newline :: rest)).take 8192 ↔
      (line ++ text).length < 8192 := by
    intro rest
    rw [← List.append_assoc]
    exact newline_mem_take hall rest 8192
  constructor
  · intro h
    have hcut := h [] _ pieces rfl (by simp) (by simp) (by simpa using hlt)
    simpa only [List.flatten_nil, List.append_nil, htake] using hcut
  · intro h before next after heq hbefore hnext hshort
    cases before with
    | nil =>
        cases heq
        simpa only [List.flatten_nil, List.append_nil, htake] using h
    | cons first before =>
        obtain ⟨rfl, -⟩ := List.cons.inj heq
        simp at hbefore

theorem readPieces_more (hline : line.length < 8192) (hno : newline ∉ piece) :
    readPieces line (piece :: pieces) = readPieces (line ++ piece) pieces := by
  rw [readPieces, if_neg (Nat.not_le.mpr hline), scanBuffer_of_notMem line hno]

theorem readPieces_last {text leftover : Bytes} (hline : line.length < 8192)
    (hno : newline ∉ text) : readPieces line ((text ++ newline :: leftover) :: pieces) =
      (line ++ text ++ [newline], leftover) := by
  rw [readPieces, if_neg (Nat.not_le.mpr hline), scanBuffer_newline line leftover hno]

theorem readPieces_long (hline : 8192 ≤ line.length) : readPieces line pieces = ([], []) := by
  cases pieces with
  | nil => rfl
  | cons piece pieces => exact if_pos hline

theorem readPieces_iff (hline : newline ∉ line) :
    (readPieces line pieces).1 = headerPrefix (line ++ pieces.flatten) ↔
      CutWithin line pieces := by
  induction pieces generalizing line with
  | nil =>
      have hnone : newline ∉ (line ++ ([] : List Bytes).flatten).take 8192 := fun hmem =>
        hline (by simpa using List.mem_of_mem_take hmem)
      rw [headerPrefix, if_neg hnone]
      exact iff_of_true rfl fun before piece after heq => by simp at heq
  | cons piece pieces ih =>
      rcases Nat.lt_or_ge line.length 8192 with hshort | hlong
      swap
      · have hnone : newline ∉ (line ++ (piece :: pieces).flatten).take 8192 := by
          rw [List.take_append_of_le_length hlong]
          exact fun hmem => hline (List.mem_of_mem_take hmem)
        rw [readPieces_long hlong, headerPrefix, if_neg hnone]
        refine iff_of_true rfl fun before next after _ _ _ hlt => ?_
        rw [List.length_append] at hlt
        omega
      cases hscan : scanBuffer line piece with
      | mk line' rest =>
          cases rest with
          | none =>
              obtain ⟨hno, rfl⟩ := scanBuffer_none hscan
              have hall : newline ∉ line ++ piece := by simp [hline, hno]
              rw [cutWithin_more hno, ← ih hall, readPieces_more hshort hno, List.flatten_cons,
                List.append_assoc]
          | some leftover =>
              obtain ⟨text, hno, rfl, rfl⟩ := scanBuffer_some hscan
              have hall : newline ∉ line ++ text := by simp [hline, hno]
              have hstream : line ++ ((text ++ newline :: leftover) :: pieces).flatten =
                  (line ++ text) ++ newline :: (leftover ++ pieces.flatten) := by simp
              rw [cutWithin_last hline hno hshort, readPieces_last hshort hno, hstream,
                headerPrefix, firstLine_text hall]
              by_cases hlt : (line ++ text).length < 8192
              · rw [if_pos ((newline_mem_take hall _ _).mpr hlt)]
                exact iff_of_true rfl hlt
              · rw [if_neg fun hmem => hlt ((newline_mem_take hall _ _).mp hmem)]
                exact iff_of_false (by simp) hlt

end Pieces

/-! ## The reader -/

/-- What the reader returns, and that it keeps all bytes it received. -/
def Reads (line : Bytes) (pieces : List Bytes) (res : Bytes × Bytes) (a : Arrival) : Prop :=
  res = readPieces line pieces ∧ (res.1 ≠ [] → res.1 ++ res.2 = a.taken)

theorem reads_nothing {line : Bytes} {pieces : List Bytes} {a : Arrival}
    (h : readPieces line pieces = ([], [])) : Reads line pieces ([], []) a :=
  ⟨h.symm, fun hne => absurd rfl hne⟩

theorem readHeaderLoop_pieces {fd : Fd} {timeoutMs deadline : ℕ} :
    ∀ (fuel : ℕ) (line : Bytes) (pieces : List Bytes), 8192 ≤ fuel + line.length →
      (∀ piece ∈ pieces, piece ≠ []) →
      (readHeaderLoop fd deadline fuel line).wp (arrives timeoutMs) (Reads line pieces)
        ⟨some deadline, pieces, line⟩
  | 0, line, pieces, hfuel, _ => by
      exact reads_nothing (readPieces_long (by omega))
  | fuel + 1, line, pieces, hfuel, hpieces => by
      unfold readHeaderLoop
      split
      · rename_i hlong
        exact reads_nothing (readPieces_long hlong)
      rename_i hlong
      simp only [perform, Prog.wp_bind, Prog.wp_perform]
      refine ⟨trivial, fun now hnow => ?_⟩
      rw [if_neg (Nat.not_le.mpr (hnow deadline rfl))]
      simp only [Prog.wp_bind, Prog.wp_perform]
      refine ⟨trivial, fun data hdata => ?_⟩
      cases pieces with
      | nil =>
          -- the stream has ended
          rcases hdata with hdata | ⟨-, hdata⟩
          · subst hdata
            exact reads_nothing rfl
          · subst hdata
            exact reads_nothing rfl
      | cons piece pieces =>
          rcases hdata with hdata | ⟨hnone, -⟩
          swap
          · cases hnone
          obtain ⟨hne, hrest⟩ := List.forall_mem_cons.mp hpieces
          obtain ⟨b, buffer, rfl⟩ := List.exists_cons_of_ne_nil hne
          have hdata : data = some (b :: buffer) := hdata
          subst hdata
          have hread : readPieces line ((b :: buffer) :: pieces) = _ :=
            if_neg (Nat.not_le.mpr (Nat.not_le.mp hlong))
          simp only
          cases hscan : scanBuffer line (b :: buffer) with
          | mk line' rest =>
              cases rest with
              | none =>
                  obtain ⟨-, rfl⟩ := scanBuffer_none hscan
                  rw [hscan] at hread
                  refine Prog.wp_mono (readHeaderLoop_pieces fuel (line ++ b :: buffer) pieces
                    (by rw [List.length_append, List.length_cons]; omega) hrest) ?_
                  rintro res a ⟨rfl, htaken⟩
                  exact ⟨hread.symm, htaken⟩
              | some leftover =>
                  obtain ⟨text, -, hbuffer, rfl⟩ := scanBuffer_some hscan
                  rw [hscan] at hread
                  refine ⟨hread.symm, fun _ => ?_⟩
                  change line ++ text ++ [newline] ++ leftover = line ++ (b :: buffer)
                  rw [hbuffer]
                  simp

theorem arrives_taken (timeoutMs : ℕ) (log : List Call) (a : Arrival) :
    (Prog.Steps.after (arrives timeoutMs) a log).taken = a.taken ++ received log := by
  induction log generalizing a with
  | nil => exact (List.append_nil _).symm
  | cons call log ih =>
      rw [received_cons, ← List.append_assoc]
      refine (ih _).trans (congrArg (· ++ received log) ?_)
      rcases call with ⟨e, r⟩
      cases e with
      | recv fd size timeout => cases r <;> rfl
      | _ => exact (List.append_nil _).symm

section Header

variable {fd : Fd} {timeoutMs : ℕ} {pieces : List Bytes}

theorem ReadsHeader.eq_readPieces {res : Bytes × Bytes} {log : List Call}
    (h : ReadsHeader fd timeoutMs pieces res log) (hpieces : ∀ piece ∈ pieces, piece ≠ []) :
    res = readPieces [] pieces ∧ (res.1 ≠ [] → res.1 ++ res.2 = received log) := by
  have hread : (readHeaderLine fd timeoutMs).wp (arrives timeoutMs) (Reads [] pieces)
      ⟨none, pieces, []⟩ := by
    simp only [readHeaderLine, perform, Prog.wp_bind, Prog.wp_perform]
    refine ⟨trivial, fun start _ => ?_⟩
    rw [arrives_now, Option.getD_none]
    exact readHeaderLoop_pieces 8192 [] pieces (Nat.le_add_right _ _) hpieces
  obtain ⟨hres, hkept⟩ := h.1.wp_keeps hread h.2
  rw [arrives_taken] at hkept
  exact ⟨hres, hkept⟩

theorem readsHeader_exists (fd : Fd) (htimeout : 0 < timeoutMs) (pieces : List Bytes) :
    ∃ res log, ReadsHeader fd timeoutMs pieces res log := by
  have hok : ∀ (a : Arrival) e, (∀ d, a.deadline = some d → 0 < d) →
      ∃ r, (arrives timeoutMs).rely a e r ∧
        ∀ d, ((arrives timeoutMs).next a e r).deadline = some d → 0 < d := by
    intro a e ha
    cases e with
    | now =>
        have hset : 0 < a.deadline.getD (0 + timeoutMs * 1000000) := by
          cases hdeadline : a.deadline with
          | none =>
              rw [Option.getD_none]
              omega
          | some d => exact ha d hdeadline
        refine ⟨(0 : ℕ), ha, fun d hd => ?_⟩
        rw [arrives_now] at hd
        exact Option.some.inj hd ▸ hset
    | recv fd size timeout => exact ⟨a.waiting.head?, Or.inl rfl, ha⟩
    | _ => exact ⟨(Sys.init 1 1 fun _ => none).answer {} _, trivial, ha⟩
  obtain ⟨log, res, hsteps, hlog⟩ := Prog.Steps.exists_keeps _ hok (readHeaderLine fd timeoutMs)
    (show ∀ d, (⟨none, pieces, []⟩ : Arrival).deadline = some d → 0 < d by simp)
  exact ⟨res, log, hsteps, hlog⟩

/-- **When the header line depends on the stream alone.** However the network cuts the stream,
the reader returns; the line is that of a reader with a limit of 8192 bytes, and with the
leftover all that was received, exactly when no piece that starts within the limit brings the
first newline beyond it. -/
theorem header_line_iff (fd : Fd) (pieces : List Bytes) (hpieces : ∀ piece ∈ pieces, piece ≠ []) :
    (0 < timeoutMs → ∃ res log, ReadsHeader fd timeoutMs pieces res log) ∧
    ∀ line leftover log, ReadsHeader fd timeoutMs pieces (line, leftover) log →
      (line = headerPrefix pieces.flatten ∧ (line ≠ [] → line ++ leftover = received log) ↔
        CutWithin [] pieces) := by
  refine ⟨fun htimeout => readsHeader_exists fd htimeout pieces, fun line leftover log h => ?_⟩
  obtain ⟨hres, hkept⟩ := h.eq_readPieces hpieces
  have hiff : (readPieces [] pieces).1 = headerPrefix ([] ++ pieces.flatten) ↔
      CutWithin [] pieces := readPieces_iff (by simp)
  rw [← hres, List.nil_append] at hiff
  rw [← hiff]
  exact ⟨fun h => h.1, fun h => ⟨h, hkept⟩⟩

/-- A short line in two pieces. -/
theorem header_line_iff_short : ∃ line leftover log,
    ReadsHeader 7 1000 [ascii "GET", ascii " a\nx"] (line, leftover) log ∧
      line = headerPrefix (ascii "GET a\nx") ∧ line ++ leftover = received log := by
  obtain ⟨hexists, hiff⟩ := header_line_iff 7 [ascii "GET", ascii " a\nx"] (by decide)
  obtain ⟨⟨line, leftover⟩, log, hread⟩ := hexists (show 0 < 1000 by decide)
  have hcut : CutWithin [] [ascii "GET", ascii " a\nx"] := by
    intro before piece after heq _ hmem _
    have hall : ascii "GET" ++ ascii " a\nx" = before.flatten ++ piece ++ after.flatten := by
      have hflat := congrArg List.flatten heq
      simpa using hflat
    have hlen := congrArg List.length hall
    rw [List.length_append, @List.length_append _ (before.flatten ++ piece)] at hlen
    have hle : (([] : Bytes) ++ before.flatten ++ piece).length ≤ 8192 :=
      (Nat.le_add_right _ _).trans (hlen.ge.trans (by decide))
    rw [List.take_of_length_le hle]
    exact List.mem_append_right _ hmem
  obtain ⟨hline, hkept⟩ := (hiff line leftover log hread).mpr hcut
  refine ⟨line, leftover, log, hread, hline, hkept ?_⟩
  rw [hline]
  decide

/-- A line of 8193 bytes, cut in two ways, is refused and returned. -/
theorem header_line_depends : ∃ (pieces pieces' : List Bytes) (res res' : Bytes × Bytes)
    (log log' : List Call), pieces.flatten = pieces'.flatten ∧
      (∀ piece ∈ pieces, piece ≠ [] ∧ piece.length ≤ 4096) ∧
      (∀ piece ∈ pieces', piece ≠ [] ∧ piece.length ≤ 4096) ∧
      ReadsHeader 7 1000 pieces res log ∧ ReadsHeader 7 1000 pieces' res' log' ∧
      res.1 = [] ∧ res'.1 = pieces'.flatten ∧ res'.1.length = 8193 := by
  obtain ⟨text, hlen, hno, hjoin⟩ : ∃ text : ℕ → Bytes, (∀ n, (text n).length = n) ∧
      (∀ n, newline ∉ text n) ∧ ∀ m n, text m ++ text n = text (m + n) :=
    ⟨fun n => List.replicate n 97, fun n => List.length_replicate,
      fun n hmem => absurd (List.eq_of_mem_replicate hmem) (by decide),
      fun m n => List.replicate_append_replicate⟩
  have hne : ∀ n, 0 < n → text n ≠ [] := fun n hn => List.ne_nil_of_length_pos (by rwa [hlen])
  obtain ⟨res, log, hread⟩ := readsHeader_exists 7 (show 0 < 1000 by decide)
    [text 4096, text 4096, [newline]]
  obtain ⟨res', log', hread'⟩ := readsHeader_exists 7 (show 0 < 1000 by decide)
    [text 4096, text 4095, text 1 ++ [newline]]
  have hpieces : ∀ piece ∈ [text 4096, text 4096, [newline]], piece ≠ [] ∧ piece.length ≤ 4096 := by
    simp [hlen, hne]
  have hpieces' : ∀ piece ∈ [text 4096, text 4095, text 1 ++ [newline]],
      piece ≠ [] ∧ piece.length ≤ 4096 := by
    simp [hlen, hne]
  obtain ⟨hres, -⟩ := hread.eq_readPieces fun piece hmem => (hpieces piece hmem).1
  obtain ⟨hres', -⟩ := hread'.eq_readPieces fun piece hmem => (hpieces' piece hmem).1
  have hstream : [text 4096, text 4095, text 1 ++ [newline]].flatten =
      text 8192 ++ [newline] := by
    simp only [List.flatten_cons, List.flatten_nil, List.append_nil, ← List.append_assoc, hjoin]
  have hmore : ∀ n m k piece, n < 8192 → n + m = k →
      readPieces (text n) [text m, piece] = readPieces (text k) [piece] := by
    rintro n m k piece hn rfl
    rw [readPieces_more (by rwa [hlen]) (hno m), hjoin]
  have hfirst : ∀ n pieces, readPieces [] (text n :: pieces) = readPieces (text n) pieces :=
    fun n pieces => readPieces_more (by decide) (hno n)
  have hline' : res'.1 = text 8192 ++ [newline] := by
    rw [hres', hfirst, hmore 4096 4095 8191 _ (by decide) rfl,
      readPieces_last (by rw [hlen]; decide) (hno 1), hjoin]
  refine ⟨_, _, res, res', log, log', ?_, hpieces, hpieces', hread, hread', ?_, ?_, ?_⟩
  · rw [hstream]
    simp only [List.flatten_cons, List.flatten_nil, List.append_nil, ← List.append_assoc, hjoin]
  · rw [hres, hfirst, hmore 4096 4096 8192 _ (by decide) rfl, readPieces_long (by rw [hlen])]
  · rw [hline', hstream]
  · rw [hline', List.length_append, hlen]
    rfl

end Header

end LinkScheduling
