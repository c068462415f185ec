import LinkScheduling.Metatheory.Admission
import LinkScheduling.Metatheory.Header

/-!
# Decoding the header of an upload

The client writes the name it was given into the header as it is; the server takes
everything up to the first newline and splits it at whitespace. What the server admits
from such a header is the upload the client asked for, unless the name itself holds
whitespace and what the server makes of it still looks like an upload.
-/

namespace LinkScheduling

open Framework

/-! ## What a parser may admit from a stream -/

/-- A parser pass that receives a part, from the start, of `stream` may get as far as
pushing `req`. -/
def Admits (cfg : Config) (fd : Fd) (stream : Bytes) (req : Request) : Prop :=
  ∃ log next, (parserClient cfg fd).Steps log (.call (.push req) next) ∧
    (∀ call ∈ log, Call.Possible call) ∧ received log <+: stream

/-- The longest line `read_header_line` can return: one byte short of its length test,
then a full buffer. -/
def longestHeader : ℕ := 8191 + 4096

/-- Before a push no more than this was received. -/
def shortHeader : Contract Eff Resp ℕ where
  guarantee n e := match e with
    | .push _ => n ≤ longestHeader
    | _ => True
  rely _ e r := Call.Possible ⟨e, r⟩
  next n e r := n + (Call.received ⟨e, r⟩).length

def Eff.deaf : Eff → Prop
  | .recv _ _ _ => False
  | _ => True

section Parser

variable {cfg : Config} {fd : Fd}

theorem readHeaderLoop_short (deadline : ℕ) :
    ∀ (fuel : ℕ) (line : Bytes), line.length ≤ longestHeader →
      (readHeaderLoop fd deadline fuel line).wp shortHeader (fun _ n => n ≤ longestHeader)
        line.length
  | 0, line, hline => hline
  | fuel + 1, line, hline => by
      unfold readHeaderLoop
      split
      · exact hline
      rename_i hlt
      simp only [perform, Prog.wp_bind, Prog.wp_perform]
      refine ⟨trivial, fun now _ => ?_⟩
      split
      · exact hline
      simp only [Prog.wp_bind, Prog.wp_perform]
      refine ⟨trivial, fun answer hanswer => ?_⟩
      rcases answer with _ | _ | ⟨b, buffer⟩
      · exact hline
      · exact hline
      · have hbuffer : (b :: buffer).length ≤ 4096 := hanswer
        have hle : line.length + (b :: buffer).length ≤ longestHeader := by
          unfold longestHeader
          omega
        simp only
        split
        · exact hle
        · rename_i line' hscan
          obtain ⟨-, rfl⟩ := scanBuffer_none hscan
          have := readHeaderLoop_short deadline fuel (line ++ b :: buffer)
            (by simpa using hle)
          simpa [shortHeader, Call.received] using this

theorem admitRequest_deaf (req : Request) :
    (admitRequest fd req).Only Eff.deaf (fun _ => True) := by
  simp only [admitRequest, perform, Prog.only_bind, Prog.only_perform]
  refine ⟨trivial, fun _ => ⟨trivial, fun _ => ⟨trivial, ?_⟩⟩⟩
  rintro (_ | _)
  · exact ⟨trivial, fun _ => ⟨trivial, fun _ => trivial⟩⟩
  · trivial

theorem parserClient_short : (parserClient cfg fd).wp shortHeader (fun _ _ => True) 0 := by
  unfold parserClient
  rw [Prog.wp_bind]
  have hread : (readHeaderLine fd 1000).wp shortHeader (fun _ n => n ≤ longestHeader) 0 := by
    simp only [readHeaderLine, perform, Prog.wp_bind, Prog.wp_perform]
    exact ⟨trivial, fun start _ => readHeaderLoop_short _ 8192 [] (Nat.zero_le _)⟩
  refine Prog.wp_mono hread ?_
  rintro ⟨header, leftover⟩ n hn
  -- nothing more is received after the header
  refine Prog.wp_mono (Prog.Only.wp (P := Eff.deaf) (Q := fun _ => True) ?_ ?_ ?_)
    fun _ _ _ => trivial
  · have hreject : ∀ reason, (rejectClient fd reason).Only Eff.deaf (fun _ => True) :=
      fun _ => ⟨trivial, fun _ => ⟨trivial, fun _ => trivial⟩⟩
    simp only
    split
    · exact hreject _
    split
    · exact hreject _
    split
    · exact ⟨trivial, fun _ => ⟨trivial, fun _ => ⟨trivial, fun _ => trivial⟩⟩⟩
    split
    · exact hreject _
    split
    · simp only [fileExists, getFileSize, perform, Prog.only_bind, Prog.only_perform,
        Prog.only_pure]
      refine ⟨trivial, fun found => ?_⟩
      split
      · exact ⟨trivial, fun size => admitRequest_deaf _⟩
      · exact hreject _
    · exact admitRequest_deaf _
  · intro e _
    cases e <;> first | exact hn | trivial
  · intro e r he
    cases e <;> first | rfl | exact he.elim

theorem foldl_shortHeader (log : List Call) (n : ℕ) :
    log.foldl (fun n call => shortHeader.next n call.eff call.res) n =
      n + (received log).length := by
  induction log generalizing n with
  | nil => rfl
  | cons call log ih =>
      rw [List.foldl_cons, ih, received_cons, List.length_append, ← Nat.add_assoc]
      rfl

theorem foldl_admission (log before : List Call) :
    log.foldl (fun g call => (admission cfg fd).next g call.eff call.res) before =
      before ++ log := by
  induction log generalizing before with
  | nil => simp
  | cons call log ih =>
      rw [List.foldl_cons, ih, admission_next, List.append_assoc]
      rfl

/-- What is admitted is parsed from the first line of the stream, which is short enough
to be read. -/
theorem Admits.first_line {stream : Bytes} {req : Request} (h : Admits cfg fd stream req) :
    ∃ line rest base, stream = line ++ rest ∧ HeaderLine line ∧ line.length ≤ longestHeader ∧
      isValidFilename req.filename = true ∧ parseRequestHeader line fd = .ok base ∧
      base.op = req.op ∧ base.filename = req.filename ∧
      (req.op = .PUT → base.totalBytes = req.totalBytes) := by
  obtain ⟨log, next, hsteps, hpossible, rest, hstream⟩ := h
  have hshort := (hsteps.wp parserClient_short fun _ call hmem => hpossible call hmem).1
  have hadm := (hsteps.wp parserClient_admits fun _ call hmem => hpossible call hmem).1
  rw [foldl_shortHeader, Nat.zero_add] at hshort
  rw [foldl_admission, List.nil_append] at hadm
  obtain ⟨rfl, hadm⟩ := hadm
  obtain ⟨line, base, hline, hrec, hparse, hop, hname, hsize⟩ := hadm.header
  refine ⟨line, req.pendingBytes ++ rest, base, ?_, hline, ?_, hadm.valid, hparse, hop, hname,
    hsize⟩
  · rw [← hstream, hrec, List.append_assoc]
  · have hle : (received log).length ≤ longestHeader := hshort
    rw [hrec, List.length_append] at hle
    omega

/-! ## Delivering a line -/

/-- `p` gets to `q` while exactly `data` is received. -/
def Receives {α : Type} (p : Server α) (data : Bytes) (q : Server α) : Prop :=
  ∃ log, p.Steps log q ∧ (∀ call ∈ log, Call.Possible call) ∧ received log = data

theorem Receives.trans {α : Type} {p q r : Server α} {data data' : Bytes}
    (h : Receives p data q) (h' : Receives q data' r) : Receives p (data ++ data') r := by
  obtain ⟨log, hsteps, hpossible, rfl⟩ := h
  obtain ⟨log', hsteps', hpossible', rfl⟩ := h'
  refine ⟨log ++ log', hsteps.trans hsteps', ?_, received_append _ _⟩
  intro call hmem
  rcases List.mem_append.mp hmem with hmem | hmem
  · exact hpossible call hmem
  · exact hpossible' call hmem

theorem scanBuffer_of_notMem : ∀ {buffer : Bytes} (line : Bytes), newline ∉ buffer →
    scanBuffer line buffer = (line ++ buffer, none)
  | [], line, _ => by simp [scanBuffer]
  | c :: buffer, line, h => by
      rw [List.mem_cons, not_or] at h
      rw [scanBuffer, if_neg fun hc => h.1 hc.symm, scanBuffer_of_notMem _ h.2]
      simp

theorem scanBuffer_newline : ∀ {text : Bytes} (line rest : Bytes), newline ∉ text →
    scanBuffer line (text ++ newline :: rest) = (line ++ text ++ [newline], some rest)
  | [], line, rest, _ => by simp [scanBuffer]
  | c :: text, line, rest, h => by
      rw [List.mem_cons, not_or] at h
      rw [List.cons_append, scanBuffer, if_neg fun hc => h.1 hc.symm,
        scanBuffer_newline _ _ h.2]
      simp

/-- One pass of the receiving loop, with the time at `0`. -/
theorem readHeaderLoop_pass (fd : Fd) {deadline : ℕ} (fuel : ℕ) {line buffer : Bytes}
    (hdeadline : 0 < deadline) (hline : line.length < 8192) (hne : buffer ≠ [])
    (hlen : buffer.length ≤ 4096) :
    Receives (readHeaderLoop fd deadline (fuel + 1) line) buffer
      (match scanBuffer line buffer with
        | (line, some leftover) => pure (line, leftover)
        | (line, none) => readHeaderLoop fd deadline fuel line) := by
  obtain ⟨b, rest, rfl⟩ := List.exists_cons_of_ne_nil hne
  refine ⟨[⟨.now, 0⟩, ⟨.recv fd 4096 (if deadline / 1000000 > 0 then deadline / 1000000 else 1),
    some (b :: rest)⟩], ?_, ?_, by simp [Call.received]⟩
  · rw [readHeaderLoop, if_neg (by omega)]
    refine .call (show Resp .now from 0) ?_
    show Prog.Steps (if deadline ≤ 0 then _ else _) _ _
    rw [if_neg (by omega)]
    exact .call (show Resp (.recv fd 4096 _) from some (b :: rest)) (.refl _)
  · rintro call (_ | ⟨_, _ | ⟨_, h⟩⟩)
    · trivial
    · exact hlen
    · cases h

/-- A piece of the line without its newline. -/
theorem readHeaderLoop_more (fd : Fd) {deadline : ℕ} (fuel : ℕ) {line piece : Bytes}
    (hdeadline : 0 < deadline) (hline : line.length < 8192) (hne : piece ≠ [])
    (hlen : piece.length ≤ 4096) (hno : newline ∉ piece) :
    Receives (readHeaderLoop fd deadline (fuel + 1) line) piece
      (readHeaderLoop fd deadline fuel (line ++ piece)) := by
  have hpass := readHeaderLoop_pass fd fuel hdeadline hline hne hlen
  rwa [scanBuffer_of_notMem line hno] at hpass

/-- The last piece of the line. -/
theorem readHeaderLoop_last (fd : Fd) {deadline : ℕ} (fuel : ℕ) {line piece : Bytes}
    (hdeadline : 0 < deadline) (hline : line.length < 8192) (hlen : piece.length < 4096)
    (hno : newline ∉ piece) :
    Receives (readHeaderLoop fd deadline (fuel + 1) line) (piece ++ [newline])
      (pure (line ++ piece ++ [newline], [])) := by
  have hpass := readHeaderLoop_pass fd fuel hdeadline hline
    (List.append_ne_nil_of_right_ne_nil piece (by simp : [newline] ≠ []))
    (by rw [List.length_append, List.length_singleton]; omega)
  rwa [scanBuffer_newline line [] hno] at hpass

/-- A line that is not too long can be delivered, in up to three pieces. -/
theorem readHeaderLoop_receives {deadline : ℕ} (fuel : ℕ) {text : Bytes}
    (hdeadline : 0 < deadline) (hno : newline ∉ text) (hshort : text.length < longestHeader) :
    Receives (readHeaderLoop fd deadline (fuel + 3) []) (text ++ [newline])
      (pure (text ++ [newline], [])) := by
  unfold longestHeader at hshort
  rcases Nat.lt_or_ge text.length 4096 with h1 | h1
  · exact readHeaderLoop_last fd (fuel + 2) hdeadline (by simp) h1 hno
  -- one full buffer, which leaves room for one byte less than another
  have hsplit := List.take_append_drop 4096 text
  have hlen1 : (text.take 4096).length = 4096 := by simp [h1]
  have hno1 : newline ∉ text.take 4096 := fun hmem => hno (List.mem_of_mem_take hmem)
  have hno2 : newline ∉ text.drop 4096 := fun hmem => hno (List.mem_of_mem_drop hmem)
  have hfirst : Receives (readHeaderLoop fd deadline (fuel + 3) []) (text.take 4096)
      (readHeaderLoop fd deadline (fuel + 2) (text.take 4096)) :=
    readHeaderLoop_more fd (fuel + 2) hdeadline (by simp)
      (List.ne_nil_of_length_pos (by omega)) (by omega) hno1
  have hlen2 : (text.drop 4096).length = text.length - 4096 := List.length_drop
  rcases Nat.lt_or_ge (text.drop 4096).length 4096 with h2 | h2
  · have hrest := hfirst.trans (readHeaderLoop_last fd (fuel + 1) hdeadline (by omega) h2 hno2)
    rwa [← List.append_assoc, hsplit] at hrest
  · have hsplit' := List.take_append_drop 4095 (text.drop 4096)
    have hlen3 : ((text.drop 4096).take 4095).length = 4095 := by
      rw [List.length_take]
      omega
    have hlen4 : ((text.drop 4096).drop 4095).length < 4096 := by
      rw [List.length_drop]
      omega
    have hsecond := readHeaderLoop_more fd (fuel + 1) hdeadline
      (show (text.take 4096).length < 8192 by omega)
      (List.ne_nil_of_length_pos (show 0 < ((text.drop 4096).take 4095).length by omega))
      (by omega) fun hmem => hno2 (List.mem_of_mem_take hmem)
    have hthird := readHeaderLoop_last fd fuel hdeadline
      (show (text.take 4096 ++ (text.drop 4096).take 4095).length < 8192 by
        rw [List.length_append]
        omega)
      hlen4 fun hmem => hno2 (List.mem_of_mem_drop hmem)
    have hall := (hfirst.trans hsecond).trans hthird
    rwa [← List.append_assoc, List.append_assoc (text.take 4096), hsplit', hsplit] at hall

/-- `read_header_line` can be given every line that is not too long. -/
theorem readHeaderLine_receives (fd : Fd) {line : Bytes} (h : HeaderLine line)
    (hshort : line.length ≤ longestHeader) :
    Receives (readHeaderLine fd 1000) line (pure (line, [])) := by
  obtain ⟨text, hno, rfl⟩ := h
  unfold readHeaderLine
  have hstart : ∀ fuel, Receives (do
      let start ← perform .now
      readHeaderLoop fd (start + 1000 * 1000000) fuel []) []
      (readHeaderLoop fd (0 + 1000 * 1000000) fuel []) := fun fuel =>
    ⟨[⟨.now, 0⟩], .call (show Resp .now from 0) (.refl _),
      by rintro call (_ | ⟨_, h⟩) <;> trivial, rfl⟩
  refine (hstart 8192).trans (readHeaderLoop_receives 8189 (by decide) hno ?_)
  rwa [List.length_append, List.length_singleton] at hshort

theorem admitRequest_pushes (fd : Fd) (req : Request) :
    ∃ next, (admitRequest fd req).Steps [⟨.fetchId, 0⟩, ⟨.now, 0⟩]
      (.call (.push { req with requestId := 0, arrivalNs := 0 }) next) :=
  ⟨_, .call (show Resp .fetchId from 0) (.call (show Resp .now from 0) (.refl _))⟩

/-- Every line that is not too long and reads as an upload may be admitted. -/
theorem admits_put (cfg : Config) {line : Bytes} {base : Request} (rest : Bytes)
    (hline : HeaderLine line) (hshort : line.length ≤ longestHeader)
    (hparse : parseRequestHeader line fd = .ok base) (hput : base.op = .PUT)
    (hvalid : isValidFilename base.filename = true) :
    ∃ req, Admits cfg fd (line ++ rest) req ∧ req.op = .PUT ∧ req.filename = base.filename ∧
      req.totalBytes = base.totalBytes := by
  obtain ⟨log, hsteps, hpossible, hrec⟩ := readHeaderLine_receives fd hline hshort
  obtain ⟨next, hpush⟩ := admitRequest_pushes fd { base with pendingBytes := [] }
  refine ⟨_, ⟨log ++ [⟨.fetchId, 0⟩, ⟨.now, 0⟩], next, (hsteps.bind _).trans ?_, ?_, ?_⟩, hput,
    rfl, rfl⟩
  · have hempty : line.isEmpty = false := by simpa using hline.ne_nil
    show Prog.Steps (if line.isEmpty then _ else _) _ _
    rw [hempty, if_neg Bool.false_ne_true, hparse]
    show Prog.Steps (if base.op = .HEALTH then _ else
      if !isValidFilename base.filename then _ else if base.op = .GET then _ else _) _ _
    rw [if_neg (by simp [hput]), if_neg (by simp [hvalid]), if_neg (by simp [hput])]
    exact hpush
  · intro call hmem
    simp only [List.mem_append, List.mem_cons, List.not_mem_nil, or_false] at hmem
    rcases hmem with hmem | rfl | rfl
    · exact hpossible call hmem
    · trivial
    · trivial
  · rw [received_append, hrec]
    simp [Call.received]

end Parser

/-! ## The headers a client writes -/

/-- The line the server reads from the header of an upload. -/
def putLine (name : Bytes) (n : ℕ) : Bytes :=
  if newline ∈ name then ascii "PUT " ++ name.takeWhile (· ≠ newline) ++ [newline]
  else putHeader name n

theorem newline_notMem_takeWhile (name : Bytes) : newline ∉ name.takeWhile (· ≠ newline) := by
  intro hmem
  simpa using List.mem_takeWhile_imp hmem

theorem putLine_headerLine (name : Bytes) (n : ℕ) : HeaderLine (putLine name n) := by
  unfold putLine
  split
  · refine ⟨ascii "PUT " ++ name.takeWhile (· ≠ newline), ?_, rfl⟩
    rw [List.mem_append, not_or]
    exact ⟨by decide, newline_notMem_takeWhile name⟩
  · rename_i hno
    refine ⟨ascii "PUT " ++ name ++ ascii " " ++ decimal n, ?_, rfl⟩
    have hdigits : newline ∉ decimal n := fun hmem => absurd (decimal_isdigit hmem) (by decide)
    simp only [List.mem_append, not_or]
    exact ⟨⟨⟨by decide, hno⟩, by decide⟩, hdigits⟩

theorem putLine_prefix (name : Bytes) (n : ℕ) : putLine name n <+: putHeader name n := by
  unfold putLine
  split
  · rename_i hmem
    obtain ⟨text, rest, rfl, hno⟩ := List.eq_append_cons_of_mem hmem
    rw [takeWhile_header hno]
    refine ⟨rest ++ ascii " " ++ decimal n ++ [newline], ?_⟩
    simp [putHeader]
  · exact List.prefix_refl _

theorem putLine_words (name : Bytes) (n : ℕ) :
    words isspace (putLine name n) = if newline ∈ name then
      ascii "PUT" :: words isspace (name.takeWhile (· ≠ newline))
      else ascii "PUT" :: words isspace name ++ [decimal n] := by
  unfold putLine
  split
  · have heq : ascii "PUT " ++ name.takeWhile (· ≠ newline) ++ [newline] =
        ascii "PUT" ++ 32 :: (name.takeWhile (· ≠ newline) ++ [newline]) := by
      simp [ascii]
    rw [heq, words_append_cons (by decide), words_append_seps (by simp [isspace, newline]),
      words_singleton (by decide) (by decide)]
    rfl
  · exact putHeader_words name n

/-- The server makes something else of the header: the name holds whitespace, and the
line, which ends at the first newline, still has a valid name and a byte count and is
short enough to be read. -/
def Misread (name : Bytes) (n : ℕ) : Prop :=
  if newline ∈ name then
    (∃ word digits, words isspace (name.takeWhile (· ≠ newline)) = [word, digits] ∧
      isValidFilename word = true ∧ digits.all isdigit = true ∧ digitsValue digits < 2 ^ 64) ∧
    (name.takeWhile (· ≠ newline)).length + 5 ≤ longestHeader
  else
    (∃ c ∈ name, isspace c = true) ∧
    (∃ word, words isspace name = [word] ∧ isValidFilename word = true) ∧ n < 2 ^ 64 ∧
    (putHeader name n).length ≤ longestHeader

theorem putLine_length {name : Bytes} (n : ℕ) (h : newline ∈ name) :
    (putLine name n).length = (name.takeWhile (· ≠ newline)).length + 5 := by
  unfold putLine
  rw [if_pos h]
  simp [ascii]

/-- A header that is misread is admitted as another upload. -/
theorem Misread.admits (cfg : Config) (fd : Fd) {name : Bytes} {n : ℕ} (h : Misread name n)
    (rest : Bytes) :
    ∃ req, Admits cfg fd (putHeader name n ++ rest) req ∧ req.op = .PUT ∧
      req.filename ≠ name := by
  obtain ⟨more, hmore⟩ := putLine_prefix name n
  have hline := putLine_headerLine name n
  have hwords := putLine_words name n
  unfold Misread at h
  split at h
  · rename_i hmem
    obtain ⟨⟨word, digits, hname, hvalid, hdigits, hvalue⟩, hlen⟩ := h
    rw [if_pos hmem, hname] at hwords
    obtain ⟨req, hadm, hput, hfile, -⟩ := admits_put cfg (more ++ rest) hline
      (by rwa [putLine_length n hmem])
      (parseRequestHeader_put fd hwords (by decide) hdigits hvalue) rfl hvalid
    refine ⟨req, ?_, hput, ?_⟩
    · rwa [← List.append_assoc, hmore] at hadm
    · rw [hfile]
      rintro (rfl : word = name)
      have hword := (mem_words (hname ▸ List.mem_cons_self :
        word ∈ words isspace (word.takeWhile (· ≠ newline)))).2 newline hmem
      exact absurd hword (by decide)
  · rename_i hmem
    obtain ⟨⟨c, hc, hspace⟩, ⟨word, hname, hvalid⟩, hn, hlen⟩ := h
    rw [if_neg hmem, hname] at hwords
    have hline' : putLine name n = putHeader name n := if_neg hmem
    obtain ⟨req, hadm, hput, hfile, -⟩ := admits_put cfg (more ++ rest) hline
      (by rwa [hline'])
      (parseRequestHeader_put fd hwords (by decide)
        (List.all_eq_true.mpr fun _ hd => decimal_isdigit hd)
        (by rwa [digitsValue_decimal])) rfl hvalid
    refine ⟨req, ?_, hput, ?_⟩
    · rwa [← List.append_assoc, hmore] at hadm
    · rw [hfile]
      rintro (rfl : word = name)
      have hword := (mem_words (hname ▸ List.mem_cons_self : word ∈ words isspace word)).2 c hc
      rw [hword] at hspace
      cases hspace

/-- What is admitted from a header that is not misread is the upload it asks for. -/
theorem admits_of_not_misread {cfg : Config} {fd : Fd} {name rest : Bytes} {n : ℕ}
    {req : Request} (h : ¬ Misread name n) (hadm : Admits cfg fd (putHeader name n ++ rest) req) :
    req.op = .PUT ∧ req.filename = name ∧ req.totalBytes = n := by
  obtain ⟨line, rest', base, hstream, hline, hshort, hvalid, hparse, hop, hname, hsize⟩ :=
    hadm.first_line
  obtain ⟨more, hmore⟩ := putLine_prefix name n
  rw [← hmore, List.append_assoc] at hstream
  obtain ⟨rfl, -⟩ := (putLine_headerLine name n).unique hline hstream
  have hwords := parseRequestHeader_words hparse
  -- the first word is `PUT`, so the request is an upload
  obtain ⟨tokens, htokens⟩ : ∃ tokens, words isspace (putLine name n) = ascii "PUT" :: tokens := by
    rw [putLine_words]
    split
    · exact ⟨_, rfl⟩
    · exact ⟨_, rfl⟩
  unfold Request.HeaderWords at hwords
  have hput : base.op = .PUT := by
    rw [htokens] at hwords
    cases hbase : base.op with
    | PUT => rfl
    | GET =>
        simp only [hbase, List.cons.injEq] at hwords
        obtain ⟨op, ⟨rfl, -⟩, hupper⟩ := hwords
        exact absurd hupper (by decide)
    | HEALTH =>
        simp only [hbase, List.cons.injEq] at hwords
        obtain ⟨op, ⟨rfl, -⟩, hupper⟩ := hwords
        exact absurd hupper (by decide)
  simp only [hput] at hwords
  obtain ⟨op, digits, hthree, hupper, hdigits, hvalue, hlt⟩ := hwords
  rw [putLine_words] at hthree
  by_cases hmem : newline ∈ name
  · rw [if_pos hmem, List.cons.injEq] at hthree
    refine absurd ?_ h
    unfold Misread
    rw [if_pos hmem]
    refine ⟨⟨base.filename, digits, hthree.2, hname ▸ hvalid, hdigits, hvalue ▸ hlt⟩, ?_⟩
    rwa [putLine_length n hmem] at hshort
  · rw [if_neg hmem] at hthree
    simp only [List.cons_append, List.cons.injEq] at hthree
    have hboth : words isspace name = [base.filename] ∧ [decimal n] = [digits] :=
      List.append_inj' hthree.2 rfl
    obtain ⟨hone, hn⟩ := hboth
    simp only [List.cons.injEq, and_true] at hn
    rw [← hn, digitsValue_decimal] at hvalue
    have hclean : ∀ c ∈ name, isspace c = false := by
      intro c hc
      by_contra hspace
      refine h ?_
      unfold Misread
      rw [if_neg hmem]
      refine ⟨⟨c, hc, by simpa using hspace⟩, ⟨base.filename, hone, hname ▸ hvalid⟩,
        hvalue ▸ hlt, ?_⟩
      have hline' : putLine name n = putHeader name n := if_neg hmem
      rwa [hline'] at hshort
    have hne : name ≠ [] := by
      rintro rfl
      cases hone
    rw [words_singleton hne hclean] at hone
    refine ⟨hop ▸ hput, ?_, ?_⟩
    · rw [← hname]
      exact (List.cons.inj hone).1.symm
    · rw [← hsize (hop ▸ hput), hvalue]

/-- **Decoding.** Whatever the server admits from the header and body a client sends is
the upload of this name and size, unless the header is one that is misread; then another
upload may be admitted. -/
theorem decode_putHeader (cfg : Config) (fd : Fd) (name body : Bytes) :
    (∀ req, Admits cfg fd (putHeader name body.length ++ body) req →
      req.op = .PUT ∧ req.filename = name ∧ req.totalBytes = body.length) ↔
    ¬ Misread name body.length := by
  constructor
  · intro h hbad
    obtain ⟨req, hadm, -, hne⟩ := hbad.admits cfg fd body
    exact hne (h req hadm).2.1
  · intro h req hadm
    exact admits_of_not_misread h hadm

/-- The name `a 5` with a newline and `b` after it passes the check of the client; the
server admits an upload of five bytes to `a`. -/
theorem decode_putHeader_newline :
    isWireName (ascii "a 5\nb") = true ∧
    ∀ (cfg : Config) (fd : Fd),
      ∃ req, Admits cfg fd (putHeader (ascii "a 5\nb") (ascii "x").length ++ ascii "x") req ∧
        req.op = .PUT ∧ req.filename = ascii "a" ∧ req.totalBytes = 5 := by
  refine ⟨by decide, fun cfg fd => ?_⟩
  have hline : HeaderLine (ascii "PUT a 5\n") := ⟨ascii "PUT a 5", by decide, by decide⟩
  have hstream : putHeader (ascii "a 5\nb") (ascii "x").length ++ ascii "x" =
      ascii "PUT a 5\n" ++ ascii "b 1\nx" := by decide
  have hwords : words isspace (ascii "PUT a 5\n") = [ascii "PUT", ascii "a", ascii "5"] := by
    decide
  have hparse := parseRequestHeader_put fd hwords (by decide) (by decide) (by decide)
  have hvalue : digitsValue (ascii "5") = 5 := by decide
  rw [hvalue] at hparse
  rw [hstream]
  exact admits_put cfg (ascii "b 1\nx") hline (by decide) hparse rfl
    (show isValidFilename (ascii "a") = true by decide)

end LinkScheduling
