import LinkScheduling.Get.Delivery
import LinkScheduling.Get.Download
import LinkScheduling.Get.Exchange
import LinkScheduling.Metatheory.Answers

/-!
# What a download copies

`get_file` beside the server. The client alone: whatever it receives, it writes the bytes behind
the status line it read, and it returns 0 only with all bytes the line announced. The server: what
it puts on the stream is the header and the file from its start, or an error line. Together: the
output file is a copy of the file of the server, or of its beginning.
-/

namespace LinkScheduling

open Framework

/-! ## The client alone -/

/-- What the client asked and received, what it wrote, whether every write succeeded and whether
it closed the file. -/
structure Copy where
  asked : Bool := false
  got : Bytes := []
  file : Option Bytes := none
  intact : Bool := true
  closed : Bool := false

/-- A status line that announces `n` bytes, and `rest` behind it. -/
def Announced (got : Bytes) (n : ℕ) (rest : Bytes) : Prop :=
  ∃ line, HeaderLine line ∧ ascii "OK " <+: line ∧ stoullText (line.drop 3) = some n ∧
    got = line ++ rest

theorem Announced.append {got rest : Bytes} {n : ℕ} (h : Announced got n rest) (data : Bytes) :
    Announced (got ++ data) n (rest ++ data) := by
  obtain ⟨line, hline, hok, hsize, rfl⟩ := h
  exact ⟨line, hline, hok, hsize, List.append_assoc _ _ _⟩

/-- The output file is what was announced, from its start. -/
structure Written (got stored : Bytes) (n : ℕ) (rest : Bytes) : Prop where
  announced : Announced got n rest
  part : stored <+: rest.take n

theorem Written.append {got stored rest : Bytes} {n : ℕ} (h : Written got stored n rest)
    (data : Bytes) : Written (got ++ data) stored n (rest ++ data) := by
  refine ⟨h.announced.append data, h.part.trans ?_⟩
  rw [List.take_append]
  exact List.prefix_append _ _

/-- One header is sent, and what is written continues the announced bytes. -/
def copying (filename : Bytes) : Contract DownloadEff DownloadResp Copy where
  guarantee g e := match e with
    | .net (.sendAll data) => g.asked = false ∧ data = getHeader filename
    | .openOutput _ => ∃ n rest, Written g.got [] n rest
    | .write data => (g.intact = true ∧ g.closed = false) ∧ ∃ stored n rest,
        g.file = some stored ∧ Written g.got (stored ++ data) n rest
    | _ => True
  rely _ e r := match e, r with
    | .net (.recv size), some data => data.length ≤ size
    | _, _ => True
  next g e r := match e, r with
    | .net (.sendAll _), _ => { g with asked := true }
    | .net (.recv _), some data => { g with got := g.got ++ data }
    | .openOutput _, ok => if ok then { g with file := some [] } else g
    | .write data, ok => { g with file := g.file.map (· ++ data), intact := g.intact && ok }
    | .closeOutput, _ => { g with closed := true }
    | _, _ => g

/-- The client returns 0 with all announced bytes written. -/
def Complete (code : ℕ) (g : Copy) : Prop :=
  code = 0 → g.intact = true ∧ ∃ n rest, Announced g.got n rest ∧ n ≤ rest.length ∧
    g.file = some (rest.take n)

section Copying

variable {filename : Bytes}

/-- A status line is read up to its newline. `G` is the ghost state with what was received. -/
theorem readStatusLoop_reads {Γ : Type} {C : Contract ClientEff ClientResp Γ} {G : Bytes → Γ}
    (howes : ∀ got size, C.guarantee (G got) (.recv size))
    (hnext : ∀ got size part, C.next (G got) (.recv size) (some part) = G (got ++ part))
    (hend : ∀ got size, C.next (G got) (.recv size) none = G got) (base : Bytes) :
    ∀ (fuel : ℕ) (line : Bytes), newline ∉ line →
    (readStatusLoop fuel line).wp C
      (fun res g => ∃ got, g = G got ∧ ∀ line' leftover,
        res = some (line', leftover) → HeaderLine line' ∧ got = base ++ line' ++ leftover)
      (G (base ++ line))
  | 0, line, _ => ⟨base ++ line, rfl, fun _ _ h => by cases h⟩
  | fuel + 1, line, hno => by
      unfold readStatusLoop
      split
      · exact ⟨base ++ line, rfl, fun _ _ h => by cases h⟩
      simp only [request, Prog.wp_bind, Prog.wp_perform]
      refine ⟨howes _ _, ?_⟩
      rintro (_ | part) -
      · rw [hend]
        exact ⟨base ++ line, rfl, fun _ _ h => by cases h⟩
      rw [hnext]
      rcases part with _ | ⟨b, buffer⟩
      · exact ⟨base ++ line ++ [], rfl, fun _ _ h => by cases h⟩
      simp only
      split
      · rename_i line' leftover hscan
        obtain ⟨text, htext, hbuffer, rfl⟩ := scanBuffer_some hscan
        refine ⟨_, rfl, fun _ _ h => ?_⟩
        cases h
        refine ⟨⟨line ++ text, ?_, rfl⟩, by simp [hbuffer]⟩
        rw [List.mem_append, not_or]
        exact ⟨hno, htext⟩
      · rename_i line' hscan
        obtain ⟨hbuffer, rfl⟩ := scanBuffer_none hscan
        rw [List.append_assoc]
        refine readStatusLoop_reads howes hnext hend base fuel _ ?_
        rw [List.mem_append, not_or]
        exact ⟨hno, hbuffer⟩

section Body

variable {size : ℕ} {got rest : Bytes} {asked : Bool}

theorem copyPrefix_copies (hannounced : Announced got size rest) : ∀ {fuel k : ℕ},
    rest.length ≤ k + fuel → k ≤ min size rest.length →
    (copyPrefix size rest true fuel k k).wp (copying filename)
      (fun res g => ∀ received, res = some received → received = min size rest.length ∧
        g = ⟨asked, got, some (rest.take (min size rest.length)), true, false⟩)
      ⟨asked, got, some (rest.take k), true, false⟩
  | 0, k, hfuel, hk => by
      have hk : k = min size rest.length := le_antisymm hk (by omega)
      rintro received ⟨⟩
      rw [← hk]
      exact ⟨rfl, rfl⟩
  | fuel + 1, k, hfuel, hk => by
      unfold copyPrefix
      by_cases hmore : k < size ∧ k < rest.length
      · rw [if_pos hmore]
        simp only [writeOut, if_true, output, Prog.wp_bind, Prog.wp_perform]
        have hnext : rest.take k ++ (rest.drop k).take (min (size - k) (rest.length - k)) =
            rest.take (k + min (size - k) (rest.length - k)) := List.take_add.symm
        refine ⟨⟨⟨rfl, rfl⟩, _, size, rest, rfl, hannounced, ?_⟩, ?_⟩
        · rw [hnext]
          exact List.take_prefix_take_left (by omega)
        rintro (_ | _) -
        · exact fun received h => by cases h
        · change Prog.wp _ _ _ (Copy.mk asked got (some (rest.take k ++
            (rest.drop k).take (min (size - k) (rest.length - k)))) true false)
          rw [hnext]
          exact copyPrefix_copies hannounced (by omega) (by omega)
      · rw [if_neg hmore]
        have hk : k = min size rest.length := le_antisymm hk (by omega)
        rintro received ⟨⟩
        rw [← hk]
        exact ⟨rfl, rfl⟩

/-- The output file holds the first `received` bytes behind the status line, and before the end
that is all that came. -/
structure Copied (size received : ℕ) (g : Copy) : Prop where
  rest : ∃ rest, Announced g.got size rest ∧ g.file = some (rest.take received) ∧
    received ≤ rest.length ∧ (received < size → received = rest.length)
  le_size : received ≤ size
  intact : g.intact = true
  opened : g.closed = false

theorem Copied.complete {g : Copy} (h : Copied size size g) :
    Complete 0 g := by
  obtain ⟨rest, hannounced, hfile, hle, -⟩ := h.rest
  exact fun _ => ⟨h.intact, size, rest, hannounced, hle, hfile⟩

theorem recvRest_copies : ∀ {fuel received : ℕ} {g : Copy}, size ≤ received + fuel →
    Copied size received g →
    (recvRest size true fuel received).wp (copying filename)
      (fun ok g => ok = true → Copied size size g) g
  | 0, received, g, hfuel, h => by
      have hsize : received = size := le_antisymm h.le_size hfuel
      exact fun _ => hsize ▸ h
  | fuel + 1, received, g, hfuel, h => by
      unfold recvRest
      by_cases hmore : received < size
      swap
      · have hsize : received = size := le_antisymm h.le_size (Nat.not_lt.mp hmore)
        rw [if_neg hmore]
        exact fun _ => hsize ▸ h
      rw [if_pos hmore]
      simp only [net, request, Prog.wp_bind, Prog.wp_embed, Prog.wp_perform]
      refine ⟨trivial, ?_⟩
      rintro (_ | _ | ⟨b, buffer⟩) hlen
      · exact fun h => by cases h
      · exact fun h => by cases h
      simp only [writeOut, if_true, output, Prog.wp_bind, Prog.wp_perform]
      obtain ⟨rest, hannounced, hfile, -, hall⟩ := h.rest
      have hrest : received = rest.length := hall hmore
      have hlen : (b :: buffer).length ≤ min (size - received) 8192 := hlen
      have hgot : Announced (g.got ++ b :: buffer) size (rest ++ b :: buffer) :=
        hannounced.append _
      have htake : rest.take received = rest := by
        rw [hrest, List.take_length]
      have hshort : (rest ++ b :: buffer).length ≤ size := by
        rw [List.length_append]
        omega
      rw [htake] at hfile
      refine ⟨⟨⟨h.intact, h.opened⟩, rest, size, rest ++ b :: buffer, hfile, hgot, ?_⟩, ?_⟩
      · rw [List.take_of_length_le hshort]
      rintro (_ | _) -
      · exact fun h => by cases h
      refine recvRest_copies ?_ ⟨⟨rest ++ b :: buffer, hgot, ?_, ?_, fun _ => ?_⟩, ?_, ?_, h.opened⟩
      · rw [List.length_cons]
        omega
      · change g.file.map (· ++ b :: buffer) = _
        rw [hfile, hrest, ← List.length_append, List.take_length]
        rfl
      · rw [List.length_append, hrest]
      · rw [List.length_append, hrest]
      · omega
      · change (g.intact && true) = true
        rw [h.intact]
        rfl

theorem recvExact_copies (hannounced : Announced got size rest) :
    (recvExact size rest true).wp (copying filename)
      (fun ok g => ok = true → Copied size size g) ⟨asked, got, some [], true, false⟩ := by
  unfold recvExact
  rw [Prog.wp_bind]
  refine Prog.wp_mono (copyPrefix_copies hannounced (k := 0) (by omega) (Nat.zero_le _)) ?_
  rintro (_ | received) g h
  · exact fun h => by cases h
  obtain ⟨rfl, rfl⟩ := h received rfl
  refine recvRest_copies (Nat.le_add_left _ _) ⟨⟨rest, hannounced, rfl, ?_, fun hmore => ?_⟩, ?_,
    rfl, rfl⟩
  · exact Nat.min_le_right _ _
  · omega
  · exact Nat.min_le_left _ _

theorem getBody_copies (hannounced : Announced got size rest) :
    (getBody filename size rest true).wp (copying filename) Complete
      ⟨asked, got, none, true, false⟩ := by
  unfold getBody
  simp only [if_true, output, Prog.wp_bind, Prog.wp_perform]
  refine ⟨⟨size, rest, hannounced, List.nil_prefix⟩, ?_⟩
  rintro (_ | _) -
  · simp only [Bool.false_eq_true, if_false, net, giveUp, request, Prog.wp_embed, Prog.wp_bind,
      Prog.wp_perform, Prog.wp_pure]
    exact ⟨trivial, fun _ _ h => by cases h⟩
  · rw [if_pos rfl, Prog.wp_bind]
    refine Prog.wp_mono (recvExact_copies hannounced) ?_
    intro ok g h
    simp only [net, request, Prog.wp_bind, Prog.wp_embed, Prog.wp_perform, Prog.wp_pure]
    refine ⟨trivial, fun _ _ => ⟨trivial, fun _ _ hcode => ?_⟩⟩
    split at hcode
    · rename_i hok
      exact (h hok).complete rfl
    · cases hcode

end Body

theorem giveUp_copies (g : Copy) : (net giveUp).wp (copying filename) Complete g := by
  simp only [net, giveUp, request, Prog.wp_embed, Prog.wp_bind, Prog.wp_perform, Prog.wp_pure]
  exact ⟨trivial, fun _ _ h => by cases h⟩

/-- **The client alone.** Whatever `get_file` receives, what it writes is what was announced, and
it returns 0 only when it wrote all of it. -/
theorem getFile_copies :
    (getFile filename true).wp (copying filename) Complete {} := by
  unfold getFile
  simp only [net, request, Prog.wp_bind, Prog.wp_embed, Prog.wp_perform]
  refine ⟨trivial, ?_⟩
  rintro (_ | _) -
  · exact fun h => by cases h
  simp only [if_true, Prog.wp_bind, Prog.wp_embed, Prog.wp_perform]
  refine ⟨⟨rfl, rfl⟩, ?_⟩
  rintro (_ | _) -
  · exact giveUp_copies _
  simp only [if_true, Prog.wp_bind, Prog.wp_embed, readStatusLine]
  refine Prog.wp_mono (readStatusLoop_reads (C := (copying filename).restrict DownloadEff.net)
    (G := fun got => Copy.mk true got none true false) (fun _ _ => trivial) (fun _ _ _ => rfl)
    (fun _ _ => rfl) [] 8192 [] (by simp)) ?_
  rintro (_ | ⟨response, leftover⟩) g ⟨got, rfl, hread⟩
  · exact giveUp_copies _
  obtain ⟨hline, rfl⟩ := hread response leftover rfl
  simp only
  split
  · rename_i hok
    split
    · exact giveUp_copies _
    · rename_i n hsize
      exact getBody_copies ⟨response, hline, hok, hsize, rfl⟩
  · exact giveUp_copies _

end Copying

/-! ## The server -/

section Offered

variable {filename name : Bytes} {file : File} {fd : Fd}

/-- The header line that the server reads. -/
def getLine (filename : Bytes) : Bytes :=
  ascii "GET " ++ filename.takeWhile (· ≠ newline) ++ [newline]

/-- The name that the server takes from it. -/
def Wanted (filename name : Bytes) : Prop :=
  words isspace (filename.takeWhile (· ≠ newline)) = [name]

theorem getLine_headerLine (filename : Bytes) : HeaderLine (getLine filename) := by
  refine ⟨ascii "GET " ++ filename.takeWhile (· ≠ newline), ?_, rfl⟩
  rw [List.mem_append, not_or]
  exact ⟨by decide, newline_notMem_takeWhile filename⟩

theorem getLine_prefix (filename : Bytes) : getLine filename <+: getHeader filename := by
  by_cases hmem : newline ∈ filename
  · obtain ⟨text, rest, rfl, hno⟩ := List.eq_append_cons_of_mem hmem
    rw [getLine, takeWhile_header hno]
    refine ⟨rest ++ [newline], ?_⟩
    simp [getHeader]
  · have hall : filename.takeWhile (· ≠ newline) = filename := by
      refine List.takeWhile_eq_self_iff.mpr fun c hc => decide_eq_true ?_
      rintro rfl
      exact hmem hc
    rw [getLine, hall]
    exact List.prefix_rfl

theorem getLine_words (filename : Bytes) :
    words isspace (getLine filename) =
      ascii "GET" :: words isspace (filename.takeWhile (· ≠ newline)) := by
  have heq : getLine filename =
      ascii "GET" ++ 32 :: (filename.takeWhile (· ≠ newline) ++ [newline]) := by
    simp [getLine, ascii]
  rw [heq, words_append_cons (by decide), words_append_seps (by simp [isspace, newline]),
    words_singleton (by decide) (by decide)]
  rfl

/-- The server has no other line to read. -/
theorem eq_getLine {header : Bytes} (hline : HeaderLine header)
    (h : header <+: getHeader filename) : header = getLine filename := by
  obtain ⟨rest, hrest⟩ := h
  obtain ⟨rest', hrest'⟩ := getLine_prefix filename
  exact (hline.unique (getLine_headerLine filename) (hrest.trans hrest'.symm)).1

theorem parse_getLine {base : Request} (h : parseRequestHeader (getLine filename) fd = .ok base) :
    base.op = .GET ∧ Wanted filename base.filename := by
  have hwords := parseRequestHeader_words h
  rw [getLine_words, Request.HeaderWords] at hwords
  split at hwords
  · obtain ⟨op, heq, hop⟩ := hwords
    rw [← (List.cons.inj heq).1] at hop
    exact absurd hop (by decide)
  · rename_i hget
    obtain ⟨op, heq, -⟩ := hwords
    exact ⟨hget, (List.cons.inj heq).2⟩
  · obtain ⟨op, digits, heq, hop, -⟩ := hwords
    rw [← (List.cons.inj heq).1] at hop
    exact absurd hop (by decide)

/-- What may be on the stream of a GET of `file`. -/
def Offered (file : File) (wire : Bytes) : Prop :=
  wire <+: okLine file.size ++ file.bytes ∨ ∃ reason, wire <+: errLine reason

theorem Offered.of_prefix {wire wire' : Bytes} (h : Offered file wire) (hpre : wire' <+: wire) :
    Offered file wire' := by
  rcases h with h | ⟨reason, h⟩
  · exact Or.inl (hpre.trans h)
  · exact Or.inr ⟨reason, hpre.trans h⟩

theorem offered_of_answer {cfg : Config} {before : List Call} {line : Bytes}
    (h : Answer cfg fd before line) (hheard : received before <+: getHeader filename) :
    Offered file line := by
  cases h with
  | health hheader hparse hop hmem =>
      rw [eq_getLine hheader.line (hheader.received.trans hheard)] at hparse
      rw [(parse_getLine hparse).1] at hop
      cases hop
  | _ => exact Or.inr ⟨_, List.prefix_rfl⟩

/-- What a server sends whose calls for the connection find `file`. -/
theorem Sys.run_offers {P W : ℕ} {cfg : Config} {dir : Directory} {t : Sys P W}
    (hrun : RunWhere cfg (fun _ _ => True) (init P W dir) t)
    (hfound : ∀ name, Wanted filename name →
      RunWhere cfg (Undisturbed (filePath cfg.fileDir name) file fd) (init P W dir) t)
    (hheard : received (t.log fd) <+: getHeader filename) :
    Offered file (sends (t.log fd)).flatten := by
  by_cases hnone : t.admittedCount fd = 0
  · rcases run_replied hrun hnone with ⟨hsilent, -⟩ | ⟨before, line, hbefore, hanswer, hsent⟩
    · rw [hsilent]
      exact Or.inl List.nil_prefix
    · obtain ⟨after, hafter⟩ := hbefore
      rw [← hafter, received_append] at hheard
      rw [hsent, List.flatten_singleton]
      exact offered_of_answer hanswer ((List.prefix_append _ _).trans hheard)
  · obtain ⟨request, hmem, rfl⟩ :=
      List.mem_map.mp (List.count_pos_iff.mp (Nat.pos_of_ne_zero hnone))
    obtain ⟨before, after, hlog, hadm⟩ := (run_tracked hrun hmem).admitted
    obtain ⟨header, base, hline, hreceived, hparse, hop, hname, -⟩ := hadm.header
    have hpre : header <+: received (t.log request.clientFd) := by
      rw [hlog, received_append, hreceived, List.append_assoc]
      exact List.prefix_append _ _
    rw [eq_getLine hline (hpre.trans hheard)] at hparse
    obtain ⟨hget, hwanted⟩ := parse_getLine hparse
    rw [hop] at hget
    rw [hname] at hwanted
    rcases View.exactly_shape (run_delivers hget (hfound _ hwanted) hmem).1.always with
      hnil | ⟨pieces, hsent, hpieces⟩
    · rw [hnil]
      exact Or.inl List.nil_prefix
    · rw [hsent, List.flatten_cons]
      exact Or.inl ((List.prefix_append_right_inj _).mpr hpieces)

end Offered

/-! ## Both together -/

namespace Fetch

variable {P W : ℕ} {cfg : Config} {dir : Directory} {fd : Fd} {filename : Bytes} {file : File}
  {s t u : Fetch P W}

/-- The calls of the server for the connection find `file` under the name the client asks for. -/
def Found (cfg : Config) (file : File) (fd : Fd) (filename : Bytes) (s : Fetch P W) :
    Label P W → Prop
  | .server l _ => ∀ name, Wanted filename name → ∀ call, s.server.callOf l = some (fd, call) →
      s.server.dir (cstr (filePath cfg.fileDir name)) = some file
  | .client _ _ => True

/-- What a call of the client does. -/
inductive ClientStep (fd : Fd) (s : Fetch P W) : Fetch P W → Prop
  | connect (ok : Bool) (next : Bool → Download ℕ) : s.client = .call (.net .connect) next →
      ClientStep fd s { s with client := next ok }
  | sent (data part : Bytes) (ok : Bool) (next : Bool → Download ℕ) :
      s.client = .call (.net (.sendAll data)) next → part <+: data → (ok = true → part = data) →
      ClientStep fd s { s with client := next ok, sent := s.sent ++ part }
  | received (size count : ℕ) (next : Option Bytes → Download ℕ) :
      s.client = .call (.net (.recv size)) next → count ≤ size → count ≤ s.stream.length →
      ClientStep fd s { s with
        client := next (some (s.stream.take count)), taken := s.taken + count }
  | ended (size : ℕ) (next : Option Bytes → Download ℕ) :
      s.client = .call (.net (.recv size)) next → ClientStep fd s { s with client := next none }
  | close (next : Unit → Download ℕ) : s.client = .call (.net .close) next →
      ClientStep fd s { s with client := next () }
  | opened (name : Bytes) (ok : Bool) (next : Bool → Download ℕ) :
      s.client = .call (.openOutput name) next →
      ClientStep fd s { s with client := next ok, output := if ok then some [] else s.output }
  | wrote (data part : Bytes) (ok : Bool) (next : Bool → Download ℕ) :
      s.client = .call (.write data) next → part <+: data → (ok = true → part = data) →
      ClientStep fd s { s with client := next ok, output := s.output.map (· ++ part) }
  | closed (ok : Bool) (count : ℕ) (next : Unit → Download ℕ) :
      s.client = .call .closeOutput next →
      ClientStep fd s { s with
        client := next ()
        output := if ok then s.output else s.output.map (List.take count)
        torn := s.torn || !ok }

theorem clientStep_cases {ok : Bool} {count : ℕ} (h : s.clientStep fd ok count = some t) :
    ClientStep fd s t := by
  unfold clientStep at h
  split at h
  · cases h
  · rename_i next hclient
    cases h
    exact .connect ok next hclient
  · rename_i data next hclient
    split at h
    · cases h
      exact .sent data data true next hclient List.prefix_rfl fun _ => rfl
    · cases h
      exact .sent data _ false next hclient (List.take_prefix _ _) fun h => by cases h
  · rename_i size next hclient
    split at h
    · split at h
      · rename_i hcount
        cases h
        exact .received size count next hclient hcount.2.1 hcount.2.2
      · split at h
        · cases h
          have hzero : ClientStep fd s _ :=
            .received size 0 next hclient (Nat.zero_le _) (Nat.zero_le _)
          rwa [List.take_zero, Nat.add_zero] at hzero
        · cases h
    · cases h
      exact .ended size next hclient
  · rename_i next hclient
    cases h
    exact .close next hclient
  · rename_i name next hclient
    cases h
    exact .opened name ok next hclient
  · rename_i data next hclient
    cases h
    cases ok with
    | true => exact .wrote data data true next hclient List.prefix_rfl fun _ => rfl
    | false =>
        exact .wrote data _ false next hclient (List.take_prefix count _) fun h => by cases h
  · rename_i next hclient
    cases h
    exact .closed ok count next hclient

theorem ClientStep.frame (h : ClientStep fd s t) :
    t.server = s.server ∧ t.wire = s.wire ∧ t.broken = s.broken := by
  cases h <;> exact ⟨rfl, rfl, rfl⟩

theorem ClientStep.sent_extends (h : ClientStep fd s t) : s.sent <+: t.sent := by
  cases h with
  | sent data part ok next hcall hpart hok => exact List.prefix_append _ _
  | _ => exact List.prefix_rfl

/-- The client is where its contract says. -/
structure Copies (filename : Bytes) (g : Copy) (t : Fetch P W) : Prop where
  client : t.client.wp (copying filename) Complete g
  got : g.got = t.wire.take t.taken
  taken : t.taken ≤ t.wire.length
  asked : g.asked = false → t.sent = []
  sent : t.sent <+: getHeader filename
  written : ∀ stored, g.file = some stored → ∃ n rest, Written g.got stored n rest
  missing : g.file = none → t.output = none
  output : ∀ stored, g.file = some stored → ∃ out, t.output = some out ∧ out <+: stored
  open_whole : g.closed = false → t.torn = false
  whole : t.torn = false → g.intact = true → t.output = g.file

theorem start_copies : Copies filename {} (start P W dir filename) where
  client := getFile_copies
  got := rfl
  taken := le_rfl
  asked _ := rfl
  sent := List.nil_prefix
  written _ h := by cases h
  missing _ := rfl
  output _ h := by cases h
  open_whole _ := rfl
  whole _ _ := rfl

/-- A client whose step touches neither the stream nor the output file. -/
theorem Copies.resume {g : Copy} (h : Copies filename g s) {client : Download ℕ}
    (hclient : client.wp (copying filename) Complete g) :
    Copies filename g { s with client := client } :=
  ⟨hclient, h.got, h.taken, h.asked, h.sent, h.written, h.missing, h.output, h.open_whole, h.whole⟩

theorem Copies.wrote {g : Copy} (h : Copies filename g s) {data part : Bytes} {ok : Bool}
    {next : Bool → Download ℕ} (hcall : s.client = .call (.write data) next)
    (hpart : part <+: data) (hok : ok = true → part = data) :
    ∃ g', Copies filename g' { s with client := next ok, output := s.output.map (· ++ part) } := by
  have hclient := h.client
  rw [hcall] at hclient
  obtain ⟨⟨hintact, hopen⟩, stored, n, rest, hfile, hwritten⟩ := hclient.1
  have hout : s.output = some stored := (h.whole (h.open_whole hopen) hintact).trans hfile
  have hnext : (g.file.map (· ++ data)) = some (stored ++ data) := by
    rw [hfile]
    rfl
  refine ⟨_, hclient.2 ok trivial, h.got, h.taken, h.asked, h.sent, ?_, ?_, ?_, h.open_whole, ?_⟩
  · intro stored' hfile'
    cases hnext.symm.trans hfile'
    exact ⟨n, rest, hwritten⟩
  · intro hnone
    cases hnext.symm.trans hnone
  · intro stored' hfile'
    cases hnext.symm.trans hfile'
    refine ⟨stored ++ part, ?_, (List.prefix_append_right_inj stored).mpr hpart⟩
    rw [hout]
    rfl
  · intro _ hstill
    obtain ⟨-, rfl⟩ := Bool.and_eq_true_iff.mp hstill
    change s.output.map _ = g.file.map _
    rw [hout, hfile, hok rfl]

theorem Copies.closed {g : Copy} (h : Copies filename g s) {ok : Bool} (count : ℕ)
    {next : Unit → Download ℕ} (hcall : s.client = .call .closeOutput next) :
    ∃ g', Copies filename g' { s with
      client := next ()
      output := if ok then s.output else s.output.map (List.take count)
      torn := s.torn || !ok } := by
  have hclient := h.client
  rw [hcall] at hclient
  have hnext := hclient.2 () trivial
  cases ok with
  | true =>
      rw [Bool.not_true, Bool.or_false]
      exact ⟨_, hnext, h.got, h.taken, h.asked, h.sent, h.written, h.missing, h.output,
        (fun h => by cases h), h.whole⟩
  | false =>
      refine ⟨_, hnext, h.got, h.taken, h.asked, h.sent, h.written, fun hnone => ?_,
        fun stored hfile => ?_, (fun h => by cases h), fun htorn => ?_⟩
      · change s.output.map (List.take count) = none
        rw [h.missing hnone]
        rfl
      · obtain ⟨out, hout, hpre⟩ := h.output stored hfile
        refine ⟨out.take count, ?_, (List.take_prefix _ _).trans hpre⟩
        change s.output.map (List.take count) = _
        rw [hout]
        rfl
      · change (s.torn || true) = false at htorn
        rw [Bool.or_true] at htorn
        cases htorn

theorem clientStep_copies {g : Copy} (h : Copies filename g s) (hstep : ClientStep fd s t) :
    ∃ g', Copies filename g' t := by
  have hclient := h.client
  cases hstep with
  | connect ok next hcall =>
      rw [hcall] at hclient
      exact ⟨g, h.resume (hclient.2 ok trivial)⟩
  | sent data part ok next hcall hpart hok =>
      rw [hcall] at hclient
      obtain ⟨hfirst, rfl⟩ := hclient.1
      refine ⟨_, hclient.2 ok trivial, h.got, h.taken, (fun h => by cases h), ?_, h.written,
        h.missing, h.output, h.open_whole, h.whole⟩
      change s.sent ++ part <+: _
      rw [h.asked hfirst]
      exact hpart
  | received size count next hcall hsize hcount =>
      rw [hcall] at hclient
      have hlength : (s.stream.take count).length ≤ size := by
        rw [List.length_take]
        omega
      refine ⟨_, hclient.2 (some (s.stream.take count)) hlength, ?_, ?_, h.asked, h.sent, ?_,
        h.missing, h.output, h.open_whole, h.whole⟩
      · change g.got ++ _ = _
        rw [h.got, stream, List.take_add]
      · rw [stream, List.length_drop] at hcount
        have htaken := h.taken
        change s.taken + count ≤ s.wire.length
        omega
      · intro stored hfile
        obtain ⟨n, rest, hwritten⟩ := h.written stored hfile
        exact ⟨n, _, hwritten.append _⟩
  | ended size next hcall =>
      rw [hcall] at hclient
      exact ⟨g, h.resume (hclient.2 none trivial)⟩
  | close next hcall =>
      rw [hcall] at hclient
      exact ⟨g, h.resume (hclient.2 () trivial)⟩
  | opened name ok next hcall =>
      rw [hcall] at hclient
      have hnext := hclient.2 ok trivial
      cases ok with
      | false => exact ⟨g, h.resume hnext⟩
      | true =>
          refine ⟨_, hnext, h.got, h.taken, h.asked, h.sent, ?_, (fun h => by cases h), ?_,
            h.open_whole, fun _ _ => rfl⟩
          · rintro stored ⟨⟩
            exact hclient.1
          · rintro stored ⟨⟩
            exact ⟨[], rfl, List.prefix_rfl⟩
  | wrote data part ok next hcall hpart hok => exact h.wrote hcall hpart hok
  | closed ok count next hcall => exact h.closed count hcall

/-! ### Runs -/

/-- What is on the stream of the connection, and how it came there. -/
inductive Carried (cfg : Config) (dir : Directory) (file : File) (fd : Fd) (filename : Bytes)
    (t : Fetch P W) : Prop
  | whole : t.broken = false → t.wire = (sends (t.server.log fd)).flatten →
      (∀ name, Wanted filename name → Sys.RunWhere cfg
        (Sys.Undisturbed (filePath cfg.fileDir name) file fd) (.init P W dir) t.server) →
      Carried cfg dir file fd filename t
  | cut : t.broken = true → Offered file t.wire → Carried cfg dir file fd filename t

/-- A send that fails could have succeeded. -/
theorem exists_success (cfg : Config) {server : Sys P W} {l : LinkScheduling.Label P W} {fd' : Fd} {data : Bytes}
    (hcall : server.callOf l = some (fd, ⟨.sendAll fd' data, false⟩)) :
    ∃ l' server', server.step cfg l' = some server' ∧
      server.callOf l' = some (fd, ⟨.sendAll fd' data, true⟩) := by
  cases l with
  | parserCall k c =>
      simp only [Sys.callOf] at hcall
      split at hcall
      · rename_i fd'' e next hbusy
        obtain ⟨rfl, hevent⟩ := Prod.mk.inj (Option.some.inj hcall)
        obtain ⟨rfl, -⟩ := Event.mk.inj hevent
        refine ⟨.parserCall k { c with ok := true }, ?_⟩
        simp only [Sys.step, Sys.callOf, hbusy]
        exact ⟨_, rfl, rfl⟩
      · cases hcall
  | workerCall k c =>
      simp only [Sys.callOf] at hcall
      split at hcall
      · rename_i req held e next hbusy
        obtain ⟨rfl, hevent⟩ := Prod.mk.inj (Option.some.inj hcall)
        obtain ⟨rfl, -⟩ := Event.mk.inj hevent
        refine ⟨.workerCall k { c with ok := true }, ?_⟩
        simp only [Sys.step, Sys.callOf, hbusy]
        exact ⟨_, rfl, rfl⟩
      · cases hcall
  | _ => cases hcall

/-- A step that is no send on the connection, or one on a broken one, puts nothing on the
stream. -/
theorem carry_eq_self {count : ℕ} {call : Option (Fd × Call)}
    (h : s.broken = true ∨ ∀ fd' data ok, call ≠ some (fd, ⟨.sendAll fd' data, ok⟩)) :
    s.carry fd count call = s := by
  unfold carry
  split
  · rename_i fd' f data ok
    refine if_pos (h.symm.imp_left fun hne => ?_)
    rintro rfl
    exact hne f data ok rfl
  · rfl

/-- Nor does it send. -/
theorem sends_step {server server' : Sys P W} {l : LinkScheduling.Label P W}
    (hstep : server.step cfg l = some server')
    (h : ∀ fd' data ok, server.callOf l ≠ some (fd, ⟨.sendAll fd' data, ok⟩)) :
    sends (server'.log fd) = sends (server.log fd) := by
  rw [Sys.step_log hstep, sends_append]
  have hnone : sends (server.newCalls l fd) = [] := by
    unfold Sys.newCalls
    split
    · rename_i fd' call hcall
      split
      · rename_i hfd
        subst hfd
        rcases call with ⟨e, r⟩
        cases e with
        | sendAll f data => exact absurd hcall (h f data r)
        | _ => rfl
      · rfl
    · rfl
  rw [hnone, List.append_nil]

theorem serverStep_carried {server : Sys P W} {l : LinkScheduling.Label P W} {count : ℕ}
    (hrun : Sys.RunWhere cfg (fun _ _ => True) (.init P W dir) s.server)
    (h : Carried cfg dir file fd filename s) (hsent : s.sent <+: getHeader filename)
    (hfound : Found cfg file fd filename s (.server l count))
    (hstep : s.server.step cfg l = some server) (hheard : received (server.log fd) <+: s.sent) :
    Carried cfg dir file fd filename
      { s.carry fd count (s.server.callOf l) with server := server } := by
  cases h with
  | cut hbroken hoffered =>
      rw [carry_eq_self (Or.inl hbroken)]
      exact .cut hbroken hoffered
  | whole hbroken hwire hcalm =>
      by_cases hsend : ∃ fd' data ok, s.server.callOf l = some (fd, ⟨.sendAll fd' data, ok⟩)
      swap
      · have hne : ∀ fd' data ok, s.server.callOf l ≠ some (fd, ⟨.sendAll fd' data, ok⟩) :=
          fun fd' data ok heq => hsend ⟨fd', data, ok, heq⟩
        rw [carry_eq_self (Or.inr hne)]
        refine .whole hbroken (hwire.trans (by rw [sends_step hstep hne])) fun name hwanted => ?_
        refine .tail (hcalm name hwanted) (fun call hcall => ⟨hfound name hwanted call hcall, ?_⟩)
          hstep
        rintro fd' data rfl
        exact hne fd' data false hcall
      obtain ⟨fd', data, ok, hcall⟩ := hsend
      have hlog := Sys.callOf_log hcall hstep
      have hsends : ∀ r : Bool, (sends (s.server.log fd ++
          [⟨.sendAll fd' data, r⟩])).flatten = s.wire ++ data := by
        intro r
        rw [hwire, sends_append, List.flatten_append]
        simp [Eff.sent]
      rw [hcall]
      cases ok with
      | true =>
          simp only [carry, hbroken, ne_eq, not_true_eq_false, Bool.false_eq_true, or_self,
            if_false, if_true]
          refine .whole rfl (by rw [hlog, hsends]) fun name hwanted => ?_
          refine .tail (hcalm name hwanted)
            (fun call hcall' => ⟨hfound name hwanted call hcall', ?_⟩) hstep
          rintro f part rfl
          cases hcall.symm.trans hcall'
      | false =>
          simp only [carry, hbroken, ne_eq, not_true_eq_false, Bool.false_eq_true, or_self,
            if_false]
          refine .cut rfl ?_
          obtain ⟨l', server', hstep', hcall'⟩ := exists_success cfg hcall
          have hlog' := Sys.callOf_log hcall' hstep'
          have hcalm' : ∀ name, Wanted filename name → Sys.RunWhere cfg
              (Sys.Undisturbed (filePath cfg.fileDir name) file fd) (.init P W dir) server' := by
            intro name hwanted
            refine .tail (hcalm name hwanted) (fun call hcall'' => ?_) hstep'
            refine ⟨hfound name hwanted _ hcall, ?_⟩
            rintro f part rfl
            cases hcall'.symm.trans hcall''
          have hheard' : received (server'.log fd) <+: getHeader filename := by
            rw [hlog, received_append] at hheard
            rw [hlog', received_append]
            exact hheard.trans hsent
          have hoffered := Sys.run_offers (.tail hrun trivial hstep') hcalm' hheard'
          rw [hlog', hsends] at hoffered
          exact hoffered.of_prefix ((List.prefix_append_right_inj _).mpr (List.take_prefix _ _))

/-- What is on the stream is the header and the file from its start, or an error line. -/
theorem Carried.offered (hrun : Sys.RunWhere cfg (fun _ _ => True) (.init P W dir) t.server)
    (h : Carried cfg dir file fd filename t)
    (hheard : LinkScheduling.received (t.server.log fd) <+: getHeader filename) :
    Offered file t.wire := by
  cases h with
  | whole _ hwire hcalm => exact hwire ▸ Sys.run_offers hrun hcalm hheard
  | cut _ hoffered => exact hoffered

/-- A download and the server, from the start on. -/
structure Inv (cfg : Config) (dir : Directory) (file : File) (fd : Fd) (filename : Bytes)
    (t : Fetch P W) : Prop where
  server : Sys.RunWhere cfg (fun _ _ => True) (.init P W dir) t.server
  heard : received (t.server.log fd) <+: t.sent
  copies : ∃ g, Copies filename g t
  carried : Carried cfg dir file fd filename t

theorem carry_frame (fd : Fd) (s : Fetch P W) (count : ℕ) (call : Option (Fd × Call)) :
    ∃ wire broken, s.carry fd count call = { s with wire := s.wire ++ wire, broken := broken } := by
  unfold carry
  split
  · split
    · exact ⟨[], s.broken, by rw [List.append_nil]⟩
    · split
      · exact ⟨_, s.broken, rfl⟩
      · exact ⟨_, true, rfl⟩
  · exact ⟨[], s.broken, by rw [List.append_nil]⟩

theorem Copies.more {g : Copy} (h : Copies filename g s) (server : Sys P W) (wire : Bytes)
    (broken : Bool) : Copies filename g
      { s with server := server, wire := s.wire ++ wire, broken := broken } := by
  refine ⟨h.client, h.got.trans ?_, h.taken.trans ?_, h.asked, h.sent, h.written, h.missing,
    h.output, h.open_whole, h.whole⟩
  · exact (List.take_append_of_le_length h.taken).symm
  · exact (List.prefix_append s.wire wire).length_le

theorem run_inv
    (hrun : Run (step cfg fd) (Found cfg file fd filename) (start P W dir filename) t) :
    Inv cfg dir file fd filename t := by
  refine hrun.invariant (Inv cfg dir file fd filename)
    ⟨.refl _, List.nil_prefix, ⟨_, start_copies⟩, .whole rfl rfl fun _ _ => .refl _⟩ ?_
  intro s l u h hfound hstep
  obtain ⟨g, hcopies⟩ := h.copies
  cases l with
  | server l count =>
      obtain ⟨server, hserver, hrest⟩ := Option.bind_eq_some_iff.mp hstep
      split at hrest
      · rename_i hheard
        cases hrest
        have hcarried := serverStep_carried h.server h.carried hcopies.sent hfound hserver hheard
        obtain ⟨wire, broken, hcarry⟩ := carry_frame fd s count (s.server.callOf l)
        rw [hcarry] at hcarried ⊢
        exact ⟨.tail h.server trivial hserver, hheard, ⟨g, hcopies.more server wire broken⟩,
          hcarried⟩
      · cases hrest
  | client ok count =>
      have hclient := clientStep_cases hstep
      obtain ⟨hserver, hwire, hbroken⟩ := hclient.frame
      refine ⟨hserver ▸ h.server, ?_, clientStep_copies hcopies hclient, ?_⟩
      · rw [hserver]
        exact h.heard.trans hclient.sent_extends
      · cases h.carried with
        | whole hb hw hcalm =>
            refine .whole (hbroken.trans hb) ?_ ?_
            · rw [hwire, hserver, hw]
            · rw [hserver]
              exact hcalm
        | cut hb hoffered => exact .cut (hbroken.trans hb) (hwire ▸ hoffered)

theorem okLine_headerLine (n : ℕ) : HeaderLine (okLine n) := by
  refine ⟨ascii "OK " ++ decimal n, ?_, rfl⟩
  rw [List.mem_append, not_or]
  exact ⟨by decide, fun hmem => absurd (decimal_isdigit hmem) (by decide)⟩

/-- What a client was announced is the file of the server. -/
theorem announced_offered {got wire rest : Bytes} {n : ℕ} (h : Announced got n rest)
    (hgot : got <+: wire) (hoffered : Offered file wire) :
    n = file.size ∧ rest <+: file.bytes := by
  obtain ⟨line, hline, hok, hsize, rfl⟩ := h
  rcases hoffered with hfile | ⟨reason, herr⟩
  · obtain ⟨more, hmore⟩ := hgot.trans hfile
    rw [List.append_assoc] at hmore
    obtain ⟨rfl, hrest⟩ := hline.unique (okLine_headerLine file.size) hmore
    rw [okLine, List.append_assoc] at hsize
    have hdecimal : stoullText (decimal file.size ++ [newline]) = some n := hsize
    have hlt : file.size < 2 ^ 64 := lt_trans file.size_lt (by decide)
    rw [stoullText_decimal hlt] at hdecimal
    exact ⟨(Option.some.inj hdecimal).symm, more, hrest⟩
  · -- an error line does not begin with OK
    obtain ⟨more, hmore⟩ := (hok.trans (List.prefix_append line rest)).trans (hgot.trans herr)
    have hfirst := congrArg List.head? hmore
    simp [ascii, errLine] at hfirst

/-- The file of the step is where the client asks for it. -/
def findsFile (path : Bytes) (file : File) (s : Fetch P W) : Label P W → Bool
  | .server _ _ => s.server.dir (cstr path) = some file
  | .client _ _ => true

/-- The client receives a byte of the body with the status line and the rest later. -/
def twoPieces : List (Label 1 1) :=
  .client true 0 :: .client true 0 :: Sys.twoRounds.map (.server · 0) ++
    [.client true 6, .client true 0, .client true 0, .client true 3, .client true 0,
      .client true 0, .client true 0]

end Fetch

end LinkScheduling
