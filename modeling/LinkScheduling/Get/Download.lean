import LinkScheduling.Model.Download
import LinkScheduling.Metatheory.Decoding

/-!
# What a download stores

The body of a GET comes to the client in two ways: what was received together with the status
line, and what `recv_exact` receives later. The two loops count separately, and both keep that
the output file holds the first `received` bytes of the body.
-/

namespace LinkScheduling

open Framework

/-- What of the server's stream the client has not received, and the output file. -/
structure Transfer where
  waiting : Bytes
  file : Option Bytes

/-- The server sends the stream and closes. A receive gets some piece of it of at most the
requested size, an empty one only at its end, and every call on the output file succeeds. -/
def transfers : Contract DownloadEff DownloadResp Transfer where
  guarantee _ _ := True
  rely t e r := match e, r with
    | .net .connect, ok => ok = true
    | .net (.sendAll _), ok => ok = true
    | .net (.recv size), data => ∃ piece, data = some piece ∧ piece <+: t.waiting ∧
        piece.length ≤ size ∧ (piece = [] → size = 0 ∨ t.waiting = [])
    | .openOutput _, ok => ok = true
    | .write _, ok => ok = true
    | _, _ => True
  next t e r := match e, r with
    | .net (.recv _), data => { t with waiting := t.waiting.drop (data.getD []).length }
    | .openOutput _, _ => { t with file := some [] }
    | .write data, _ => { t with file := t.file.map (· ++ data) }
    | _, _ => t

/-- `get_file` returns `code` after the calls `log`, the server's stream being `stream`. -/
def Downloads (filename stream : Bytes) (code : ℕ) (log : List (Event DownloadEff DownloadResp)) :
    Prop :=
  Prog.Steps (getFile filename true) log (.ret code) ∧
    Prog.Steps.Keeps transfers ⟨stream, none⟩ log

/-- The output file after the calls `log`. -/
def outputFile (stream : Bytes) (log : List (Event DownloadEff DownloadResp)) : Option Bytes :=
  (Prog.Steps.after transfers ⟨stream, none⟩ log).file

/-! ## The status line -/

/-- The client reads the line, and what else it received is the start of the body. -/
theorem readStatusLoop_line {body : Bytes} {file : Option Bytes} : ∀ (fuel : ℕ) (line more : Bytes),
    8192 ≤ fuel + line.length → newline ∉ more → (line ++ more).length < 8192 →
    (readStatusLoop fuel line).wp (transfers.restrict DownloadEff.net)
      (fun res t => ∃ leftover, res = some (line ++ more ++ [newline], leftover) ∧
        leftover ++ t.waiting = body ∧ t.file = file) ⟨more ++ newline :: body, file⟩
  | 0, line, more, hfuel, _, hlen => by
      rw [List.length_append] at hlen
      omega
  | fuel + 1, line, more, hfuel, hno, hlen => by
      have hshort : ¬ 8192 ≤ line.length := by
        rw [List.length_append] at hlen
        omega
      unfold readStatusLoop
      rw [if_neg hshort]
      simp only [request, Prog.wp_bind, Prog.wp_perform]
      refine ⟨trivial, ?_⟩
      rintro data ⟨piece, rfl, ⟨tail, htail⟩, -, hempty⟩
      have hne : piece ≠ [] := by
        rintro rfl
        rcases hempty rfl with h | h
        · cases h
        · simp at h
      obtain ⟨b, buffer, rfl⟩ := List.exists_cons_of_ne_nil hne
      have htail : b :: buffer ++ tail = more ++ newline :: body := htail
      have hdrop : (more ++ newline :: body).drop (b :: buffer).length = tail := by
        rw [← htail, List.drop_left]
      change Prog.wp _ _ _ (Transfer.mk ((more ++ newline :: body).drop (b :: buffer).length) file)
      rw [hdrop]
      rcases List.append_eq_append_iff.mp htail with ⟨rest, hmore, rfl⟩ | ⟨rest, hpiece, hrest⟩
      · -- the newline is still to come
        rw [hmore, List.mem_append, not_or] at hno
        simp only [scanBuffer_of_notMem line hno.1]
        rw [hmore, ← List.append_assoc] at hlen ⊢
        refine readStatusLoop_line fuel (line ++ b :: buffer) rest ?_ hno.2 hlen
        rw [List.length_append, List.length_cons]
        omega
      · -- the piece reaches the newline, or ends right before it
        cases rest with
        | nil =>
            rw [List.append_nil] at hpiece
            rw [List.nil_append] at hrest
            subst hrest
            rw [← hpiece] at hno
            simp only [scanBuffer_of_notMem line hno, ← hpiece]
            have hloop := @readStatusLoop_line body file fuel (line ++ b :: buffer) []
              (by rw [List.length_append, List.length_cons]; omega) (by simp)
              (by rwa [List.append_nil, hpiece])
            simpa using hloop
        | cons c leftover =>
            rw [List.cons_append, List.cons.injEq] at hrest
            obtain ⟨rfl, rfl⟩ := hrest
            have hscan : scanBuffer line (b :: buffer) =
                (line ++ more ++ [newline], some leftover) := by
              rw [hpiece, scanBuffer_newline line leftover hno]
            simp only [hscan]
            exact ⟨leftover, rfl, rfl, rfl⟩

/-! ## The body -/

section Body

variable {size fuel received : ℕ} {body waiting : Bytes}

/-- The output file holds the first `received` bytes of the body, and while the body is not
complete the rest of it is what is waiting. -/
structure Received (body : Bytes) (size received : ℕ) (t : Transfer) : Prop where
  file : t.file = some (body.take received)
  waiting : received < size → t.waiting = body.drop received
  le_size : received ≤ size
  le_length : received ≤ body.length

theorem copyPrefix_received {pre : Bytes} : ∀ {fuel k : ℕ}, pre.length ≤ k + fuel →
    k ≤ min size pre.length →
    (copyPrefix size pre true fuel k k).wp transfers
      (fun res t => res = some (min size pre.length) ∧
        t = ⟨waiting, some (pre.take (min size pre.length))⟩) ⟨waiting, some (pre.take k)⟩
  | 0, k, hfuel, hk => by
      have hk : k = min size pre.length := le_antisymm hk (by omega)
      rw [← hk]
      exact ⟨rfl, rfl⟩
  | fuel + 1, k, hfuel, hk => by
      unfold copyPrefix
      by_cases hmore : k < size ∧ k < pre.length
      · rw [if_pos hmore]
        simp only [writeOut, if_true, output, Prog.wp_bind, Prog.wp_perform]
        refine ⟨trivial, ?_⟩
        rintro ok (rfl : ok = true)
        rw [if_pos rfl]
        have hnext : (pre.take k) ++ ((pre.drop k).take (min (size - k) (pre.length - k))) =
            pre.take (k + min (size - k) (pre.length - k)) := List.take_add.symm
        change Prog.wp _ _ _ (Transfer.mk waiting
          (some (pre.take k ++ (pre.drop k).take (min (size - k) (pre.length - k)))))
        rw [hnext]
        exact copyPrefix_received (by omega) (by omega)
      · rw [if_neg hmore]
        have hk : k = min size pre.length := le_antisymm hk (by omega)
        rw [← hk]
        exact ⟨rfl, rfl⟩

/-- A piece that arrives is written and counted. -/
theorem Received.piece {t : Transfer} {piece : Bytes} (h : Received body size received t)
    (hmore : received < size) (hpiece : piece <+: t.waiting)
    (hlen : piece.length ≤ min (size - received) 8192) :
    Received body size (received + piece.length)
      ⟨t.waiting.drop piece.length, t.file.map (· ++ piece)⟩ := by
  have hwaiting := h.waiting hmore
  rw [hwaiting] at hpiece
  have htake := List.prefix_iff_eq_take.mp hpiece
  have hle := hpiece.length_le
  rw [List.length_drop] at hle
  refine ⟨?_, fun _ => ?_, by omega, by have := h.le_length; omega⟩
  · rw [h.file, List.take_add, ← htake]
    rfl
  · rw [hwaiting, List.drop_drop]

theorem recvRest_received : ∀ {fuel received : ℕ} {t : Transfer}, size ≤ received + fuel →
    Received body size received t →
    (recvRest size true fuel received).wp transfers
      (fun ok t => t.file = some (body.take size) ∧ (ok = true ↔ size ≤ body.length)) t
  | 0, received, t, hfuel, h => by
      have hsize : received = size := le_antisymm h.le_size hfuel
      have hle := h.le_length
      rw [hsize] at hle
      exact ⟨hsize ▸ h.file, iff_of_true rfl hle⟩
  | fuel + 1, received, t, hfuel, h => by
      unfold recvRest
      by_cases hmore : received < size
      swap
      · have hsize : received = size := le_antisymm h.le_size (Nat.not_lt.mp hmore)
        have hle := h.le_length
        rw [hsize] at hle
        rw [if_neg hmore]
        exact ⟨hsize ▸ h.file, iff_of_true rfl hle⟩
      rw [if_pos hmore]
      simp only [net, request, Prog.wp_bind, Prog.wp_embed, Prog.wp_perform]
      refine ⟨trivial, ?_⟩
      rintro data ⟨piece, rfl, hpiece, hlen, hempty⟩
      cases piece with
      | nil =>
          -- the stream has ended
          have hnone : t.waiting = [] := by
            rcases hempty rfl with hzero | hnone
            · omega
            · exact hnone
          rw [h.waiting hmore, List.drop_eq_nil_iff] at hnone
          have hend : received = body.length := le_antisymm h.le_length hnone
          refine ⟨?_, iff_of_false (by simp) (by omega)⟩
          change t.file = _
          rw [h.file, hend, List.take_length, List.take_of_length_le (by omega)]
      | cons b buffer =>
          simp only [writeOut, if_true, output, Prog.wp_bind, Prog.wp_perform]
          refine ⟨trivial, ?_⟩
          rintro ok (rfl : ok = true)
          rw [if_pos rfl]
          refine recvRest_received ?_ (h.piece hmore hpiece hlen)
          rw [List.length_cons]
          omega

theorem recvExact_received {pre : Bytes} :
    (recvExact size pre true).wp transfers
      (fun ok t => t.file = some ((pre ++ waiting).take size) ∧
        (ok = true ↔ size ≤ (pre ++ waiting).length)) ⟨waiting, some []⟩ := by
  unfold recvExact
  rw [Prog.wp_bind]
  refine Prog.wp_mono (@copyPrefix_received size waiting pre pre.length 0 (by omega)
    (Nat.zero_le _)) ?_
  rintro res t ⟨rfl, rfl⟩
  refine recvRest_received (Nat.le_add_left _ _) ⟨?_, fun hmore => ?_, Nat.min_le_left _ _, ?_⟩
  · rw [List.take_append_of_le_length (Nat.min_le_right _ _)]
  · have hall : min size pre.length = pre.length := by omega
    rw [hall, List.drop_left]
  · rw [List.length_append]
    omega

end Body

/-! ## The download -/

theorem getBody_stores {filename leftover waiting : Bytes} {size : ℕ} :
    (getBody filename size leftover true).wp transfers
      (fun code t => t.file = some ((leftover ++ waiting).take size) ∧
        code = if size ≤ (leftover ++ waiting).length then 0 else 1) ⟨waiting, none⟩ := by
  unfold getBody
  simp only [if_true, output, Prog.wp_bind, Prog.wp_perform]
  refine ⟨trivial, ?_⟩
  rintro ok (rfl : ok = true)
  rw [if_pos rfl, Prog.wp_bind]
  refine Prog.wp_mono recvExact_received ?_
  rintro ok t ⟨hfile, hok⟩
  simp only [net, request, Prog.wp_bind, Prog.wp_embed, Prog.wp_perform, Prog.wp_pure]
  refine ⟨trivial, fun _ _ => ⟨trivial, fun _ _ => ⟨hfile, ?_⟩⟩⟩
  simp only [hok]

/-- The client reads back the size the server wrote. -/
theorem stoullText_decimal {n : ℕ} (hn : n < 2 ^ 64) :
    stoullText (decimal n ++ [newline]) = some n := by
  obtain ⟨d, digits, hdigits⟩ := List.exists_cons_of_ne_nil (decimal_ne_nil n)
  have hd : isdigit d = true := decimal_isdigit (by rw [hdigits]; exact List.mem_cons_self)
  have hspace : (decimal n ++ [newline]).dropWhile isspace = decimal n ++ [newline] := by
    rw [hdigits, List.cons_append, List.dropWhile_cons_of_neg]
    rw [isspace_of_isdigit hd]
    decide
  have hhead : (decimal n ++ [newline]).head? = some d := by rw [hdigits]; rfl
  have hminus : d ≠ 45 := by
    rintro rfl
    exact absurd hd (by decide)
  have hplus : d ≠ 43 := by
    rintro rfl
    exact absurd hd (by decide)
  have htake : (decimal n ++ [newline]).takeWhile isdigit = decimal n := by
    rw [List.takeWhile_append_of_pos fun c hc => decimal_isdigit hc]
    simp [show isdigit newline = false by decide]
  have hvalue : stoull (decimal n) = some n := by
    rw [stoull, digitsValue_decimal, if_pos hn]
  simp [stoullText, hspace, hhead, hminus, hplus, htake, decimal_ne_nil, hvalue]

theorem getFile_stores {filename body : Bytes} {n : ℕ} (hn : n < 2 ^ 64) :
    (getFile filename true).wp transfers
      (fun code t => t.file = some (body.take n) ∧ code = if n ≤ body.length then 0 else 1)
      ⟨okLine n ++ body, none⟩ := by
  have hstatus := @readStatusLoop_line body none 8192 [] (ascii "OK " ++ decimal n)
    (Nat.le_add_right _ _) (by
      rw [List.mem_append, not_or]
      exact ⟨by decide, fun hmem => absurd (decimal_isdigit hmem) (by decide)⟩) (by
      have hlen := decimal_length_le hn
      rw [List.nil_append, List.length_append]
      exact lt_of_le_of_lt (Nat.add_le_add_left hlen _) (by decide))
  have hstream : okLine n ++ body = ascii "OK " ++ decimal n ++ newline :: body := by
    simp [okLine]
  unfold getFile
  simp only [net, request, Prog.wp_bind, Prog.wp_embed, Prog.wp_perform]
  refine ⟨trivial, ?_⟩
  rintro ok (rfl : ok = true)
  simp only [if_true, Prog.wp_bind, Prog.wp_embed, Prog.wp_perform]
  refine ⟨trivial, ?_⟩
  rintro ok (rfl : ok = true)
  simp only [if_true, Prog.wp_bind, Prog.wp_embed, readStatusLine]
  rw [hstream]
  refine Prog.wp_mono hstatus ?_
  rintro res t ⟨leftover, rfl, rfl, hfile⟩
  have hok : ascii "OK " <+: [] ++ (ascii "OK " ++ decimal n) ++ [newline] := by
    rw [List.nil_append, List.append_assoc]
    exact List.prefix_append _ _
  have hsize : stoullText (([] ++ (ascii "OK " ++ decimal n) ++ [newline]).drop 3) = some n := by
    rw [List.nil_append, List.append_assoc]
    exact stoullText_decimal hn
  simp only [if_pos hok, hsize]
  obtain ⟨waiting, file⟩ := t
  subst hfile
  exact getBody_stores

theorem downloads_exists (filename stream : Bytes) :
    ∃ code log, Downloads filename stream code log := by
  have hok : ∀ (t : Transfer) e, True → ∃ r, transfers.rely t e r ∧ True := by
    intro t e _
    cases e with
    | net e =>
        cases e with
        | recv size =>
            refine ⟨some (t.waiting.take size), ⟨_, rfl, List.take_prefix _ _,
              List.length_take_le _ _, fun h => ?_⟩, trivial⟩
            exact List.take_eq_nil_iff.mp h
        | close => exact ⟨(), trivial, trivial⟩
        | _ => exact ⟨true, rfl, trivial⟩
    | closeOutput => exact ⟨(), trivial, trivial⟩
    | _ => exact ⟨true, rfl, trivial⟩
  obtain ⟨log, code, hsteps, hlog⟩ := Prog.Steps.exists_keeps (fun _ => True) hok
    (getFile filename true) (g := ⟨stream, none⟩) trivial
  exact ⟨code, log, hsteps, hlog⟩

/-- **A download stores the announced bytes.** However the network cuts `OK n` and what follows
it, `get_file` returns. With at least `n` bytes it returns 0 and has stored the first `n`; with
fewer it returns 1 and has stored them all. -/
theorem get_file_stores (filename rest : Bytes) {n : ℕ} (hn : n < 2 ^ 64) :
    (∃ code log, Downloads filename (okLine n ++ rest) code log) ∧
    ∀ code log, Downloads filename (okLine n ++ rest) code log →
      (n ≤ rest.length → code = 0 ∧ outputFile (okLine n ++ rest) log = some (rest.take n)) ∧
      (rest.length < n → code = 1 ∧ outputFile (okLine n ++ rest) log = some rest) := by
  refine ⟨downloads_exists filename _, fun code log h => ?_⟩
  obtain ⟨hfile, hcode⟩ := h.1.wp_keeps (getFile_stores hn) h.2
  constructor
  · intro hle
    exact ⟨hcode.trans (if_pos hle), hfile⟩
  · intro hlt
    refine ⟨hcode.trans (if_neg (Nat.not_le.mpr hlt)), hfile.trans ?_⟩
    rw [List.take_of_length_le hlt.le]

/-- A body of two bytes, and one byte of three. -/
theorem get_file_stores_two :
    (∃ log, Downloads (ascii "a") (okLine 2 ++ ascii "xyz") 0 log ∧
      outputFile (okLine 2 ++ ascii "xyz") log = some (ascii "xy")) ∧
    ∃ log, Downloads (ascii "a") (okLine 3 ++ ascii "x") 1 log ∧
      outputFile (okLine 3 ++ ascii "x") log = some (ascii "x") := by
  constructor
  · obtain ⟨⟨code, log, h⟩, hall⟩ :=
      get_file_stores (ascii "a") (ascii "xyz") (show 2 < 2 ^ 64 by decide)
    obtain ⟨rfl, hfile⟩ := (hall code log h).1 (by decide)
    exact ⟨log, h, hfile.trans (by decide)⟩
  · obtain ⟨⟨code, log, h⟩, hall⟩ :=
      get_file_stores (ascii "a") (ascii "x") (show 3 < 2 ^ 64 by decide)
    obtain ⟨rfl, hfile⟩ := (hall code log h).2 (by decide)
    exact ⟨log, h, hfile⟩

end LinkScheduling
