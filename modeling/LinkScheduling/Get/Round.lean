import LinkScheduling.Metatheory.Requests

/-!
# One round of a GET

`read_file_line` opens the path anew for every line, so the lines of one round may
come from several versions of the file. A `View` fixes what a GET may find: a
content whose line ends every version shares, a predicate that every byte of every
version satisfies, and whether the file may be missing or sends may fail. As long as
the lines keep their places, the offset of the request stays on a line end and what
was sent is the header followed by the bytes up to that offset.
-/

namespace LinkScheduling

open Framework

structure View where
  /-- A content with the line ends that every version of the file has. -/
  content : Bytes
  /-- What may stand at a position. -/
  good : ℕ → UInt8 → Prop
  /-- The file may be missing, sends may fail. -/
  faults : Prop
  /-- The file may be missing before anything was sent. -/
  missing : Prop
  size_lt : content.length < 2 ^ 63

namespace View

variable {V : View}

def size (V : View) : ℕ := V.content.length

/-- A version of the file that fits the view. -/
def Accepts (V : View) (file : File) : Prop :=
  SameLines newline V.size file.bytes V.content ∧
    ∀ k b, k < V.size → file.bytes[k]? = some b → V.good k b

def allowed (V : View) (log : List Call) : Call → Prop
  | ⟨.openRead _, some file⟩ => V.Accepts file
  | ⟨.openRead _, none⟩ => V.faults
  | ⟨.stat _, none⟩ => V.faults ∨ V.missing ∧ sends log = []
  | ⟨.sendAll _ _, false⟩ => V.faults
  | _ => True

/-- The bytes may stand from position `off` on. -/
def GoodAt (V : View) (off : ℕ) (bytes : Bytes) : Prop :=
  ∀ k b, bytes[k]? = some b → V.good (off + k) b

/-- The header and the first `p` bytes of the body were sent. -/
def Sent (V : View) (p : ℕ) (l : List Bytes) : Prop :=
  ∃ pieces, l = okLine V.size :: pieces ∧ pieces.flatten.length = p ∧ p ≤ V.size ∧
    V.GoodAt 0 pieces.flatten

/-- What may have been sent on the connection of a GET. -/
inductive Shape (V : View) (l : List Bytes) : Prop
  | silent : l = [] → Shape V l
  | refused : V.missing ∨ V.faults → l = [errLine (ascii "file not found")] → Shape V l
  | sent (p : ℕ) : V.Sent p l → Shape V l
  | broken (p : ℕ) (l' : List Bytes) (reason : Bytes) : V.faults → V.Sent p l' →
      l = l' ++ [errLine reason] → Shape V l

/-- A line ends at `off`, or nothing was read yet. -/
def Boundary (V : View) (off : ℕ) : Prop := off = 0 ∨ LineEnd newline V.content off

def nextLine (V : View) (off : ℕ) : ℕ := lineLength newline V.content off

theorem goodAt_nil (off : ℕ) : V.GoodAt off [] := by
  intro k b h
  simp at h

theorem GoodAt.append {off : ℕ} {a b : Bytes} (ha : V.GoodAt off a)
    (hb : V.GoodAt (off + a.length) b) : V.GoodAt off (a ++ b) := by
  intro k c hc
  rcases Nat.lt_or_ge k a.length with hk | hk
  · rw [List.getElem?_append_left hk] at hc
    exact ha k c hc
  · rw [List.getElem?_append_right hk] at hc
    have := hb (k - a.length) c hc
    rwa [Nat.add_assoc, Nat.add_sub_cancel' hk] at this

theorem lineEnd_size {off : ℕ} (h : off < V.size) : LineEnd newline V.content V.size :=
  lineEnd_length (Nat.lt_of_le_of_lt (Nat.zero_le off) h)

theorem nextLine_pos {off : ℕ} (h : off < V.size) : 0 < V.nextLine off := lineLength_pos h

theorem nextLine_le {off e : ℕ} (he : V.Boundary e) (h : off < e) :
    off + V.nextLine off ≤ e := by
  rcases he with rfl | he
  · omega
  · exact lineLength_le he h

theorem boundary_nextLine {off : ℕ} (h : off < V.size) : V.Boundary (off + V.nextLine off) :=
  Or.inr (lineEnd_lineLength h)

theorem boundary_size : V.Boundary V.size := by
  rcases Nat.eq_zero_or_pos V.size with h | h
  · exact Or.inl h
  · exact Or.inr (lineEnd_size h)

theorem Boundary.le {off : ℕ} (h : V.Boundary off) : off ≤ V.size := by
  rcases h with rfl | h
  · exact Nat.zero_le _
  · exact h.le_length

theorem Accepts.size_le {file : File} (h : V.Accepts file) {off : ℕ} (hoff : off < V.size) :
    V.size ≤ file.size :=
  ((h.1 V.size le_rfl).mpr (lineEnd_size hoff)).le_length

theorem Accepts.lineAt_length {file : File} (h : V.Accepts file) {off : ℕ}
    (hoff : off < V.size) : (lineAt file off).length = V.nextLine off :=
  h.1.lineLength_eq (lineEnd_size hoff) hoff

theorem Accepts.lineAt_good {file : File} (h : V.Accepts file) {off : ℕ} (hoff : off < V.size) :
    V.GoodAt off (lineAt file off) := by
  intro k b hb
  obtain ⟨hk, rfl⟩ := List.getElem?_eq_some_iff.mp hb
  have hle : off + V.nextLine off ≤ V.size := nextLine_le boundary_size hoff
  have hlen := h.lineAt_length hoff
  have hpre : lineAt file off <+: file.bytes.drop off := firstLine_prefix _
  refine h.2 (off + k) _ (by omega) ?_
  rw [← List.getElem?_drop]
  exact List.prefix_iff_getElem?.mp hpre k hk

/-- The lifecycle `L` only makes calls the view allows and asks for no more than the
shape of the view. -/
structure Fits (V : View) (L : Lifecycle) : Prop where
  allowed : ∀ log call, L.allowed log call → V.allowed log call
  always : ∀ log, V.Shape (sends log) → L.always log

variable {L : Lifecycle}

/-- Reading a line before the end of the view: the line the view has there, from
whichever version was found, or none if faults may happen. -/
theorem readFileLine_view (hL : V.Fits L) {path : Bytes} {off : ℕ} {log : List Call}
    {Q : Option (ℕ × Bytes) → List Call → Prop} (hoff : off < V.size)
    (hshape : V.Shape (sends log))
    (hfault : V.faults → ∀ log', sends log' = sends log → Q none log')
    (hline : ∀ off' line log', sends log' = sends log → line.length = V.nextLine off →
      V.GoodAt off line → (off + line.length < V.size → off' = off + line.length) →
      Q (some (off', line)) log') :
    (readFileLine path off).wp L.contract Q log := by
  refine readFileLine_wp ⟨hL.always log hshape, trivial⟩ ?_ ?_ ?_
  · rintro r ⟨-, hr⟩ hsize
    have hr := hL.allowed _ _ hr
    have hsends : sends (log ++ [⟨.openRead path, r⟩]) = sends log := by simp [Eff.sent]
    rcases r with _ | file
    · exact hfault hr _ hsends
    · have := hr.size_le hoff
      have := hsize file rfl
      omega
  · rintro file ⟨-, hr⟩ -
    have hr : V.Accepts file := hL.allowed _ _ hr
    exact hline _ _ _ (by simp [Lifecycle.contract, Eff.sent]) (hr.lineAt_length hoff)
      (hr.lineAt_good hoff) fun _ => rfl
  · rintro file ⟨-, hr⟩ - hlast
    have hr : V.Accepts file := hL.allowed _ _ hr
    have hsends : sends (log ++ [⟨.openRead path, some file⟩]) = sends log := by
      simp [Eff.sent]
    refine ⟨⟨hL.always _ (hsends ▸ hshape), trivial⟩, fun st _ => ?_⟩
    refine hline _ _ _ (by simp [Lifecycle.contract, Eff.sent]) (hr.lineAt_length hoff)
      (hr.lineAt_good hoff) fun hlt => ?_
    have := hr.size_le hoff
    omega

/-! ## Selecting the lines of a round -/

/-- What the selection loop chooses from offset `off`: whole lines within the
budget, as many as fit, or one longer line where that is allowed. -/
structure Selected (V : View) (allow : Bool) (budget off roundBytes : ℕ) : Prop where
  boundary : V.Boundary (off + roundBytes)
  within : roundBytes ≤ budget ∨ allow = true ∧ roundBytes = V.nextLine off
  maximal : V.faults ∨ budget < roundBytes + V.nextLine (off + roundBytes) ∨
    budget < roundBytes
  progress : allow = true → 0 < budget → V.faults ∨ 0 < roundBytes

/-- The loop stops with what it has. -/
theorem Selected.stay {allow : Bool} {budget off roundBytes : ℕ}
    (hb : V.Boundary (off + roundBytes)) (hle : roundBytes ≤ budget)
    (hmax : V.faults ∨ budget < roundBytes + V.nextLine (off + roundBytes))
    (hprog : allow = true → 0 < budget → V.faults ∨ 0 < roundBytes) :
    V.Selected allow budget off roundBytes :=
  ⟨hb, Or.inl hle, hmax.imp id Or.inl, hprog⟩

theorem selectLines_view (hL : V.Fits L) {path : Bytes} {allow : Bool} {budget off : ℕ}
    (hbudget : off + budget < V.size) :
    ∀ (fuel lineOffset roundBytes a14 : ℕ) (log : List Call), budget ≤ fuel + roundBytes →
      roundBytes ≤ budget → lineOffset = off + roundBytes → V.Boundary (off + roundBytes) →
      V.Shape (sends log) →
      (selectLines path allow budget fuel lineOffset roundBytes a14).wp L.contract
        (fun res log' => sends log' = sends log ∧ V.Selected allow budget off res.1 ∧
          res.2 = if budget < res.1 then u64 (a14 + 1) else a14) log
  | 0, lineOffset, roundBytes, a14, log, hfuel, hle, hoff, hb, hshape => by
      have hpos : 0 < V.nextLine (off + roundBytes) := nextLine_pos (by omega)
      have hsel : V.Selected allow budget off roundBytes :=
        .stay hb hle (Or.inr (by omega)) fun _ _ => Or.inr (by omega)
      exact ⟨rfl, hsel, (if_neg (by omega)).symm⟩
  | fuel + 1, lineOffset, roundBytes, a14, log, hfuel, hle, hoff, hb, hshape => by
      have hlt : off + roundBytes < V.size := by omega
      have hpos := nextLine_pos hlt
      have hsize := nextLine_le boundary_size hlt
      have hsmall : V.size < 2 ^ 63 := V.size_lt
      unfold selectLines
      split
      · rename_i hloop
        rw [Prog.wp_bind, hoff]
        refine readFileLine_view hL hlt hshape ?_ ?_
        · intro hfault log' hsends
          exact ⟨hsends, .stay hb hle (Or.inl hfault) fun _ _ => Or.inl hfault,
            (if_neg (by omega)).symm⟩
        · intro off' line log' hsends hlen hgood hnext
          have hu : u64 (roundBytes + line.length) = roundBytes + line.length :=
            u64_of_lt (by omega)
          simp only
          split
          · -- the first line alone is longer than the budget
            rename_i hlong
            obtain ⟨rfl, hlong⟩ := hlong
            split
            · rename_i hallow
              have hend : V.Boundary (off + line.length) := hlen ▸ boundary_nextLine hlt
              exact ⟨hsends, ⟨hend, Or.inr ⟨hallow, hlen⟩, Or.inr (Or.inr hlong),
                fun _ _ => Or.inr (by omega)⟩, (if_pos hlong).symm⟩
            · rename_i hallow
              have hsel : V.Selected allow budget off 0 :=
                .stay hb hle (Or.inr (by omega)) fun h => absurd h hallow
              exact ⟨hsends, hsel, (if_neg (by omega)).symm⟩
          · rename_i hshort
            rw [hu]
            split
            · -- the line waits for the next round
              rename_i hfull
              have hsel : V.Selected allow budget off roundBytes :=
                .stay hb hle (Or.inr (by omega)) fun _ _ => Or.inr (by omega)
              exact ⟨hsends, hsel, (if_neg (by omega)).symm⟩
            · rename_i hfits
              have hoff' := hnext (by omega)
              have hend : V.Boundary (off + (roundBytes + line.length)) := by
                rw [← Nat.add_assoc, hlen]
                exact boundary_nextLine hlt
              refine Prog.wp_mono (selectLines_view hL hbudget fuel off'
                (roundBytes + line.length) a14 log' (by omega) (by omega) (by omega) hend
                (hsends ▸ hshape)) ?_
              rintro res log'' ⟨h1, h2⟩
              exact ⟨h1.trans hsends, h2⟩
      · rename_i hloop
        have hsel : V.Selected allow budget off roundBytes :=
          .stay hb hle (Or.inr (by omega)) fun _ _ => Or.inr (by omega)
        exact ⟨rfl, hsel, (if_neg (by omega)).symm⟩

/-! ## Sending them -/

theorem gatherPacket_view (hL : V.Fits L) {fd : Fd} {path : Bytes} (start : ℕ) {stop : ℕ}
    (hstop : V.Boundary stop) :
    ∀ (linesLeft lineOffset remaining : ℕ) (packet : Bytes) (log : List Call),
      start + packet.length + remaining = stop →
      (0 < remaining → lineOffset = start + packet.length) → V.GoodAt start packet →
      V.Shape (sends log) →
      (gatherPacket fd path linesLeft lineOffset remaining packet).wp L.contract
        (fun res log' => match res with
          | none => V.faults ∧ ∃ reason, sends log' = sends log ++ [errLine reason]
          | some (packet', lineOffset', remaining') => sends log' = sends log ∧
              start + packet'.length + remaining' = stop ∧
              (0 < remaining' → lineOffset' = start + packet'.length) ∧
              V.GoodAt start packet' ∧
              (0 < linesLeft → 0 < remaining → remaining' < remaining) ∧
              remaining' ≤ remaining) log
  | 0, lineOffset, remaining, packet, log, hsum, hoff, hgood, hshape =>
      ⟨rfl, hsum, hoff, hgood, by simp, le_rfl⟩
  | linesLeft + 1, lineOffset, remaining, packet, log, hsum, hoff, hgood, hshape => by
      unfold gatherPacket
      split
      · rename_i hrem
        rw [Prog.wp_bind, hoff hrem]
        have hle := hstop.le
        have hlt : start + packet.length < V.size := by omega
        refine readFileLine_view hL hlt hshape ?_ ?_
        · intro hfault log' hsends
          simp only [sendError, perform, Prog.wp_bind, Prog.wp_perform, Prog.wp_pure]
          refine ⟨⟨hL.always _ (hsends ▸ hshape), trivial⟩, fun _ _ => ⟨hfault, ?_⟩⟩
          exact ⟨_, by simp [Lifecycle.contract, Eff.sent, hsends]; rfl⟩
        · intro off' line log' hsends hlen hline hnext
          have hfits : start + packet.length + V.nextLine (start + packet.length) ≤ stop :=
            nextLine_le hstop (by omega)
          have hpos := nextLine_pos hlt
          simp only
          rw [if_neg (by omega)]
          refine Prog.wp_mono (gatherPacket_view hL start hstop linesLeft off'
            (remaining - line.length) (packet ++ line) log' ?_ ?_ ?_ (hsends ▸ hshape)) ?_
          · simp only [List.length_append]
            omega
          · intro hpos'
            have := hnext (by omega)
            simp only [List.length_append]
            omega
          · exact hgood.append hline
          · rintro (_ | ⟨packet', off'', remaining'⟩) log''
            · rintro ⟨hfault, reason, hs⟩
              exact ⟨hfault, reason, by rw [hs, hsends]⟩
            · rintro ⟨h1, h2, h3, h4, h5, h6⟩
              exact ⟨h1.trans hsends, h2, h3, h4, fun _ _ => by omega, by omega⟩
      · rename_i hrem
        exact ⟨rfl, hsum, hoff, hgood, fun _ h => absurd h hrem, le_rfl⟩

theorem Sent.snoc {p : ℕ} {l : List Bytes} {packet : Bytes} (h : V.Sent p l)
    (hle : p + packet.length ≤ V.size) (hgood : V.GoodAt p packet) :
    V.Sent (p + packet.length) (l ++ [packet]) := by
  obtain ⟨pieces, rfl, rfl, -, hpieces⟩ := h
  refine ⟨pieces ++ [packet], rfl, by simp, hle, ?_⟩
  simp only [List.flatten_append, List.flatten_cons, List.flatten_nil, List.append_nil]
  exact hpieces.append (by rwa [Nat.zero_add])

/-- How a round of a GET can end. -/
inductive Outcome (V : View) (p : ℕ) (l : List Bytes) : Bool → Prop
  | sent : V.Sent p l → Outcome V p l true
  | lost : V.faults → V.Shape l → Outcome V p l false
  | refused : V.missing ∨ V.faults → l = [errLine (ascii "file not found")] →
      Outcome V p l false

theorem sendPackets_view (hL : V.Fits L) {fd : Fd} {path : Bytes} {packetization stop : ℕ}
    (hpack : 0 < packetization) (hstop : V.Boundary stop) :
    ∀ (fuel lineOffset remaining bytesProcessed : ℕ) (log : List Call), remaining ≤ fuel →
      remaining ≤ stop → (0 < remaining → lineOffset = stop - remaining) →
      bytesProcessed + remaining < 2 ^ 63 → V.Sent (stop - remaining) (sends log) →
      (sendPackets fd path packetization fuel lineOffset remaining bytesProcessed).wp L.contract
        (fun res log' => V.Outcome stop (sends log') res.1 ∧
          (res.1 = true → res.2 = bytesProcessed + remaining)) log
  | 0, lineOffset, remaining, bytesProcessed, log, hfuel, hle, hoff, hsmall, hsent => by
      obtain rfl : remaining = 0 := by omega
      exact ⟨.sent hsent, fun _ => rfl⟩
  | fuel + 1, lineOffset, remaining, bytesProcessed, log, hfuel, hle, hoff, hsmall, hsent => by
      unfold sendPackets
      split
      · rename_i hrem
        rw [Prog.wp_bind]
        refine Prog.wp_mono (gatherPacket_view hL (stop - remaining) hstop packetization
          lineOffset remaining [] log (by simp; omega) (by simpa using hoff) (goodAt_nil _)
          (.sent _ hsent)) ?_
        rintro (_ | ⟨packet, off', remaining'⟩) log'
        · rintro ⟨hfault, reason, hs⟩
          exact ⟨.lost hfault (.broken _ _ reason hfault hsent hs), by simp⟩
        · rintro ⟨hs, hsum, hoff', hgood, hprog, hle'⟩
          have hlt := hprog hpack hrem
          have hlen : stop - remaining + packet.length = stop - remaining' := by omega
          have hsent' : V.Sent (stop - remaining') (sends log ++ [packet]) := by
            rw [← hlen]
            exact hsent.snoc (by have := hstop.le; omega) hgood
          simp only [perform, Prog.wp_bind, Prog.wp_perform]
          refine ⟨⟨hL.always _ (.sent _ (hs ▸ hsent)), trivial⟩, ?_⟩
          rintro ok ⟨-, hok⟩
          have hs' : sends (L.contract.next log' (.sendAll fd packet) ok) =
              sends log ++ [packet] := by
            simp [Lifecycle.contract, Eff.sent, hs]
          cases ok with
          | false =>
              -- the packet counts as sent: the client may have got any part of it
              refine ⟨.lost (hL.allowed _ _ hok) (.sent _ (hs' ▸ hsent')), by simp⟩
          | true =>
              have hu : u64 (bytesProcessed + packet.length) =
                  bytesProcessed + packet.length := u64_of_lt (by omega)
              simp only [↓reduceIte, hu]
              refine Prog.wp_mono (sendPackets_view hL hpack hstop fuel off' remaining'
                (bytesProcessed + packet.length) _ (by omega) (by omega)
                (fun h => by have := hoff' h; omega) (by omega) (hs' ▸ hsent')) ?_
              rintro res log'' ⟨h1, h2⟩
              exact ⟨h1, fun h => by have := h2 h; omega⟩
      · rename_i hrem
        obtain rfl : remaining = 0 := by omega
        exact ⟨.sent hsent, fun _ => rfl⟩

theorem sendRound_view (hL : V.Fits L) (req : Request) {path : Bytes}
    {roundBytes packetization : ℕ} {log : List Call} (hpack : 0 < packetization)
    (hstop : V.Boundary (req.offset + roundBytes)) (hsent : V.Sent req.offset (sends log)) :
    (sendRound req path roundBytes packetization).wp L.contract
      (fun res log' => V.Outcome (req.offset + roundBytes) (sends log') res.1 ∧
        res.2.1 = req ∧ (res.1 = true → res.2.2 = roundBytes)) log := by
  have hsmall : V.size < 2 ^ 63 := V.size_lt
  have hle := hstop.le
  unfold sendRound
  split
  · rename_i hzero
    subst hzero
    exact ⟨.sent hsent, rfl, fun _ => rfl⟩
  simp only [perform, Prog.wp_bind, Prog.wp_perform]
  refine ⟨⟨hL.always _ (.sent _ hsent), trivial⟩, ?_⟩
  rintro r ⟨-, hr⟩
  have hs : sends (L.contract.next log (.openRead path) r) = sends log := by
    simp [Lifecycle.contract, Eff.sent]
  rcases r with _ | file
  · have hfault : V.faults := hL.allowed _ _ hr
    simp only [sendError, perform, Prog.wp_bind, Prog.wp_perform, Prog.wp_pure]
    refine ⟨⟨hL.always _ (.sent _ (hs ▸ hsent)), trivial⟩, fun _ _ => ⟨.lost hfault ?_, ?_⟩⟩
    · refine .broken _ _ (ascii "cannot open file") hfault hsent ?_
      simp [Lifecycle.contract, Eff.sent]
    · simp
  · have hseek : ((({ content := file.bytes } : IStream).seekg req.offset).good) = true := by
      unfold IStream.seekg
      rw [if_pos (by omega)]
      rfl
    simp only [hseek, ↓reduceIte, Prog.wp_bind]
    refine Prog.wp_mono (sendPackets_view hL hpack hstop roundBytes req.offset roundBytes 0 _
      le_rfl (by omega) (by omega) (by omega) ?_) ?_
    · rw [hs, Nat.add_sub_cancel]
      exact hsent
    · rintro ⟨ok, n⟩ log' ⟨hout, hn⟩
      exact ⟨hout, rfl, fun h => by simpa using hn h⟩

/-- What a successful round of a GET processed from offset `off` on. -/
def Served (V : View) (allow : Bool) (budget off bytesProcessed : ℕ) : Prop :=
  if V.size - off ≤ budget then bytesProcessed = V.size - off
  else V.Selected allow budget off bytesProcessed

theorem Served.boundary {allow : Bool} {budget off n : ℕ} (h : V.Served allow budget off n)
    (hoff : off ≤ V.size) : V.Boundary (off + n) := by
  unfold Served at h
  split at h
  · rw [h, Nat.add_sub_cancel' hoff]
    exact boundary_size
  · exact h.boundary

theorem serveGetBody_view (hL : V.Fits L) {req : Request} {path : Bytes} {budget : ℕ}
    {allow : Bool} {packetization : ℤ} {log : List Call} (hpack : 0 < packetization)
    (htotal : req.totalBytes = V.size) (hb : V.Boundary req.offset)
    (hsent : V.Sent req.offset (sends log)) :
    (serveGetBody req path budget allow packetization).wp L.contract
      (fun res log' => ∃ stop a14, V.Outcome stop (sends log') res.1 ∧
        res.2.1 = { req with a14Events := a14 } ∧
        (res.1 = true → stop = req.offset + res.2.2 ∧
          V.Served allow budget req.offset res.2.2)) log := by
  have hle := hb.le
  have hpack' : 0 < packetization.toNat := by omega
  unfold serveGetBody
  split
  · -- nothing is left to send, or nothing may be sent in this round
    rename_i hskip
    refine ⟨req.offset, req.a14Events, .sent hsent, rfl, fun _ => ⟨rfl, ?_⟩⟩
    unfold Served
    split
    · change 0 = V.size - req.offset
      omega
    · have hlt : req.offset < V.size := by omega
      have hpos := nextLine_pos hlt
      exact .stay hb (Nat.zero_le _) (Or.inr (by simp only [Nat.add_zero]; omega))
        fun _ h => by omega
  split
  · omega
  split
  · -- the rest of the file fits
    rename_i hskip hpos hwhole
    have hstop : V.Boundary (req.offset + (req.totalBytes - req.offset)) := by
      rw [htotal, Nat.add_sub_cancel' hle]
      exact boundary_size
    refine Prog.wp_mono (sendRound_view hL req hpack' hstop hsent) ?_
    rintro ⟨ok, req', n⟩ log' ⟨hout, hreq, hn⟩
    refine ⟨_, req.a14Events, hout, hreq, fun hok => ?_⟩
    have hn : n = req.totalBytes - req.offset := hn hok
    refine ⟨by simp only [hn], ?_⟩
    unfold Served
    rw [if_pos (by omega)]
    simp only [hn, htotal]
  · -- the budget is smaller than the rest: whole lines are chosen first
    rename_i hskip hpos hwhole
    rw [Prog.wp_bind]
    have hbudget : req.offset + budget < V.size := by omega
    refine Prog.wp_mono (selectLines_view hL hbudget budget req.offset 0 req.a14Events log
      (by omega) (Nat.zero_le _) rfl hb (.sent _ hsent)) ?_
    rintro ⟨roundBytes, a14⟩ log' ⟨hs, hsel, -⟩
    refine Prog.wp_mono (sendRound_view hL { req with a14Events := a14 } hpack'
      hsel.boundary (hs ▸ hsent)) ?_
    rintro ⟨ok, req', n⟩ log'' ⟨hout, hreq, hn⟩
    refine ⟨_, a14, hout, hreq, fun hok => ?_⟩
    have hn : n = roundBytes := hn hok
    refine ⟨by simp only [hn], ?_⟩
    unfold Served
    rw [if_neg (by omega)]
    simp only [hn]
    exact hsel

end View

end LinkScheduling
