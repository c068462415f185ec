import LinkScheduling.Put.Failure
import LinkScheduling.Put.Exchange

/-!
# The verdict of the client

`put_file` reads two status lines by two calls of `read_status_line`, and the leftover of
the first is dropped. The server sends the second line after it received the whole body, and
the client sends the body after it read the first line, so with a body the two lines are
never on the stream together. An empty body leaves nothing to wait for: both lines may come
in one piece, and then the client waits for a line it has already dropped.
-/

namespace LinkScheduling

open Framework

/-! ## The client alone -/

/-- Both status lines. -/
def verdict : Bytes := okLine 0 ++ okLine 0

/-- What the client has sent and how much it has received. -/
structure Talk where
  sent : Bytes
  got : ℕ

/-- The client receives the verdict, and of the second line nothing before it has sent more
than the header. -/
def dialogue (header data : Bytes) : Contract ClientEff ClientResp Talk where
  guarantee g
    | .connect => g.sent = []
    | .sendAll part => part ≠ [] ∧ g.sent ++ part <+: header ++ data
    | .recv size => 0 < size ∧ g.got < verdict.length
    | .close => True
  rely g e r := match e, r with
    | .connect, ok => ok = true
    | .sendAll _, ok => ok = true
    | .recv _, some piece => piece ≠ [] ∧ piece <+: verdict.drop g.got ∧
        (g.sent.length ≤ header.length → g.got + piece.length ≤ (okLine 0).length)
    | .recv _, none => False
    | .close, _ => True
  next g e r := match e, r with
    | .sendAll part, true => ⟨g.sent ++ part, g.got⟩
    | .recv _, some piece => ⟨g.sent, g.got + piece.length⟩
    | _, _ => g

section Dialogue

variable {header data : Bytes}

/-- Where a status line starts in the verdict. -/
def LineStart (header : Bytes) (g : Talk) (base : ℕ) : Prop :=
  base = 0 ∧ g.sent.length ≤ header.length ∨
    base = (okLine 0).length ∧ header.length < g.sent.length

/-- A status line is done when its last byte is there. -/
theorem scanBuffer_okLine : ∀ l < 5, ∀ m ≤ 5 - l,
    scanBuffer ((okLine 0).take l) (((okLine 0).drop l).take m) =
      ((okLine 0).take (l + m), if l + m = 5 then some [] else none) := by
  decide

/-- A piece of the verdict, from the `l`-th byte of a status line on, ends with the line. -/
theorem piece_eq {g : Talk} {base l : ℕ} {piece : Bytes} (hstart : LineStart header g base)
    (hl : l < 5) (hpiece : piece <+: verdict.drop (base + l))
    (hlimit : g.sent.length ≤ header.length → base + l + piece.length ≤ (okLine 0).length) :
    piece.length ≤ 5 - l ∧ piece = ((okLine 0).drop l).take piece.length := by
  have hlen : (okLine 0).length = 5 := by decide
  have heq := List.prefix_iff_eq_take.mp hpiece
  rw [verdict, List.drop_append] at heq hpiece
  rcases hstart with ⟨rfl, hsent⟩ | ⟨rfl, hsent⟩
  · have hle := hlimit hsent
    rw [hlen] at hle
    refine ⟨by omega, ?_⟩
    rw [Nat.zero_add, List.take_append_of_le_length (by rw [List.length_drop]; omega)] at heq
    exact heq
  · rw [hlen, List.drop_eq_nil_of_le (by rw [hlen]; omega), List.nil_append,
      Nat.add_sub_cancel_left] at heq hpiece
    have hle := hpiece.length_le
    rw [List.length_drop, hlen] at hle
    exact ⟨hle, heq⟩

theorem readStatusLoop_dialogue (sent : Bytes) (base : ℕ) :
    ∀ (fuel l : ℕ), LineStart header ⟨sent, base + l⟩ base → l < 5 → 5 ≤ fuel + l →
      (readStatusLoop fuel ((okLine 0).take l)).wp (dialogue header data)
        (fun res g => (∃ leftover, res = some (okLine 0, leftover)) ∧ g = ⟨sent, base + 5⟩)
        ⟨sent, base + l⟩
  | 0, l, _, hl, hfuel => by omega
  | fuel + 1, l, hstart, hl, hfuel => by
      have hlen : (okLine 0).length = 5 := by decide
      unfold readStatusLoop
      rw [if_neg (by rw [List.length_take, hlen]; omega)]
      simp only [request, Prog.wp_bind, Prog.wp_perform]
      refine ⟨⟨by decide, ?_⟩, ?_⟩
      · have hbase : base ≤ 5 := by
          rcases hstart with ⟨rfl, -⟩ | ⟨rfl, -⟩
          · exact Nat.zero_le 5
          · rw [hlen]
        have hverdict : verdict.length = 10 := by decide
        rw [hverdict]
        change base + l < 10
        omega
      rintro (_ | piece) hanswer
      · exact hanswer.elim
      obtain ⟨hne, hpiece, hlimit⟩ := hanswer
      obtain ⟨hle, heq⟩ := piece_eq hstart hl hpiece hlimit
      have hpos : 0 < piece.length := List.length_pos_iff.mpr hne
      have hscan := scanBuffer_okLine l hl piece.length hle
      rw [← heq] at hscan
      rcases piece with _ | ⟨b, buffer⟩
      · exact absurd rfl hne
      simp only [hscan]
      by_cases hdone : l + (b :: buffer).length = 5
      · rw [if_pos hdone, hdone, List.take_of_length_le hlen.le]
        change (∃ leftover, some (okLine 0, ([] : Bytes)) = some (okLine 0, leftover)) ∧
          Talk.mk sent (base + l + (b :: buffer).length) = _
        rw [Nat.add_assoc, hdone]
        exact ⟨⟨[], rfl⟩, rfl⟩
      · rw [if_neg hdone]
        change (readStatusLoop fuel _).wp _ _ (Talk.mk sent (base + l + (b :: buffer).length))
        rw [Nat.add_assoc]
        exact readStatusLoop_dialogue sent base fuel _ hstart (by omega) (by omega)

/-- With a body, the client returns 0. -/
theorem putFile_dialogue {wireName : Bytes} (hname : isWireName wireName = true)
    (hdata : data ≠ []) :
    (putFile wireName data).wp (dialogue (putHeader wireName data.length) data)
      (fun v _ => v = 0) ⟨[], 0⟩ := by
  have hheader : putHeader wireName data.length ≠ [] := by simp [putHeader]
  have hpos : 0 < data.length := List.length_pos_iff.mpr hdata
  unfold putFile
  rw [if_neg (by simp [hname])]
  simp only [request, Prog.wp_bind, Prog.wp_perform]
  refine ⟨rfl, ?_⟩
  rintro connected rfl
  simp only [↓reduceIte, Prog.wp_bind, Prog.wp_perform]
  refine ⟨⟨hheader, List.prefix_append _ _⟩, ?_⟩
  rintro sent rfl
  simp only [↓reduceIte, Prog.wp_bind]
  -- the first status line
  refine Prog.wp_mono (readStatusLoop_dialogue (putHeader wireName data.length) 0 8192 0
    (Or.inl ⟨rfl, le_rfl⟩) (by decide) (by decide)) ?_
  rintro res g ⟨⟨leftover, rfl⟩, rfl⟩
  have hok : ascii "OK " <+: okLine 0 := by decide
  simp only [if_pos hok, putBody, if_pos hdata, request, Prog.wp_bind, Prog.wp_perform]
  refine ⟨⟨hdata, List.prefix_rfl⟩, ?_⟩
  rintro sent rfl
  simp only [↓reduceIte, Prog.wp_bind]
  -- the second
  refine Prog.wp_mono (readStatusLoop_dialogue (putHeader wireName data.length ++ data) 5 8192 0
    (Or.inr ⟨by decide, by simpa using hpos⟩) (by decide) (by decide)) ?_
  rintro res g ⟨⟨leftover, rfl⟩, rfl⟩
  simp only [Prog.wp_bind, Prog.wp_perform, Prog.wp_pure]
  exact ⟨trivial, fun _ _ => if_pos (by decide)⟩

/-- The client sends the header and then the body, and no more after a failed call. The
ghost state is what it has sent, as long as no call failed. -/
def sending (header data : Bytes) : Contract ClientEff ClientResp (Option Bytes) where
  guarantee g e := ∀ part, e = .sendAll part →
    ∃ sent, g = some sent ∧ sent ++ part <+: header ++ data
  rely _ _ _ := True
  next g e r := match e, r with
    | .connect, ok => if ok then g else none
    | .sendAll part, ok => if ok then g.map (· ++ part) else none
    | _, _ => g

/-- Reading a status line only receives. -/
theorem readStatusLoop_only : ∀ (fuel : ℕ) (line : Bytes),
    (readStatusLoop fuel line).Only (fun e => ∃ size, e = .recv size) (fun _ => True)
  | 0, _ => trivial
  | fuel + 1, line => by
      unfold readStatusLoop
      split
      · trivial
      · simp only [request, Prog.only_bind, Prog.only_perform]
        refine ⟨⟨4096, rfl⟩, ?_⟩
        rintro (_ | _ | ⟨b, buffer⟩)
        · trivial
        · trivial
        · simp only
          split
          · trivial
          · exact readStatusLoop_only fuel _

theorem readStatusLine_sends (g : Option Bytes) :
    readStatusLine.wp (sending header data) (fun _ g' => g' = g) g := by
  refine Prog.wp_mono ((readStatusLoop_only 8192 []).wp ?_ ?_) fun _ _ h => h.2
  · rintro e ⟨size, rfl⟩ part ⟨⟩
  · rintro e r ⟨size, rfl⟩
    rfl

theorem giveUp_sends (g : Option Bytes) :
    giveUp.wp (sending header data) (fun _ _ => True) g := by
  simp only [giveUp, request, Prog.wp_bind, Prog.wp_perform, Prog.wp_pure]
  refine ⟨?_, fun _ _ => trivial⟩
  rintro part ⟨⟩

/-- The end of `put_file`, from the second status line on. -/
theorem finalStatus_sends {f : Option (Bytes × Bytes) → Client ℕ} (g : Option Bytes)
    (hnone : f none = giveUp)
    (hsome : ∀ finalResponse leftover, ∃ v, f (some (finalResponse, leftover)) =
      request .close >>= fun _ => pure v) :
    (readStatusLine >>= f).wp (sending header data) (fun _ _ => True) g := by
  rw [Prog.wp_bind]
  refine Prog.wp_mono (readStatusLine_sends g) ?_
  rintro (_ | ⟨finalResponse, leftover⟩) g rfl
  · rw [hnone]
    exact giveUp_sends _
  · obtain ⟨v, hv⟩ := hsome finalResponse leftover
    simp only [hv, request, Prog.wp_bind, Prog.wp_perform, Prog.wp_pure]
    refine ⟨?_, fun _ _ => trivial⟩
    rintro part ⟨⟩

theorem putBody_sends :
    (putBody data).wp (sending header data) (fun _ _ => True) (some header) := by
  unfold putBody
  split
  · simp only [request, Prog.wp_bind, Prog.wp_perform]
    refine ⟨?_, ?_⟩
    · rintro part ⟨⟩
      exact ⟨header, rfl, List.prefix_rfl⟩
    · rintro (_ | _) -
      · exact giveUp_sends _
      · exact finalStatus_sends _ rfl fun _ _ => ⟨_, rfl⟩
  · exact finalStatus_sends _ rfl fun _ _ => ⟨_, rfl⟩

theorem putFile_sends (wireName : Bytes) :
    (putFile wireName data).wp (sending (putHeader wireName data.length) data)
      (fun _ _ => True) (some []) := by
  unfold putFile
  split
  · trivial
  · simp only [request, Prog.wp_bind, Prog.wp_perform]
    refine ⟨?_, ?_⟩
    · rintro part ⟨⟩
    rintro (_ | _) -
    · trivial
    simp only [↓reduceIte, Prog.wp_bind, Prog.wp_perform]
    refine ⟨?_, ?_⟩
    · rintro part ⟨⟩
      exact ⟨[], rfl, List.prefix_append _ _⟩
    rintro (_ | _) -
    · exact giveUp_sends _
    simp only [↓reduceIte, Prog.wp_bind]
    refine Prog.wp_mono (readStatusLine_sends _) ?_
    rintro (_ | ⟨initial, leftover⟩) g rfl
    · exact giveUp_sends _
    · simp only
      split
      · exact putBody_sends
      · exact giveUp_sends _

end Dialogue

/-! ## The server -/

section Log

variable {cfg : Config} {request : Request} {header data : Bytes}

theorem delivered_append (log log' : List Call) :
    delivered (log ++ log') = delivered log ++ delivered log' := List.filterMap_append

theorem delivered_sublist_sends (log : List Call) : (delivered log).Sublist (sends log) := by
  induction log with
  | nil => exact List.Sublist.slnil
  | cons call log ih =>
      rw [sends_cons]
      have happend : delivered (call :: log) = delivered [call] ++ delivered log :=
        delivered_append [call] log
      rw [happend]
      refine List.Sublist.append ?_ ih
      rcases call with ⟨e, r⟩
      cases e with
      | sendAll fd data =>
          cases r with
          | false => exact List.nil_sublist _
          | true => exact List.Sublist.refl _
      | _ => exact List.Sublist.refl _

/-- A part, from the start, of a log. -/
theorem Along.of_prefix {F : List Call → Call → Prop} {before log : List Call}
    (h : Along F log) (hpre : before <+: log) : Along F before := by
  obtain ⟨rest, rfl⟩ := hpre
  intro first call after heq
  exact h first call (after ++ rest) (by simp [heq])

/-- The second `OK 0` is sent after the rename. -/
theorem Along.renamed (h : Along (Proper cfg request) log)
    (hdelivered : delivered log = [okLine 0, okLine 0]) :
    ⟨.rename (stagingPath cfg request) (finalPath cfg request), true⟩ ∈ log := by
  have hsub := delivered_sublist_sends log
  rw [hdelivered] at hsub
  have hlen := hsub.length_le
  rcases h.answers with hsends | hsends | ⟨reason, hsends⟩ | ⟨-, hrename⟩
  · rw [hsends] at hlen
    cases hlen
  · rw [hsends] at hlen
    exact absurd hlen (by decide)
  · rw [hsends] at hsub
    have heq := hsub.eq_of_length rfl
    exact absurd (List.cons.inj (List.cons.inj heq).2).1 (okLine_ne_errLine 0 reason)
  · exact hrename

/-- An upload is renamed when all of it was received. -/
theorem Tracked.renamed_received {src dst : Bytes} {ok : Bool} {before : List Call}
    (htracked : Tracked cfg request log) (htrail : Along (Proper cfg request) log)
    (hheader : HeaderLine header) (hpre : before <+: log)
    (hlog : received before <+: header ++ data) (htotal : request.totalBytes = data.length)
    (hmem : ⟨.rename src dst, ok⟩ ∈ before) :
    header.length + data.length ≤ (received before).length := by
  obtain ⟨first, after, rfl⟩ := List.append_of_mem hmem
  obtain ⟨rest, hrest⟩ := hpre
  have hsplit : log = first ++ ⟨.rename src dst, ok⟩ :: (after ++ rest) := by
    rw [← hrest]
    simp
  obtain ⟨-, -, -, hle, -⟩ := htrail _ _ _ hsplit
  obtain ⟨admission, more, hfirst, hadm⟩ := htracked.admitted_before hsplit id (by simp)
  have hheaded : Headed first := by
    rw [hfirst]
    exact hadm.headed.append _
  rw [payload_length hheader hlog (hheaded.append _), hheaded.payload_append, List.length_append]
  omega

end Log

/-! ## Both together -/

/-- The server committed the upload of `data` as `wireName` and sent both status lines. -/
structure Committed {P W : ℕ} (cfg : Config) (fd : Fd) (wireName data : Bytes) (s : Sys P W) :
    Prop where
  renamed : ∃ request ∈ s.admitted, request.clientFd = fd ∧ request.op = .PUT ∧
    request.filename = wireName ∧ request.totalBytes = data.length ∧
    ⟨.rename (stagingPath cfg request) (finalPath cfg request), true⟩ ∈ s.log fd
  delivered : delivered (s.log fd) = [okLine 0, okLine 0]

namespace Exchange

variable {P W : ℕ} {cfg : Config} {dir : Directory} {fd : Fd} {wireName header data : Bytes}
  {s t u : Exchange P W}

/-- What a call of the client does. -/
inductive ClientStep (fd : Fd) (s : Exchange P W) : Exchange P W → Prop
  | connect (ok : Bool) (next : Bool → Client ℕ) : s.client = .call .connect next →
      ClientStep fd s { s with client := next ok }
  | sent (part : Bytes) (next : Bool → Client ℕ) : s.client = .call (.sendAll part) next →
      ClientStep fd s { s with client := next true, sent := s.sent ++ part }
  | unsent (part : Bytes) (count : ℕ) (next : Bool → Client ℕ) :
      s.client = .call (.sendAll part) next → count < part.length →
      ClientStep fd s { s with client := next false, sent := s.sent ++ part.take count }
  | received (size count : ℕ) (next : Option Bytes → Client ℕ) :
      s.client = .call (.recv size) next → 0 < count → count ≤ (s.stream fd).length →
      ClientStep fd s
        { s with client := next (some ((s.stream fd).take count)), taken := s.taken + count }
  | ended (size : ℕ) (next : Option Bytes → Client ℕ) : s.client = .call (.recv size) next →
      s.stream fd = [] → 0 < closes fd (s.server.log fd) →
      ClientStep fd s { s with client := next (some []) }
  | close (next : Unit → Client ℕ) : s.client = .call .close next →
      ClientStep fd s { s with client := next () }

theorem clientStep_cases {ok : Bool} {count : ℕ} (h : s.clientStep fd ok count = some t) :
    ClientStep fd s t := by
  unfold clientStep at h
  split at h
  · cases h
  · rename_i next hclient
    cases h
    exact .connect ok next hclient
  · rename_i part next hclient
    split at h
    · cases h
      exact .sent part next hclient
    · split at h
      · rename_i hcount
        cases h
        exact .unsent part count next hclient hcount
      · cases h
  · rename_i size next hclient
    split at h
    · rename_i hcount
      cases h
      exact .received size count next hclient hcount.1 hcount.2.2
    · split at h
      · rename_i hend
        cases h
        exact .ended size next hclient hend.1 hend.2
      · cases h
  · rename_i next hclient
    cases h
    exact .close next hclient

theorem step_cases {l : Label P W} (h : s.step cfg fd l = some t) :
    (∃ server l, s.server.step cfg l = some server ∧ received (server.log fd) <+: s.sent ∧
      t = { s with server := server }) ∨ ClientStep fd s t := by
  cases l with
  | server l =>
      obtain ⟨server, hserver, hrest⟩ := Option.bind_eq_some_iff.mp h
      split at hrest
      · rename_i hheard
        cases hrest
        exact Or.inl ⟨server, l, hserver, hheard, rfl⟩
      · cases hrest
  | client ok count => exact Or.inr (clientStep_cases h)

theorem ClientStep.server (h : ClientStep fd s t) : t.server = s.server := by
  cases h <;> rfl

/-- The server's part of a run. -/
theorem run_server (hrun : Run (step cfg fd) (fun _ _ => True) s t) :
    Sys.RunWhere cfg (fun _ _ => True) s.server t.server := by
  induction hrun with
  | refl => exact .refl _
  | tail _ _ hstep ih =>
      rcases step_cases hstep with ⟨server, l, hserver, -, rfl⟩ | hclient
      · exact .tail ih trivial hserver
      · rw [hclient.server]
        exact ih

theorem ClientStep.sent_extends (h : ClientStep fd s t) : s.sent <+: t.sent := by
  cases h with
  | sent part next h => exact List.prefix_append _ _
  | unsent part count next h hcount => exact List.prefix_append _ _
  | _ => exact List.prefix_rfl

/-- The server receives what the client has sent. -/
theorem run_heard (hrun : Run (step cfg fd) (fun _ _ => True) (start P W dir wireName data) t) :
    received (t.server.log fd) <+: t.sent := by
  refine hrun.invariant (fun t : Exchange P W => received (t.server.log fd) <+: t.sent)
    List.nil_prefix ?_
  intro t l u ih _ hstep
  rcases step_cases hstep with ⟨server, l, -, hheard, rfl⟩ | hclient
  · exact hheard
  · rw [hclient.server]
    exact ih.trans hclient.sent_extends

/-- A client that gave up sends nothing more. -/
theorem run_quits (hrun : Run (step cfg fd) (fun _ _ => True) s t)
    (h : s.client.wp (sending header data) (fun _ _ => True) none) : t.sent = s.sent := by
  suffices hinv : t.sent = s.sent ∧
      t.client.wp (sending header data) (fun _ _ => True) none from hinv.1
  refine hrun.invariant (fun t => t.sent = s.sent ∧
    t.client.wp (sending header data) (fun _ _ => True) none) ⟨rfl, h⟩ ?_
  rintro t l u ⟨hsent, hwp⟩ _ hstep
  rcases step_cases hstep with ⟨server, l, -, -, rfl⟩ | hclient
  · exact ⟨hsent, hwp⟩
  · cases hclient with
    | connect ok next hcall =>
        rw [hcall] at hwp
        have hnext := hwp.2 ok trivial
        cases ok <;> exact ⟨hsent, hnext⟩
    | sent part next hcall =>
        rw [hcall] at hwp
        obtain ⟨sent, hnone, -⟩ := hwp.1 part rfl
        cases hnone
    | unsent part count next hcall hcount =>
        rw [hcall] at hwp
        obtain ⟨sent, hnone, -⟩ := hwp.1 part rfl
        cases hnone
    | received size count next hcall hpos hle =>
        rw [hcall] at hwp
        exact ⟨hsent, hwp.2 _ trivial⟩
    | ended size next hcall hempty hclosed =>
        rw [hcall] at hwp
        exact ⟨hsent, hwp.2 _ trivial⟩
    | close next hcall =>
        rw [hcall] at hwp
        exact ⟨hsent, hwp.2 () trivial⟩

/-- What the client sends is the header and the body. -/
theorem run_sends (hrun : Run (step cfg fd) (fun _ _ => True) (start P W dir wireName data) t) :
    t.sent <+: putHeader wireName data.length ++ data := by
  suffices hinv : t.sent <+: putHeader wireName data.length ++ data ∧ ∃ g,
      t.client.wp (sending (putHeader wireName data.length) data) (fun _ _ => True) g ∧
      (g = none ∨ g = some t.sent) from hinv.1
  refine hrun.invariant (fun t : Exchange P W => t.sent <+: putHeader wireName data.length ++ data ∧
      ∃ g, t.client.wp (sending (putHeader wireName data.length) data) (fun _ _ => True) g ∧
      (g = none ∨ g = some t.sent))
    ⟨List.nil_prefix, _, putFile_sends wireName, Or.inr rfl⟩ ?_
  rintro t l u ⟨hpre, g, hwp, hg⟩ _ hstep
  rcases step_cases hstep with ⟨server, l, -, -, rfl⟩ | hclient
  · exact ⟨hpre, g, hwp, hg⟩
  · cases hclient with
    | connect ok next hcall =>
        rw [hcall] at hwp
        have hnext := hwp.2 ok trivial
        cases ok with
        | true => exact ⟨hpre, g, hnext, hg⟩
        | false => exact ⟨hpre, none, hnext, Or.inl rfl⟩
    | sent part next hcall =>
        rw [hcall] at hwp
        obtain ⟨sent, rfl, hpart⟩ := hwp.1 part rfl
        obtain rfl : sent = t.sent := by simpa using hg
        exact ⟨hpart, _, hwp.2 true trivial, Or.inr rfl⟩
    | unsent part count next hcall hcount =>
        rw [hcall] at hwp
        obtain ⟨sent, rfl, hpart⟩ := hwp.1 part rfl
        obtain rfl : sent = t.sent := by simpa using hg
        refine ⟨?_, none, hwp.2 false trivial, Or.inl rfl⟩
        exact ((List.prefix_append_right_inj t.sent).mpr (List.take_prefix _ _)).trans hpart
    | received size count next hcall hpos hle =>
        rw [hcall] at hwp
        exact ⟨hpre, g, hwp.2 _ trivial, hg⟩
    | ended size next hcall hempty hclosed =>
        rw [hcall] at hwp
        exact ⟨hpre, g, hwp.2 _ trivial, hg⟩
    | close next hcall =>
        rw [hcall] at hwp
        exact ⟨hpre, g, hwp.2 () trivial, hg⟩

/-- What is known of every state of a run, from the end of the run: what was put on the
stream, and what the client must have sent before. -/
structure Ahead (fd : Fd) (header data : Bytes) (t : Exchange P W) : Prop where
  delivered : LinkScheduling.delivered (t.server.log fd) <+: [okLine 0, okLine 0]
  second : LinkScheduling.delivered (t.server.log fd) = [okLine 0, okLine 0] →
    header.length + data.length ≤ t.sent.length
  closed : 0 < closes fd (t.server.log fd) →
    LinkScheduling.delivered (t.server.log fd) = [okLine 0, okLine 0]

/-- After `close` nothing is sent. -/
theorem delivered_of_closed {before log : List Call} (h : Sys.Orderly fd log)
    (hpre : before <+: log) (hclosed : 0 < closes fd before) :
    LinkScheduling.delivered log = LinkScheduling.delivered before := by
  obtain ⟨rest, rfl⟩ := hpre
  rw [delivered_append]
  have hnone : LinkScheduling.delivered rest = [] := by
    refine List.filterMap_eq_nil_iff.mpr fun call hmem => ?_
    obtain ⟨first, after, rfl⟩ := List.append_of_mem hmem
    have horder := h (before ++ first) call after (by simp)
    rcases call with ⟨e, r⟩
    cases e with
    | sendAll f part =>
        have hopen := (horder f rfl).2
        rw [closes, List.countP_append] at hopen
        rw [closes] at hclosed
        omega
    | _ => rfl
  rw [hnone, List.append_nil]

theorem ahead (hrun : Run (step cfg fd) (fun _ _ => True) (start P W dir wireName data) u)
    (hrest : Run (step cfg fd) (fun _ _ => True) u t)
    (hcommitted : Committed cfg fd wireName data t.server) :
    Ahead fd (putHeader wireName data.length) data u := by
  have hserver := run_server (hrun.trans hrest)
  have hpre : u.server.log fd <+: t.server.log fd :=
    Sys.run_log_extends (run_server hrest) fd
  obtain ⟨⟨request, hmem, rfl, hput, rfl, htotal, hrename⟩, hdelivered⟩ := hcommitted
  have htracked := Sys.run_tracked hserver hmem
  have htrail := (Sys.run_putLife hput hserver hmem).always.trail
  have hspace : ∀ c ∈ request.filename, isspace c = false := by
    obtain ⟨before, after, -, hadm⟩ := htracked.admitted
    obtain ⟨line, base, -, -, hparse, hop, hname, -⟩ := hadm.header
    have hwords := parseRequestHeader_words hparse
    rw [Request.HeaderWords, hop, hput] at hwords
    obtain ⟨op, digits, hwords, -⟩ := hwords
    rw [← hname]
    have hin : base.filename ∈ words isspace line := by simp [hwords]
    exact (mem_words hin).2
  have hheader := putHeader_headerLine hspace data.length
  have hheard := run_heard hrun
  refine ⟨?_, ?_, ?_⟩
  · obtain ⟨rest, hrest⟩ := hpre
    rw [← hrest, delivered_append] at hdelivered
    exact ⟨_, hdelivered⟩
  · intro htwo
    have hlog : received (u.server.log request.clientFd) <+:
        putHeader request.filename data.length ++ data := hheard.trans (run_sends hrun)
    exact (htracked.renamed_received htrail hheader hpre hlog htotal
      ((htrail.of_prefix hpre).renamed htwo)).trans hheard.length_le
  · intro hclosed
    have hsockets := Sys.run_sockets (Sys.init_sockets dir) hserver
    rw [← delivered_of_closed (hsockets.proper _) hpre hclosed, hdelivered]

theorem ClientStep.of_recv {size : ℕ} {next : Option Bytes → Client ℕ} (h : ClientStep fd s t)
    (hcall : s.client = .call (.recv size) next) (hmore : s.stream fd ≠ []) :
    ∃ count, 0 < count ∧ count ≤ (s.stream fd).length ∧ t = { s with
      client := next (some ((s.stream fd).take count))
      taken := s.taken + count } := by
  cases h with
  | received size' count next' hcall' hpos hle =>
      cases hcall.symm.trans hcall'
      exact ⟨count, hpos, hle, rfl⟩
  | ended size' next' hcall' hempty hclosed => exact absurd hempty hmore
  | connect ok next' hcall' => cases hcall.symm.trans hcall'
  | sent part next' hcall' => cases hcall.symm.trans hcall'
  | unsent part count next' hcall' hcount => cases hcall.symm.trans hcall'
  | close next' hcall' => cases hcall.symm.trans hcall'

theorem ClientStep.of_close {next : Unit → Client ℕ} (h : ClientStep fd s t)
    (hcall : s.client = .call .close next) : t = { s with client := next () } := by
  cases h with
  | close next' hcall' =>
      cases hcall.symm.trans hcall'
      rfl
  | received size count next' hcall' hpos hle => cases hcall.symm.trans hcall'
  | ended size next' hcall' hempty hclosed => cases hcall.symm.trans hcall'
  | connect ok next' hcall' => cases hcall.symm.trans hcall'
  | sent part next' hcall' => cases hcall.symm.trans hcall'
  | unsent part count next' hcall' hcount => cases hcall.symm.trans hcall'

/-- The client is where the dialogue says. -/
structure Agreeing (header data : Bytes) (t : Exchange P W) : Prop where
  talk : t.client.wp (dialogue header data) (fun v _ => v = 0) ⟨t.sent, t.taken⟩
  sends : t.client.wp (sending header data) (fun _ _ => True) (some t.sent)

/-- The two lines on the stream, and what of them may be there already. -/
theorem Ahead.stream (h : Ahead fd header data t) (hdata : data ≠ []) :
    (LinkScheduling.delivered (t.server.log fd)).flatten <+: verdict ∧
      (t.sent.length ≤ header.length →
        (LinkScheduling.delivered (t.server.log fd)).flatten.length ≤ (okLine 0).length) := by
  have hpos : 0 < data.length := List.length_pos_iff.mpr hdata
  obtain ⟨rest, hrest⟩ := h.delivered
  constructor
  · refine ⟨rest.flatten, ?_⟩
    rw [← List.flatten_append, hrest]
    rfl
  · intro hsent
    have hsecond := h.second
    generalize LinkScheduling.delivered (t.server.log fd) = lines at hrest hsecond ⊢
    rcases lines with _ | ⟨line, _ | ⟨line', lines⟩⟩
    · exact Nat.zero_le _
    · cases hrest
      exact le_rfl
    · -- the second line needs the body
      obtain ⟨rfl, rfl, hnil⟩ : line = okLine 0 ∧ line' = okLine 0 ∧ lines ++ rest = [] := by
        simpa using hrest
      obtain ⟨rfl, -⟩ := List.append_eq_nil_iff.mp hnil
      have := hsecond rfl
      omega

/-- A piece of what is on the stream is what the dialogue lets the client rely on. -/
theorem Ahead.piece (h : Ahead fd header data t) (hdata : data ≠ []) {size count : ℕ}
    (hpos : 0 < count) (hle : count ≤ (t.stream fd).length) :
    ((t.stream fd).take count).length = count ∧
      (dialogue header data).rely ⟨t.sent, t.taken⟩ (.recv size)
        (some ((t.stream fd).take count)) := by
  obtain ⟨hpre, hlimit⟩ := h.stream hdata
  have hlen : ((t.stream fd).take count).length = count := by
    rw [List.length_take, Nat.min_eq_left hle]
  refine ⟨hlen, ?_, ?_, ?_⟩
  · intro hnil
    rw [hnil] at hlen
    exact absurd hlen.symm (Nat.pos_iff_ne_zero.mp hpos)
  · exact (List.take_prefix _ _).trans (hpre.drop _)
  · intro hsent
    have hshort := hlimit hsent
    rw [Exchange.stream, List.length_drop] at hle
    change t.taken + _ ≤ _
    rw [hlen]
    omega

/-- **The client stays in the dialogue** in every run that leads to a committed upload. -/
theorem step_agreeing {l : Label P W} (hdata : data ≠ []) (hagree : Agreeing header data u)
    (hahead : Ahead fd header data u) (hstep : u.step cfg fd l = some s)
    (hrest : Run (step cfg fd) (fun _ _ => True) s t)
    (htold : header.length + data.length ≤ t.sent.length) : Agreeing header data s := by
  obtain ⟨htalk, hsends⟩ := hagree
  rcases step_cases hstep with ⟨server, l, -, -, rfl⟩ | hclient
  · exact ⟨htalk, hsends⟩
  cases hclient with
  | connect ok next hcall =>
      rw [hcall] at htalk hsends
      cases ok with
      | true => exact ⟨htalk.2 true rfl, hsends.2 true trivial⟩
      | false =>
          -- nothing is sent after a failed connect
          have hnone := run_quits hrest (hsends.2 false trivial)
          have hempty : u.sent = [] := htalk.1
          rw [hnone] at htold
          change _ ≤ u.sent.length at htold
          rw [hempty, List.length_nil] at htold
          exact absurd (List.length_pos_iff.mpr hdata) (by omega)
  | sent part next hcall =>
      rw [hcall] at htalk hsends
      exact ⟨htalk.2 true rfl, hsends.2 true trivial⟩
  | unsent part count next hcall hcount =>
      -- nor after a send that failed before its end
      rw [hcall] at htalk hsends
      have hnone := run_quits hrest (hsends.2 false trivial)
      have hle := htalk.1.2.length_le
      rw [hnone] at htold
      simp only [List.length_append, List.length_take] at htold hle
      omega
  | received size count next hcall hpos hle =>
      rw [hcall] at htalk hsends
      obtain ⟨hlen, hrely⟩ := hahead.piece hdata hpos hle
      have hnext := htalk.2 _ hrely
      refine ⟨?_, hsends.2 _ trivial⟩
      change (next _).wp _ _ (Talk.mk u.sent (u.taken + _)) at hnext
      rwa [hlen] at hnext
  | ended size next hcall hempty hclosed =>
      -- the server closes after the second line, and then not all was taken
      rw [hcall] at htalk
      have hlines := hahead.closed hclosed
      rw [stream, hlines] at hempty
      have hle := List.drop_eq_nil_iff.mp hempty
      exact absurd htalk.1.2 (Nat.not_lt.mpr hle)
  | close next hcall =>
      rw [hcall] at htalk hsends
      exact ⟨htalk.2 () trivial, hsends.2 () trivial⟩

/-- With both lines on the stream the client only receives, until it returns 0. -/
theorem settles_of_dialogue {log : List Call} (hdata : data ≠ [])
    (hdelivered : LinkScheduling.delivered log = [okLine 0, okLine 0]) :
    ∀ {p : Client ℕ} {t : Exchange P W}, t.client = p → t.server.log fd = log →
      t.sent = header ++ data →
      p.wp (dialogue header data) (fun v _ => v = 0) ⟨t.sent, t.taken⟩ → Settles fd 0 t := by
  intro p
  induction p with
  | ret v =>
      rintro t hclient - - rfl
      exact .done hclient
  | call e next ih =>
      intro t hclient hlog hsent hwp
      have hpos : 0 < data.length := List.length_pos_iff.mpr hdata
      cases e with
      | connect =>
          have hempty : t.sent = [] := hwp.1
          rw [hsent] at hempty
          exact absurd (List.append_eq_nil_iff.mp hempty).2 hdata
      | sendAll part =>
          have hlen := hwp.1.2.length_le
          have hpart : 0 < part.length := List.length_pos_iff.mpr hwp.1.1
          simp only [hsent, List.length_append] at hlen
          omega
      | recv size =>
          have hstream : t.stream fd = verdict.drop t.taken := by
            rw [stream, hlog, hdelivered]
            rfl
          have hmore : 0 < (t.stream fd).length := by
            rw [hstream, List.length_drop]
            exact Nat.sub_pos_of_lt hwp.1.2
          have hahead : Ahead fd header data t := by
            refine ⟨by rw [hlog, hdelivered], fun _ => ?_, fun _ => by rw [hlog, hdelivered]⟩
            rw [hsent, List.length_append]
          refine .step ⟨true, 1, { t with
            client := next (some ((t.stream fd).take 1))
            taken := t.taken + 1 }, ?_⟩ fun ok count u hstep => ?_
          · simp only [clientStep, hclient]
            exact if_pos ⟨Nat.one_pos, hwp.1.1, hmore⟩
          · obtain ⟨count, hcount, hle, rfl⟩ :=
              (clientStep_cases hstep).of_recv hclient (List.length_pos_iff.mp hmore)
            obtain ⟨hlen, hrely⟩ := hahead.piece hdata hcount hle
            have hnext := hwp.2 _ hrely
            refine ih _ rfl hlog hsent ?_
            change (next _).wp _ _ (Talk.mk t.sent (t.taken + _)) at hnext
            rwa [hlen] at hnext
      | close =>
          refine .step ⟨true, 0, { t with client := next () }, ?_⟩ fun ok count u hstep => ?_
          · simp only [clientStep, hclient]
          · cases (clientStep_cases hstep).of_close hclient
            exact ih () rfl hlog hsent (hwp.2 () trivial)

/-- With a body the client returns 0 when the upload is committed. -/
theorem settles_of_body (hdata : data ≠ [])
    (hrun : Run (step cfg fd) (fun _ _ => True) (start P W dir wireName data) t)
    (hcommitted : Committed cfg fd wireName data t.server) : Settles fd 0 t := by
  have hahead := ahead hrun (.refl t) hcommitted
  have htold := hahead.second hcommitted.delivered
  have hsends := run_sends hrun
  by_cases hname : isWireName wireName = true
  · have hagree : Agreeing (putHeader wireName data.length) data t := by
      have hmarked : Run (step cfg fd)
          (fun u l => Run (step cfg fd) (fun _ _ => True) (start P W dir wireName data) u ∧
            ∀ v, step cfg fd u l = some v → Run (step cfg fd) (fun _ _ => True) v t)
          (start P W dir wireName data) t := by
        refine hrun.mono_reach fun u l v hu _ hstep hrest => ⟨hu, fun v' hstep' => ?_⟩
        cases hstep.symm.trans hstep'
        exact hrest
      refine hmarked.invariant (Agreeing _ _) ⟨putFile_dialogue hname hdata, putFile_sends _⟩ ?_
      rintro u l v hagree ⟨hu, hrest⟩ hstep
      have hleft : Run (step cfg fd) (fun _ _ => True) u t :=
        .trans (.tail (.refl u) trivial hstep) (hrest v hstep)
      exact step_agreeing hdata hagree (ahead hu hleft hcommitted) hstep (hrest v hstep) htold
    have hall : t.sent = putHeader wireName data.length ++ data :=
      hsends.eq_of_length_le (by rw [List.length_append]; exact htold)
    exact settles_of_dialogue hdata hcommitted.delivered rfl rfl hall hagree.talk
  · -- the client does not even connect
    have hnothing : (start P W dir wireName data).client.wp
        (sending (putHeader wireName data.length) data) (fun _ _ => True) none := by
      change (putFile wireName data).wp _ _ none
      rw [putFile, if_pos (by simpa using hname)]
      trivial
    have hsent := run_quits hrun hnothing
    rw [hsent] at htold
    have hheader : 0 < (putHeader wireName data.length).length := by simp [putHeader]
    exact absurd hheader (by change _ + _ ≤ 0 at htold; omega)

/-- The value of a client that returned. -/
def returned (s : Exchange P W) : Option ℕ :=
  match s.client with
  | .ret v => some v
  | .call _ _ => none

/-- Both lines of an empty upload come in one piece; the client waits for the end. -/
def bothLines : List (Label 1 1) :=
  .client true 0 :: .client true 0 :: (arrive 7 (ascii "PUT a 0\n") 3 ++ work 9).map .server ++
    [.client true 10, .client true 0, .client true 0]

theorem empty_body_unsettled : ∃ t : Exchange 1 1,
    Run (step (plainConfig .RR 2 (by decide) (by decide)) 7) (fun _ _ => True)
      (start 1 1 (fun _ => none) (ascii "a") []) t ∧
    Committed (plainConfig .RR 2 (by decide) (by decide)) 7 (ascii "a") [] t.server ∧
    ¬ Settles 7 0 t := by
  have htrue : ∀ (s : Exchange 1 1) (l : Label 1 1), (fun _ _ => true) s l = true → True :=
    fun _ _ _ => trivial
  obtain ⟨t, hrun, hcheck⟩ := script_exists bothLines
    (fun t => t.server.admitted.any (fun r => r.op = .PUT ∧ r.clientFd = 7 ∧
      r.filename = ascii "a" ∧ r.totalBytes = 0) &&
      delivered (t.server.log 7) = [okLine 0, okLine 0] && t.returned = some 1) htrue
    (show (script (step (plainConfig .RR 2 (by decide) (by decide)) 7) (fun _ _ => true)
      (start 1 1 (fun _ => none) (ascii "a") []) bothLines).any _ = true by decide +kernel)
  simp only [Bool.and_eq_true, decide_eq_true_eq, List.any_eq_true] at hcheck
  obtain ⟨⟨⟨request, hmem, hput, hfd, hname, htotal⟩, hlines⟩, hreturned⟩ := hcheck
  refine ⟨t, hrun, ⟨⟨request, hmem, hfd, hput, hname, htotal, ?_⟩, hlines⟩, fun hsettles => ?_⟩
  · have htrail := (Sys.run_putLife hput (run_server hrun) hmem).always.trail
    rw [hfd] at htrail
    exact htrail.renamed hlines
  · cases hsettles with
    | done hclient => simp [returned, hclient] at hreturned
    | step hsome hall =>
        obtain ⟨ok, count, u, hstep⟩ := hsome
        unfold returned at hreturned
        split at hreturned
        · rename_i v hclient
          simp [clientStep, hclient] at hstep
        · cases hreturned

/-- **The verdict of `put_file` does not depend on segmentation exactly for uploads with a
body.** In every run of the client beside the server that ends with the upload committed and
both `OK 0` lines sent, the client goes on to return 0 however its calls are answered. -/
theorem put_verdict (data : Bytes) :
    (∀ (P W : ℕ) (cfg : Config) (dir : Directory) (fd : Fd) (wireName : Bytes)
      (t : Exchange P W),
      Run (step cfg fd) (fun _ _ => True) (start P W dir wireName data) t →
      Committed cfg fd wireName data t.server → Settles fd 0 t) ↔ data ≠ [] := by
  constructor
  · rintro h rfl
    obtain ⟨t, hrun, hcommitted, hunsettled⟩ := empty_body_unsettled
    exact hunsettled (h 1 1 _ _ 7 _ t hrun hcommitted)
  · intro hdata P W cfg dir fd wireName t hrun hcommitted
    exact settles_of_body hdata hrun hcommitted

theorem put_verdict_empty :
    ¬ ∀ (data : Bytes) (P W : ℕ) (cfg : Config) (dir : Directory) (fd : Fd) (wireName : Bytes)
      (t : Exchange P W),
      Run (step cfg fd) (fun _ _ => True) (start P W dir wireName data) t →
      Committed cfg fd wireName data t.server → Settles fd 0 t := by
  intro h
  obtain ⟨t, hrun, hcommitted, hunsettled⟩ := empty_body_unsettled
  exact hunsettled (h [] 1 1 _ _ 7 _ t hrun hcommitted)

end Exchange

end LinkScheduling
