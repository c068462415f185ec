import LinkScheduling.Framework.Packing
import LinkScheduling.Metatheory.Rounds

/-!
# One round on an unchanging file

When every look at the path finds the same file, a round of a GET is determined: which
lines it chooses, how it counts them and what it sends. Only a send may still fail, and then
nothing more is sent.
-/

namespace LinkScheduling

open Framework

/-! ## The lines a round chooses -/

/-- The lines of `file` from an offset on. -/
def linesFrom (file : File) (off : ℕ) : List Bytes := lines newline (file.bytes.drop off)

/-- The lines of a round: all that is left if the budget allows it, else what fits into the
budget, or one longer line where that is allowed. -/
def roundLines (file : File) (allow : Bool) (budget off : ℕ) : List Bytes :=
  if budget = 0 then []
  else if file.size - off ≤ budget then linesFrom file off
  else if allow then nextGroup List.length budget (linesFrom file off)
  else fitting List.length budget (linesFrom file off)

/-- The bytes of some lines. -/
abbrev lineBytes (ls : List Bytes) : ℕ := total List.length ls

section Lines

variable {file : File} {off : ℕ}

theorem lineBytes_cons (line : Bytes) (ls : List Bytes) :
    lineBytes (line :: ls) = line.length + lineBytes ls := total_cons line ls

theorem lineBytes_append (a b : List Bytes) : lineBytes (a ++ b) = lineBytes a + lineBytes b :=
  total_append a b

theorem lineBytes_eq (ls : List Bytes) : lineBytes ls = ls.flatten.length := by
  rw [List.length_flatten]
  rfl

theorem linesFrom_bytes : (linesFrom file off).flatten = file.bytes.drop off := lines_flatten _ _

theorem lineBytes_linesFrom : lineBytes (linesFrom file off) = file.size - off := by
  rw [lineBytes_eq, linesFrom_bytes, List.length_drop]
  rfl

theorem linesFrom_of_le (h : file.size ≤ off) : linesFrom file off = [] := by
  rw [linesFrom, List.drop_eq_nil_of_le h]
  rfl

theorem linesFrom_cons (h : off < file.size) :
    linesFrom file off = lineAt file off :: linesFrom file (off + (lineAt file off).length) := by
  have hne : file.bytes.drop off ≠ [] := by
    rw [ne_eq, List.drop_eq_nil_iff]
    exact Nat.not_le.mpr h
  rw [linesFrom, lines_eq_cons newline hne, List.drop_drop]
  rfl

/-- After whole lines come the other lines. -/
theorem linesFrom_append {first rest : List Bytes} (h : linesFrom file off = first ++ rest) :
    linesFrom file (off + lineBytes first) = rest := by
  rw [lineBytes_eq, linesFrom, ← List.drop_drop]
  exact lines_drop h

theorem linesFrom_pos {line : Bytes} (h : line ∈ linesFrom file off) : 0 < line.length :=
  List.length_pos_iff.mpr (lines_ne_nil h)

theorem roundLines_initial (file : File) (allow : Bool) (budget off : ℕ) :
    roundLines file allow budget off <+: linesFrom file off := by
  unfold roundLines
  split
  · exact List.nil_prefix
  · split
    · exact List.prefix_rfl
    · split
      · exact nextGroup_initial _
      · exact (fitting_longest _ _).initial

theorem lineBytes_roundLines_le (file : File) (allow : Bool) (budget off : ℕ) :
    lineBytes (roundLines file allow budget off) ≤ file.size - off :=
  (total_prefix_le (roundLines_initial file allow budget off)).trans lineBytes_linesFrom.le

end Lines

/-! ## The round as a contract -/

/-- The answers of a directory that has `file` under `path`. -/
def Call.Steady (file : File) (path : Bytes) : Call → Prop
  | ⟨.openRead p, r⟩ => p = path → r = some file
  | ⟨.stat p, r⟩ => p = path → r = some file.size
  | _ => True

/-- The calls of a part of a round. Before every call the bytes sent are a beginning of
`planned`. -/
def steady (file : File) (path : Bytes) (planned : Bytes) : Contract Eff Resp (List Call) where
  guarantee calls e := e.inside ∧ (sends calls).flatten ++ e.sent.flatten <+: planned
  rely _ e r := Call.Steady file path ⟨e, r⟩
  next calls e r := calls ++ [⟨e, r⟩]

/-- A send failed. -/
def SendFailed (calls : List Call) : Prop := ∃ fd data, ⟨.sendAll fd data, false⟩ ∈ calls

section Round

variable {file : File} {path planned : Bytes}

theorem steady_quiet {calls : List Call} {e : Eff} (he : e.inside) (hsent : e.sent = [])
    (hplan : (sends calls).flatten <+: planned) : (steady file path planned).guarantee calls e :=
  ⟨he, by simpa [hsent] using hplan⟩

/-- On an unchanging file a line before the end is always read. -/
theorem readFileLine_steady {off : ℕ} {calls : List Call} (hoff : off < file.size)
    (hplan : (sends calls).flatten <+: planned) :
    (readFileLine path off).wp (steady file path planned)
      (fun res calls' => res = some (off + (lineAt file off).length, lineAt file off) ∧
        sends calls' = sends calls) calls := by
  refine readFileLine_wp (steady_quiet trivial rfl hplan) ?_ ?_ ?_
  · intro r hr hsize
    have hr : r = some file := hr rfl
    exact absurd hoff (Nat.not_lt.mpr (hsize file hr))
  · intro file' hr _
    have hr : some file' = some file := hr rfl
    cases hr
    exact ⟨rfl, by simp [steady, Eff.sent]⟩
  · intro file' hr _ hlast
    have hr : some file' = some file := hr rfl
    cases hr
    have hs : sends ((steady file path planned).next calls (.openRead path) (some file)) =
        sends calls := by
      simp [steady, Eff.sent]
    refine ⟨steady_quiet trivial rfl (hs ▸ hplan), fun st hst => ?_⟩
    have hst : st = some file.size := hst rfl
    subst hst
    refine ⟨?_, by simp [steady, Eff.sent]⟩
    rw [Option.getD_some, hlast]

/-- The selection after its first line. -/
theorem selectLines_fitting {allow : Bool} {budget off a14 : ℕ} (hbudget : off + budget < file.size) :
    ∀ (fuel roundBytes : ℕ) (calls : List Call), budget ≤ fuel + roundBytes →
      roundBytes ≤ budget → 0 < roundBytes ∨ (lineAt file off).length ≤ budget →
      (sends calls).flatten <+: planned →
      (selectLines path allow budget fuel (off + roundBytes) roundBytes a14).wp
        (steady file path planned)
        (fun res calls' => res = (roundBytes + lineBytes
          (fitting List.length (budget - roundBytes) (linesFrom file (off + roundBytes))), a14) ∧
          sends calls' = sends calls) calls
  | 0, roundBytes, calls, hfuel, hle, _, _ => by
      have hroom : budget - roundBytes = 0 := by omega
      have hlt : off + roundBytes < file.size := by omega
      have hpos := (lineAt_bounds hlt).1
      rw [hroom, linesFrom_cons hlt, fitting, if_neg (by omega)]
      exact ⟨rfl, rfl⟩
  | fuel + 1, roundBytes, calls, hfuel, hle, hfirst, hplan => by
      have hlt : off + roundBytes < file.size := by omega
      have hpos := lineAt_bounds hlt
      have hsize := file.size_lt
      have hin : (lineAt file (off + roundBytes)).length ≤ file.size - (off + roundBytes) := by
        rw [← lineBytes_linesFrom, linesFrom_cons hlt, lineBytes_cons]
        exact Nat.le_add_right _ _
      have hu : u64 (roundBytes + (lineAt file (off + roundBytes)).length) =
          roundBytes + (lineAt file (off + roundBytes)).length := by
        refine u64_of_lt ?_
        unfold File.size at hin hbudget
        omega
      unfold selectLines
      rw [linesFrom_cons hlt, fitting]
      split
      · rw [Prog.wp_bind]
        refine Prog.wp_mono (readFileLine_steady hlt hplan) ?_
        rintro res calls' ⟨rfl, hs⟩
        simp only
        rw [if_neg (by rintro ⟨rfl, h⟩; rw [Nat.add_zero] at h; omega), hu]
        by_cases hfits : (lineAt file (off + roundBytes)).length ≤ budget - roundBytes
        · rw [if_neg (by omega), if_pos hfits]
          have hnext := @selectLines_fitting allow _ _ a14 hbudget fuel
            (roundBytes + (lineAt file (off + roundBytes)).length) calls' (by omega) (by omega)
            (Or.inl (by omega)) (hs ▸ hplan)
          rw [← Nat.add_assoc] at hnext
          refine Prog.wp_mono hnext ?_
          rintro res calls'' ⟨rfl, hs'⟩
          refine ⟨?_, hs'.trans hs⟩
          rw [lineBytes_cons, Nat.sub_sub, Nat.add_assoc roundBytes]
        · rw [if_pos (by omega), if_neg hfits]
          exact ⟨rfl, hs⟩
      · rename_i hfull
        have hroom : budget - roundBytes = 0 := by omega
        rw [hroom, if_neg (by omega)]
        exact ⟨rfl, rfl⟩

/-- The selection of a round that cannot send all that is left. -/
theorem selectLines_steady {allow : Bool} {budget off a14 : ℕ} {calls : List Call}
    (hzero : budget ≠ 0) (hbudget : off + budget < file.size)
    (hplan : (sends calls).flatten <+: planned) :
    (selectLines path allow budget budget off 0 a14).wp (steady file path planned)
      (fun res calls' => res = (lineBytes (roundLines file allow budget off),
        if budget < lineBytes (roundLines file allow budget off) then u64 (a14 + 1) else a14) ∧
        sends calls' = sends calls) calls := by
  have hlt : off < file.size := by omega
  have hpart : ¬ file.size - off ≤ budget := by omega
  by_cases hlong : budget < (lineAt file off).length
  · -- the first line is longer than the budget
    obtain ⟨fuel, rfl⟩ := Nat.exists_eq_succ_of_ne_zero hzero
    unfold selectLines
    rw [if_pos (Nat.succ_pos fuel), Prog.wp_bind]
    refine Prog.wp_mono (readFileLine_steady hlt hplan) ?_
    rintro res calls' ⟨rfl, hs⟩
    simp only
    rw [if_pos ⟨trivial, hlong⟩, roundLines, if_neg hzero, if_neg hpart, linesFrom_cons hlt,
      nextGroup_cons, if_pos hlong, fitting, if_neg (Nat.not_le.mpr hlong)]
    cases allow with
    | true =>
        rw [if_pos rfl, if_pos rfl]
        refine ⟨?_, hs⟩
        simp [lineBytes, hlong]
    | false =>
        rw [if_neg Bool.false_ne_true, if_neg Bool.false_ne_true]
        exact ⟨rfl, hs⟩
  · have hsame : roundLines file allow budget off =
        fitting List.length budget (linesFrom file off) := by
      rw [roundLines, if_neg hzero, if_neg hpart, linesFrom_cons hlt, nextGroup_cons,
        if_neg hlong, ite_self]
    have hfits : total List.length _ ≤ budget :=
      (fitting_longest budget (linesFrom file off)).fits
    rw [hsame, if_neg (Nat.not_lt.mpr hfits)]
    have hselect := @selectLines_fitting _ path planned allow _ _ a14 hbudget budget 0 calls
      (by omega) (Nat.zero_le _)
      (Or.inr (Nat.not_lt.mp hlong)) hplan
    rw [Nat.add_zero, Nat.sub_zero, Nat.zero_add] at hselect
    exact hselect

/-- A packet takes the next lines of the round. -/
theorem gatherPacket_steady {fd : Fd} :
    ∀ (linesLeft lineOffset : ℕ) (ls more : List Bytes) (packet : Bytes) (calls : List Call),
      linesFrom file lineOffset = ls ++ more → (sends calls).flatten <+: planned →
      (gatherPacket fd path linesLeft lineOffset (lineBytes ls) packet).wp
        (steady file path planned)
        (fun res calls' => res = some (packet ++ (ls.take linesLeft).flatten,
          lineOffset + lineBytes (ls.take linesLeft), lineBytes (ls.drop linesLeft)) ∧
          sends calls' = sends calls) calls
  | 0, lineOffset, ls, more, packet, calls, _, _ => by
      refine ⟨?_, rfl⟩
      simp
  | linesLeft + 1, lineOffset, ls, more, packet, calls, hls, hplan => by
      unfold gatherPacket
      cases ls with
      | nil =>
          refine ⟨?_, rfl⟩
          simp
      | cons line ls =>
          have hpos : 0 < line.length :=
            linesFrom_pos (show _ ∈ linesFrom file lineOffset by simp [hls])
          have hoff : lineOffset < file.size := by
            by_contra hge
            rw [linesFrom_of_le (Nat.not_lt.mp hge)] at hls
            cases hls
          rw [linesFrom_cons hoff, List.cons_append, List.cons.injEq] at hls
          obtain ⟨rfl, hls⟩ := hls
          rw [lineBytes_cons, if_pos (by omega), Prog.wp_bind]
          refine Prog.wp_mono (readFileLine_steady hoff hplan) ?_
          rintro res calls' ⟨rfl, hs⟩
          simp only
          rw [if_neg (by omega), Nat.add_sub_cancel_left]
          refine Prog.wp_mono (gatherPacket_steady linesLeft _ ls more _ calls' hls (hs ▸ hplan)) ?_
          rintro res calls'' ⟨rfl, hs'⟩
          refine ⟨?_, hs'.trans hs⟩
          simp [Nat.add_assoc]

/-- Lines that were not sent yet hold bytes. -/
theorem lineBytes_pos {off : ℕ} {ls : List Bytes} (hls : ls ⊆ linesFrom file off)
    (hne : ls ≠ []) : 0 < lineBytes ls := by
  obtain ⟨line, rest, rfl⟩ := List.exists_cons_of_ne_nil hne
  have hline : 0 < line.length := linesFrom_pos (hls List.mem_cons_self)
  rw [lineBytes_cons]
  omega


/-- How the body sends of a round end: all packets are sent, or a send failed. -/
theorem sendPackets_steady {fd : Fd} {packetization : ℕ} (hpack : 0 < packetization) :
    ∀ (fuel lineOffset bytesProcessed : ℕ) (ls more : List Bytes) (calls : List Call),
      linesFrom file lineOffset = ls ++ more → lineBytes ls ≤ fuel →
      bytesProcessed + lineBytes ls < 2 ^ 64 →
      (sends calls).flatten ++ ls.flatten <+: planned →
      (sendPackets fd path packetization fuel lineOffset (lineBytes ls) bytesProcessed).wp
        (steady file path planned)
        (fun res calls' =>
          (∃ packets, Cut packetization ls packets ∧
            sends calls' = sends calls ++ packets.map List.flatten ∧
            res = (true, bytesProcessed + lineBytes ls)) ∨
          res.1 = false ∧ (sends calls').flatten <+: planned ∧ SendFailed calls') calls
  | 0, lineOffset, bytesProcessed, ls, more, calls, hls, hfuel, hsmall, hplan => by
      have hnil : ls = [] := by
        by_contra hne
        have := lineBytes_pos (hls ▸ List.subset_append_left ls more) hne
        omega
      subst hnil
      exact Or.inl ⟨[], cut_nil _, by simp, rfl⟩
  | fuel + 1, lineOffset, bytesProcessed, ls, more, calls, hls, hfuel, hsmall, hplan => by
      unfold sendPackets
      by_cases hnil : ls = []
      · subst hnil
        exact Or.inl ⟨[], cut_nil _, by simp, rfl⟩
      · have hsplit : ls.take packetization ++ ls.drop packetization = ls :=
          List.take_append_drop _ _
        have htotal : lineBytes (ls.take packetization) + lineBytes (ls.drop packetization) =
            lineBytes ls := by
          rw [← total_append, hsplit]
        have hpart : ls ⊆ linesFrom file lineOffset := hls ▸ List.subset_append_left ls more
        have hpos : 0 < lineBytes (ls.take packetization) :=
          lineBytes_pos (List.Subset.trans (List.take_subset _ _) hpart)
            fun h => hnil ((List.take_eq_nil_iff.mp h).resolve_left hpack.ne')
        have hsends : (sends calls).flatten <+: planned :=
          (List.prefix_append _ _).trans hplan
        rw [if_pos (by omega), Prog.wp_bind]
        refine Prog.wp_mono (gatherPacket_steady packetization lineOffset ls more [] calls hls
          hsends) ?_
        rintro res calls' ⟨rfl, hs⟩
        simp only [List.nil_append, Prog.wp_bind, perform, Prog.wp_perform]
        have hpacket : (sends calls).flatten ++ (ls.take packetization).flatten <+: planned := by
          refine List.IsPrefix.trans ?_ hplan
          rw [List.prefix_append_right_inj]
          exact (List.take_prefix _ _).flatten
        refine ⟨⟨trivial, by simpa [Eff.sent, hs] using hpacket⟩, fun ok _ => ?_⟩
        have hs' : ∀ r, sends ((steady file path planned).next calls'
            (.sendAll fd (ls.take packetization).flatten) r) =
              sends calls ++ [(ls.take packetization).flatten] := by
          intro r
          simp [steady, Eff.sent, hs]
        cases ok with
        | false =>
            -- the packet is in the log although its send failed
            refine Or.inr ⟨rfl, ?_, fd, _, List.mem_append_right _ (List.mem_singleton.mpr rfl)⟩
            rw [hs']
            simpa using hpacket
        | true =>
            have hu : u64 (bytesProcessed + (ls.take packetization).flatten.length) =
                bytesProcessed + lineBytes (ls.take packetization) := by
              rw [← lineBytes_eq]
              exact u64_of_lt (by omega)
            rw [if_pos rfl, hu]
            refine Prog.wp_mono (sendPackets_steady hpack fuel _ _ (ls.drop packetization) more _
              ?_ (by omega) (by omega) ?_) ?_
            · refine linesFrom_append ?_
              rw [← List.append_assoc, hsplit, hls]
            · rw [hs', List.flatten_append, List.append_assoc]
              simp only [List.flatten_cons, List.flatten_nil, List.append_nil]
              rwa [← List.flatten_append, hsplit]
            · rintro res calls'' (⟨packets, hcut, hs'', rfl⟩ | hlost)
              · refine Or.inl ⟨_, hcut.cons hpack hnil, ?_, ?_⟩
                · rw [hs'', hs']
                  simp
                · rw [Nat.add_assoc, htotal]
              · exact Or.inr hlost

end Round

/-! ## The whole round -/

/-- What a round leaves in the request. -/
def Request.afterLines (req : Request) (file : File) (allow : Bool) (budget : ℕ) : Request :=
  { req with
    responseSent := true
    a14Events := if budget < lineBytes (roundLines file allow budget req.offset)
      then u64 (req.a14Events + 1) else req.a14Events }

/-- How a round of a GET ends that has sent `greeting` before the body: the chosen lines are
sent in packets, or a send failed and the rest is not sent. -/
inductive RoundEnd (file : File) (allow : Bool) (budget packetization : ℕ) (req : Request)
    (greeting : List Bytes) : Bool × Request × ℕ → List Call → Prop
  | served {calls : List Call} (packets : List (List Bytes)) :
      Cut packetization (roundLines file allow budget req.offset) packets →
      sends calls = greeting ++ packets.map List.flatten →
      RoundEnd file allow budget packetization req greeting
        (true, req.afterLines file allow budget,
          lineBytes (roundLines file allow budget req.offset)) calls
  | lost {res : Bool × Request × ℕ} {calls : List Call} : res.1 = false →
      res.2.1.stagingFilename = req.stagingFilename →
      (sends calls).flatten <+:
        greeting.flatten ++ (roundLines file allow budget req.offset).flatten →
      SendFailed calls → RoundEnd file allow budget packetization req greeting res calls

section Round

variable {file : File} {path : Bytes}

theorem sendRound_steady {allow : Bool} {budget packetization : ℕ} {req later : Request}
    {greeting : List Bytes} {calls : List Call} (hpack : 0 < packetization)
    (hlater : later = req.afterLines file allow budget)
    (hgreet : sends calls = greeting) :
    (sendRound later path (lineBytes (roundLines file allow budget req.offset)) packetization).wp
      (steady file path
        (greeting.flatten ++ (roundLines file allow budget req.offset).flatten))
      (RoundEnd file allow budget packetization req greeting) calls := by
  have hplan : (sends calls).flatten <+:
      greeting.flatten ++ (roundLines file allow budget req.offset).flatten := by
    rw [hgreet]
    exact List.prefix_append _ _
  obtain ⟨more, hmore⟩ := roundLines_initial file allow budget req.offset
  have hsize := lineBytes_roundLines_le file allow budget req.offset
  have hsmall := file.size_lt
  have hoffset : later.offset = req.offset := by rw [hlater]; rfl
  have hstaging : later.stagingFilename = req.stagingFilename := by rw [hlater]; rfl
  unfold File.size at hsize
  unfold sendRound
  split
  · rename_i hnone
    have hnil : roundLines file allow budget req.offset = [] := by
      by_contra hne
      have := lineBytes_pos (hmore ▸ List.subset_append_left _ more) hne
      omega
    have hend : RoundEnd file allow budget packetization req greeting _ calls :=
      .served [] (hnil ▸ cut_nil _) (by simpa using hgreet)
    rw [hnone, ← hlater] at hend
    exact hend
  · simp only [perform, Prog.wp_bind, Prog.wp_perform]
    refine ⟨steady_quiet trivial rfl hplan, fun r hr => ?_⟩
    have hr : r = some file := hr rfl
    subst hr
    have hseek : ((({ content := file.bytes } : IStream).seekg req.offset).good) = true := by
      unfold IStream.seekg
      rw [if_pos (by omega)]
      rfl
    have hs : sends ((steady file path (greeting.flatten ++
        (roundLines file allow budget req.offset).flatten)).next calls (.openRead path)
          (some file)) = greeting := by
      simp [steady, Eff.sent, hgreet]
    simp only [hoffset, hseek, ↓reduceIte, Prog.wp_bind]
    refine Prog.wp_mono (sendPackets_steady hpack _ req.offset 0 _ more _ hmore.symm le_rfl
      (by omega) (by rw [hs])) ?_
    rintro ⟨ok, n⟩ calls' (⟨packets, hcut, hsends, hres⟩ | ⟨hok, hpre, hfailed⟩)
    · obtain ⟨rfl, rfl⟩ := Prod.mk.inj hres
      simp only [Nat.zero_add, Prog.wp_pure, hlater]
      exact .served packets hcut (by rw [hsends, hs])
    · exact .lost hok hstaging hpre hfailed

theorem serveGetBody_steady {allow : Bool} {budget : ℕ} {packetization : ℤ} {req : Request}
    {greeting : List Bytes} {calls : List Call} (hpack : 0 < packetization)
    (hsent : req.responseSent = true) (htotal : req.totalBytes = file.size)
    (hgreet : sends calls = greeting) :
    (serveGetBody req path budget allow packetization).wp
      (steady file path
        (greeting.flatten ++ (roundLines file allow budget req.offset).flatten))
      (RoundEnd file allow budget packetization.toNat req greeting) calls := by
  have hpack' : 0 < packetization.toNat := by omega
  have hplan : (sends calls).flatten <+:
      greeting.flatten ++ (roundLines file allow budget req.offset).flatten := by
    rw [hgreet]
    exact List.prefix_append _ _
  have hkeep : ∀ a14, { req with a14Events := a14 } =
      { req with responseSent := true, a14Events := a14 } := by
    intro a14
    rw [← hsent]
  unfold serveGetBody
  rw [htotal]
  split
  · -- nothing is left, or there is no budget
    rename_i hskip
    have hnil : roundLines file allow budget req.offset = [] := by
      rcases hskip with hdone | rfl
      · exact List.prefix_nil.mp (linesFrom_of_le hdone ▸ roundLines_initial file allow budget _)
      · rfl
    have hend : RoundEnd file allow budget packetization.toNat req greeting _ calls :=
      .served [] (hnil ▸ cut_nil _) (by simpa using hgreet)
    simp only [Request.afterLines, hnil, lineBytes, total_nil, Nat.not_lt_zero, ↓reduceIte] at hend
    rw [← hkeep req.a14Events] at hend
    exact hend
  rename_i hmore
  obtain ⟨hleft, hzero⟩ := not_or.mp hmore
  rw [if_neg (by omega)]
  split
  · -- all that is left
    rename_i hwhole
    have hall : roundLines file allow budget req.offset = linesFrom file req.offset := by
      rw [roundLines, if_neg hzero, if_pos hwhole]
    rw [← lineBytes_linesFrom, ← hall]
    refine sendRound_steady hpack' ?_ hgreet
    rw [Request.afterLines, hall, lineBytes_linesFrom, if_neg (Nat.not_lt.mpr hwhole)]
    exact hkeep req.a14Events
  · rename_i hpart
    rw [Prog.wp_bind]
    refine Prog.wp_mono (selectLines_steady hzero (by omega) hplan) ?_
    rintro ⟨roundBytes, a14⟩ calls' ⟨hres, hs⟩
    obtain ⟨rfl, rfl⟩ := Prod.mk.inj hres
    refine sendRound_steady hpack' ?_ (hs.trans hgreet)
    rw [← htotal]
    exact hkeep _

/-- **One round of a GET on an unchanging file.** The header is sent unless it was, then the
lines of the round. -/
theorem serveGet_steady {fileDir : Bytes} {allow : Bool} {budget : ℕ} {packetization : ℤ}
    {req : Request} (hpack : 0 < packetization) (hvalid : isValidFilename req.filename = true)
    (htotal : req.totalBytes = file.size) {greeting : List Bytes}
    (hgreet : greeting = if req.responseSent then [] else [okLine file.size]) :
    (serveGet req fileDir budget allow packetization).wp
      (steady file (filePath fileDir req.filename)
        (greeting.flatten ++ (roundLines file allow budget req.offset).flatten))
      (RoundEnd file allow budget packetization.toNat req greeting) [] := by
  unfold serveGet
  simp only [hvalid, Bool.not_true, Bool.false_eq_true, ↓reduceIte, fileExists, perform,
    Prog.wp_bind, Prog.wp_perform, Prog.wp_pure]
  refine ⟨steady_quiet trivial rfl List.nil_prefix, fun st hst => ?_⟩
  have hst : st = some file.size := hst rfl
  subst hst
  simp only [Option.isSome_some, ↓reduceIte]
  cases hsent : req.responseSent with
  | true =>
      rw [hsent, if_pos rfl] at hgreet
      subst hgreet
      exact serveGetBody_steady hpack hsent htotal rfl
  | false =>
      rw [hsent, if_neg Bool.false_ne_true] at hgreet
      subst hgreet
      simp only [Bool.false_eq_true, ↓reduceIte, sendResponse, perform, Prog.wp_bind,
        Prog.wp_perform, Prog.wp_pure]
      refine ⟨⟨trivial, ?_⟩, fun ok _ => ?_⟩
      · rw [htotal]
        simp [steady, Eff.sent]
      · have hsends : sends [⟨.stat (filePath fileDir req.filename), some file.size⟩,
            ⟨.sendAll req.clientFd (okLine req.totalBytes), ok⟩] = [okLine file.size] := by
          simp [Eff.sent, htotal]
        have hbody := @serveGetBody_steady file (filePath fileDir req.filename) allow budget _
          { req with responseSent := true } _ _ hpack rfl htotal hsends
        refine Prog.wp_mono hbody ?_
        rintro res calls hend
        cases hend with
        | served packets hcut hsends => exact .served packets hcut hsends
        | lost hok hstaging hpre hfailed => exact .lost hok hstaging hpre hfailed

end Round

/-- A part of a round, from the contract of its calls to that of a lifecycle. -/
theorem steady_rule {L : Lifecycle} {file : File} {path planned : Bytes} {α : Type}
    {p : Server α} {Q : α → List Call → Prop} {log calls : List Call}
    (hallowed : ∀ log call, L.allowed log call → call.Steady file path)
    (halways : ∀ calls, requeues calls = 0 → (sends calls).flatten <+: planned →
      L.always (log ++ calls))
    (hcalls : requeues calls = 0) (h : p.wp (steady file path planned) Q calls) :
    p.wp L.contract (fun a log' => ∃ calls', log' = log ++ calls' ∧ requeues calls' = 0 ∧
      Q a calls') (log ++ calls) := by
  induction p generalizing calls with
  | ret a => exact ⟨calls, rfl, hcalls, h⟩
  | call e next ih =>
      obtain ⟨⟨hinside, hplan⟩, hnext⟩ := h
      refine ⟨inside_guarantee hinside (halways calls hcalls ?_), fun r hr => ?_⟩
      · exact (List.prefix_append _ _).trans hplan
      · have hone : requeues (calls ++ [⟨e, r⟩]) = 0 := by
          rw [requeues_append, hcalls]
          cases e <;> first | rfl | exact hinside.elim
        have hrest := ih r hone (hnext r (hallowed _ _ hr.2))
        rw [← List.append_assoc] at hrest
        exact hrest

end LinkScheduling
