import Mathlib.Data.List.TakeWhile
import LinkScheduling.Metatheory.Names
import LinkScheduling.Metatheory.Paths
import LinkScheduling.Metatheory.Rounds

/-!
# One round of a PUT

The body of an upload comes first from the bytes that were read together with the
header and then from the socket, and a round stores as many bytes as its budget
allows. What was stored is always a part, from the start, of what the client sent
after its header line, whatever the answers of the calls are.
-/

namespace LinkScheduling

open Framework

/-! ## What the client sent -/

/-- What was received after the header line. -/
def payload (log : List Call) : Bytes := ((received log).dropWhile (· ≠ newline)).tail

theorem payload_of_header {header rest : Bytes} {log : List Call} (h : HeaderLine header)
    (hlog : received log = header ++ rest) : payload log = rest := by
  obtain ⟨text, hno, rfl⟩ := h
  have hdrop : (text ++ newline :: rest).dropWhile (· ≠ newline) = newline :: rest := by
    rw [List.dropWhile_append_of_pos]
    · simp
    · intro c hc
      have hne : c ≠ newline := fun heq => hno (heq ▸ hc)
      simpa using hne
  unfold payload
  rw [hlog, List.append_assoc, List.singleton_append, hdrop, List.tail_cons]

/-- The header line was received. -/
def Headed (log : List Call) : Prop := newline ∈ received log

theorem Headed.append {log : List Call} (h : Headed log) (calls : List Call) :
    Headed (log ++ calls) := by
  unfold Headed
  rw [received_append]
  exact List.mem_append_left _ h

theorem Headed.payload_append {log : List Call} (h : Headed log) (calls : List Call) :
    payload (log ++ calls) = payload log ++ received calls := by
  have hne : (received log).dropWhile (· ≠ newline) ≠ [] := by
    intro hnil
    have hall := List.dropWhile_eq_nil_iff.mp hnil newline h
    simp at hall
  unfold payload
  rw [received_append, List.dropWhile_append]
  simp only [List.isEmpty_iff, hne, ↓reduceIte]
  exact List.tail_append_of_ne_nil hne

/-! ## The calls of an upload -/

/-- When a call of an upload is in order: stores go to the staging file, after the
first response, and store the next bytes the client sent; the rename finds all of the
body in the staging file; the second response follows the rename. -/
def Proper (cfg : Config) (request : Request) (before : List Call) : Call → Prop
  | ⟨.create path, _⟩ => path = stagingPath cfg request ∧ sends before = [okLine 0]
  | ⟨.write path off data, _⟩ => path = stagingPath cfg request ∧ sends before = [okLine 0] ∧
      off + data.length ≤ request.totalBytes ∧ data <+: (payload before).drop off
  | ⟨.remove path, _⟩ => path = stagingPath cfg request
  | ⟨.rename src dst, _⟩ => src = stagingPath cfg request ∧ dst = finalPath cfg request ∧
      sends before = [okLine 0] ∧ request.totalBytes ≤ (payload before).length ∧
      ∃ file, Staged (cstr (stagingPath cfg request)) before file ∧
        file.bytes = (payload before).take request.totalBytes
  | ⟨.sendAll _ data, _⟩ => sends before = [] ∧ data = okLine 0 ∨
      sends before = [okLine 0] ∧ ((∃ reason, data = errLine reason) ∨ data = okLine 0 ∧
        ⟨.rename (stagingPath cfg request) (finalPath cfg request), true⟩ ∈ before)
  | _ => True

/-- An upload changes its staging path, and its final path by the rename. -/
theorem Proper.changes {cfg : Config} {request : Request} {before : List Call} {call : Call}
    {p : Bytes} (h : Proper cfg request before call) (hchanges : call.Changes p) :
    p = cstr (stagingPath cfg request) ∨ p = cstr (finalPath cfg request) ∧
      call = ⟨.rename (stagingPath cfg request) (finalPath cfg request), true⟩ := by
  rcases call with ⟨e, r⟩
  cases e with
  | create path =>
      obtain ⟨rfl, -⟩ := h
      exact Or.inl hchanges.2.symm
  | write path off data =>
      have hpath : path = stagingPath cfg request := h.1
      have hcstr : cstr path = p := hchanges
      exact Or.inl (hpath ▸ hcstr.symm)
  | remove path =>
      have hpath : path = stagingPath cfg request := h
      have hcstr : cstr path = p := hchanges
      exact Or.inl (hpath ▸ hcstr.symm)
  | rename src dst =>
      obtain ⟨hsrc, hdst, -⟩ := h
      have hok : r = true := hchanges.1
      rw [hsrc, hdst] at hchanges ⊢
      subst hok
      rcases hchanges.2 with hp | hp
      · exact Or.inl hp.symm
      · exact Or.inr ⟨hp.symm, rfl⟩
  | _ => exact hchanges.elim

/-- The calls that settle an upload. -/
def Eff.settles : Eff → Prop
  | .rename _ _ => True
  | .remove _ => True
  | _ => False

/-- A storage call or a receive that made the round fail. -/
def Call.Fails : Call → Prop
  | ⟨.create _, ok⟩ => ok = false
  | ⟨.openRW _, ok⟩ => ok = false
  | ⟨.seekp _ _, ok⟩ => ok = false
  | ⟨.write _ _ _, .bad _⟩ => True
  | ⟨.recv _ _ _, none⟩ => True
  | ⟨.recv _ _ _, some data⟩ => data = []
  | _ => False

/-- What holds of the log of an upload at every moment. -/
structure PutLog (cfg : Config) (request : Request) (log : List Call) : Prop where
  trail : Along (Proper cfg request) log
  rounds : requeues log < max 1 request.totalBytes

/-- `k` bytes of the body are in the staging file. -/
structure Stored (cfg : Config) (request : Request) (k : ℕ) (log : List Call) : Prop where
  orderly : PutLog cfg request log
  headed : Headed log
  bound : k ≤ request.totalBytes
  reach : k ≤ (payload log).length
  sent : sends log = [okLine 0]
  created : ⟨.create (stagingPath cfg request), true⟩ ∈ log
  unsettled : ∀ call ∈ log, ¬ call.eff.settles
  staged : ∃ file, Staged (cstr (stagingPath cfg request)) log file ∧
    file.bytes = (payload log).take k

/-- The bytes that came with the header are used up before any other is received. -/
structure Uploaded (cfg : Config) (request : Request) (k : ℕ) (log : List Call) : Prop
    extends Stored cfg request k log where
  leads : request.pendingBytes <+: payload log
  length : (payload log).length = max request.pendingBytes.length k

/-- The round failed and the client was told, except for an empty upload. -/
structure Lost (cfg : Config) (request : Request) (log : List Call) : Prop where
  orderly : PutLog cfg request log
  unsettled : ∀ call ∈ log, ¬ call.eff.settles
  failed : ∃ call ∈ log, call.Fails
  sent : if request.totalBytes = 0 then sends log = [okLine 0]
    else ∃ reason, sends log = [okLine 0, errLine reason]

section Calls

variable {cfg : Config} {request : Request} {log : List Call} {k : ℕ}

theorem PutLog.snoc {call : Call} (h : PutLog cfg request log)
    (hcall : Proper cfg request log call) (hrequeue : call.eff.requeued = 0) :
    PutLog cfg request (log ++ [call]) := by
  constructor
  · exact h.trail.snoc hcall
  · simp only [requeues_append, requeues_cons, requeues_nil, hrequeue]
    exact h.rounds

/-- Calls that bear on nothing but the stream of the staging file. -/
def Eff.aside : Eff → Prop
  | .openRW _ => True
  | .seekp _ _ => True
  | .closeFile _ => True
  | .now => True
  | _ => False

theorem PutLog.aside {call : Call} (h : PutLog cfg request log) (hcall : call.eff.aside) :
    PutLog cfg request (log ++ [call]) := by
  rcases call with ⟨e, r⟩
  cases e <;> first | exact hcall.elim | exact h.snoc trivial rfl

theorem unsettled_snoc {call : Call} (h : ∀ call ∈ log, ¬ call.eff.settles)
    (hcall : ¬ call.eff.settles) : ∀ call' ∈ log ++ [call], ¬ call'.eff.settles := by
  intro call' hmem
  rcases List.mem_append.mp hmem with hmem | hmem
  · exact h call' hmem
  · rwa [List.mem_singleton.mp hmem]

theorem aside_quiet {call : Call} (h : call.eff.aside) (p : Bytes) :
    call.eff.sent = [] ∧ call.received = [] ∧ ¬ call.eff.settles ∧ ¬ call.Changes p := by
  rcases call with ⟨e, r⟩
  cases e <;> first | exact h.elim | exact ⟨rfl, rfl, id, id⟩

theorem Uploaded.aside {call : Call} (h : Uploaded cfg request k log)
    (hcall : call.eff.aside) : Uploaded cfg request k (log ++ [call]) := by
  obtain ⟨file, hfile, hbytes⟩ := h.staged
  obtain ⟨hsent, hrec, hset, hchange⟩ := aside_quiet hcall (cstr (stagingPath cfg request))
  have hpay : payload (log ++ [call]) = payload log := by
    rw [h.headed.payload_append]
    simp [hrec]
  refine ⟨⟨h.orderly.aside hcall, h.headed.append _, h.bound, ?_, ?_,
    List.mem_append_left _ h.created, unsettled_snoc h.unsettled hset, file,
    hfile.unchanged hchange, ?_⟩, ?_, ?_⟩
  · rw [hpay]
    exact h.reach
  · simp [hsent, h.sent]
  · rw [hpay]
    exact hbytes
  · rw [hpay]
    exact h.leads
  · rw [hpay]
    exact h.length

/-- The client sent more. -/
theorem Stored.recv (h : Stored cfg request k log) (fd : Fd) (size timeout : ℕ)
    (data : Bytes) :
    Stored cfg request k (log ++ [⟨.recv fd size timeout, some data⟩]) ∧
      payload (log ++ [⟨.recv fd size timeout, some data⟩]) = payload log ++ data := by
  obtain ⟨file, hfile, hbytes⟩ := h.staged
  have hpay : payload (log ++ [⟨.recv fd size timeout, some data⟩]) = payload log ++ data := by
    rw [h.headed.payload_append]
    simp [Call.received]
  refine ⟨⟨h.orderly.snoc trivial rfl, h.headed.append _, h.bound, ?_, ?_,
    List.mem_append_left _ h.created, unsettled_snoc h.unsettled id, file,
    hfile.unchanged id, ?_⟩, hpay⟩
  · rw [hpay, List.length_append]
    exact Nat.le_add_right_of_le h.reach
  · simp [Eff.sent, h.sent]
  · rw [hpay, List.take_append_of_le_length h.reach]
    exact hbytes

theorem write_proper {data : Bytes} (h : Stored cfg request k log)
    (hdata : data <+: (payload log).drop k) (hle : k + data.length ≤ request.totalBytes)
    (r : WriteResult) : Proper cfg request log ⟨.write (stagingPath cfg request) k data, r⟩ :=
  ⟨rfl, h.sent, hle, hdata⟩

/-- The next bytes of the body are stored. -/
theorem Stored.write {data : Bytes} (h : Stored cfg request k log)
    (hdata : data <+: (payload log).drop k) (hle : k + data.length ≤ request.totalBytes)
    (hsmall : k + data.length < 2 ^ 63) :
    Stored cfg request (k + data.length)
        (log ++ [⟨.write (stagingPath cfg request) k data, .good⟩]) ∧
      payload (log ++ [⟨.write (stagingPath cfg request) k data, .good⟩]) = payload log := by
  obtain ⟨file, hfile, hbytes⟩ := h.staged
  have hpay : payload (log ++ [⟨.write (stagingPath cfg request) k data, .good⟩]) =
      payload log := by
    rw [h.headed.payload_append]
    simp [Call.received]
  have hlen := hdata.length_le
  rw [List.length_drop] at hlen
  have hreach := h.reach
  have hend : k = file.bytes.length := by
    rw [hbytes, List.length_take]
    omega
  refine ⟨⟨h.orderly.snoc (write_proper h hdata hle _) rfl, h.headed.append _, hle, ?_, ?_,
    List.mem_append_left _ h.created, unsettled_snoc h.unsettled id, _, hfile.write k data, ?_⟩,
    hpay⟩
  · rw [hpay]
    omega
  · simp [Eff.sent, h.sent]
  · rw [hpay, File.overlay_end hend hsmall, hbytes, List.take_add,
      List.prefix_iff_eq_take.mp hdata]
    simp only [List.length_take, List.length_drop]
    congr 2
    omega

theorem Call.Fails.quiet {call : Call} (h : call.Fails) :
    call.eff.requeued = 0 ∧ ¬ call.eff.settles ∧ call.eff.sent = [] := by
  rcases call with ⟨e, r⟩
  cases e <;> first | exact h.elim | exact ⟨rfl, id, rfl⟩

/-- A call that fails leaves the upload unsettled and sends nothing. -/
theorem Stored.failed {call : Call} (h : Stored cfg request k log)
    (hcall : Proper cfg request log call) (hfails : call.Fails) :
    PutLog cfg request (log ++ [call]) ∧ (∀ call' ∈ log ++ [call], ¬ call'.eff.settles) ∧
      sends (log ++ [call]) = [okLine 0] := by
  obtain ⟨hrequeued, hsettles, hsent⟩ := hfails.quiet
  refine ⟨h.orderly.snoc hcall hrequeued, unsettled_snoc h.unsettled hsettles, ?_⟩
  simp [hsent, h.sent]

/-- Once the bytes that came with the header are used up, what is received next comes next
in the body. -/
theorem Uploaded.next_received {data : Bytes} (h : Uploaded cfg request k log)
    (hused : request.pendingBytes.length ≤ k) (fd : Fd) (size timeout : ℕ) :
    data <+: (payload (log ++ [⟨.recv fd size timeout, some data⟩])).drop k := by
  have hlen : (payload log).length = k := by rw [h.length, max_eq_right hused]
  rw [(h.toStored.recv fd size timeout data).2, ← hlen, List.drop_left]

/-- The bytes just received are stored at the end of the upload. -/
theorem Uploaded.receive {data : Bytes} (h : Uploaded cfg request k log)
    (hused : request.pendingBytes.length ≤ k) (hle : k + data.length ≤ request.totalBytes)
    (hsmall : k + data.length < 2 ^ 63) (fd : Fd) (size timeout : ℕ) :
    Uploaded cfg request (k + data.length) (log ++ [⟨.recv fd size timeout, some data⟩] ++
      [⟨.write (stagingPath cfg request) k data, .good⟩]) := by
  obtain ⟨hrecv, hpay⟩ := h.toStored.recv fd size timeout data
  obtain ⟨hstored, hpay'⟩ := hrecv.write (h.next_received hused fd size timeout) hle hsmall
  rw [hpay] at hpay'
  refine ⟨hstored, ?_, ?_⟩
  · rw [hpay']
    exact h.leads.trans (List.prefix_append _ _)
  · have hlength := h.length
    rw [hpay', List.length_append]
    omega

/-- An error line after a failed call. -/
theorem PutLog.lost {fd : Fd} {reason : Bytes} {ok : Bool} (h : PutLog cfg request log)
    (hunsettled : ∀ call ∈ log, ¬ call.eff.settles) (hsent : sends log = [okLine 0])
    (hpos : request.totalBytes ≠ 0) (hfailed : ∃ call ∈ log, call.Fails) :
    Lost cfg request (log ++ [⟨.sendAll fd (errLine reason), ok⟩]) := by
  obtain ⟨call, hmem, hcall⟩ := hfailed
  refine ⟨h.snoc (Or.inr ⟨hsent, Or.inl ⟨reason, rfl⟩⟩) rfl, unsettled_snoc hunsettled id,
    ⟨call, List.mem_append_left _ hmem, hcall⟩, ?_⟩
  rw [if_neg hpos]
  exact ⟨reason, by simp [Eff.sent, hsent]⟩

end Calls

/-! ## The two write loops -/

section Loops

variable {cfg : Config} {request : Request} {L : Lifecycle} {log : List Call}
  (hL : ∀ log, PutLog cfg request log → L.always log)

include hL

/-- The end of a round in which a call on the open staging file failed, or a receive. -/
theorem failUpload_lost {α : Type} {k : ℕ} {path : Bytes} {call : Call} (reason : String)
    {Q : Option α → List Call → Prop} (h : Stored cfg request k log)
    (hcall : Proper cfg request log call) (hfails : call.Fails) (hpos : request.totalBytes ≠ 0)
    (hQ : ∀ log', Lost cfg request log' → Q none log') :
    (failUpload request.clientFd path reason : Server (Option α)).wp L.contract Q
      (log ++ [call]) := by
  obtain ⟨horderly, hunsettled, hsent⟩ := h.failed hcall hfails
  have hclose : PutLog cfg request (log ++ [call] ++ [⟨.closeFile path, ()⟩]) :=
    horderly.snoc trivial rfl
  simp only [failUpload, sendError, perform, Prog.wp_bind, Prog.wp_perform, Prog.wp_pure]
  refine ⟨⟨hL _ horderly, trivial⟩, fun _ _ => ⟨⟨hL _ hclose, trivial⟩, fun ok _ => hQ _ ?_⟩⟩
  refine hclose.lost (unsettled_snoc hunsettled id) ?_ hpos ⟨call, by simp, hfails⟩
  simp only [sends_append, sends_cons, sends_nil] at hsent ⊢
  simpa [Eff.sent] using hsent

theorem writePending_uploaded (offset : ℕ) (hpos : request.totalBytes ≠ 0)
    (hsmall : request.totalBytes < 2 ^ 64) :
    ∀ (fuel pendingOffset bytesProcessed remaining : ℕ) (log : List Call), remaining ≤ fuel →
      offset + bytesProcessed + remaining ≤ request.totalBytes →
      pendingOffset = min (offset + bytesProcessed) request.pendingBytes.length →
      Uploaded cfg request (offset + bytesProcessed) log →
      (writePending request.clientFd (stagingPath cfg request) offset request.pendingBytes fuel
        pendingOffset bytesProcessed remaining).wp L.contract
        (fun res log' => match res with
          | none => Lost cfg request log'
          | some (pendingOffset', bytesProcessed', remaining') =>
              Uploaded cfg request (offset + bytesProcessed') log' ∧
              bytesProcessed' + remaining' = bytesProcessed + remaining ∧
              pendingOffset' = min (offset + bytesProcessed') request.pendingBytes.length ∧
              (0 < remaining' → request.pendingBytes.length ≤ offset + bytesProcessed')) log
  | 0, pendingOffset, bytesProcessed, remaining, log, hfuel, hle, hpo, h => by
      exact ⟨h, rfl, hpo, fun hrem => by omega⟩
  | fuel + 1, pendingOffset, bytesProcessed, remaining, log, hfuel, hle, hpo, h => by
      unfold writePending
      split
      · rename_i hloop
        obtain ⟨hrem, hmore⟩ := hloop
        have hk : pendingOffset = offset + bytesProcessed := by omega
        have hall : payload log = request.pendingBytes := by
          have hlen := h.length
          exact (h.leads.eq_of_length (by omega)).symm
        -- the chunk is the next part of the bytes that came with the header
        dsimp only
        generalize hchunk : min remaining (request.pendingBytes.length - pendingOffset) = chunk
        generalize hdata : (request.pendingBytes.drop pendingOffset).take chunk = data
        have hlen : data.length = chunk := by
          rw [← hdata, List.length_take, List.length_drop]
          omega
        have hpre : data <+: (payload log).drop (offset + bytesProcessed) := by
          rw [hall, ← hdata, hk]
          exact List.take_prefix _ _
        have hfits : offset + bytesProcessed + data.length ≤ request.totalBytes := by omega
        simp only [perform, Prog.wp_bind, Prog.wp_perform]
        refine ⟨⟨hL _ h.orderly, trivial⟩, ?_⟩
        rintro (_ | stored) ⟨hpossible, -⟩
        · have hstore : offset + bytesProcessed + data.length < 2 ^ 63 := hpossible
          obtain ⟨hstored, hpay⟩ := h.toStored.write hpre hfits hstore
          have hu : u64 (bytesProcessed + chunk) = bytesProcessed + chunk :=
            u64_of_lt (by omega)
          rw [Nat.add_assoc, hlen] at hstored
          refine Prog.wp_mono (writePending_uploaded offset hpos hsmall fuel (pendingOffset + chunk)
            (u64 (bytesProcessed + chunk)) (remaining - chunk) _ (by omega) (by omega)
            (by omega) ⟨by rw [hu]; exact hstored, ?_, ?_⟩) ?_
          · change request.pendingBytes <+: payload (log ++ _)
            rw [hpay]
            exact h.leads
          · change (payload (log ++ _)).length = _
            rw [hpay, hall]
            omega
          · rintro (_ | ⟨po, bp, rem⟩) log'
            · exact id
            · rintro ⟨h1, h2, h3, h4⟩
              exact ⟨h1, by omega, h3, h4⟩
        · exact failUpload_lost hL "file write error" h.toStored
            (write_proper h.toStored hpre hfits _) trivial hpos (fun _ h => h)
      · rename_i hloop
        refine ⟨h, rfl, hpo, fun hrem => ?_⟩
        have : ¬ pendingOffset < request.pendingBytes.length := fun hlt => hloop ⟨hrem, hlt⟩
        omega

theorem receiveBody_uploaded (offset bufferSize : ℕ) (hpos : request.totalBytes ≠ 0)
    (hsmall : request.totalBytes < 2 ^ 64) :
    ∀ (fuel bytesProcessed remaining : ℕ) (log : List Call), remaining ≤ fuel →
      offset + bytesProcessed + remaining ≤ request.totalBytes →
      (0 < remaining → request.pendingBytes.length ≤ offset + bytesProcessed) →
      Uploaded cfg request (offset + bytesProcessed) log →
      (receiveBody request.clientFd (stagingPath cfg request) offset bufferSize fuel
        bytesProcessed remaining).wp L.contract
        (fun res log' => match res with
          | none => Lost cfg request log'
          | some bytesProcessed' => bytesProcessed' = bytesProcessed + remaining ∧
              Uploaded cfg request (offset + bytesProcessed') log') log
  | 0, bytesProcessed, remaining, log, hfuel, hle, hused, h => by
      exact ⟨by omega, h⟩
  | fuel + 1, bytesProcessed, remaining, log, hfuel, hle, hused, h => by
      unfold receiveBody
      split
      · rename_i hrem
        have hused := hused hrem
        simp only [perform, Prog.wp_bind, Prog.wp_perform]
        refine ⟨⟨hL _ h.orderly, trivial⟩, ?_⟩
        rintro r ⟨hpossible, -⟩
        -- `-1`, `0` and a positive count of `recv`
        rcases r with _ | (_ | ⟨byte, data⟩)
        · exact failUpload_lost hL "receive error" h.toStored trivial trivial hpos (fun _ h => h)
        · exact failUpload_lost hL "incomplete upload" h.toStored trivial rfl hpos (fun _ h => h)
        · simp only
          change (byte :: data).length ≤ min bufferSize remaining at hpossible
          have hlenpos : 0 < (byte :: data).length := Nat.zero_lt_succ _
          generalize byte :: data = received at hpossible hlenpos ⊢
          obtain ⟨hrecv, -⟩ := h.toStored.recv request.clientFd (min bufferSize remaining)
            5000 received
          have hfits : offset + bytesProcessed + received.length ≤ request.totalBytes := by omega
          simp only [Prog.wp_bind, Prog.wp_perform]
          refine ⟨⟨hL _ hrecv.orderly, trivial⟩, ?_⟩
          rintro (_ | stored) ⟨hstore, -⟩
          · have hu : u64 (bytesProcessed + received.length) =
                bytesProcessed + received.length := u64_of_lt (by omega)
            have hnext := h.receive hused hfits hstore request.clientFd
              (min bufferSize remaining) 5000
            rw [Nat.add_assoc, ← hu] at hnext
            refine Prog.wp_mono (receiveBody_uploaded offset bufferSize hpos hsmall fuel
              (u64 (bytesProcessed + received.length)) (remaining - received.length) _
              (by omega) (by omega) (by omega) hnext) ?_
            rintro (_ | bp) log'
            · exact id
            · rintro ⟨h1, h2⟩
              exact ⟨by omega, h2⟩
          · exact failUpload_lost hL "file write error" hrecv
              (write_proper hrecv (h.next_received hused _ _ _) hfits _) trivial hpos
              (fun _ h => h)
      · rename_i hrem
        have hzero : remaining = 0 := by omega
        subst hzero
        exact ⟨rfl, h⟩

end Loops

end LinkScheduling
