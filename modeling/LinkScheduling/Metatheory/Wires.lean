import LinkScheduling.Metatheory.Fairness
import LinkScheduling.Metatheory.Lifecycle
import LinkScheduling.Metatheory.Log
import LinkScheduling.Metatheory.Sockets
import LinkScheduling.Model.Wired

/-!
# Calls on a socket are not mixed up

The model of the server makes one step of a call on a socket. Here the call takes many system
calls, with the other threads in between, and the server is still one of the model: a socket
has one owner, so what the kernel did to a connection is what the finished calls of its log
did to it, one after the other, and a part of the call a thread is inside of.
-/

namespace LinkScheduling

open Framework

/-! ## One call -/

/-- `part` is what a call has put on the connection when it returns. -/
def Call.Carried : Call → Bytes → Prop
  | ⟨.sendAll _ data, true⟩, part => part = data
  | ⟨.sendAll _ data, false⟩, part => part <+: data ∧ part ≠ data
  | _, part => part = []

/-- No more bytes were received than asked for. -/
def Call.Fits : Call → Prop
  | ⟨.recv _ size _, some data⟩ => data.length ≤ size
  | _ => True

def Eff.keepsOpen : Eff → Bool
  | .closeSocket _ => false
  | _ => true

/-- The call `e` was answered by `r` and has changed the connection from `base` to `conn`. -/
structure CarriedOut (base : Connection) (e : Eff) (r : Resp e) (conn : Connection) : Prop where
  sent : ∃ part, Call.Carried ⟨e, r⟩ part ∧ conn.sent = base.sent ++ part
  got : conn.got = base.got ++ Call.received ⟨e, r⟩
  isOpen : conn.isOpen = (base.isOpen && e.keepsOpen)
  fits : Call.Fits ⟨e, r⟩

/-- The system calls that carry out `e`, and how far it is before each of them. -/
def carrying (base : Connection) (e : Eff) : Contract SysCall SysCall.Answer Connection where
  guarantee conn sc := e.socket = some sc.fd ∧ conn.got = base.got ∧ conn.isOpen = base.isOpen ∧
    match e, sc with
    | .sendAll _ data, .send _ rest =>
        rest ≠ [] ∧ ∃ part, part ++ rest = data ∧ conn.sent = base.sent ++ part
    | .recv _ _ _, .select _ _ _ => conn.sent = base.sent
    | .recv _ size _, .recv _ size' => size' = size ∧ conn.sent = base.sent
    | .closeSocket _, .close _ => conn.sent = base.sent
    | _, _ => False
  rely _ sc r := match sc, r with
    | .send _ data, some n => 0 < n ∧ n ≤ data.length
    | .recv _ size, some data => data.length ≤ size
    | _, _ => True
  next conn sc r := conn.after sc r

section Functions

variable {base conn : Connection} {fd : Fd} {e : Eff}

theorem sendAllLoop_carries {data : Bytes} {fuel n : ℕ} (hn : n ≤ data.length)
    (hfuel : data.length < fuel + n) (hsent : conn.sent = base.sent ++ data.take n)
    (hgot : conn.got = base.got) (hopen : conn.isOpen = base.isOpen) :
    (sendAllLoop fd data fuel n).wp (carrying base (.sendAll fd data))
      (CarriedOut base (.sendAll fd data)) conn := by
  induction fuel generalizing n conn with
  | zero => omega
  | succ fuel ih =>
      unfold sendAllLoop
      split
      · rename_i hlt
        have hrest : data.drop n ≠ [] := fun h =>
          absurd (List.drop_eq_nil_iff.mp h) (Nat.not_le.mpr hlt)
        simp only [syscall, Prog.wp_bind, Prog.wp_perform]
        refine ⟨⟨rfl, hgot, hopen, hrest, data.take n, List.take_append_drop n data, hsent⟩, ?_⟩
        rintro (_ | m) hr
        · -- what was put before is a proper prefix
          change CarriedOut base (.sendAll fd data) false conn
          refine ⟨⟨data.take n, ⟨List.take_prefix n data, fun h => ?_⟩, hsent⟩, ?_, ?_, trivial⟩
          · have hlength := congrArg List.length h
            rw [List.length_take] at hlength
            omega
          · simpa [Call.received] using hgot
          · simpa [Eff.keepsOpen] using hopen
        · obtain ⟨hpos, hm⟩ := hr
          rw [List.length_drop] at hm
          change (sendAllLoop fd data fuel (n + m)).wp _ _
            { conn with sent := conn.sent ++ (data.drop n).take m }
          have hmore : conn.sent ++ (data.drop n).take m = base.sent ++ data.take (n + m) := by
            rw [hsent, List.append_assoc, ← List.take_add]
          exact ih (by omega) (by omega) hmore hgot hopen
      · have hall : data.take n = data := List.take_of_length_le (by omega)
        rw [hall] at hsent
        refine ⟨⟨data, rfl, hsent⟩, ?_, ?_, trivial⟩
        · simpa [Call.received] using hgot
        · simpa [Eff.keepsOpen] using hopen

theorem recvDataWithTimeout_carries {size timeoutMs : ℕ} :
    (recvDataWithTimeout fd size timeoutMs).wp (carrying base (.recv fd size timeoutMs))
      (CarriedOut base (.recv fd size timeoutMs)) base := by
  have hnothing : ∀ r : Option Bytes, r.getD [] = [] →
      CarriedOut base (.recv fd size timeoutMs) r base := by
    intro r hr
    refine ⟨⟨[], rfl, (List.append_nil _).symm⟩, ?_, by simp [Eff.keepsOpen], ?_⟩
    · cases r with
      | none => exact (List.append_nil _).symm
      | some data =>
          cases hr
          exact (List.append_nil _).symm
    · cases r with
      | none => trivial
      | some data =>
          cases hr
          exact Nat.zero_le size
  unfold recvDataWithTimeout
  simp only [syscall, Prog.wp_bind, Prog.wp_perform]
  refine ⟨⟨rfl, rfl, rfl, rfl⟩, ?_⟩
  rintro (_ | _ | _) -
  · exact hnothing none rfl
  · exact hnothing (some []) rfl
  · refine ⟨⟨rfl, rfl, rfl, rfl, rfl⟩, ?_⟩
    rintro (_ | data) hr
    · exact hnothing none rfl
    · exact ⟨⟨[], rfl, (List.append_nil _).symm⟩, rfl, (Bool.and_true _).symm, hr⟩

theorem closeSocket_carries :
    (closeSocket fd).wp (carrying base (.closeSocket fd)) (CarriedOut base (.closeSocket fd))
      base := by
  refine ⟨⟨rfl, rfl, rfl, rfl⟩, fun r _ => ?_⟩
  refine ⟨⟨[], rfl, (List.append_nil _).symm⟩, (List.append_nil _).symm, ?_, trivial⟩
  exact (Bool.and_false _).symm

/-- Each function of `socket.cpp` carries out its call. -/
theorem socketFunction_carries {body : Socket (Resp e)} (h : socketFunction e = some body) :
    body.wp (carrying base e) (CarriedOut base e) base := by
  cases e with
  | sendAll fd data =>
      cases h
      exact sendAllLoop_carries (Nat.zero_le _) (by omega) (by simp) rfl rfl
  | recv fd size timeoutMs =>
      cases h
      exact recvDataWithTimeout_carries
  | closeSocket fd =>
      cases h
      exact closeSocket_carries
  | _ => cases h

theorem socketFunction_socket {body : Socket (Resp e)} (h : socketFunction e = some body) :
    ∃ fd, e.socket = some fd := by
  cases e with
  | sendAll fd data => exact ⟨fd, rfl⟩
  | recv fd size timeoutMs => exact ⟨fd, rfl⟩
  | closeSocket fd => exact ⟨fd, rfl⟩
  | _ => cases h

/-- A call that is none of `socket.cpp` does nothing to a connection. -/
theorem carriedOut_quiet (h : socketFunction e = none) (r : Resp e) :
    CarriedOut base e r base := by
  cases e with
  | sendAll fd data => cases h
  | recv fd size timeoutMs => cases h
  | closeSocket fd => cases h
  | _ => exact ⟨⟨[], rfl, (List.append_nil _).symm⟩, (List.append_nil _).symm,
      (Bool.and_true _).symm, trivial⟩

/-- The kernel answers as the functions rely on. -/
theorem answer_rely {sc : SysCall} (h : (carrying base e).guarantee conn sc)
    (conn' : Connection) (arrived : Bytes) (c : KernelChoice) :
    (carrying base e).rely conn sc (conn'.answer arrived c sc) := by
  cases sc with
  | send fd data =>
      obtain ⟨-, -, -, hcall⟩ := h
      cases e with
      | sendAll fd' data' =>
          have hpos := List.length_pos_of_ne_nil hcall.1
          simp only [Connection.answer]
          split
          · exact ⟨by omega, by omega⟩
          · trivial
      | _ => exact hcall.elim
  | recv fd size =>
      simp only [Connection.answer]
      split
      · simp only [carrying, List.length_take]
        omega
      · trivial
  | select fd sec usec => cases hr : conn'.answer arrived c (.select fd sec usec) <;> trivial
  | close fd => trivial

/-- While a call is carried out, a part of what it sends is on the connection, and what it
receives is there once it returns. -/
theorem carrying_part {rest : Socket (Resp e)}
    (h : rest.wp (carrying base e) (CarriedOut base e) conn) :
    (∃ part, conn.sent = base.sent ++ part ∧
      (part ≠ [] → ∃ fd data, e = .sendAll fd data ∧ part <+: data)) ∧
    ∃ more, conn.got = base.got ++ more ∧
      (more ≠ [] → ∃ fd size timeoutMs, e = .recv fd size timeoutMs) := by
  cases rest with
  | ret r =>
      obtain ⟨⟨part, hpart, hsent⟩, hgot, -, -⟩ := h
      refine ⟨⟨part, hsent, fun hne => ?_⟩, _, hgot, fun hne => ?_⟩
      · cases e with
        | sendAll fd data =>
            refine ⟨fd, data, rfl, ?_⟩
            cases r with
            | true =>
                cases hpart
                exact List.prefix_rfl
            | false => exact hpart.1
        | _ => exact absurd hpart hne
      · cases e with
        | recv fd size timeoutMs => exact ⟨fd, size, timeoutMs, rfl⟩
        | _ => exact absurd rfl hne
  | call sc next =>
      obtain ⟨⟨-, hgot, -, hcall⟩, -⟩ := h
      refine ⟨?_, [], hgot.trans (List.append_nil _).symm, fun hne => absurd rfl hne⟩
      cases e with
      | sendAll fd data =>
          cases sc with
          | send fd' rest =>
              obtain ⟨-, part, hpart, hsent⟩ := hcall
              exact ⟨part, hsent, fun _ => ⟨fd, data, rfl, rest, hpart⟩⟩
          | _ => exact hcall.elim
      | recv fd size timeoutMs =>
          cases sc with
          | select _ _ _ =>
              exact ⟨[], hcall.trans (List.append_nil _).symm, fun hne => absurd rfl hne⟩
          | recv _ _ =>
              exact ⟨[], hcall.2.trans (List.append_nil _).symm, fun hne => absurd rfl hne⟩
          | _ => exact hcall.elim
      | closeSocket fd =>
          cases sc with
          | close _ =>
              exact ⟨[], hcall.trans (List.append_nil _).symm, fun hne => absurd rfl hne⟩
          | _ => exact hcall.elim
      | _ => exact hcall.elim

end Functions

/-! ## The callers -/

namespace Sys

variable {P W : ℕ} {cfg : Config} {s t : Sys P W} {fd : Fd} {e : Eff} {k : Thread P W}

theorem parser_of_nextCall {k : Fin P} (h : s.nextCall (.inl k) = some (fd, e)) :
    ∃ next, s.parser k = .busy fd (.call e next) := by
  unfold nextCall at h
  simp only at h
  split at h
  · rename_i hbusy
    cases h
    exact ⟨_, hbusy⟩
  · cases h

theorem worker_of_nextCall {k : Fin W} (h : s.nextCall (.inr k) = some (fd, e)) :
    ∃ req held next, s.worker k = .busy req held (.call e next) ∧ req.clientFd = fd := by
  unfold nextCall at h
  simp only at h
  split at h
  · rename_i hbusy
    cases h
    exact ⟨_, _, _, hbusy, rfl⟩
  · cases h

theorem callOf_makes (h : s.nextCall k = some (fd, e)) (c : Choice) :
    s.callOf (Thread.makes c k) = some (fd, ⟨e, s.answer c e⟩) := by
  cases k with
  | inl k =>
      obtain ⟨next, hbusy⟩ := parser_of_nextCall h
      simp [Thread.makes, callOf, hbusy]
  | inr k =>
      obtain ⟨req, held, next, hbusy, rfl⟩ := worker_of_nextCall h
      simp [Thread.makes, callOf, hbusy]

theorem nextCall_setParser {j : Fin P} {p : Parser} (h : k ≠ .inl j) :
    (s.setParser j p).nextCall k = s.nextCall k := by
  cases k with
  | inl k =>
      have hne : k ≠ j := fun heq => h (congrArg Sum.inl heq)
      simp only [nextCall, setParser, Function.update_of_ne hne]
  | inr k => rfl

theorem nextCall_setWorker {j : Fin W} {w : Worker} (h : k ≠ .inr j) :
    (s.setWorker j w).nextCall k = s.nextCall k := by
  cases k with
  | inl k => rfl
  | inr k =>
      have hne : k ≠ j := fun heq => h (congrArg Sum.inr heq)
      simp only [nextCall, setWorker, Function.update_of_ne hne]

/-- A thread about to make a call waits for its own step. -/
theorem step_nextCall {l : Label P W} (h : s.step cfg l = some t)
    (hk : s.nextCall k = some (fd, e)) (hl : ∀ c, l ≠ Thread.makes c k) :
    t.nextCall k = some (fd, e) := by
  have hparser : ∀ j, s.parser j = .idle → k ≠ .inl j := by
    rintro j hidle rfl
    obtain ⟨next, hbusy⟩ := parser_of_nextCall hk
    rw [hidle] at hbusy
    cases hbusy
  have hworker : ∀ j, s.worker j = .idle → k ≠ .inr j := by
    rintro j hidle rfl
    obtain ⟨req, held, next, hbusy, -⟩ := worker_of_nextCall hk
    rw [hidle] at hbusy
    cases hbusy
  rw [← hk]
  cases step_cases h with
  | accept fd' hnew hopen => cases k <;> rfl
  | stopAccepting => cases k <;> rfl
  | parserTake j fd' rest hidle hq =>
      rw [nextCall_setParser (hparser j hidle)]
      cases k <;> rfl
  | parserExit j hidle hq hclosed => exact nextCall_setParser (hparser j hidle)
  | parserCall j c fd' e' next hbusy =>
      have hne : k ≠ .inl j := by
        rintro rfl
        exact hl c rfl
      rw [nextCall_setParser hne]
      cases k <;> rfl
  | workerTake j d request q hidle hpop hreq hbudget hnext =>
      rw [nextCall_setWorker (hworker j hidle)]
      cases k <;> rfl
  | workerExit j hidle hq hclosed hinflight => exact nextCall_setWorker (hworker j hidle)
  | workerCall j c req held e' next hbusy =>
      have hne : k ≠ .inr j := by
        rintro rfl
        exact hl c rfl
      rw [nextCall_setWorker hne]
      cases k <;> rfl
  | closeQueue => cases k <;> rfl

theorem parsing_pos {k : Fin P} (h : s.nextCall (.inl k) = some (fd, e)) :
    1 ≤ s.parsingCount fd := by
  obtain ⟨next, hbusy⟩ := parser_of_nextCall h
  have hle : (s.parser k).owns fd ≤ s.parsingCount fd := le_sum_pool (Parser.owns fd) s.parser k
  simpa only [hbusy, Parser.owns, ↓reduceIte] using hle

theorem served_pos {k : Fin W} (h : s.nextCall (.inr k) = some (fd, e)) :
    1 ≤ s.servedCount fd := by
  obtain ⟨req, held, next, hbusy, rfl⟩ := worker_of_nextCall h
  have hle : (s.worker k).owns req.clientFd ≤ s.servedCount req.clientFd :=
    le_sum_pool (Worker.owns req.clientFd) s.worker k
  simpa only [hbusy, Worker.owns, ↓reduceIte] using hle

/-- A thread that makes a call owns its connection. -/
theorem Sockets.caller (hs : s.Sockets) (h : s.nextCall k = some (fd, e)) :
    (socketContract fd).guarantee true e ∧ fd ∈ s.accepted ∧ closes fd (s.log fd) = 0 := by
  have hpos : 1 ≤ s.ownersCount fd := by
    unfold ownersCount
    cases k with
    | inl k =>
        have hparsing := parsing_pos h
        omega
    | inr k =>
        have hserved := served_pos h
        omega
  constructor
  · cases k with
    | inl k =>
        obtain ⟨next, hbusy⟩ := parser_of_nextCall h
        exact (hs.parser_ok k fd _ hbusy).1
    | inr k =>
        obtain ⟨req, held, next, hbusy, rfl⟩ := worker_of_nextCall h
        exact (hs.worker_ok k req held _ hbusy).1
  · have howned := hs.owned fd
    split at howned
    · exact ⟨‹_›, by omega⟩
    · omega

/-- It makes its socket calls on that connection. -/
theorem Sockets.caller_socket (hs : s.Sockets) (h : s.nextCall k = some (fd, e)) {fd' : Fd}
    (hsocket : e.socket = some fd') : fd' = fd := by
  have hguar := (hs.caller h).1
  cases e with
  | push req => cases hsocket
  | requeue req => cases hsocket
  | _ => exact hguar.2 fd' hsocket

/-- Two threads never make calls for one connection. -/
theorem caller_unique (hwf : s.WellFormed) (hs : s.Sockets) {j : Thread P W} {e' : Eff}
    (hj : s.nextCall j = some (fd, e)) (hk : s.nextCall k = some (fd, e')) : j = k := by
  have hcross : ∀ {i : Fin P} {i' : Fin W} {e e' : Eff}, s.nextCall (.inl i) = some (fd, e) →
      s.nextCall (.inr i') = some (fd, e') → False := by
    intro i i' e e' hi hi'
    have hparsing := parsing_pos hi
    have hserved := served_pos hi'
    have howned := hs.owned fd
    unfold ownersCount at howned
    split at howned <;> omega
  rcases j with j | j <;> rcases k with k | k
  · obtain ⟨next, hbusy⟩ := parser_of_nextCall hj
    obtain ⟨next', hbusy'⟩ := parser_of_nextCall hk
    rw [hwf.parser_unique hbusy hbusy']
  · exact (hcross hj hk).elim
  · exact (hcross hk hj).elim
  · obtain ⟨req, held, next, hbusy, hfd⟩ := worker_of_nextCall hj
    obtain ⟨req', held', next', hbusy', hfd'⟩ := worker_of_nextCall hk
    rw [hwf.worker_unique hbusy hbusy' (hfd.trans hfd'.symm)]

/-- A thread gets the answer that its function of `socket.cpp` returned. -/
theorem answer_giving {body : Socket (Resp e)} (h : socketFunction e = some body) {r : Resp e}
    (hfits : Call.Fits ⟨e, r⟩) : s.answer (.giving e r) e = r := by
  cases e with
  | sendAll fd data => rfl
  | recv fd size timeoutMs =>
      cases r with
      | none => rfl
      | some data => exact congrArg some (List.take_of_length_le hfits)
  | closeSocket fd => rfl
  | _ => cases h

end Sys

theorem Thread.makes_inj {P W : ℕ} {j k : Thread P W} {c c' : Choice}
    (h : Thread.makes c j = Thread.makes c' k) : j = k := by
  cases j <;> cases k <;> cases h <;> rfl

/-! ## What the log says about the connection -/

/-- The finished calls of the log have made the connection what it is. -/
structure Logged {P W : ℕ} (s : Sys P W) (fd : Fd) (conn : Connection) : Prop where
  sent : ∃ parts, List.Forall₂ Call.Carried (s.log fd) parts ∧ conn.sent = parts.flatten
  got : conn.got = received (s.log fd)
  isOpen : conn.isOpen = true ↔ fd ∈ s.accepted ∧ closes fd (s.log fd) = 0

section Logged

variable {P W : ℕ} {cfg : Config} {s t : Sys P W} {fd : Fd} {base conn : Connection}

theorem Logged.same (h : Logged s fd conn) (hlog : t.log fd = s.log fd)
    (haccepted : fd ∈ t.accepted ↔ fd ∈ s.accepted) : Logged t fd conn := by
  refine ⟨?_, ?_, ?_⟩
  · rw [hlog]
    exact h.sent
  · rw [hlog]
    exact h.got
  · rw [hlog, haccepted]
    exact h.isOpen

theorem Logged.snoc {e : Eff} {r : Resp e} (h : Logged s fd base)
    (hlog : t.log fd = s.log fd ++ [⟨e, r⟩]) (haccepted : fd ∈ t.accepted ↔ fd ∈ s.accepted)
    (hcarried : CarriedOut base e r conn) (hsocket : ∀ fd', e.socket = some fd' → fd' = fd) :
    Logged t fd conn := by
  obtain ⟨parts, hparts, hsent⟩ := h.sent
  obtain ⟨part, hpart, hmore⟩ := hcarried.sent
  refine ⟨⟨parts ++ [part], ?_, ?_⟩, ?_, ?_⟩
  · rw [hlog]
    exact List.rel_append hparts (.cons hpart .nil)
  · rw [hmore, hsent, List.flatten_append, List.flatten_singleton]
  · rw [hcarried.got, h.got, hlog, received_append, received_cons, received_nil, List.append_nil]
  · rw [hcarried.isOpen, hlog, haccepted, closes_snoc, Bool.and_eq_true, h.isOpen, and_assoc,
      Nat.add_eq_zero_iff]
    refine and_congr_right fun _ => and_congr_right fun _ => ?_
    cases e with
    | closeSocket fd' =>
        rw [hsocket fd' rfl]
        simp [Eff.keepsOpen]
    | _ => simp [Eff.keepsOpen]

theorem mem_accepted_step {l : Label P W} (h : s.step cfg l = some t) (hl : l ≠ .accept fd) :
    fd ∈ t.accepted ↔ fd ∈ s.accepted := by
  cases Sys.step_cases h with
  | accept fd' hnew hopen =>
      have hne : fd ≠ fd' := by
        rintro rfl
        exact hl rfl
      simp [hne]
  | _ => exact Iff.rfl

/-- A step that is not carried out by `socket.cpp` leaves the connections alone. -/
theorem Logged.run {l : Label P W} (h : Logged s fd conn) (hstep : s.step cfg l = some t)
    (hquiet : s.onSocket l = false) (hl : l ≠ .accept fd) : Logged t fd conn := by
  have hlog := Sys.step_log hstep fd
  have haccepted := mem_accepted_step hstep hl
  unfold Sys.newCalls at hlog
  unfold Sys.onSocket at hquiet
  cases hcall : s.callOf l with
  | none =>
      rw [hcall] at hlog
      exact h.same (hlog.trans (List.append_nil _)) haccepted
  | some calling =>
      obtain ⟨fd', e, r⟩ := calling
      rw [hcall] at hlog hquiet
      simp only at hlog hquiet
      have hnone : socketFunction e = none := by simpa using hquiet
      split at hlog
      · refine h.snoc hlog haccepted (carriedOut_quiet hnone r) fun fd'' hsocket => ?_
        cases e with
        | sendAll fd data => cases hnone
        | recv fd size timeoutMs => cases hnone
        | closeSocket fd => cases hnone
        | _ => cases hsocket
      · exact h.same (hlog.trans (List.append_nil _)) haccepted

end Logged

/-! ## The whole server -/

namespace Wired

variable {P W : ℕ} {cfg : Config} {dir : Directory} {s t : Wired P W}

theorem inside_update {inside : Thread P W → Option Inside} {o : Option Inside}
    {j k : Thread P W} {i : Inside} (h : Function.update inside k o j = some i) :
    (j = k ∧ o = some i) ∨ (j ≠ k ∧ inside j = some i) := by
  by_cases hjk : j = k
  · rw [hjk, Function.update_self] at h
    exact Or.inl ⟨hjk, h⟩
  · rw [Function.update_of_ne hjk] at h
    exact Or.inr ⟨hjk, h⟩

/-- A thread is inside of a call on `fd`. -/
def On (s : Wired P W) (k : Thread P W) (fd : Fd) : Prop :=
  ∃ e rest, s.inside k = some ⟨e, rest⟩ ∧ e.socket = some fd

/-- Sending nothing cannot fail: `send_all` then makes no system call. -/
def Sendable (s : Sys P W) (l : LinkScheduling.Label P W) : Prop :=
  ∀ fd fd', s.callOf l ≠ some (fd, ⟨.sendAll fd' [], false⟩)

structure Linked (cfg : Config) (dir : Directory) (s : Wired P W) : Prop where
  server : Sys.RunWhere cfg Sendable (.init P W dir) s.server
  calling : ∀ k e rest, s.inside k = some ⟨e, rest⟩ →
    (∃ body, socketFunction e = some body) ∧
      ∃ fd, e.socket = some fd ∧ s.server.nextCall k = some (fd, e)
  idle : ∀ fd, (∀ k, ¬ s.On k fd) → Logged s.server fd (s.connection fd)
  busy : ∀ k fd e rest, s.inside k = some ⟨e, rest⟩ → e.socket = some fd →
    ∃ base, Logged s.server fd base ∧
      rest.wp (carrying base e) (CarriedOut base e) (s.connection fd)
  got : ∀ fd, (s.connection fd).got <+: s.arrived fd

theorem start_linked : Linked cfg dir (start P W dir) where
  server := .refl _
  calling _ _ _ h := by cases h
  idle fd _ := ⟨⟨[], .nil, rfl⟩, rfl, by simp [start, Sys.init]⟩
  busy _ _ _ _ h := by cases h
  got _ := List.nil_prefix

theorem Linked.wellFormed (h : Linked cfg dir s) : s.server.WellFormed :=
  Sys.run_wellFormed (Sys.init_wellFormed dir) h.server

theorem Linked.sockets (h : Linked cfg dir s) : s.server.Sockets :=
  Sys.run_sockets (Sys.init_sockets dir) h.server

/-- Two threads are never inside of calls on one socket. -/
theorem Linked.unique (h : Linked cfg dir s) {j k : Thread P W} {fd : Fd} (hj : s.On j fd)
    (hk : s.On k fd) : j = k := by
  obtain ⟨e, rest, hinside, hsocket⟩ := hj
  obtain ⟨e', rest', hinside', hsocket'⟩ := hk
  obtain ⟨-, fd₁, hfd₁, hnext⟩ := h.calling j e rest hinside
  obtain ⟨-, fd₂, hfd₂, hnext'⟩ := h.calling k e' rest' hinside'
  cases hsocket.symm.trans hfd₁
  cases hsocket'.symm.trans hfd₂
  exact Sys.caller_unique h.wellFormed h.sockets hnext hnext'

theorem Linked.accepted (h : Linked cfg dir s) {k : Thread P W} {fd : Fd} (hk : s.On k fd) :
    fd ∈ s.server.accepted := by
  obtain ⟨e, rest, hinside, hsocket⟩ := hk
  obtain ⟨-, fd', hfd', hnext⟩ := h.calling k e rest hinside
  cases hsocket.symm.trans hfd'
  exact (h.sockets.caller hnext).2.1

theorem opens_of_ne {l : LinkScheduling.Label P W} {fd : Fd} (hl : l ≠ .accept fd)
    (connection : Fd → Connection) : l.opens connection fd = connection fd := by
  cases l with
  | accept fd' =>
      have hne : fd ≠ fd' := by
        rintro rfl
        exact hl rfl
      exact Function.update_of_ne hne _ _
  | _ => rfl

theorem run_linked (h : Linked cfg dir s) {l : LinkScheduling.Label P W} {server : Sys P W}
    (hquiet : s.server.onSocket l = false) (hserver : s.server.step cfg l = some server) :
    Linked cfg dir { s with server := server, connection := l.opens s.connection } := by
  have hold : ∀ fd, fd ∈ s.server.accepted → l ≠ .accept fd := by
    rintro fd haccepted rfl
    cases Sys.step_cases hserver with
    | accept _ hnew hopen => exact hnew haccepted
  have hsendable : Sendable s.server l := by
    intro fd fd' hcall
    simp [Sys.onSocket, hcall, socketFunction] at hquiet
  refine ⟨.tail h.server hsendable hserver, ?_, ?_, ?_, ?_⟩
  · intro k e rest hinside
    obtain ⟨hbody, fd, hsocket, hnext⟩ := h.calling k e rest hinside
    refine ⟨hbody, fd, hsocket, Sys.step_nextCall hserver hnext ?_⟩
    rintro c rfl
    obtain ⟨body, hbody⟩ := hbody
    simp [Sys.onSocket, Sys.callOf_makes hnext, hbody] at hquiet
  · intro fd hnobody
    by_cases hl : l = .accept fd
    · subst hl
      -- a new connection has no history
      cases Sys.step_cases hserver with
      | accept _ hnew hopen =>
          have hlog : s.server.log fd = [] := h.wellFormed.log_new fd (Or.inl hnew)
          change Logged _ fd (Function.update s.connection fd { isOpen := true } fd)
          rw [Function.update_self]
          exact ⟨⟨[], by simp [hlog], rfl⟩, by simp [hlog], by simp [hlog, closes]⟩
    · change Logged _ fd (l.opens s.connection fd)
      rw [opens_of_ne hl]
      exact (h.idle fd hnobody).run hserver hquiet hl
  · intro k fd e rest hinside hsocket
    have hl := hold fd (h.accepted ⟨e, rest, hinside, hsocket⟩)
    obtain ⟨base, hlogged, hwp⟩ := h.busy k fd e rest hinside hsocket
    refine ⟨base, hlogged.run hserver hquiet hl, ?_⟩
    change rest.wp _ _ (l.opens s.connection fd)
    rwa [opens_of_ne hl]
  · intro fd
    by_cases hl : l = .accept fd
    · subst hl
      change (Function.update s.connection fd { isOpen := true } fd).got <+: _
      rw [Function.update_self]
      exact List.nil_prefix
    · change (l.opens s.connection fd).got <+: _
      rw [opens_of_ne hl]
      exact h.got fd

theorem enter_linked (h : Linked cfg dir s) {k : Thread P W} {fd : Fd} {e : Eff}
    {body : Socket (Resp e)} (hout : s.inside k = none)
    (hnext : s.server.nextCall k = some (fd, e)) (hbody : socketFunction e = some body) :
    Linked cfg dir { s with inside := Function.update s.inside k (some ⟨e, body⟩) } := by
  obtain ⟨fd', hsocket⟩ := socketFunction_socket hbody
  cases h.sockets.caller_socket hnext hsocket
  have hfree : ∀ j, ¬ s.On j fd := by
    rintro j ⟨e', rest, hinside, hsocket'⟩
    obtain ⟨-, fd', hfd', hnext'⟩ := h.calling j e' rest hinside
    cases hsocket'.symm.trans hfd'
    rw [Sys.caller_unique h.wellFormed h.sockets hnext' hnext, hout] at hinside
    cases hinside
  refine ⟨h.server, ?_, ?_, ?_, h.got⟩
  · intro j e' rest hinside
    rcases inside_update hinside with ⟨rfl, heq⟩ | ⟨-, hinside⟩
    · cases heq
      exact ⟨⟨body, hbody⟩, fd, hsocket, hnext⟩
    · exact h.calling j e' rest hinside
  · intro fd hnobody
    refine h.idle fd ?_
    rintro j ⟨e', rest, hinside, hsocket'⟩
    refine hnobody j ⟨e', rest, ?_, hsocket'⟩
    have hjk : j ≠ k := by
      rintro rfl
      rw [hout] at hinside
      cases hinside
    exact (Function.update_of_ne hjk _ _).trans hinside
  · intro j fd e' rest hinside hsocket'
    rcases inside_update hinside with ⟨rfl, heq⟩ | ⟨-, hinside⟩
    · cases heq
      cases hsocket.symm.trans hsocket'
      exact ⟨_, h.idle _ hfree, socketFunction_carries hbody⟩
    · exact h.busy j fd e' rest hinside hsocket'

/-- What the kernel gives to the server has arrived. -/
theorem after_got {conn : Connection} {arrived : Bytes} (h : conn.got <+: arrived)
    (c : KernelChoice) (sc : SysCall) :
    (conn.after sc (conn.answer arrived c sc)).got <+: arrived := by
  cases sc with
  | recv fd size =>
      simp only [Connection.answer]
      split
      · obtain ⟨more, rfl⟩ := h
        change conn.got ++ _ <+: _
        rw [List.drop_left]
        exact (List.prefix_append_right_inj _).mpr (List.take_prefix _ _)
      · exact h
  | send fd data =>
      simp only [Connection.answer]
      split <;> exact h
  | _ => exact h

theorem sysCall_linked (h : Linked cfg dir s) {k : Thread P W} {e : Eff} {sc : SysCall}
    {next : sc.Answer → Socket (Resp e)} (hinside : s.inside k = some ⟨e, .call sc next⟩)
    (c : KernelChoice) :
    Linked cfg dir { s with
      inside := Function.update s.inside k
        (some ⟨e, next ((s.connection sc.fd).answer (s.arrived sc.fd) c sc)⟩)
      connection := Function.update s.connection sc.fd
        ((s.connection sc.fd).after sc
          ((s.connection sc.fd).answer (s.arrived sc.fd) c sc)) } := by
  obtain ⟨hbody, fd, hsocket, hnext⟩ := h.calling k e _ hinside
  obtain ⟨base, hlogged, hguar, hrest⟩ := h.busy k fd e _ hinside hsocket
  have hfd : sc.fd = fd := Option.some.inj (hguar.1.symm.trans hsocket)
  subst hfd
  have hon : s.On k sc.fd := ⟨e, _, hinside, hsocket⟩
  refine ⟨h.server, ?_, ?_, ?_, ?_⟩
  · intro j e' rest hj
    rcases inside_update hj with ⟨rfl, heq⟩ | ⟨-, hj⟩
    · cases heq
      exact ⟨hbody, sc.fd, hsocket, hnext⟩
    · exact h.calling j e' rest hj
  · intro fd hnobody
    have hne : fd ≠ sc.fd := by
      rintro rfl
      exact hnobody k ⟨e, _, Function.update_self _ _ _, hsocket⟩
    change Logged _ fd (Function.update s.connection sc.fd _ fd)
    rw [Function.update_of_ne hne]
    refine h.idle fd ?_
    rintro j ⟨e', rest, hj, hsocket'⟩
    by_cases hjk : j = k
    · subst hjk
      cases hinside.symm.trans hj
      exact hne (Option.some.inj (hsocket'.symm.trans hsocket))
    · exact hnobody j ⟨e', rest, (Function.update_of_ne hjk _ _).trans hj, hsocket'⟩
  · intro j fd e' rest hj hsocket'
    rcases inside_update hj with ⟨rfl, heq⟩ | ⟨hjk, hj⟩
    · cases heq
      cases hsocket.symm.trans hsocket'
      refine ⟨base, hlogged, ?_⟩
      change Prog.wp _ _ _ (Function.update s.connection sc.fd _ sc.fd)
      rw [Function.update_self]
      exact hrest _ (answer_rely hguar _ _ c)
    · have hne : fd ≠ sc.fd := by
        rintro rfl
        exact hjk (h.unique ⟨e', rest, hj, hsocket'⟩ hon)
      change ∃ base, _ ∧ Prog.wp _ _ _ (Function.update s.connection sc.fd _ fd)
      rw [Function.update_of_ne hne]
      exact h.busy j fd e' rest hj hsocket'
  · intro fd
    change (Function.update s.connection sc.fd _ fd).got <+: s.arrived fd
    by_cases hfd : fd = sc.fd
    · subst hfd
      rw [Function.update_self]
      exact after_got (h.got sc.fd) c sc
    · rw [Function.update_of_ne hfd]
      exact h.got fd

theorem leave_linked (h : Linked cfg dir s) {k : Thread P W} {e : Eff} {r : Resp e}
    {server : Sys P W} (hinside : s.inside k = some ⟨e, .ret r⟩)
    (hserver : s.server.step cfg (Thread.makes (.giving e r) k) = some server) :
    Linked cfg dir
      { s with server := server, inside := Function.update s.inside k none } := by
  obtain ⟨⟨body, hbody⟩, fd, hsocket, hnext⟩ := h.calling k e _ hinside
  obtain ⟨base, hlogged, hcarried⟩ := h.busy k fd e _ hinside hsocket
  have hanswer : s.server.answer (.giving e r) e = r := Sys.answer_giving hbody hcarried.fits
  have hon : s.On k fd := ⟨e, _, hinside, hsocket⟩
  have hnoAccept : ∀ fd, Thread.makes (.giving e r) k ≠ .accept fd := by
    intro fd
    cases k <;> exact fun h => by cases h
  have haccepted : ∀ fd, fd ∈ server.accepted ↔ fd ∈ s.server.accepted :=
    fun fd => mem_accepted_step hserver (hnoAccept fd)
  have hself : server.log fd = s.server.log fd ++ [⟨e, r⟩] := by
    rw [Sys.step_log hserver fd, Sys.newCalls, Sys.callOf_makes hnext, hanswer]
    simp
  have hother : ∀ fd', fd' ≠ fd → server.log fd' = s.server.log fd' := by
    intro fd' hne
    rw [Sys.step_log hserver fd', Sys.newCalls, Sys.callOf_makes hnext]
    simp [Ne.symm hne]
  have hsendable : Sendable s.server (Thread.makes (.giving e r) k) := by
    intro fd₁ fd₂ hcall
    rw [Sys.callOf_makes hnext, hanswer] at hcall
    cases hcall
    obtain ⟨part, hpart, -⟩ := hcarried.sent
    exact hpart.2 (List.prefix_nil.mp hpart.1)
  refine ⟨.tail h.server hsendable hserver, ?_, ?_, ?_, h.got⟩
  · intro j e' rest hj
    obtain ⟨-, hnone⟩ | ⟨hjk, hj⟩ := inside_update hj
    · cases hnone
    obtain ⟨hbody', fd', hsocket', hnext'⟩ := h.calling j e' rest hj
    refine ⟨hbody', fd', hsocket', Sys.step_nextCall hserver hnext' fun c hc => ?_⟩
    exact hjk (Thread.makes_inj hc).symm
  · intro fd' hnobody
    by_cases hfd : fd' = fd
    · subst hfd
      refine hlogged.snoc hself (haccepted fd') hcarried fun fd'' hfd'' => ?_
      exact Option.some.inj (hfd''.symm.trans hsocket)
    · refine (h.idle fd' ?_).same (hother fd' hfd) (haccepted fd')
      rintro j ⟨e', rest, hj, hsocket'⟩
      by_cases hjk : j = k
      · subst hjk
        cases hinside.symm.trans hj
        exact hfd (Option.some.inj (hsocket'.symm.trans hsocket))
      · exact hnobody j ⟨e', rest, (Function.update_of_ne hjk _ _).trans hj, hsocket'⟩
  · intro j fd' e' rest hj hsocket'
    obtain ⟨-, hnone⟩ | ⟨hjk, hj⟩ := inside_update hj
    · cases hnone
    have hne : fd' ≠ fd := by
      rintro rfl
      exact hjk (h.unique ⟨e', rest, hj, hsocket'⟩ hon)
    obtain ⟨base', hlogged', hwp⟩ := h.busy j fd' e' rest hj hsocket'
    exact ⟨base', hlogged'.same (hother fd' hne) (haccepted fd'), hwp⟩

theorem arrive_linked (h : Linked cfg dir s) (fd : Fd) (data : Bytes) :
    Linked cfg dir { s with arrived := Function.update s.arrived fd (s.arrived fd ++ data) } := by
  refine ⟨h.server, h.calling, h.idle, h.busy, fun fd' => ?_⟩
  change _ <+: Function.update s.arrived fd (s.arrived fd ++ data) fd'
  by_cases hfd : fd' = fd
  · subst hfd
    rw [Function.update_self]
    exact (h.got fd').trans (List.prefix_append _ _)
  · rw [Function.update_of_ne hfd]
    exact h.got fd'

theorem step_linked {l : Label P W} (h : Linked cfg dir s) (hstep : s.step cfg l = some t) :
    Linked cfg dir t := by
  cases l with
  | run l =>
      simp only [step, Option.ite_none_left_eq_some, Bool.not_eq_true, Option.map_eq_some_iff]
        at hstep
      obtain ⟨hquiet, server, hserver, rfl⟩ := hstep
      exact run_linked h hquiet hserver
  | enter k =>
      simp only [step] at hstep
      split at hstep
      · rename_i hout hnext
        obtain ⟨body, hbody, rfl⟩ := Option.map_eq_some_iff.mp hstep
        exact enter_linked h hout hnext hbody
      · cases hstep
  | sysCall k c =>
      simp only [step] at hstep
      split at hstep
      · rename_i hinside
        cases hstep
        exact sysCall_linked h hinside c
      · cases hstep
  | leave k =>
      simp only [step] at hstep
      split at hstep
      · rename_i hinside
        obtain ⟨server, hserver, rfl⟩ := Option.map_eq_some_iff.mp hstep
        exact leave_linked h hinside hserver
      · cases hstep
  | arrive fd data =>
      cases hstep
      exact arrive_linked h fd data

theorem start_run_linked (hrun : Run (step cfg) (fun _ _ => True) (start P W dir) t) :
    Linked cfg dir t :=
  hrun.invariant (Linked cfg dir) start_linked fun _ _ _ h _ hstep => step_linked h hstep

end Wired

/-! ## Atomic calls -/

theorem carried_flatten {log : List Call} {parts : List Bytes}
    (h : List.Forall₂ Call.Carried log parts)
    (hok : ∀ fd data, (⟨.sendAll fd data, false⟩ : Call) ∉ log) :
    parts.flatten = (sends log).flatten := by
  induction h with
  | nil => rfl
  | @cons call part log parts hpart h ih =>
      have hrest := ih fun fd data hmem => hok fd data (List.mem_cons_of_mem _ hmem)
      rw [sends_cons, List.flatten_append, List.flatten_cons, hrest]
      obtain ⟨e, r⟩ := call
      congr 1
      cases e with
      | sendAll fd data =>
          cases r with
          | true =>
              cases hpart
              exact List.flatten_singleton.symm
          | false => exact absurd List.mem_cons_self (hok fd data)
      | _ => exact hpart

namespace Wired

variable {P W : ℕ} {cfg : Config} {dir : Directory} {s t : Wired P W}

theorem Linked.connection (h : Linked cfg dir s) (fd : Fd) :
    ∃ base, Logged s.server fd base ∧
      (∃ part, (s.connection fd).sent = base.sent ++ part ∧
        (part ≠ [] → ∃ k data rest, s.inside k = some ⟨.sendAll fd data, rest⟩ ∧ part <+: data)) ∧
      ∃ more, (s.connection fd).got = base.got ++ more ∧
        (more ≠ [] → ∃ k size timeoutMs rest,
          s.inside k = some ⟨.recv fd size timeoutMs, rest⟩) := by
  by_cases hon : ∃ k, s.On k fd
  · obtain ⟨k, e, rest, hinside, hsocket⟩ := hon
    obtain ⟨base, hlogged, hwp⟩ := h.busy k fd e rest hinside hsocket
    obtain ⟨⟨part, hsent, hpart⟩, more, hgot, hmore⟩ := carrying_part hwp
    refine ⟨base, hlogged, ⟨part, hsent, fun hne => ?_⟩, more, hgot, fun hne => ?_⟩
    · obtain ⟨fd', data, rfl, hprefix⟩ := hpart hne
      cases hsocket
      exact ⟨k, data, rest, hinside, hprefix⟩
    · obtain ⟨fd', size, timeoutMs, rfl⟩ := hmore hne
      cases hsocket
      exact ⟨k, size, timeoutMs, rest, hinside⟩
  · refine ⟨_, h.idle fd fun k hk => hon ⟨k, hk⟩, ⟨[], (List.append_nil _).symm, ?_⟩, [],
      (List.append_nil _).symm, ?_⟩
    · exact fun hne => absurd rfl hne
    · exact fun hne => absurd rfl hne

/-- A thread makes its system calls on an open connection. -/
theorem Linked.isOpen (h : Linked cfg dir s) {k : Thread P W} {e : Eff} {sc : SysCall}
    {next : sc.Answer → Socket (Resp e)} (hinside : s.inside k = some ⟨e, .call sc next⟩) :
    (s.connection sc.fd).isOpen = true := by
  obtain ⟨-, fd, hsocket, hnext⟩ := h.calling k e _ hinside
  obtain ⟨base, hlogged, hguar, -⟩ := h.busy k fd e _ hinside hsocket
  cases hguar.1.symm.trans hsocket
  rw [hguar.2.2.1]
  exact hlogged.isOpen.mpr (h.sockets.caller hnext).2

/-- **Calls on a socket are atomic.** With the system calls of all threads interleaved in any
way, each moving any number of bytes or failing, the server is a server of the model, and on
every connection the kernel has the bytes of the finished calls one after the other: all bytes
of a `send_all` that returned `true`, a proper prefix for one that returned `false`, and then
a prefix of what the one thread inside a `send_all` on it sends. What was received came from
the client in its order. Nobody calls on a descriptor that is not open. -/
theorem calls_atomic (hrun : Run (step cfg) (fun _ _ => True) (start P W dir) t) :
    Sys.RunWhere cfg (fun _ _ => True) (.init P W dir) t.server ∧
    ∀ fd,
      (∃ parts part, List.Forall₂ Call.Carried (t.server.log fd) parts ∧
        (t.connection fd).sent = parts.flatten ++ part ∧
        (part ≠ [] → ∃ k data rest, t.inside k = some ⟨.sendAll fd data, rest⟩ ∧ part <+: data) ∧
        ((∀ fd' data, (⟨.sendAll fd' data, false⟩ : Call) ∉ t.server.log fd) →
          parts.flatten = (sends (t.server.log fd)).flatten)) ∧
      (∃ more, (t.connection fd).got = received (t.server.log fd) ++ more ∧
        (t.connection fd).got <+: t.arrived fd ∧
        (more ≠ [] → ∃ k size timeoutMs rest,
          t.inside k = some ⟨.recv fd size timeoutMs, rest⟩)) ∧
      (∀ j k, t.On j fd → t.On k fd → j = k) ∧
      (∀ k e sc next, t.inside k = some ⟨e, .call sc next⟩ → sc.fd = fd →
        (t.connection fd).isOpen = true) := by
  have h : Linked cfg dir t := start_run_linked hrun
  refine ⟨h.server.mono fun _ _ _ => trivial, fun fd => ?_⟩
  obtain ⟨base, hlogged, ⟨part, hsent, hpart⟩, more, hgot, hmore⟩ := h.connection fd
  obtain ⟨parts, hparts, hbase⟩ := hlogged.sent
  rw [hbase] at hsent
  rw [hlogged.got] at hgot
  refine ⟨⟨parts, part, hparts, hsent, hpart, carried_flatten hparts⟩,
    ⟨more, hgot, h.got fd, hmore⟩, fun j k => h.unique, ?_⟩
  rintro k e sc next hinside rfl
  exact h.isOpen hinside

/-- The first two bytes of an answer are out. -/
theorem calls_atomic_midway : ∃ t : Wired 1 1,
    Run (step (plainConfig .FCFS 1 (by decide) (by decide))) (fun _ _ => True)
      (start 1 1 fun _ => none) t ∧
    (t.connection 7).sent = ascii "OK" ∧
    ∃ k data rest, t.inside k = some ⟨.sendAll 7 data, rest⟩ ∧ ascii "OK" <+: data := by
  obtain ⟨t, hrun, hcheck⟩ := script_exists
    [.run (.accept 7), .run (.parserTake 0), .run (.parserCall 0 {}), .run (.parserCall 0 {}),
      .enter (.inl 0), .arrive 7 (ascii "HEALTH\n"), .sysCall (.inl 0) {},
      .sysCall (.inl 0) { count := 4096 }, .leave (.inl 0), .run (.parserCall 0 {}),
      .enter (.inl 0), .sysCall (.inl 0) { count := 1 }]
    (fun t : Wired 1 1 => decide ((t.connection 7).sent = ascii "OK") &&
      decide (sends (t.server.log 7) = []))
    (fun _ _ _ => trivial)
    (show (script (step (plainConfig .FCFS 1 (by decide) (by decide))) (fun _ _ => true)
      (start 1 1 fun _ => none) _).any _ = true by decide +kernel)
  simp only [Bool.and_eq_true, decide_eq_true_eq] at hcheck
  obtain ⟨hsent, hsends⟩ := hcheck
  obtain ⟨⟨parts, part, -, hconn, hpart, hflat⟩, -⟩ := (calls_atomic hrun).2 7
  have hsilent : parts.flatten = [] := by
    rw [hflat fun fd data hmem => ?_, hsends, List.flatten_nil]
    have hmem' : data ∈ sends (t.server.log 7) :=
      List.mem_flatMap.mpr ⟨_, hmem, List.mem_singleton_self data⟩
    rw [hsends] at hmem'
    cases hmem'
  rw [hsilent, List.nil_append, hsent] at hconn
  subst hconn
  exact ⟨t, hrun, hsent, hpart (by decide)⟩

end Wired

end LinkScheduling
