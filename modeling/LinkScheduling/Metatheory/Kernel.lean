import LinkScheduling.Metatheory.Wires

/-!
# Every answer is possible

The converse of the refinement: whatever answer the model lets a socket call have, the kernel
can answer the system calls of the function behind it so that it returns that. So the model
has no run that the server does not have, but for a `send_all` of nothing that fails.
-/

namespace LinkScheduling

open Framework

namespace Wired

variable {P W : ℕ} {cfg : Config} {dir : Directory} {s : Wired P W}

/-- The kernel can answer the system calls on `fd` so that the program returns `a`. -/
inductive Plays (fd : Fd) (arrived : Bytes) {α : Type} :
    Connection → Socket α → Connection → α → Prop
  | ret (conn : Connection) (a : α) : Plays fd arrived conn (.ret a) conn a
  | call {conn conn' : Connection} {a : α} {sc : SysCall} {next : sc.Answer → Socket α}
      (hfd : sc.fd = fd) (c : KernelChoice)
      (h : Plays fd arrived (conn.after sc (conn.answer arrived c sc))
        (next (conn.answer arrived c sc)) conn' a) :
      Plays fd arrived conn (.call sc next) conn' a

/-- A thread inside of a call follows the kernel. -/
theorem Plays.run {k : Thread P W} {fd : Fd} {arrived : Bytes} {e : Eff} {conn conn' : Connection}
    {body : Socket (Resp e)} {r : Resp e} (h : Plays fd arrived conn body conn' r)
    {s : Wired P W} (hinside : s.inside k = some ⟨e, body⟩) (hconn : s.connection fd = conn)
    (harrived : s.arrived fd = arrived) :
    Run (step cfg) (fun _ _ => True) s { s with
      inside := Function.update s.inside k (some ⟨e, .ret r⟩)
      connection := Function.update s.connection fd conn' } := by
  induction h generalizing s with
  | ret conn a =>
      have hsame : { s with
          inside := Function.update s.inside k (some ⟨e, .ret a⟩)
          connection := Function.update s.connection fd conn } = s := by
        rw [← hinside, ← hconn, Function.update_eq_self, Function.update_eq_self]
      rw [hsame]
      exact .refl s
  | @call conn conn' a sc next hfd c h ih =>
      subst hfd hconn harrived
      let s' : Wired P W := { s with
        inside := Function.update s.inside k
          (some ⟨e, next ((s.connection sc.fd).answer (s.arrived sc.fd) c sc)⟩)
        connection := Function.update s.connection sc.fd
          ((s.connection sc.fd).after sc ((s.connection sc.fd).answer (s.arrived sc.fd) c sc)) }
      have hstep : s.step cfg (.sysCall k c) = some s' := by simp only [step, hinside, s']
      have hrest := ih (s := s') (Function.update_self ..) (Function.update_self ..) rfl
      refine (Run.tail (.refl s) trivial hstep).trans ?_
      simpa only [s', Function.update_idem] using hrest

/-- The kernel can make a function of `socket.cpp` return any answer, but a `send_all` of
nothing returns `true`. -/
theorem plays_body {fd : Fd} {e : Eff} {body : Socket (Resp e)} {r : Resp e} {conn : Connection}
    (hbody : socketFunction e = some body) (hsocket : e.socket = some fd)
    (hopen : conn.isOpen = true) (hfits : Call.Fits ⟨e, r⟩)
    (hsend : ∀ fd', (⟨e, r⟩ : Call) ≠ ⟨.sendAll fd' [], false⟩) :
    ∃ conn', Plays fd (conn.got ++ Call.received ⟨e, r⟩) conn body conn' r ∧
      conn'.got = conn.got ++ Call.received ⟨e, r⟩ := by
  cases e with
  | sendAll fd' data =>
      cases hsocket
      cases hbody
      by_cases hdata : data = []
      · subst hdata
        cases r with
        | true => exact ⟨conn, .ret conn true, (List.append_nil _).symm⟩
        | false => exact absurd rfl (hsend fd)
      · have hpos : 0 < data.length := List.length_pos_of_ne_nil hdata
        unfold sendAll sendAllLoop
        rw [if_pos hpos]
        cases r with
        | true =>
            -- the kernel takes all bytes at once
            refine ⟨conn.after (.send fd (data.drop 0)) (some data.length),
              .call rfl { count := data.length } ?_, (List.append_nil _).symm⟩
            have hanswer : conn.answer (conn.got ++ Call.received ⟨.sendAll fd data, true⟩)
                { count := data.length } (.send fd (data.drop 0)) = some data.length := by
              simp [Connection.answer, hopen]
            rw [hanswer]
            obtain ⟨n, hn⟩ := Nat.exists_eq_succ_of_ne_zero hpos.ne'
            change Plays _ _ _ (sendAllLoop fd data data.length (0 + data.length)) _ _
            rw [hn]
            unfold sendAllLoop
            rw [if_neg (by omega)]
            exact .ret _ true
        | false =>
            refine ⟨conn, .call rfl { ok := false } ?_, (List.append_nil _).symm⟩
            have hanswer : conn.answer (conn.got ++ Call.received ⟨.sendAll fd data, false⟩)
                { ok := false } (.send fd (data.drop 0)) = none := by
              simp [Connection.answer]
            rw [hanswer]
            exact .ret conn false
  | recv fd' size timeoutMs =>
      cases hsocket
      cases hbody
      rcases r with _ | data
      · refine ⟨conn, .call rfl { ok := false } ?_, (List.append_nil _).symm⟩
        have hanswer : ∀ sec usec, conn.answer (conn.got ++ Call.received
            ⟨.recv fd size timeoutMs, none⟩) { ok := false } (.select fd sec usec) = none := by
          intro sec usec
          simp [Connection.answer]
        rw [hanswer]
        exact .ret conn none
      · refine ⟨conn.after (.recv fd size) (some data), .call rfl {} ?_, rfl⟩
        have hready : ∀ sec usec, conn.answer (conn.got ++ Call.received
            ⟨.recv fd size timeoutMs, some data⟩) {} (.select fd sec usec) = some true := by
          intro sec usec
          simp [Connection.answer, hopen]
        rw [hready]
        refine .call rfl { count := size } ?_
        have hanswer : conn.answer (conn.got ++ Call.received
            ⟨.recv fd size timeoutMs, some data⟩) { count := size } (.recv fd size) =
            some data := by
          have hall : data.take size = data := List.take_of_length_le hfits
          simp [Connection.answer, hopen, Call.received, hall]
        change Plays _ _ _ (.ret (conn.answer _ _ _)) _ _
        change Plays _ _ (conn.after _ (conn.answer _ _ _)) _ _ _
        rw [hanswer]
        exact .ret _ (some data)
  | closeSocket fd' =>
      cases hsocket
      cases hbody
      exact ⟨conn.after (.close fd) (), .call rfl {} (.ret _ ()), (List.append_nil _).symm⟩
  | _ => cases hbody

theorem step_makes_congr {s : Sys P W} {k : Thread P W} {fd : Fd} {e : Eff} {c c' : Choice}
    (hk : s.nextCall k = some (fd, e)) (h : s.answer c e = s.answer c' e) :
    s.step cfg (Thread.makes c k) = s.step cfg (Thread.makes c' k) := by
  cases k with
  | inl k =>
      obtain ⟨next, hbusy⟩ := Sys.parser_of_nextCall hk
      simp only [Thread.makes, Sys.step, hbusy, h]
  | inr k =>
      obtain ⟨req, held, next, hbusy, rfl⟩ := Sys.worker_of_nextCall hk
      simp only [Thread.makes, Sys.step, hbusy, h]

theorem onSocket_makes {s : Sys P W} {l : LinkScheduling.Label P W} (h : s.onSocket l = true) :
    ∃ k c fd e body, l = Thread.makes c k ∧ s.nextCall k = some (fd, e) ∧
      socketFunction e = some body := by
  unfold Sys.onSocket at h
  split at h
  · rename_i fd e r hcall
    obtain ⟨body, hbody⟩ := Option.isSome_iff_exists.mp h
    unfold Sys.callOf at hcall
    split at hcall
    · rename_i k c
      split at hcall
      · rename_i hbusy
        cases hcall
        exact ⟨.inl k, c, fd, e, body, rfl, by simp only [Sys.nextCall, hbusy], hbody⟩
      · cases hcall
    · rename_i k c
      split at hcall
      · rename_i req held e' next hbusy
        cases hcall
        exact ⟨.inr k, c, req.clientFd, e, body, rfl, by simp only [Sys.nextCall, hbusy], hbody⟩
      · cases hcall
    · cases hcall
  · cases h

theorem answer_fits (s : Sys P W) (c : Choice) (e : Eff) : Call.Fits ⟨e, s.answer c e⟩ := by
  cases e with
  | recv fd size timeoutMs =>
      simp only [Sys.answer]
      cases c.data with
      | none => trivial
      | some data => exact List.length_take_le size data
  | _ => trivial

/-- Nobody is inside of a call, and all that arrived was received. -/
structure Quiet (s : Wired P W) : Prop where
  outside : ∀ k, s.inside k = none
  received : ∀ fd, s.arrived fd = (s.connection fd).got

theorem Quiet.logged (h : s.Quiet) (hlinked : Linked cfg dir s) (fd : Fd) :
    Logged s.server fd (s.connection fd) := by
  refine hlinked.idle fd ?_
  rintro k ⟨e, rest, hinside, -⟩
  rw [h.outside k] at hinside
  cases hinside

/-- The kernel can let a thread make the call that the model lets it make. -/
theorem Quiet.call (h : s.Quiet) (hlinked : Linked cfg dir s) {server : Sys P W}
    {k : Thread P W} {c : Choice} {fd : Fd} {e : Eff} {body : Socket (Resp e)}
    (hnext : s.server.nextCall k = some (fd, e)) (hbody : socketFunction e = some body)
    (hsendable : Sendable s.server (Thread.makes c k))
    (hserver : s.server.step cfg (Thread.makes c k) = some server) :
    ∃ t, Run (step cfg) (fun _ _ => True) s t ∧ t.server = server ∧ t.Quiet := by
  obtain ⟨fd', hsocket⟩ := socketFunction_socket hbody
  cases hlinked.sockets.caller_socket hnext hsocket
  have hfits := answer_fits s.server c e
  have hopen : (s.connection fd).isOpen = true :=
    (h.logged hlinked fd).isOpen.mpr (hlinked.sockets.caller hnext).2
  have hsend : ∀ fd', (⟨e, s.server.answer c e⟩ : Call) ≠ ⟨.sendAll fd' [], false⟩ := by
    intro fd' heq
    exact hsendable fd fd' ((Sys.callOf_makes hnext c).trans (by rw [heq]))
  obtain ⟨conn', hplays, hgot⟩ := plays_body hbody hsocket hopen hfits hsend
  -- the client sends what will be received, and the thread enters the function
  let u : Wired P W := { s with
    arrived := Function.update s.arrived fd
      (s.arrived fd ++ Call.received ⟨e, s.server.answer c e⟩) }
  let v : Wired P W := { u with inside := Function.update u.inside k (some ⟨e, body⟩) }
  have harrive : s.step cfg (.arrive fd (Call.received ⟨e, s.server.answer c e⟩)) = some u := rfl
  have henter : u.step cfg (.enter k) = some v := by
    have hout : u.inside k = none := h.outside k
    have hcalling : u.server.nextCall k = some (fd, e) := hnext
    simp only [step, hout, hcalling, hbody, Option.map_some, v]
  have hthere : v.arrived fd =
      (s.connection fd).got ++ Call.received ⟨e, s.server.answer c e⟩ := by
    rw [← h.received fd]
    exact Function.update_self ..
  let w : Wired P W := { v with
    inside := Function.update v.inside k (some ⟨e, .ret (s.server.answer c e)⟩)
    connection := Function.update v.connection fd conn' }
  have hplayed : Run (Wired.step cfg) (fun _ _ => True) v w :=
    hplays.run (Function.update_self ..) rfl hthere
  have hleave : w.step cfg (.leave k) =
      some { w with server := server, inside := Function.update w.inside k none } := by
    have hinside : w.inside k = some ⟨e, .ret (s.server.answer c e)⟩ := Function.update_self ..
    have hmakes : w.server.step cfg (Thread.makes (.giving e (s.server.answer c e)) k) =
        some server := by
      rw [← hserver]
      exact step_makes_congr hnext (Sys.answer_giving hbody hfits)
    simp only [step, hinside, hmakes, Option.map_some]
  refine ⟨_, .tail (Run.trans (.tail (.tail (.refl s) trivial harrive) trivial henter) hplayed)
    trivial hleave, rfl, fun j => ?_, fun fd' => ?_⟩
  · by_cases hjk : j = k
    · subst hjk
      exact Function.update_self ..
    · simp only [w, v, u, Function.update_of_ne hjk]
      exact h.outside j
  · by_cases hfd : fd' = fd
    · subst hfd
      simp only [w, v, u, Function.update_self]
      rw [hgot, h.received fd']
    · simp only [w, v, u, Function.update_of_ne hfd]
      exact h.received fd'

/-- The kernel can let the server make every step of the model. -/
theorem Quiet.step (h : s.Quiet) (hlinked : Linked cfg dir s) {server : Sys P W}
    {l : LinkScheduling.Label P W} (hsendable : Sendable s.server l)
    (hserver : s.server.step cfg l = some server) :
    ∃ t, Run (step cfg) (fun _ _ => True) s t ∧ t.server = server ∧ t.Quiet := by
  cases hsocket : s.server.onSocket l with
  | true =>
      obtain ⟨k, c, fd, e, body, rfl, hnext, hbody⟩ := onSocket_makes hsocket
      exact h.call hlinked hnext hbody hsendable hserver
  | false =>
      have hstep : Wired.step cfg s (.run l) =
          some { s with server := server, connection := l.opens s.connection } := by
        simp [Wired.step, hsocket, hserver]
      refine ⟨_, .tail (.refl s) trivial hstep, rfl, h.outside, fun fd => ?_⟩
      change s.arrived fd = (l.opens s.connection fd).got
      by_cases hl : l = .accept fd
      · subst hl
        cases Sys.step_cases hserver with
        | accept _ hnew hopen =>
            have hlog : s.server.log fd = [] := hlinked.wellFormed.log_new fd (Or.inl hnew)
            rw [h.received fd, (h.logged hlinked fd).got, hlog]
            change [] = (Function.update s.connection fd { isOpen := true } fd).got
            rw [Function.update_self]
      · rw [opens_of_ne hl]
        exact h.received fd

theorem start_quiet : (start P W dir).Quiet := ⟨fun _ => rfl, fun _ => rfl⟩

theorem run_quiet {server : Sys P W} (hrun : Sys.RunWhere cfg Sendable (.init P W dir) server) :
    ∃ t, Run (step cfg) (fun _ _ => True) (start P W dir) t ∧ t.server = server ∧ t.Quiet := by
  induction hrun with
  | refl => exact ⟨_, .refl _, rfl, start_quiet⟩
  | tail _ hsendable hserver ih =>
      obtain ⟨t, hrun, rfl, hquiet⟩ := ih
      obtain ⟨u, hmore, hu, hquiet'⟩ := hquiet.step (start_run_linked hrun) hsendable hserver
      exact ⟨u, hrun.trans hmore, hu, hquiet'⟩

/-- **The call level is exact.** The server reaches above the kernel the states it reaches in
the model, where the only answer the kernel cannot give is that sending nothing failed. -/
theorem server_exact {server : Sys P W} :
    (∃ t, Run (step cfg) (fun _ _ => True) (start P W dir) t ∧ t.server = server) ↔
      Sys.RunWhere cfg Sendable (.init P W dir) server := by
  constructor
  · rintro ⟨t, hrun, rfl⟩
    exact (start_run_linked hrun).server
  · intro hrun
    obtain ⟨t, ht, hserver, -⟩ := run_quiet hrun
    exact ⟨t, ht, hserver⟩

end Wired

end LinkScheduling
