import LinkScheduling.Model.Buffering
import LinkScheduling.Put.Closing

/-!
# What a late flush can lose

Over buffered streams an accepted write may still be lost: `serve_put` does not look at its
stream after `close`. What the directory and the buffers hold together is what `Sys` stores at
once, so an upload is whole when every close flushes its buffer; a close that does not leaves a
hole that nothing reports.
-/

namespace LinkScheduling
open Framework

/-! ## A buffer and what it holds -/

theorem overlay_length (b : Bytes) (off : ℕ) (data : Bytes) :
    (overlay b off data).length = max b.length (off + data.length) := by
  simp only [overlay, List.length_append, List.length_take, List.length_replicate,
    List.length_drop]
  omega

/-- Bytes stored in two parts. -/
theorem overlay_append (b : Bytes) (off : ℕ) (first rest : Bytes) :
    overlay (overlay b off first) (off + first.length) rest = overlay b off (first ++ rest) := by
  have hlen : (b.take off ++ List.replicate (off - b.length) 0 ++ first).length =
      off + first.length := by
    simp only [List.length_append, List.length_take, List.length_replicate]
    omega
  have hpad : off + first.length - (overlay b off first).length = 0 := by
    rw [overlay_length]
    omega
  have htake : (overlay b off first).take (off + first.length) =
      b.take off ++ List.replicate (off - b.length) 0 ++ first := List.take_left' hlen
  have hdrop : (overlay b off first).drop (off + first.length + rest.length) =
      b.drop (off + (first ++ rest).length) := by
    rw [← List.drop_drop, overlay, List.drop_left' hlen, List.drop_drop, List.length_append,
      Nat.add_assoc]
  rw [overlay, htake, hdrop, hpad, List.replicate_zero, List.append_nil, overlay,
    List.append_assoc _ first rest]

theorem File.eq_of_bytes {f g : File} (h : f.bytes = g.bytes) : f = g := by
  cases f
  cases g
  cases h
  rfl

theorem File.overlay_bytes (f : File) {off : ℕ} {data : Bytes} (h : off + data.length < 2 ^ 63) :
    (f.overlay off data).bytes = LinkScheduling.overlay f.bytes off data := by
  have hsize : f.bytes.length < 2 ^ 63 := f.size_lt
  have hlen : (LinkScheduling.overlay f.bytes off data).length < 2 ^ 63 := by
    rw [overlay_length]
    omega
  unfold File.overlay
  rw [dif_pos hlen]

namespace Chunk

theorem store_of_ne {p : Bytes} {c : Chunk} (h : cstr c.path ≠ p) (d : Directory) :
    c.store d p = d p :=
  Function.update_of_ne (Ne.symm h) _ _

theorem store_of_eq {p : Bytes} {c : Chunk} (h : cstr c.path = p) (d : Directory) :
    c.store d p = (d p).map (·.overlay c.off c.data) := by
  subst h
  exact Function.update_self _ _ _

/-- A chunk stored in two parts. -/
theorem store_take_drop (c : Chunk) {k : ℕ} (hk : k ≤ c.data.length) (d : Directory) :
    (c.drop k hk).store ((c.take k).store d) = c.store d := by
  have hbound := c.bound
  have hlen : (c.data.take k).length = k := by
    rw [List.length_take, Nat.min_eq_left hk]
  ext1 p
  by_cases hp : cstr c.path = p
  · have htake : cstr (c.take k).path = p := hp
    have hdrop : cstr (c.drop k hk).path = p := hp
    rw [store_of_eq hdrop, store_of_eq htake, store_of_eq hp, Option.map_map]
    congr 1
    funext f
    apply File.eq_of_bytes
    have hfirst : c.off + (c.data.take k).length < 2 ^ 63 := (c.take k).bound
    have hrest : c.off + k + (c.data.drop k).length < 2 ^ 63 := (c.drop k hk).bound
    change ((f.overlay c.off (c.data.take k)).overlay (c.off + k) (c.data.drop k)).bytes = _
    rw [File.overlay_bytes _ hrest, File.overlay_bytes _ hfirst, File.overlay_bytes _ hbound]
    have happend := overlay_append f.bytes c.off (c.data.take k) (c.data.drop k)
    rw [hlen, List.take_append_drop] at happend
    exact happend
  · have htake : cstr (c.take k).path ≠ p := hp
    have hdrop : cstr (c.drop k hk).path ≠ p := hp
    rw [store_of_ne hdrop, store_of_ne htake, store_of_ne hp]

end Chunk

/-- The directory with all bytes of a buffer in their files. -/
def storeAll (buffer : List Chunk) (d : Directory) : Directory :=
  buffer.foldl (fun d c => c.store d) d

theorem storeAll_append (buffer buffer' : List Chunk) (d : Directory) :
    storeAll (buffer ++ buffer') d = storeAll buffer' (storeAll buffer d) :=
  List.foldl_append

/-- A flush does not change what the directory and the buffer hold together. -/
theorem storeAll_flush (k : ℕ) (buffer : List Chunk) (d : Directory) :
    storeAll (flush k buffer d).2 (flush k buffer d).1 = storeAll buffer d := by
  induction buffer generalizing k d with
  | nil => cases k <;> rfl
  | cons c buffer ih =>
      cases k with
      | zero => rfl
      | succ k =>
          unfold flush
          split
          · exact ih _ _
          · rename_i hk
            change storeAll buffer ((c.drop (k + 1) _).store ((c.take (k + 1)).store d)) = _
            rw [Chunk.store_take_drop]
            rfl

/-- No byte of the buffer belongs to `p`. -/
def Elsewhere (p : Bytes) (buffer : List Chunk) : Prop := ∀ c ∈ buffer, cstr c.path ≠ p

theorem flush_elsewhere {p : Bytes} (k : ℕ) {buffer : List Chunk} (h : Elsewhere p buffer)
    (d : Directory) : (flush k buffer d).1 p = d p ∧ Elsewhere p (flush k buffer d).2 := by
  induction buffer generalizing k d with
  | nil => cases k <;> exact ⟨rfl, h⟩
  | cons c buffer ih =>
      obtain ⟨hc, hrest⟩ := List.forall_mem_cons.mp h
      cases k with
      | zero => exact ⟨rfl, h⟩
      | succ k =>
          unfold flush
          split
          · obtain ⟨hsame, helse⟩ := ih (k + 1 - c.data.length) hrest (c.store d)
            exact ⟨hsame.trans (Chunk.store_of_ne hc d), helse⟩
          · exact ⟨Chunk.store_of_ne (show cstr (c.take (k + 1)).path ≠ p from hc) d,
              List.forall_mem_cons.mpr ⟨hc, hrest⟩⟩


/-! ## Runs over buffered streams -/

namespace Buffered

variable {P W : ℕ} {cfg : Config} {dir : Directory} {s t : Buffered P W} {request : Request}
  {A : Buffered P W → Label P W × ℕ → Prop}

/-- A step is one of `Sys`, whose directory is then replaced. -/
theorem step_eq {l : Label P W × ℕ} (h : s.step cfg l = some t) :
    ∃ u, s.sys.step cfg l.1 = some u ∧
      t = match s.sys.callOf l.1 with
        | some (fd, call) => s.afterCall u fd call l.2
        | none => { s with sys := u } := by
  obtain ⟨u, hu, rfl⟩ := Option.map_eq_some_iff.mp h
  exact ⟨u, hu, rfl⟩

/-- What every step of `Sys` keeps, and what says nothing of the directory, holds here too. -/
theorem run_sys (I : Sys P W → Prop) (hdir : ∀ s d, I s → I { s with dir := d })
    (hstep : ∀ s l t, I s → s.step cfg l = some t → I t) (h0 : I (Sys.init P W dir))
    (hrun : Run (step cfg) A (init P W dir) t) : I t.sys := by
  refine hrun.invariant (fun s => I s.sys) h0 fun s l t hs _ hl => ?_
  obtain ⟨u, hu, rfl⟩ := step_eq hl
  have hI := hstep s.sys l.1 u hs hu
  cases s.sys.callOf l.1 with
  | none => exact hI
  | some made => exact hdir u _ hI

theorem wellFormed_dir {s : Sys P W} (h : s.WellFormed) (d : Directory) :
    ({ s with dir := d } : Sys P W).WellFormed :=
  ⟨h.placed, h.once, h.closing, h.unaccepted, h.inflight, h.parser_ok, h.worker_ok,
    h.rows_unserved, h.rows_finished, h.log_new⟩

/-- What a lifecycle says about a request, with what its steps need. -/
structure Follows (L : Lifecycle) (request : Request) (s : Sys P W) : Prop where
  wellFormed : s.WellFormed
  holds : (L.since request).Holds request.clientFd s
  pushed : request ∈ s.admitted → Pushed request (s.log request.clientFd)

theorem Follows.withDir {L : Lifecycle} {s : Sys P W} (h : Follows L request s) (d : Directory) :
    Follows L request { s with dir := d } where
  wellFormed := wellFormed_dir h.wellFormed d
  holds := ⟨h.holds.always, h.holds.parser, h.holds.queued, h.holds.worker, h.holds.finished⟩
  pushed := h.pushed

theorem Follows.step {L : Lifecycle} {s t : Sys P W} {l : Label P W}
    (hsound : L.SoundFor cfg request) (hallowed : ∀ log call, L.allowed log call)
    (h : Follows L request s) (hstep : s.step cfg l = some t) : Follows L request t where
  wellFormed := Sys.step_wellFormed h.wellFormed hstep
  holds := Sys.step_holds h.wellFormed hsound.sound h.holds (fun call _ => hallowed _ call) hstep
  pushed hmem := by
    rcases Sys.step_admitted h.wellFormed hstep hmem with hold | hpushed
    · rw [Sys.step_log hstep]
      exact List.mem_append_left _ (h.pushed hold)
    · exact hpushed

/-- **The lifecycle rule over buffered streams.** -/
theorem run_holdsFor {L : Lifecycle} (hsound : L.SoundFor cfg request)
    (hallowed : ∀ log call, L.allowed log call) (hrun : Run (step cfg) A (init P W dir) t)
    (hmem : request ∈ t.sys.admitted) : L.HoldsFor request t.sys := by
  have h : Follows L request t.sys := by
    apply run_sys (Follows L request) (fun _ d h => h.withDir d)
      (fun _ _ _ h hstep => h.step hsound hallowed hstep) ?_ hrun
    exact ⟨Sys.init_wellFormed dir, Lifecycle.run_holds hsound.sound (.refl _), by simp [Sys.init]⟩
  have hpushed := h.pushed hmem
  exact ⟨h.holds.always hpushed, fun req hreq hfd => h.holds.queued req hreq hfd hpushed,
    fun exit hexit => h.holds.finished exit hexit hpushed⟩

/-! ## What reaches the file -/

/-- The close of the stream of `fd` flushes all its bytes. -/
def ClosesFlush (fd : Fd) (s : Buffered P W) (l : Label P W × ℕ) : Prop :=
  ∀ path, s.sys.callOf l.1 = some (fd, ⟨.closeFile path, ()⟩) →
    (flush l.2 (s.buffer fd) s.sys.dir).2 = []

/-- The file under `p` and the buffer of `fd` agree with the log of `fd`, the only connection
that works on `p`. -/
structure Agrees (p : Bytes) (fd : Fd) (before : Option File) (s : Buffered P W) : Prop where
  elsewhere : ∀ fd', fd' ≠ fd → Elsewhere p (s.buffer fd')
  stored : Careful (s.sys.log fd) → (∀ call ∈ s.sys.log fd, call.smooth) →
    storeAll (s.buffer fd) s.sys.dir p = fileAt p before (s.sys.log fd)
  closed : unclosed (s.sys.log fd) = false → s.buffer fd = []

/-- What a buffer makes of one file depends on this file alone. -/
theorem storeAll_congr {p : Bytes} (buffer : List Chunk) {d d' : Directory} (h : d p = d' p) :
    storeAll buffer d p = storeAll buffer d' p := by
  induction buffer generalizing d d' with
  | nil => exact h
  | cons c buffer ih =>
      change storeAll buffer (c.store d) p = storeAll buffer (c.store d') p
      apply ih
      by_cases hp : cstr c.path = p
      · rw [Chunk.store_of_eq hp, Chunk.store_of_eq hp, h]
      · rw [Chunk.store_of_ne hp, Chunk.store_of_ne hp, h]

/-- What a call of another connection leaves. -/
theorem onStorage_elsewhere {p : Bytes} {buffer : List Chunk} (h : Elsewhere p buffer) (k : ℕ)
    {call : Call} (hcall : ¬ call.Changes p) (d : Directory) :
    (call.onStorage d buffer k).1 p = d p ∧ Elsewhere p (call.onStorage d buffer k).2 := by
  have hdir := Call.onDir_of_not_changes hcall d
  rcases call with ⟨e, r⟩
  cases e with
  | write path off data =>
      have hpath : cstr path ≠ p := hcall
      have haccept : Elsewhere p (accept buffer path off data) := by
        unfold accept
        split
        · exact List.forall_mem_append.mpr ⟨h, by simpa using hpath⟩
        · exact h
      exact flush_elsewhere k haccept d
  | closeFile path => exact ⟨(flush_elsewhere k h d).1, by simp [Call.onStorage, Elsewhere]⟩
  | _ => exact ⟨hdir, h⟩

/-- A write at its place, buffered or not, gives the same file. -/
theorem storeAll_accept (p : Bytes) (buffer : List Chunk) (d : Directory) (path : Bytes) (off : ℕ)
    (data : Bytes) : storeAll (accept buffer path off data) d p =
      Call.onFile p (storeAll buffer d p) ⟨.write path off data, .good⟩ := by
  have hfile : ∀ d : Directory, (Eff.onDir d (.write path off data) .good) p =
      Call.onFile p (d p) ⟨.write path off data, .good⟩ := by
    intro d
    have hno : ¬ Call.RenamesOnto p ⟨.write path off data, .good⟩ := id
    exact Call.onDir_eq_onFile hno d
  unfold accept
  split
  · rw [storeAll_append]
    exact hfile _
  · rename_i hlarge
    -- no file has a byte there
    have hsame : ∀ f : File, f.overlay off data = f := by
      intro f
      unfold File.overlay
      rw [dif_neg]
      rw [overlay_length]
      omega
    simp [Call.onFile, hsame]

/-- A write that is flushed at once. -/
def Direct (s : Buffered P W) (l : Label P W × ℕ) : Prop :=
  ∀ fd path off data r, s.sys.callOf l.1 = some (fd, ⟨.write path off data, r⟩) →
    r = .good ∧ data.length < l.2

theorem onStorage_direct {call : Call} {k : ℕ} (d : Directory)
    (h : ∀ path off data r, call = ⟨.write path off data, r⟩ → r = .good ∧ data.length < k) :
    call.onStorage d [] k = (call.eff.onDir d call.res, []) := by
  rcases call with ⟨e, r⟩
  cases e with
  | write path off data =>
      obtain ⟨rfl, hk⟩ := h path off data r rfl
      have hall : (flush k (accept [] path off data) d).2 = [] := by
        unfold accept
        obtain ⟨k, rfl⟩ := Nat.exists_eq_succ_of_ne_zero (Nat.ne_of_gt (Nat.zero_lt_of_lt hk))
        split
        · rw [List.nil_append, flush, dif_pos (Nat.le_of_lt hk), flush]
        · rfl
      have hsame := storeAll_flush k (accept [] path off data) d
      rw [hall] at hsame
      refine Prod.ext ?_ hall
      ext1 p
      have hno : ¬ Call.RenamesOnto p ⟨.write path off data, .good⟩ := id
      calc (flush k (accept [] path off data) d).1 p
          = storeAll (accept [] path off data) d p := congrFun hsame p
        _ = Call.onFile p (d p) ⟨.write path off data, .good⟩ := storeAll_accept p _ d _ _ _
        _ = Eff.onDir d (.write path off data) .good p := (Call.onDir_eq_onFile hno d).symm
  | closeFile path => cases k <;> rfl
  | _ => rfl

/-- Where every write is flushed at once, the server runs as `Sys` does. -/
theorem run_direct (hrun : Run (step cfg) Direct (init P W dir) t) :
    Sys.RunWhere cfg (fun _ _ => True) (Sys.init P W dir) t.sys ∧ ∀ fd, t.buffer fd = [] := by
  refine hrun.invariant (fun s => Sys.RunWhere cfg (fun _ _ => True) (Sys.init P W dir) s.sys ∧
    ∀ fd, s.buffer fd = []) ⟨.refl _, fun _ => rfl⟩ ?_
  rintro s l t ⟨hreach, hempty⟩ hdirect hstep
  obtain ⟨u, hu, rfl⟩ := step_eq hstep
  have hnext := hreach.tail trivial hu
  cases hcall : s.sys.callOf l.1 with
  | none => exact ⟨hnext, hempty⟩
  | some made =>
      obtain ⟨fd, call⟩ := made
      have hstorage : call.onStorage s.sys.dir [] l.2 =
          (call.eff.onDir s.sys.dir call.res, []) :=
        onStorage_direct _ fun path off data r heq => hdirect fd path off data r (heq ▸ hcall)
      have hdir : u.dir = call.eff.onDir s.sys.dir call.res := by
        rw [Sys.step_dir hu, hcall]
      simp only [afterCall, hempty, hstorage]
      constructor
      · rw [← hdir]
        exact hnext
      · intro fd'
        by_cases hfd : fd' = fd
        · rw [hfd, Function.update_self]
        · rw [Function.update_of_ne hfd]
          exact hempty fd'

/-- What a call of the connection itself leaves. -/
theorem Agrees.own {p : Bytes} {fd : Fd} {before : Option File} (h : Agrees p fd before s)
    {call : Call} {k : ℕ} (hcareful : Careful (s.sys.log fd ++ [call]))
    (hsmooth : ∀ c ∈ s.sys.log fd ++ [call], c.smooth)
    (hflush : ∀ path, call = ⟨.closeFile path, ()⟩ →
      (flush k (s.buffer fd) s.sys.dir).2 = []) :
    storeAll (call.onStorage s.sys.dir (s.buffer fd) k).2
        (call.onStorage s.sys.dir (s.buffer fd) k).1 p =
      fileAt p before (s.sys.log fd ++ [call]) := by
  obtain ⟨hcareful', hfresh⟩ := hcareful.init
  have hold := h.stored hcareful' fun c hc => hsmooth c (List.mem_append_left _ hc)
  have hcall : call.smooth := hsmooth call (by simp)
  rw [fileAt_snoc, ← hold]
  rcases call with ⟨e, r⟩
  cases e with
  | write path off data =>
      cases r with
      | good => exact (congrFun (storeAll_flush k _ _) p).trans (storeAll_accept p _ _ _ _ _)
      | bad stored => exact hcall.elim
  | closeFile path =>
      have hall := storeAll_flush k (s.buffer fd) s.sys.dir
      rw [hflush path rfl] at hall
      exact congrFun hall p
  | create path =>
      -- no stream is open, so the buffer is empty
      have hempty := h.closed (hfresh trivial).closed
      have hno : ¬ Call.RenamesOnto p ⟨.create path, r⟩ := id
      change storeAll (s.buffer fd) (Eff.onDir s.sys.dir (.create path) r) p = _
      rw [hempty]
      exact Call.onDir_eq_onFile hno s.sys.dir
  | rename src dst => exact hcall.elim
  | remove path => exact hcall.elim
  | _ => rfl

theorem Agrees.own_closed {p : Bytes} {fd : Fd} {before : Option File} (h : Agrees p fd before s)
    (call : Call) (k : ℕ) (hclosed : unclosed (s.sys.log fd ++ [call]) = false) :
    (call.onStorage s.sys.dir (s.buffer fd) k).2 = [] := by
  rw [unclosed_snoc] at hclosed
  rcases call with ⟨e, r⟩
  cases e with
  | write path off data => cases hclosed
  | closeFile path => rfl
  | _ => exact h.closed hclosed

theorem step_agrees {p : Bytes} {fd : Fd} {before : Option File} {l : Label P W × ℕ}
    (h : Agrees p fd before s) (halone : Sys.Alone p fd s.sys l.1) (hflush : ClosesFlush fd s l)
    (hstep : s.step cfg l = some t) : Agrees p fd before t := by
  obtain ⟨u, hu, rfl⟩ := step_eq hstep
  cases hcall : s.sys.callOf l.1 with
  | none =>
      have hlog : u.log fd = s.sys.log fd := by
        rw [Sys.step_log hu, Sys.newCalls, hcall]
        exact List.append_nil _
      have hdir : u.dir = s.sys.dir := by
        rw [Sys.step_dir hu, hcall]
      refine ⟨h.elsewhere, ?_, ?_⟩
      · change Careful (u.log fd) → _ → storeAll _ u.dir p = fileAt p before (u.log fd)
        rw [hlog, hdir]
        exact h.stored
      · change unclosed (u.log fd) = false → _
        rw [hlog]
        exact h.closed
  | some made =>
      obtain ⟨fd', call⟩ := made
      by_cases hfd : fd' = fd
      · -- a call of the upload itself
        subst hfd
        have hlog : u.log fd' = s.sys.log fd' ++ [call] := Sys.callOf_log hcall hu
        refine ⟨fun other hne => ?_, ?_, ?_⟩
        · change Elsewhere p (Function.update s.buffer fd' _ other)
          rw [Function.update_of_ne hne]
          exact h.elsewhere other hne
        · change Careful (u.log fd') → (∀ c ∈ u.log fd', c.smooth) → storeAll (Function.update s.buffer fd' _ fd') _ p =
            fileAt p before (u.log fd')
          rw [hlog, Function.update_self]
          intro hcareful hsmooth
          exact h.own hcareful hsmooth fun path heq => hflush path (heq ▸ hcall)
        · change unclosed (u.log fd') = false → Function.update s.buffer fd' _ fd' = []
          rw [hlog, Function.update_self]
          exact h.own_closed call l.2
      · -- another connection neither writes nor buffers anything for `p`
        have hlog : u.log fd = s.sys.log fd := by
          rw [Sys.step_log hu, Sys.newCalls, hcall]
          simp [hfd]
        obtain ⟨hdir, helse⟩ := onStorage_elsewhere (h.elsewhere fd' hfd) l.2
          (halone fd' call hcall hfd) s.sys.dir
        refine ⟨fun other hne => ?_, ?_, ?_⟩
        · change Elsewhere p (Function.update s.buffer fd' _ other)
          by_cases hother : other = fd'
          · rw [hother, Function.update_self]
            exact helse
          · rw [Function.update_of_ne hother]
            exact h.elsewhere other hne
        · change Careful (u.log fd) → (∀ c ∈ u.log fd, c.smooth) → storeAll (Function.update s.buffer fd' _ fd) _ p =
            fileAt p before (u.log fd)
          rw [hlog, Function.update_of_ne (Ne.symm hfd)]
          intro hcareful hsmooth
          rw [← h.stored hcareful hsmooth]
          exact storeAll_congr _ hdir
        · change unclosed (u.log fd) = false → Function.update s.buffer fd' _ fd = []
          rw [hlog, Function.update_of_ne (Ne.symm hfd)]
          exact h.closed

/-! ## The commit -/

/-- The rename of an upload puts all of its body under the name. -/
def Commits (cfg : Config) (request : Request) (s : Buffered P W) : Prop :=
  Along (Proper cfg request) (s.sys.log request.clientFd) → Careful (s.sys.log request.clientFd) →
    ⟨.rename (stagingPath cfg request) (finalPath cfg request), true⟩ ∈
      s.sys.log request.clientFd →
    request.totalBytes ≤ (payload (s.sys.log request.clientFd)).length ∧
      ∃ file, s.committed request.clientFd = some file ∧
        file.bytes = (payload (s.sys.log request.clientFd)).take request.totalBytes

theorem payload_initial (log calls : List Call) : payload log <+: payload (log ++ calls) := by
  by_cases hheaded : Headed log
  · rw [hheaded.payload_append]
    exact List.prefix_append _ _
  · have hall : ∀ c ∈ received log, decide (c ≠ newline) = true := by
      intro c hc
      simp only [ne_eq, decide_eq_true_eq]
      rintro rfl
      exact hheaded hc
    rw [payload, List.dropWhile_eq_nil_iff.mpr hall]
    exact List.nil_prefix

/-- What was committed does not change. -/
theorem Commits.later {calls : List Call} {request : Request} {log : List Call} {file : Option File}
    (h : request.totalBytes ≤ (payload log).length ∧ ∃ f, file = some f ∧
      f.bytes = (payload log).take request.totalBytes) :
    request.totalBytes ≤ (payload (log ++ calls)).length ∧ ∃ f, file = some f ∧
      f.bytes = (payload (log ++ calls)).take request.totalBytes := by
  obtain ⟨hle, f, hfile, hbytes⟩ := h
  obtain ⟨more, hmore⟩ := payload_initial log calls
  refine ⟨hle.trans ?_, f, hfile, ?_⟩
  · rw [← hmore, List.length_append]
    exact Nat.le_add_right _ _
  · rw [hbytes, ← hmore, List.take_append_of_le_length hle]

/-- The rename finds the whole body in the staging file. -/
theorem Agrees.rename {before : Option File}
    (h : Agrees (cstr (stagingPath cfg request)) request.clientFd before s)
    {src dst : Bytes} (hproper : Proper cfg request (s.sys.log request.clientFd)
      ⟨.rename src dst, true⟩)
    (hcareful : Careful (s.sys.log request.clientFd ++ [⟨.rename src dst, true⟩])) :
    request.totalBytes ≤ (payload (s.sys.log request.clientFd)).length ∧
      ∃ file, Eff.onDir s.sys.dir (.rename src dst) true (cstr dst) = some file ∧
        file.bytes = (payload (s.sys.log request.clientFd)).take request.totalBytes := by
  obtain ⟨hbefore, hfresh⟩ := hcareful.init
  obtain ⟨hsmooth, hclosed⟩ := hfresh trivial
  obtain ⟨rfl, rfl, -, hle, file, hstaged, hbytes⟩ := hproper
  have hfile := h.stored hbefore hsmooth
  rw [h.closed hclosed, hstaged before] at hfile
  refine ⟨hle, file, ?_, hbytes⟩
  exact (Function.update_self _ _ _).trans hfile

theorem step_commits {before : Option File} {l : Label P W × ℕ}
    (hagrees : Agrees (cstr (stagingPath cfg request)) request.clientFd before s)
    (h : Commits cfg request s) (hstep : s.step cfg l = some t) : Commits cfg request t := by
  obtain ⟨u, hu, rfl⟩ := step_eq hstep
  cases hcall : s.sys.callOf l.1 with
  | none =>
      have hlog : u.log request.clientFd = s.sys.log request.clientFd := by
        rw [Sys.step_log hu, Sys.newCalls, hcall]
        exact List.append_nil _
      change Along _ (u.log request.clientFd) → Careful (u.log request.clientFd) → _ ∈
        u.log request.clientFd → _ ≤ (payload (u.log request.clientFd)).length ∧ ∃ file,
          s.committed request.clientFd = some file ∧
            file.bytes = (payload (u.log request.clientFd)).take _
      rw [hlog]
      exact h
  | some made =>
      obtain ⟨fd, call⟩ := made
      change Along _ (u.log request.clientFd) → Careful (u.log request.clientFd) → _ ∈
        u.log request.clientFd → _ ≤ (payload (u.log request.clientFd)).length ∧ ∃ file,
          Function.update s.committed fd _ request.clientFd = some file ∧
            file.bytes = (payload (u.log request.clientFd)).take _
      by_cases hfd : fd = request.clientFd
      · subst hfd
        rw [Sys.callOf_log hcall hu, Function.update_self]
        intro hproper hcareful hmem
        obtain ⟨hbefore, hlast⟩ := hproper.init
        -- only a successful rename puts a file under the name
        by_cases hrename : ∃ src dst, call = ⟨.rename src dst, true⟩
        · obtain ⟨src, dst, rfl⟩ := hrename
          exact Commits.later (hagrees.rename hlast hcareful)
        · have hold : commit (call.onStorage s.sys.dir (s.buffer request.clientFd) l.2).1
              (s.committed request.clientFd) call = s.committed request.clientFd := by
            rcases call with ⟨e, r⟩
            cases e with
            | rename src dst =>
                cases r with
                | false => rfl
                | true => exact absurd ⟨src, dst, rfl⟩ hrename
            | _ => rfl
          rw [hold]
          refine Commits.later (h hbefore hcareful.init.1 ?_)
          rcases List.mem_append.mp hmem with hmem | hmem
          · exact hmem
          · exact absurd ⟨_, _, (List.mem_singleton.mp hmem).symm⟩ hrename
      · have hlog : u.log request.clientFd = s.sys.log request.clientFd := by
          rw [Sys.step_log hu, Sys.newCalls, hcall]
          simp [hfd]
        rw [hlog, Function.update_of_ne (Ne.symm hfd)]
        exact h

/-- **A PUT that flushes is whole.** Where no other connection works on its staging file and
every close of its stream flushes all bytes, an upload that was answered `OK 0` a second time
has put exactly the declared body under the name. -/
theorem put_whole (hput : request.op = .PUT)
    (hrun : Run (step cfg) (fun s l =>
      Sys.Alone (cstr (stagingPath cfg request)) request.clientFd s.sys l.1 ∧
        ClosesFlush request.clientFd s l) (init P W dir) t)
    (hmem : request ∈ t.sys.admitted)
    (hanswered : sends (t.sys.log request.clientFd) = [okLine 0, okLine 0]) :
    request.totalBytes ≤ (payload (t.sys.log request.clientFd)).length ∧
      ∃ file, t.committed request.clientFd = some file ∧
        file.bytes = (payload (t.sys.log request.clientFd)).take request.totalBytes := by
  have hproper := (run_holdsFor (putLife_soundFor hput) (fun _ _ => trivial) hrun hmem).always.trail
  have hcareful := (run_holdsFor (tidyLife_soundFor hput) (fun _ _ => trivial) hrun hmem).always
  have hrenamed : ⟨.rename (stagingPath cfg request) (finalPath cfg request), true⟩ ∈
      t.sys.log request.clientFd := by
    rcases hproper.answers with hsent | hsent | ⟨reason, hsent⟩ | ⟨-, hrename⟩
    · rw [hanswered] at hsent
      cases hsent
    · rw [hanswered] at hsent
      cases hsent
    · rw [hanswered] at hsent
      exact absurd (List.cons.inj (List.cons.inj hsent).2).1 (okLine_ne_errLine 0 reason)
    · exact hrename
  obtain ⟨-, hcommits⟩ := hrun.invariant (fun s => Agrees (cstr (stagingPath cfg request))
      request.clientFd (dir (cstr (stagingPath cfg request))) s ∧ Commits cfg request s)
    ⟨⟨fun _ _ => by simp [init, Elsewhere], fun _ _ => rfl, fun _ => rfl⟩,
      fun _ _ hnone => by simp [init, Sys.init] at hnone⟩
    fun s l t h hok hstep => ⟨step_agrees h.1 hok.1 hok.2 hstep, step_commits h.1 h.2 hstep⟩
  exact hcommits hproper hcareful hrenamed

/-! ## A lost flush -/

/-- Three bytes in two rounds; every call flushes `k` bytes of the buffer in the first round
and all of it in the second. -/
def twoFlushes (k : ℕ) : List (Label 1 1 × ℕ) :=
  (arrive 7 (ascii "PUT a 3\nxyz") 3 ++ work 8).map (·, k) ++ (work 10).map (·, 3)

/-- Only the connection of the upload works on its staging file. -/
def uploadsAlone (s : Buffered 1 1) (l : Label 1 1 × ℕ) : Bool :=
  match s.sys.callOf l.1 with
  | some (fd, _) => fd = 7
  | none => true

theorem alone_of_uploadsAlone {s : Buffered 1 1} {l : Label 1 1 × ℕ} (p : Bytes)
    (h : uploadsAlone s l = true) : Sys.Alone p 7 s.sys l.1 := by
  intro fd call hcall hfd
  simp only [uploadsAlone, hcall, decide_eq_true_eq] at h
  exact absurd h hfd

theorem put_loses_flush : ∃ (t : Buffered 1 1) (request : Request),
    Run (step (plainConfig .RR 2 (by decide) (by decide))) (fun s l =>
      Sys.Alone (cstr (stagingPath (plainConfig .RR 2 (by decide) (by decide)) request))
        request.clientFd s.sys l.1) (init 1 1 fun _ => none) t ∧
    request ∈ t.sys.admitted ∧ request.op = .PUT ∧ request.totalBytes = 3 ∧
    sends (t.sys.log request.clientFd) = [okLine 0, okLine 0] ∧
    payload (t.sys.log request.clientFd) = ascii "xyz" ∧
    (t.committed request.clientFd).map File.bytes = some [0, 0, 122] := by
  have hok : ∀ (s : Buffered 1 1) (l : Label 1 1 × ℕ), uploadsAlone s l = true →
      ∀ p, Sys.Alone p 7 s.sys l.1 := fun _ _ h p => alone_of_uploadsAlone p h
  obtain ⟨t, hrun, hcheck⟩ := script_exists (twoFlushes 0)
    (fun t => t.sys.admitted.any (fun r => r.op = .PUT ∧ r.clientFd = 7 ∧ r.totalBytes = 3) &&
      sends (t.sys.log 7) = [okLine 0, okLine 0] && payload (t.sys.log 7) = ascii "xyz" &&
      (t.committed 7).map File.bytes = some [0, 0, 122]) hok
    (show (script (step (plainConfig .RR 2 (by decide) (by decide))) uploadsAlone
      (init 1 1 fun _ => none) (twoFlushes 0)).any _ = true by decide +kernel)
  simp only [Bool.and_eq_true, decide_eq_true_eq, List.any_eq_true] at hcheck
  obtain ⟨⟨⟨⟨request, hmem, hput, hfd, htotal⟩, hsends⟩, hpayload⟩, hfile⟩ := hcheck
  rw [← hfd] at hsends hpayload hfile
  refine ⟨t, request, hrun.mono fun s l h => ?_, hmem, hput, htotal, hsends, hpayload, hfile⟩
  rw [hfd]
  exact h _

/-- Every call of the upload leaves an empty buffer. -/
def uploadsFlushed (s : Buffered 1 1) (l : Label 1 1 × ℕ) : Bool :=
  uploadsAlone s l && (flush l.2 (s.buffer 7) s.sys.dir).2.isEmpty

theorem put_whole_two_rounds : ∃ (t : Buffered 1 1) (request : Request) (file : File),
    sends (t.sys.log request.clientFd) = [okLine 0, okLine 0] ∧
    t.committed request.clientFd = some file ∧
    file.bytes = (payload (t.sys.log request.clientFd)).take 3 := by
  have hok : ∀ (s : Buffered 1 1) (l : Label 1 1 × ℕ), uploadsFlushed s l = true →
      ∀ p, Sys.Alone p 7 s.sys l.1 ∧ ClosesFlush 7 s l := by
    intro s l h p
    simp only [uploadsFlushed, Bool.and_eq_true, List.isEmpty_iff] at h
    exact ⟨alone_of_uploadsAlone p h.1, fun _ _ => h.2⟩
  obtain ⟨t, hrun, hcheck⟩ := script_exists (twoFlushes 3)
    (fun t => t.sys.admitted.any (fun r => r.op = .PUT ∧ r.clientFd = 7 ∧ r.totalBytes = 3) &&
      sends (t.sys.log 7) = [okLine 0, okLine 0]) hok
    (show (script (step (plainConfig .RR 2 (by decide) (by decide))) uploadsFlushed
      (init 1 1 fun _ => none) (twoFlushes 3)).any _ = true by decide +kernel)
  simp only [Bool.and_eq_true, decide_eq_true_eq, List.any_eq_true] at hcheck
  obtain ⟨⟨request, hmem, hput, hfd, htotal⟩, hsends⟩ := hcheck
  rw [← hfd] at hsends
  have hrun' : Run (step (plainConfig .RR 2 (by decide) (by decide))) (fun s l =>
      Sys.Alone (cstr (stagingPath (plainConfig .RR 2 (by decide) (by decide)) request))
        request.clientFd s.sys l.1 ∧ ClosesFlush request.clientFd s l)
      (init 1 1 fun _ => none) t := by
    refine hrun.mono fun s l h => ?_
    rw [hfd]
    exact h _
  obtain ⟨-, file, hfile, hbytes⟩ := put_whole hput hrun' hmem hsends
  rw [htotal] at hbytes
  exact ⟨t, request, file, hsends, hfile, hbytes⟩

end Buffered

end LinkScheduling
