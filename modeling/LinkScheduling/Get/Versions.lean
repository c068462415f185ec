import LinkScheduling.Get.Delivery

/-!
# A GET whose file is replaced

Every line is read from a fresh open of the path, while the size was fixed when the
GET was admitted. A GET that sees one version only delivers this version. A GET whose
file is replaced between two reads may deliver a mixture of two versions, or find no
line where the new version is shorter and send an error after the header.
-/

namespace LinkScheduling

open Framework

namespace View

/-- One version `v` and any fault; `seen` tells that the version was found. -/
def oneVersion (v : File) (seen : Prop) : View where
  content := v.bytes
  good k b := v.bytes[k]? = some b ∧ seen
  faults := True
  missing := True
  size_lt := v.size_lt

theorem oneVersion_complete {v : File} {seen : Prop} {l : List Bytes}
    (h : (oneVersion v seen).Sent v.size l) :
    ∃ pieces, l = okLine v.size :: pieces ∧ pieces.flatten = v.bytes ∧
      (v.bytes ≠ [] → seen) := by
  obtain ⟨pieces, hl, hlen, -, hgood⟩ := h
  have hpre : pieces.flatten <+: v.bytes := by
    refine List.prefix_iff_getElem?.mpr fun k hk => ?_
    have := (hgood k _ (List.getElem?_eq_getElem hk)).1
    rwa [Nat.zero_add] at this
  have hall := hpre.eq_of_length hlen
  refine ⟨pieces, hl, hall, fun hne => ?_⟩
  have hpos : 0 < pieces.flatten.length := by
    rw [hall]
    exact List.length_pos_iff.mpr hne
  exact (hgood 0 _ (List.getElem?_eq_getElem hpos)).2

/-- Versions with the line ends of `v`, whose bytes satisfy `good`. The file may be
missing before the header. -/
def sameLines (v : File) (good : ℕ → UInt8 → Prop) : View where
  content := v.bytes
  good := good
  faults := False
  missing := True
  size_lt := v.size_lt

end View

namespace Sys

variable {P W : ℕ} {cfg : Config} {dir : Directory} {s t : Sys P W} {request : Request}
  {v : File}

/-- A call for `fd` that does not close the socket is made before its request is
finished. -/
theorem Moment.unfinished {A : Sys P W → Label P W → Prop} {fd : Fd} {call : Call}
    {l : Label P W} (hm : Moment cfg A (init P W dir) t fd call s l)
    (hclose : ∀ f, call.eff ≠ .closeSocket f) : ¬ s.Finished fd := by
  rintro ⟨exit, hexit⟩
  have hwf := run_wellFormed (init_wellFormed dir) hm.before
  have hcall := hm.call
  have hplaced := hwf.placed fd
  have hpos : 0 < s.finishedCount fd :=
    List.count_pos_iff.mpr (List.mem_map.mpr ⟨_, hexit, rfl⟩)
  cases l with
  | parserCall k c =>
      simp only [callOf] at hcall
      split at hcall
      · rename_i hbusy
        cases hcall
        have := hwf.parser_owned hbusy
        omega
      · cases hcall
  | workerCall k c =>
      simp only [callOf] at hcall
      split at hcall
      · rename_i req held e next hbusy
        cases hcall
        cases held with
        | true =>
            have := hwf.worker_held hbusy
            omega
        | false => exact hclose _ (hwf.worker_ok k req false _ hbusy).1
      · cases hcall
  | _ => cases hcall

/-- Before the admission the file of `fd` has size `n`. -/
def SizedFor (path : Bytes) (n : ℕ) (fd : Fd) (s : Sys P W) (l : Label P W) : Prop :=
  s.admittedCount fd = 0 → ∀ call p, s.callOf l = some (fd, call) → call.eff = .stat p →
    ∃ file, s.dir (cstr path) = some file ∧ file.size = n

theorem run_sized {A : Sys P W → Label P W → Prop} {n : ℕ} (hget : request.op = .GET)
    (hsized : ∀ s l, A s l →
      SizedFor (filePath cfg.fileDir request.filename) n request.clientFd s l)
    (hrun : RunWhere cfg A (init P W dir) t) (hmem : request ∈ t.admitted) :
    request.totalBytes = n ∧ ∃ u l, Moment cfg A (init P W dir) t request.clientFd
        ⟨.stat (filePath cfg.fileDir request.filename), some n⟩ u l ∧
      ∃ file, u.dir (cstr (filePath cfg.fileDir request.filename)) = some file ∧
        file.size = n := by
  obtain ⟨u, l, hm, hadm, htotal⟩ := run_size hrun hmem hget
  obtain ⟨file, hfile, hn⟩ := hsized u l hm.allowed hadm _ _ hm.call rfl
  rw [hfile, Option.map_some, hn] at hm htotal
  exact ⟨htotal, u, l, hm, file, hfile, hn⟩

/-! ## One version -/

/-- The size of the GET of `fd` is that of `v`, and its opens find no other version. -/
structure OneVersion (path : Bytes) (v : File) (fd : Fd) (s : Sys P W) (l : Label P W) :
    Prop where
  sized : SizedFor path v.size fd s l
  opens : ∀ call p file, s.callOf l = some (fd, call) → call.eff = .openRead p →
    s.dir (cstr path) = some file → file = v

theorem oneVersion_permits {path : Bytes} {fd : Fd} {l : Label P W} {log : List Call}
    (h : OneVersion path v fd s l)
    (hlooks : ∀ call, s.callOf l = some (fd, call) →
      call ∈ log ∧ call.eff.looksAt path) :
    (View.oneVersion v (⟨.openRead path, some v⟩ ∈ log)).life.Permits fd s l := by
  intro call hcall
  obtain ⟨hin, hlook⟩ := hlooks call hcall
  obtain ⟨c, hres⟩ := callOf_answer hcall
  rcases call with ⟨e, r⟩
  cases e with
  | openRead p =>
      cases r with
      | none => trivial
      | some file =>
          change p = path at hlook
          subst hlook
          have hv : file = v := h.opens _ p file hcall rfl hres.symm
          subst hv
          exact ⟨fun _ _ => Iff.rfl, fun k b _ hb => ⟨hb, hin⟩⟩
  | stat p =>
      cases r with
      | none => exact Or.inl trivial
      | some size => trivial
  | sendAll fd' data => cases r <;> trivial
  | _ => trivial

/-- **A GET that sees one version delivers it.** If the size was that of a version `v`
and no open found another version, a completed GET sent the content that the file had
at a moment between its admission and its end. -/
theorem get_one_version (hget : request.op = .GET)
    (hrun : RunWhere cfg (OneVersion (filePath cfg.fileDir request.filename) v
      request.clientFd) (init P W dir) t) (hmem : request ∈ t.admitted)
    (hdone : (request.clientFd, .completed) ∈ t.finished) :
    ∃ body, (sends (t.log request.clientFd)).flatten = okLine request.totalBytes ++ body ∧
      ∃ call u l, Moment cfg (OneVersion (filePath cfg.fileDir request.filename) v
          request.clientFd) (init P W dir) t request.clientFd call u l ∧
        ¬ u.Finished request.clientFd ∧
        (request ∈ u.admitted ∨ request.totalBytes = 0 ∧
          call.eff = .stat (filePath cfg.fileDir request.filename)) ∧
        (u.dir (cstr (filePath cfg.fileDir request.filename))).map File.bytes = some body := by
  obtain ⟨htotal, u₀, l₀, hm₀, file, hfile, hsize⟩ :=
    run_sized hget (fun _ _ h => h.sized) hrun hmem
  have hpermits : RunWhere cfg ((View.oneVersion v
      (⟨.openRead (filePath cfg.fileDir request.filename), some v⟩ ∈
        t.log request.clientFd)).life.Permits request.clientFd) (init P W dir) t :=
    (run_looks hrun hmem).mono fun u l h => oneVersion_permits h.1 h.2
  have hlife := Lifecycle.run_holdsFor (View.life_soundFor (V := .oneVersion v _) hget htotal)
    hpermits hmem
  obtain ⟨pieces, hsends, hall, hseen⟩ := View.oneVersion_complete (hlife.finished _ hdone)
  have hbody : (sends (t.log request.clientFd)).flatten =
      okLine request.totalBytes ++ v.bytes := by
    rw [hsends, List.flatten_cons, hall, htotal]
  refine ⟨v.bytes, hbody, ?_⟩
  by_cases hempty : v.bytes = []
  · -- nothing was read: the file was empty when its size was taken
    have hzero : v.size = 0 := by
      unfold File.size
      rw [hempty]
      rfl
    refine ⟨_, u₀, l₀, hm₀, hm₀.unfinished (by simp),
      Or.inr ⟨htotal.trans hzero, rfl⟩, ?_⟩
    rw [hfile, hempty, Option.map_some, List.length_eq_zero_iff.mp (hsize.trans hzero)]
  · obtain ⟨before, after, hlog⟩ := List.append_of_mem (hseen hempty)
    obtain ⟨u, l, hm, hadm⟩ := moment_admitted hrun hmem hlog id (by simp)
    obtain ⟨c, hres⟩ := callOf_answer hm.call
    refine ⟨_, u, l, hm, hm.unfinished (by simp), Or.inl hadm, ?_⟩
    have hdir : some v = u.dir (cstr (filePath cfg.fileDir request.filename)) := hres
    rw [← hdir, Option.map_some]

/-- An undisturbed step finds one version. -/
theorem Undisturbed.oneVersion {path : Bytes} {fd : Fd} {l : Label P W}
    (h : Undisturbed path v fd s l) : OneVersion path v fd s l := by
  refine ⟨fun _ call p hcall _ => ⟨v, (h call hcall).1, rfl⟩, ?_⟩
  intro call p file hcall _ hfile
  rw [(h call hcall).1] at hfile
  exact (Option.some.inj hfile).symm

/-- The GET of the two lines under DRR, to its end. -/
theorem twoRounds_run : ∃ (t : Sys 1 1) (request : Request), request ∈ t.admitted ∧
    request.op = .GET ∧ (request.clientFd, .completed) ∈ t.finished ∧
    RunWhere (plainConfig .DRR 2 (by decide) (by decide)) (Undisturbed (filePath (ascii "d")
      request.filename) twoLines request.clientFd)
      (init 1 1 (oneFile (ascii "d/a") twoLines)) t := by
  have hok : ∀ (s : Sys 1 1) (l : Label 1 1), calm (ascii "d/a") twoLines s l = true →
      Undisturbed (ascii "d/a") twoLines 7 s l := fun _ l => undisturbed_of_calm 7 l
  obtain ⟨t, hrun, hcheck⟩ := script_exists twoRounds
    (fun t => t.admitted.any (fun r => r.op = .GET ∧ r.clientFd = 7 ∧
      r.filename = ascii "a") && (7, .completed) ∈ t.finished) hok
    (show (script (step (plainConfig .DRR 2 (by decide) (by decide)))
      (calm (ascii "d/a") twoLines) (init 1 1 (oneFile (ascii "d/a") twoLines))
      twoRounds).any _ = true by decide)
  simp only [Bool.and_eq_true, decide_eq_true_eq, List.any_eq_true] at hcheck
  obtain ⟨⟨request, hmem, hget, hfd, hname⟩, hdone⟩ := hcheck
  have hpath : filePath (ascii "d") request.filename = ascii "d/a" := by
    rw [hname]
    decide
  rw [← hfd] at hdone
  refine ⟨t, request, hmem, hget, hdone, ?_⟩
  rw [hpath, hfd]
  exact hrun

theorem get_one_version_two_rounds :
    ∃ (t : Sys 1 1) (request : Request) (body : Bytes), request ∈ t.admitted ∧
      request.op = .GET ∧ (request.clientFd, .completed) ∈ t.finished ∧
      (sends (t.log request.clientFd)).flatten = okLine request.totalBytes ++ body ∧
      ∃ u : Sys 1 1, (u.dir (cstr (filePath (ascii "d") request.filename))).map File.bytes =
        some body := by
  obtain ⟨t, request, hmem, hget, hdone, hrun⟩ := twoRounds_run
  have hrun := hrun.mono fun _ _ h => h.oneVersion
  obtain ⟨body, hbody, call, u, l, -, -, -, hdir⟩ := get_one_version hget hrun hmem hdone
  exact ⟨t, request, body, hmem, hget, hdone, hbody, u, hdir⟩

/-- Under RR a GET of two lines is preempted while a PUT replaces both lines. -/
def replaced : List (Label 1 1) :=
  arrive 8 (ascii "PUT a 4\nc\nd\n") 3 ++ arrive 7 (ascii "GET a\n") 5 ++
    work 8 ++ work 8 ++ work 10 ++ work 8

theorem get_mixes_versions : ∃ (t : Sys 1 1) (request : Request) (body : Bytes),
    RunWhere (plainConfig .RR 2 (by decide) (by decide))
      (fun s _ => (s.dir (ascii "d/a")).map File.bytes ≠ some body)
      (init 1 1 (oneFile (ascii "d/a") twoLines)) t ∧
    (t.dir (ascii "d/a")).map File.bytes ≠ some body ∧
    request ∈ t.admitted ∧ request.op = .GET ∧ request.filename = ascii "a" ∧
    (request.clientFd, .completed) ∈ t.finished ∧
    (sends (t.log request.clientFd)).flatten = okLine request.totalBytes ++ body := by
  have hok : ∀ (s : Sys 1 1) (l : Label 1 1),
      (fun (s : Sys 1 1) (_ : Label 1 1) =>
        decide ((s.dir (ascii "d/a")).map File.bytes ≠ some (ascii "a\nd\n"))) s l = true →
      (s.dir (ascii "d/a")).map File.bytes ≠ some (ascii "a\nd\n") :=
    fun _ _ h => of_decide_eq_true h
  obtain ⟨t, hrun, hcheck⟩ := script_exists replaced
    (fun t => t.admitted.any (fun r => r.op = .GET ∧ r.clientFd = 7 ∧
      r.filename = ascii "a" ∧ (sends (t.log 7)).flatten = okLine r.totalBytes ++ ascii "a\nd\n")
      && (7, .completed) ∈ t.finished
      && (t.dir (ascii "d/a")).map File.bytes ≠ some (ascii "a\nd\n")) hok
    (show (script (step (plainConfig .RR 2 (by decide) (by decide))) _
      (init 1 1 (oneFile (ascii "d/a") twoLines)) replaced).any _ = true by decide +kernel)
  simp only [Bool.and_eq_true, decide_eq_true_eq, List.any_eq_true] at hcheck
  obtain ⟨⟨⟨request, hmem, hget, hfd, hname, hbody⟩, hdone⟩, hlast⟩ := hcheck
  rw [← hfd] at hdone hbody
  exact ⟨t, request, ascii "a\nd\n", hrun, hlast, hmem, hget, hname, hdone, hbody⟩

/-! ## Versions with the same line ends -/

/-- What keeps the framing of the GET of `fd`: its size is that of `v`, its opens find
versions with the line ends of `v`, its file is there once the header was sent, and
sends succeed. -/
structure KeepsLines (path : Bytes) (v : File) (fd : Fd) (s : Sys P W) (l : Label P W) :
    Prop where
  sized : SizedFor path v.size fd s l
  present : ∀ call p, s.callOf l = some (fd, call) → call.eff = .stat p →
    sends (s.log fd) ≠ [] → (s.dir (cstr path)).isSome
  opens : ∀ call p, s.callOf l = some (fd, call) → call.eff = .openRead p →
    ∃ file, s.dir (cstr path) = some file ∧ SameLines newline v.size file.bytes v.bytes
  sends : ∀ fd' data, s.callOf l ≠ some (fd, ⟨.sendAll fd' data, false⟩)

/-- A byte that a version found at position `k` has there. -/
def FoundAt (path : Bytes) (log : List Call) (k : ℕ) (b : UInt8) : Prop :=
  ∃ file : File, ⟨.openRead path, some file⟩ ∈ log ∧ file.bytes[k]? = some b

theorem keepsLines_permits {path : Bytes} {fd : Fd} {l : Label P W} {log : List Call}
    (h : KeepsLines path v fd s l)
    (hlooks : ∀ call, s.callOf l = some (fd, call) →
      call ∈ log ∧ call.eff.looksAt path) :
    (View.sameLines v (FoundAt path log)).life.Permits fd s l := by
  intro call hcall
  obtain ⟨hin, hlook⟩ := hlooks call hcall
  obtain ⟨c, hres⟩ := callOf_answer hcall
  rcases call with ⟨e, r⟩
  cases e with
  | openRead p =>
      change p = path at hlook
      subst hlook
      change r = s.dir (cstr p) at hres
      obtain ⟨file, hfile, hlines⟩ := h.opens _ p hcall rfl
      rw [hfile] at hres
      subst hres
      exact ⟨hlines, fun k b _ hb => ⟨file, hin, hb⟩⟩
  | stat p =>
      cases r with
      | some size => trivial
      | none =>
          change p = path at hlook
          subst hlook
          refine Or.inr ⟨trivial, ?_⟩
          by_contra hne
          have hsome := h.present _ p hcall rfl hne
          have hnone : (s.dir (cstr p)).map File.size = none := hres.symm
          rw [Option.map_eq_none_iff.mp hnone] at hsome
          cases hsome
  | sendAll fd' data =>
      cases r with
      | true => trivial
      | false => exact absurd hcall (h.sends fd' data)
  | _ => trivial

/-- **Framing of a GET.** While the lines keep their places and the file stays there,
the connection carries nothing yet, or one error line, or the header and at most `n`
bytes, each of which a version of the file had at its position. A completed GET sent
all `n` bytes and a failed one the error line alone. -/
theorem get_framing (hget : request.op = .GET)
    (hrun : RunWhere cfg (KeepsLines (filePath cfg.fileDir request.filename) v
      request.clientFd) (init P W dir) t) (hmem : request ∈ t.admitted) :
    (sends (t.log request.clientFd) = [] ∨
      sends (t.log request.clientFd) = [errLine (ascii "file not found")] ∨
      ∃ pieces, sends (t.log request.clientFd) = okLine request.totalBytes :: pieces ∧
        pieces.flatten.length ≤ request.totalBytes ∧
        ∀ (k : ℕ) (b : UInt8), pieces.flatten[k]? = some b → ∃ call u l file,
          Moment cfg (KeepsLines (filePath cfg.fileDir request.filename) v request.clientFd)
            (init P W dir) t request.clientFd call u l ∧
          u.dir (cstr (filePath cfg.fileDir request.filename)) = some file ∧
          file.bytes[k]? = some b) ∧
    ∀ exit, (request.clientFd, exit) ∈ t.finished →
      if exit = .completed then
        ∃ pieces, sends (t.log request.clientFd) = okLine request.totalBytes :: pieces ∧
          pieces.flatten.length = request.totalBytes
      else sends (t.log request.clientFd) = [errLine (ascii "file not found")] := by
  obtain ⟨htotal, -⟩ := run_sized hget (fun _ _ h => h.sized) hrun hmem
  have hpermits : RunWhere cfg ((View.sameLines v (FoundAt (filePath cfg.fileDir
      request.filename) (t.log request.clientFd))).life.Permits request.clientFd)
        (init P W dir) t :=
    (run_looks hrun hmem).mono fun u l h => keepsLines_permits h.1 h.2
  have hlife := Lifecycle.run_holdsFor (View.life_soundFor (V := .sameLines v _) hget htotal)
    hpermits hmem
  constructor
  · cases hlife.always with
    | silent h => exact Or.inl h
    | refused _ h => exact Or.inr (Or.inl h)
    | broken p l' reason h => exact h.elim
    | sent p h =>
        obtain ⟨pieces, hsends, hlen, hle, hgood⟩ := h
        refine Or.inr (Or.inr ⟨pieces, by rw [hsends, htotal]; rfl, ?_, fun k b hb => ?_⟩)
        · rw [hlen, htotal]
          exact hle
        · -- the open that read the byte is a moment of the run
          obtain ⟨file, hopen, hk⟩ := hgood k b hb
          obtain ⟨before, after, hlog⟩ := List.append_of_mem hopen
          obtain ⟨u, l, hm, -⟩ := run_moment hrun hlog rfl
          obtain ⟨c, hres⟩ := callOf_answer hm.call
          exact ⟨_, u, l, file, hm, hres.symm, by rwa [Nat.zero_add] at hk⟩
  · intro exit hexit
    have hover := hlife.finished exit hexit
    cases exit with
    | completed =>
        obtain ⟨pieces, hsends, hlen, -⟩ := hover
        exact ⟨pieces, by rw [hsends, htotal]; rfl, hlen.trans htotal.symm⟩
    | _ =>
        obtain ⟨stop, hout⟩ := hover
        cases hout with
        | lost h => exact h.elim
        | refused _ h => exact h

theorem Undisturbed.keepsLines {path : Bytes} {fd : Fd} {l : Label P W}
    (h : Undisturbed path v fd s l) : KeepsLines path v fd s l where
  sized := h.oneVersion.sized
  present call p hcall _ _ := by
    rw [(h call hcall).1]
    rfl
  opens call p hcall _ := ⟨v, (h call hcall).1, fun _ _ => Iff.rfl⟩
  sends fd' data hcall := (h _ hcall).2 fd' data rfl

theorem get_framing_two_rounds :
    ∃ (t : Sys 1 1) (request : Request), request ∈ t.admitted ∧ request.op = .GET ∧
      (request.clientFd, .completed) ∈ t.finished ∧
      ∃ pieces, sends (t.log request.clientFd) = okLine request.totalBytes :: pieces ∧
        pieces.flatten.length = request.totalBytes := by
  obtain ⟨t, request, hmem, hget, hdone, hrun⟩ := twoRounds_run
  have hrun := hrun.mono fun _ _ h => h.keepsLines
  exact ⟨t, request, hmem, hget, hdone, (get_framing hget hrun hmem).2 .completed hdone⟩

/-- A GET of two lines is preempted while a PUT empties its file. -/
def cutShort : List (Label 1 1) :=
  arrive 7 (ascii "GET a\n") 5 ++ arrive 8 (ascii "PUT a 0\n") 3 ++
    work 8 ++ work 9 ++ work 6

theorem get_error_in_body : ∃ (t : Sys 1 1) (request : Request),
    RunWhere (plainConfig .RR 2 (by decide) (by decide))
      (fun s l => ∀ fd data, s.callOf l ≠ some (fd, ⟨.sendAll fd data, false⟩))
      (init 1 1 (oneFile (ascii "d/a") twoLines)) t ∧
    request ∈ t.admitted ∧ request.op = .GET ∧
    sends (t.log request.clientFd) =
      [okLine request.totalBytes, ascii "a\n", errLine (ascii "file read error")] := by
  have hok : ∀ (s : Sys 1 1) (l : Label 1 1), l.succeeds = true → ∀ fd data,
      s.callOf l ≠ some (fd, ⟨.sendAll fd data, false⟩) := fun _ _ h fd data =>
    callOf_succeeds h fd fd data
  obtain ⟨t, hrun, hcheck⟩ := script_exists cutShort
    (fun t => t.admitted.any (fun r => r.op = .GET ∧ r.clientFd = 7 ∧
      sends (t.log 7) = [okLine r.totalBytes, ascii "a\n", errLine (ascii "file read error")]))
    hok (show (script (step (plainConfig .RR 2 (by decide) (by decide)))
      (fun _ l => l.succeeds) (init 1 1 (oneFile (ascii "d/a") twoLines))
      cutShort).any _ = true by decide)
  simp only [decide_eq_true_eq, List.any_eq_true] at hcheck
  obtain ⟨request, hmem, hget, hfd, hsends⟩ := hcheck
  exact ⟨t, request, hrun, hmem, hget, by rw [hfd, hsends]⟩

end Sys

end LinkScheduling
