import LinkScheduling.Metatheory.Log

/-!
# One path of the directory

Which calls change what is under a path, and what the calls of one connection make of
it. As long as no other connection changes the path, the directory holds there what
the log of this connection says.
-/

namespace LinkScheduling

open Framework

/-- The call may change what is under `p`. -/
def Call.Changes (p : Bytes) : Call → Prop
  | ⟨.create path, ok⟩ => ok = true ∧ cstr path = p
  | ⟨.write path _ _, _⟩ => cstr path = p
  | ⟨.remove path, _⟩ => cstr path = p
  | ⟨.rename src dst, ok⟩ => ok = true ∧ (cstr src = p ∨ cstr dst = p)
  | _ => False

theorem Call.onDir_of_not_changes {p : Bytes} {call : Call} (h : ¬ call.Changes p)
    (d : Directory) : call.eff.onDir d call.res p = d p := by
  rcases call with ⟨e, r⟩
  cases e with
  | create path =>
      cases r with
      | false => rfl
      | true => exact Function.update_of_ne (fun heq => h ⟨rfl, heq.symm⟩) _ _
  | write path off data => cases r <;> exact Function.update_of_ne (Ne.symm h) _ _
  | remove path => exact Function.update_of_ne (Ne.symm h) _ _
  | rename src dst =>
      cases r with
      | false => rfl
      | true =>
          have hsrc : p ≠ cstr src := fun heq => h ⟨rfl, Or.inl heq.symm⟩
          have hdst : p ≠ cstr dst := fun heq => h ⟨rfl, Or.inr heq.symm⟩
          exact (Function.update_of_ne hdst _ _).trans (Function.update_of_ne hsrc _ _)
  | _ => rfl

/-- What a call that renames nothing onto `p` makes of the file under `p`. -/
def Call.onFile (p : Bytes) (file : Option File) : Call → Option File
  | ⟨.create path, ok⟩ => if ok = true ∧ cstr path = p then some .empty else file
  | ⟨.write path off data, .good⟩ =>
      if cstr path = p then file.map (·.overlay off data) else file
  | ⟨.write path off data, .bad stored⟩ =>
      if cstr path = p then file.map (·.overlay off (data.take stored)) else file
  | ⟨.remove path, _⟩ => if cstr path = p then none else file
  | ⟨.rename src _, ok⟩ => if ok = true ∧ cstr src = p then none else file
  | _ => file

/-- The call renames something onto `p`. -/
def Call.RenamesOnto (p : Bytes) : Call → Prop
  | ⟨.rename _ dst, ok⟩ => ok = true ∧ cstr dst = p
  | _ => False

theorem Call.onDir_eq_onFile {p : Bytes} {call : Call} (h : ¬ call.RenamesOnto p)
    (d : Directory) : call.eff.onDir d call.res p = call.onFile p (d p) := by
  by_cases hchange : call.Changes p
  swap
  · -- both leave the path alone
    rw [onDir_of_not_changes hchange]
    rcases call with ⟨e, r⟩
    cases e with
    | create path => exact (if_neg hchange).symm
    | write path off data => cases r <;> exact (if_neg hchange).symm
    | remove path => exact (if_neg hchange).symm
    | rename src dst => exact (if_neg fun hsrc => hchange ⟨hsrc.1, Or.inl hsrc.2⟩).symm
    | _ => rfl
  rcases call with ⟨e, r⟩
  cases e with
  | create path =>
      obtain ⟨rfl, rfl⟩ := hchange
      simp [Eff.onDir, onFile]
  | write path off data =>
      cases hchange
      cases r <;> simp [Eff.onDir, onFile]
  | remove path =>
      cases hchange
      simp [Eff.onDir, onFile]
  | rename src dst =>
      obtain ⟨rfl, hp⟩ := hchange
      have hdst : cstr dst ≠ p := fun heq => h ⟨rfl, heq⟩
      have hsrc : cstr src = p := hp.resolve_right hdst
      simp [Eff.onDir, onFile, hsrc, Function.update_of_ne (Ne.symm hdst)]
  | _ => exact hchange.elim

/-- What the calls of `log` make of the file under `p`. -/
def fileAt (p : Bytes) (file : Option File) (log : List Call) : Option File :=
  log.foldl (Call.onFile p) file

@[simp] theorem fileAt_snoc (p : Bytes) (file : Option File) (log : List Call) (call : Call) :
    fileAt p file (log ++ [call]) = call.onFile p (fileAt p file log) := by
  simp [fileAt]

/-- Whatever was under `p` before, the calls of `log` leave `file` there. -/
def Staged (p : Bytes) (log : List Call) (file : File) : Prop :=
  ∀ before, fileAt p before log = some file

theorem staged_create (path : Bytes) (log : List Call) :
    Staged (cstr path) (log ++ [⟨.create path, true⟩]) .empty := by
  intro before
  simp [Call.onFile]

theorem Staged.write {path : Bytes} {log : List Call} {file : File}
    (h : Staged (cstr path) log file) (off : ℕ) (data : Bytes) :
    Staged (cstr path) (log ++ [⟨.write path off data, .good⟩]) (file.overlay off data) := by
  intro before
  simp [Call.onFile, h before]

theorem Staged.unchanged {p : Bytes} {log : List Call} {file : File} (h : Staged p log file)
    {call : Call} (hcall : ¬ call.Changes p) : Staged p (log ++ [call]) file := by
  intro before
  rw [fileAt_snoc, h before]
  rcases call with ⟨e, r⟩
  cases e with
  | create path => exact if_neg hcall
  | write path off data => cases r <;> exact if_neg hcall
  | remove path => exact if_neg hcall
  | rename src dst => exact if_neg fun hsrc => hcall ⟨hsrc.1, Or.inl hsrc.2⟩
  | _ => rfl

/-- Bytes written at the end of a file are appended. -/
theorem File.overlay_end {file : File} {data : Bytes} {off : ℕ} (hoff : off = file.bytes.length)
    (hsmall : off + data.length < 2 ^ 63) : (file.overlay off data).bytes = file.bytes ++ data := by
  subst hoff
  have hbytes : LinkScheduling.overlay file.bytes file.bytes.length data =
      file.bytes ++ data := by
    simp [LinkScheduling.overlay]
  unfold File.overlay
  rw [dif_pos (by rw [hbytes, List.length_append]; exact hsmall)]
  exact hbytes

namespace Sys

variable {P W : ℕ} {cfg : Config} {s t : Sys P W} {dir : Directory}

/-- What a step does to the directory. -/
theorem step_dir {l : Label P W} (h : s.step cfg l = some t) :
    t.dir = match s.callOf l with
      | some (_, call) => call.eff.onDir s.dir call.res
      | none => s.dir := by
  cases step_cases h with
  | parserCall k c fd e next hbusy => simp [callOf, hbusy, setParser, perform]
  | workerCall k c req held e next hbusy => simp [callOf, hbusy, setWorker, perform]
  | _ => rfl

/-- Only connection `fd` changes `p`, and never by renaming onto it. -/
def OwnPath (p : Bytes) (fd : Fd) (s : Sys P W) (l : Label P W) : Prop :=
  ∀ fd' call, s.callOf l = some (fd', call) →
    (fd' ≠ fd → ¬ call.Changes p) ∧ (fd' = fd → ¬ call.RenamesOnto p)

/-- The directory holds under `p` what the log of `fd` left there. -/
theorem run_fileAt {p : Bytes} {fd : Fd} (hrun : RunWhere cfg (OwnPath p fd) (init P W dir) t) :
    t.dir p = fileAt p (dir p) (t.log fd) := by
  refine hrun.invariant (fun s => s.dir p = fileAt p (dir p) (s.log fd)) rfl ?_
  intro u l v hu hown hstep
  rw [step_dir hstep, step_log hstep fd]
  unfold newCalls
  cases hcall : u.callOf l with
  | none => simpa using hu
  | some made =>
      obtain ⟨fd', call⟩ := made
      obtain ⟨hother, hself⟩ := hown fd' call hcall
      by_cases hfd : fd' = fd
      · simp only [hfd, ↓reduceIte, fileAt_snoc]
        rw [Call.onDir_eq_onFile (hself hfd), hu]
      · simp only [hfd, ↓reduceIte, List.append_nil]
        rw [Call.onDir_of_not_changes (hother hfd), hu]

end Sys

end LinkScheduling
