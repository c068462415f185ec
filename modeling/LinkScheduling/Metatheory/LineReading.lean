import LinkScheduling.Metatheory.Reading
import LinkScheduling.Model.System
import Mathlib.Algebra.BigOperators.Group.List.Basic

/-!
# Reading a file line by line

`read_file_line` opens the file anew for every line, and finds the next offset in one of two
ways: where the stream stands after the newline, or the size of the file when the stream met its
end. While the file does not change both are the end of the line, so the calls return the lines
of the content one after the other.
-/

namespace LinkScheduling

open Framework

section Still

variable {path : Bytes} {file : File} {off off' : ℕ}

/-- Nobody changes `file`, which every open of the path finds. -/
def still (path : Bytes) (file : File) : Contract Eff Resp Unit where
  guarantee _ _ := True
  rely _ e r := match e, r with
    | .openRead path', found => path' = path → found = some file
    | .stat path', size => path' = path → size = some file.size
    | _, _ => True
  next _ _ _ := ()

/-- A call of `read_file_line` returns `res`; `none` is `false`. -/
def ReturnsLine (path : Bytes) (file : File) (off : ℕ) (res : Option (ℕ × Bytes)) : Prop :=
  ∃ log, Prog.Steps (readFileLine path off) log (.ret res) ∧
    ∀ event ∈ log, (still path file).rely () event.eff event.res

/-- Calls in a row, each from the offset the one before it left, that return `true`. -/
inductive ReadsLines (path : Bytes) (file : File) : ℕ → List Bytes → ℕ → Prop
  | nil {off : ℕ} : ReadsLines path file off [] off
  | snoc {off off₁ off₂ : ℕ} {read : List Bytes} {line : Bytes} :
      ReadsLines path file off read off₁ → ReturnsLine path file off₁ (some (off₂, line)) →
      ReadsLines path file off (read ++ [line]) off₂

/-! ## One call -/

/-- What a call returns. -/
def nextLineOf (file : File) (off : ℕ) : Option (ℕ × Bytes) :=
  if off < file.size then some (off + (lineAt file off).length, lineAt file off) else none

theorem readFileLine_still : (readFileLine path off).wp (still path file)
    (fun res _ => res = nextLineOf file off) () := by
  unfold nextLineOf
  refine readFileLine_wp trivial ?_ ?_ ?_
  · intro r hr hend
    rw [if_neg (Nat.not_lt.mpr (hend file (hr rfl)))]
  · intro found hr hoff
    obtain rfl := Option.some.inj (hr rfl)
    rw [if_pos hoff]
  · intro found hr hoff hlast
    obtain rfl := Option.some.inj (hr rfl)
    refine ⟨trivial, fun size hsize => ?_⟩
    rw [hsize rfl, if_pos hoff, hlast]
    rfl

theorem ReturnsLine.eq {res : Option (ℕ × Bytes)} (h : ReturnsLine path file off res) :
    res = nextLineOf file off := by
  obtain ⟨log, hsteps, hlog⟩ := h
  exact hsteps.wp readFileLine_still fun _ => hlog

theorem returnsLine_exists (path : Bytes) (file : File) (off : ℕ) :
    ReturnsLine path file off (nextLineOf file off) := by
  have hok : ∀ e, ∃ r, (still path file).rely () e r := by
    intro e
    cases e with
    | openRead path' => exact ⟨some file, fun _ => rfl⟩
    | stat path' => exact ⟨some file.size, fun _ => rfl⟩
    | _ => exact ⟨(Sys.init 1 1 fun _ => none).answer {} _, trivial⟩
  obtain ⟨log, res, hsteps, hlog⟩ := Prog.Steps.exists_ret
    (fun event => (still path file).rely () event.eff event.res) hok (readFileLine path off)
  have h : ReturnsLine path file off res := ⟨log, hsteps, hlog⟩
  exact h.eq ▸ h

theorem ReturnsLine.some_iff {line : Bytes} (h : ReturnsLine path file off (some (off', line))) :
    off < file.size ∧ off' = off + line.length ∧ line = lineAt file off := by
  have heq := h.eq
  unfold nextLineOf at heq
  split at heq
  · rename_i hoff
    cases heq
    exact ⟨hoff, rfl, rfl⟩
  · cases heq

/-! ## All calls -/

/-- The lines read so far, followed by the lines of the rest, are the lines of the content. -/
theorem ReadsLines.lines {read : List Bytes} (h : ReadsLines path file off read off')
    (hoff : off ≤ file.size) :
    off' = off + read.flatten.length ∧ off' ≤ file.size ∧
      lines newline (file.bytes.drop off) = read ++ lines newline (file.bytes.drop off') := by
  induction h with
  | nil => exact ⟨rfl, hoff, rfl⟩
  | @snoc off₁ off₂ read line _ hcall ih =>
      obtain ⟨hoff₁, hle, hlines⟩ := ih
      obtain ⟨hlt, rfl, rfl⟩ := hcall.some_iff
      have hne : file.bytes.drop off₁ ≠ [] := by
        rw [Ne, List.drop_eq_nil_iff, Nat.not_le]
        exact hlt
      have hbound : (lineAt file off₁).length ≤ (file.bytes.drop off₁).length :=
        List.IsPrefix.length_le <| firstLine_prefix _
      rw [List.length_drop] at hbound
      refine ⟨?_, ?_, ?_⟩
      · rw [List.flatten_append, List.length_append, List.flatten_singleton, hoff₁, Nat.add_assoc]
      · unfold File.size at hlt ⊢
        omega
      · rw [hlines, lines_eq_cons newline hne, List.drop_drop, List.append_assoc]
        rfl

/-- The calls go on to the end of the file. -/
theorem readsLines_exists (path : Bytes) (hoff : off ≤ file.size) :
    ∃ read, ReadsLines path file off read file.size := by
  suffices h : ∀ n read off', file.size - off' = n → ReadsLines path file off read off' →
      ∃ read, ReadsLines path file off read file.size from h _ [] off rfl .nil
  intro n
  induction n using Nat.strong_induction_on with
  | _ n ih =>
      intro read off' hn h
      obtain ⟨-, hle, -⟩ := h.lines hoff
      rcases Nat.eq_or_lt_of_le hle with rfl | hlt
      · exact ⟨read, h⟩
      · have hcall := returnsLine_exists path file off'
        rw [nextLineOf, if_pos hlt] at hcall
        have hpos := (lineAt_bounds hlt).1
        exact ih _ (by omega) _ _ rfl (h.snoc hcall)

/-- **The lines of a file.** From an offset in an unchanging file, `read_file_line` is called
until it returns `false`, which it does at the end of the file. Until then every call returns a
line and moves the offset by its size, so the calls end; the lines together are the content from
the offset on, a newline only ends a line, and only the last line may lack it. -/
theorem read_file_lines (path : Bytes) (hoff : off ≤ file.size) :
    (∃ read, ReadsLines path file off read file.size ∧ ReturnsLine path file file.size none) ∧
    ∀ read off', ReadsLines path file off read off' →
      (∃ res, ReturnsLine path file off' res) ∧
      read.length ≤ file.size - off ∧
      (∀ off₂ line, ReturnsLine path file off' (some (off₂, line)) →
        off₂ = off' + line.length ∧ 1 ≤ line.length) ∧
      (∀ line ∈ read, newline ∉ line.dropLast) ∧
      (ReturnsLine path file off' none → off' = file.size ∧
        read.flatten = file.bytes.drop off ∧
        ∀ line ∈ read.dropLast, line.getLast? = some newline) := by
  have hend : ReturnsLine path file file.size none := by
    have h := returnsLine_exists path file file.size
    rwa [nextLineOf, if_neg (lt_irrefl _)] at h
  obtain ⟨read, hread⟩ := readsLines_exists path hoff
  refine ⟨⟨read, hread, hend⟩, fun read off' h => ?_⟩
  obtain ⟨hoff', hle, hlines⟩ := h.lines hoff
  refine ⟨⟨_, returnsLine_exists path file off'⟩, ?_, fun off₂ line hcall => ?_, ?_, fun hnone => ?_⟩
  · -- no line is empty
    have hpos : ∀ line ∈ read, 1 ≤ line.length := fun line hmem => List.length_pos_iff.mpr
      (lines_ne_nil (hlines ▸ List.mem_append_left _ hmem))
    have hsum := List.length_le_sum_of_one_le (read.map List.length) (by simpa using hpos)
    rw [List.length_map, ← List.length_flatten] at hsum
    omega
  · obtain ⟨hlt, hoff₂, hline⟩ := hcall.some_iff
    exact ⟨hoff₂, hline ▸ (lineAt_bounds hlt).1⟩
  · intro line hmem
    exact notMem_dropLast_of_mem_lines (hlines ▸ List.mem_append_left _ hmem)
  · have hsize : off' = file.size := by
      apply le_antisymm hle
      by_contra hlt
      have heq := hnone.eq
      rw [nextLineOf, if_pos (Nat.not_le.mp hlt)] at heq
      cases heq
    have hrest : file.bytes.drop off' = [] := by
      rw [hsize]
      exact List.drop_length
    rw [hrest] at hlines
    have hall : lines newline (file.bytes.drop off) = read := hlines.trans (List.append_nil read)
    refine ⟨hsize, ?_, fun line hmem => ?_⟩
    · rw [← hall, lines_flatten]
    · exact getLast?_of_mem_dropLast_lines (hall ▸ hmem)

/-- A file with an empty line, a CR, and no newline at its end. -/
theorem read_file_lines_three :
    ∃ read, ReadsLines (ascii "f") ⟨ascii "\n\r\nb", by decide⟩ 0 read 4 ∧
      read.flatten = ascii "\n\r\nb" := by
  obtain ⟨⟨read, hread, hend⟩, hall⟩ :=
    @read_file_lines ⟨ascii "\n\r\nb", by decide⟩ 0 (ascii "f") (Nat.zero_le _)
  exact ⟨read, hread, ((hall read _ hread).2.2.2.2 hend).2.1⟩

end Still

end LinkScheduling
