import LinkScheduling.Framework.Lines
import LinkScheduling.Model.FileIO

/-!
# Reading a line

`read_file_line` in terms of the lines of the file it opens, for every contract.
-/

namespace LinkScheduling

open Framework

/-- The line of `file` at `off`. -/
def lineAt (file : File) (off : ℕ) : Bytes := firstLine newline (file.bytes.drop off)

theorem lineAt_bounds {file : File} {off : ℕ} (h : off < file.size) :
    0 < (lineAt file off).length ∧ (lineAt file off).length < 2 ^ 63 := by
  have hpre : lineAt file off <+: file.bytes.drop off := firstLine_prefix _
  have h1 := hpre.length_le
  have h2 := file.size_lt
  rw [List.length_drop] at h1
  exact ⟨lineLength_pos h, by omega⟩

/-- `read_file_line` as it follows from the answer to its open: no line if the file
is missing or ends before the offset, else the line at the offset. The new offset
is a second look at the path if the line ran into the end of the file. -/
theorem readFileLine_wp {G : Type} {C : Contract Eff Resp G} {path : Bytes} {off : ℕ}
    {Q : Option (ℕ × Bytes) → G → Prop} {g : G}
    (hopen : C.guarantee g (.openRead path))
    (hnone : ∀ r, C.rely g (.openRead path) r → (∀ file, r = some file → file.size ≤ off) →
      Q none (C.next g (.openRead path) r))
    (hsome : ∀ file, C.rely g (.openRead path) (some file) → off < file.size →
      Q (some (off + (lineAt file off).length, lineAt file off))
        (C.next g (.openRead path) (some file)))
    (hlast : ∀ file, C.rely g (.openRead path) (some file) → off < file.size →
      off + (lineAt file off).length = file.size →
      C.guarantee (C.next g (.openRead path) (some file)) (.stat path) ∧
      ∀ st, C.rely (C.next g (.openRead path) (some file)) (.stat path) st →
        Q (some (st.getD 0, lineAt file off))
          (C.next (C.next g (.openRead path) (some file)) (.stat path) st)) :
    (readFileLine path off).wp C Q g := by
  unfold readFileLine
  simp only [perform, Prog.wp_bind, Prog.wp_perform]
  refine ⟨hopen, fun r hr => ?_⟩
  rcases r with _ | file
  · exact hnone none hr (by simp)
  by_cases hoff : off < 2 ^ 63
  · have hseek : ({ content := file.bytes } : IStream).seekg off =
        { content := file.bytes, pos := off } := by
      unfold IStream.seekg
      rw [if_pos hoff]
    have hline := firstLine_eq_takeWhile newline (file.bytes.drop off)
    simp only [hseek, IStream.good, Bool.not_false, Bool.and_self, Bool.not_true,
      Bool.false_eq_true, ↓reduceIte, IStream.getline]
    by_cases hlt : (List.takeWhile (fun x => decide (x ≠ newline)) (file.bytes.drop off)).length <
        (file.bytes.drop off).length
    · -- a newline was found
      rw [if_pos hlt] at hline ⊢
      have hin : off < file.size := by
        have := List.length_drop (i := off) (l := file.bytes)
        unfold File.size
        omega
      have hres := hsome file hr hin
      simp only [lineAt, hline] at hres
      simpa [IStream.tellg, IStream.good, Nat.add_assoc] using hres
    · -- the file ended first
      rw [if_neg hlt] at hline ⊢
      simp only
      by_cases hempty : (List.takeWhile (fun x => decide (x ≠ newline))
          (file.bytes.drop off)).isEmpty
      · rw [if_pos hempty]
        refine hnone (some file) hr ?_
        rintro _ ⟨⟩
        have hzero := List.isEmpty_iff.mp hempty
        rw [hzero] at hlt
        simp only [List.length_nil, List.length_drop, not_lt, Nat.le_zero] at hlt
        unfold File.size
        omega
      · rw [if_neg hempty]
        have hall : (lineAt file off).length = file.size - off := by
          have hle := (List.takeWhile_prefix (fun x => decide (x ≠ newline))
            (l := file.bytes.drop off)).length_le
          simp only [lineAt, hline, File.size]
          simp only [List.length_drop, not_lt] at hlt hle ⊢
          omega
        have hin : off < file.size := by
          have hpos : 0 < (lineAt file off).length := by
            simp only [lineAt, hline]
            exact List.length_pos_iff.mpr fun h => hempty (List.isEmpty_iff.mpr h)
          omega
        obtain ⟨hstat, hrest⟩ := hlast file hr hin (by omega)
        simp only [lineAt, hline] at hrest
        simp only [IStream.tellg, IStream.good, Bool.not_true, Bool.false_and,
          Bool.false_eq_true, ↓reduceIte, getFileSize, perform, Prog.wp_bind, Prog.wp_perform,
          Prog.wp_pure]
        exact ⟨hstat, fun st hst => hrest st hst⟩
  · -- no file reaches this far, and the seek fails
    have hseek : ({ content := file.bytes } : IStream).seekg off =
        { content := file.bytes, failbit := true } := by
      unfold IStream.seekg
      rw [if_neg hoff]
    simp only [hseek, IStream.good, Bool.not_false, Bool.not_true, Bool.and_false, ↓reduceIte]
    refine hnone (some file) hr ?_
    rintro _ ⟨⟩
    have := file.size_lt
    unfold File.size
    omega

end LinkScheduling
