import Mathlib.Data.List.Basic
import Mathlib.Order.Lattice

/-!
# Lines of a sequence

A line ends after a separator or at the end of the sequence. The positions where
lines end determine the length of the line that starts at any offset, so two
sequences with the same line ends up to `n` are cut in the same way up to `n`.
-/

namespace LinkScheduling.Framework

variable {α : Type} [DecidableEq α]

/-- The first line, with its separator if it has one. -/
def firstLine (sep : α) : List α → List α
  | [] => []
  | a :: l => if a = sep then [a] else a :: firstLine sep l

/-- A line of `l` ends before position `k`. -/
def LineEnd (sep : α) (l : List α) (k : ℕ) : Prop :=
  0 < k ∧ k ≤ l.length ∧ (l[k - 1]? = some sep ∨ k = l.length)

/-- The length of the line that starts at `off`. -/
def lineLength (sep : α) (l : List α) (off : ℕ) : ℕ := (firstLine sep (l.drop off)).length

/-- The same line ends up to `n`. -/
def SameLines (sep : α) (n : ℕ) (v w : List α) : Prop :=
  ∀ k ≤ n, LineEnd sep v k ↔ LineEnd sep w k

section FirstLine

variable {sep : α}

theorem firstLine_prefix (l : List α) : firstLine sep l <+: l := by
  induction l with
  | nil => exact List.prefix_rfl
  | cons a l ih =>
      unfold firstLine
      split
      · exact ⟨l, rfl⟩
      · exact List.prefix_cons_inj a |>.mpr ih

theorem firstLine_length_pos {l : List α} (h : l ≠ []) : 0 < (firstLine sep l).length := by
  cases l with
  | nil => exact absurd rfl h
  | cons a l =>
      unfold firstLine
      split <;> simp

/-- The first line as a reader finds it: everything before the separator, and the
separator unless the sequence ends first. -/
theorem firstLine_eq_takeWhile (sep : α) (l : List α) :
    firstLine sep l =
      if (l.takeWhile (· ≠ sep)).length < l.length then l.takeWhile (· ≠ sep) ++ [sep]
      else l.takeWhile (· ≠ sep) := by
  induction l with
  | nil => rfl
  | cons a l ih =>
      unfold firstLine
      by_cases ha : a = sep
      · simp [ha]
      · simp only [ha, ↓reduceIte, ne_eq, not_false_eq_true, decide_true,
          List.takeWhile_cons_of_pos, List.length_cons, Nat.add_lt_add_iff_right,
          List.cons_append]
        rw [ih]
        simp only [ne_eq]
        split <;> rfl

omit [DecidableEq α] in
theorem lineEnd_cons_succ {a : α} {l : List α} {k : ℕ} (hk : 0 < k) :
    LineEnd sep (a :: l) (k + 1) ↔ LineEnd sep l k := by
  obtain ⟨k, rfl⟩ := Nat.exists_eq_succ_of_ne_zero hk.ne'
  simp [LineEnd]

theorem lineEnd_firstLine {l : List α} (h : l ≠ []) :
    LineEnd sep l (firstLine sep l).length := by
  induction l with
  | nil => exact absurd rfl h
  | cons a l ih =>
      unfold firstLine
      by_cases ha : a = sep
      · simp [LineEnd, ha]
      · simp only [ha, ↓reduceIte, List.length_cons]
        cases l with
        | nil => simp [LineEnd, firstLine]
        | cons b l =>
            exact (lineEnd_cons_succ (firstLine_length_pos (List.cons_ne_nil b l))).mpr
              (ih (List.cons_ne_nil b l))

/-- No line ends inside the first line. -/
theorem firstLine_length_le {l : List α} {k : ℕ} (h : LineEnd sep l k) :
    (firstLine sep l).length ≤ k := by
  induction l generalizing k with
  | nil => simp [firstLine]
  | cons a l ih =>
      unfold firstLine
      split
      · exact h.1
      · rename_i ha
        obtain ⟨k, rfl⟩ := Nat.exists_eq_succ_of_ne_zero h.1.ne'
        rw [List.length_cons]
        rcases Nat.eq_zero_or_pos k with rfl | hk
        · have hl : l = [] := by
            rcases h.2.2 with hsep | hlen
            · exact absurd (by simpa using hsep) ha
            · simpa using hlen
          simp [hl, firstLine]
        · have := ih ((lineEnd_cons_succ hk).mp h)
          omega

end FirstLine

section LineLength

variable {sep : α} {l v w : List α} {off k n : ℕ}

omit [DecidableEq α] in
theorem lineEnd_drop (hk : 0 < k) :
    LineEnd sep (l.drop off) k ↔ LineEnd sep l (off + k) := by
  have hidx : off + k - 1 = off + (k - 1) := by omega
  simp only [LineEnd, List.length_drop, List.getElem?_drop, hidx]
  constructor
  · rintro ⟨-, hle, hend⟩
    exact ⟨by omega, by omega, hend.imp id (by omega)⟩
  · rintro ⟨-, hle, hend⟩
    exact ⟨hk, by omega, hend.imp id (by omega)⟩

theorem lineLength_pos (h : off < l.length) : 0 < lineLength sep l off :=
  firstLine_length_pos (by simpa [List.drop_eq_nil_iff] using h)

/-- The line that starts at `off` ends where its length says. -/
theorem lineEnd_lineLength (h : off < l.length) :
    LineEnd sep l (off + lineLength sep l off) :=
  (lineEnd_drop (lineLength_pos h)).mp
    (lineEnd_firstLine (by simpa [List.drop_eq_nil_iff] using h))

theorem lineLength_le (h : LineEnd sep l k) (hoff : off < k) :
    off + lineLength sep l off ≤ k := by
  have hpos : 0 < k - off := by omega
  have hend : LineEnd sep (l.drop off) (k - off) := by
    rw [lineEnd_drop hpos]
    rwa [Nat.add_sub_cancel' hoff.le]
  have := firstLine_length_le hend
  unfold lineLength
  omega

omit [DecidableEq α] in
theorem LineEnd.le_length (h : LineEnd sep l k) : k ≤ l.length := h.2.1

omit [DecidableEq α] in
theorem lineEnd_length (h : 0 < l.length) : LineEnd sep l l.length := ⟨h, le_rfl, Or.inr rfl⟩

/-- Sequences with the same line ends have lines of the same length. -/
theorem SameLines.lineLength_eq (h : SameLines sep n v w) (hn : LineEnd sep w n)
    (hoff : off < n) : lineLength sep v off = lineLength sep w off := by
  have hvn : LineEnd sep v n := (h n le_rfl).mpr hn
  have hw : LineEnd sep w (off + lineLength sep w off) :=
    lineEnd_lineLength (hoff.trans_le hn.le_length)
  have hv : LineEnd sep v (off + lineLength sep v off) :=
    lineEnd_lineLength (hoff.trans_le hvn.le_length)
  have hwn : off + lineLength sep w off ≤ n := lineLength_le hn hoff
  have hvn' : off + lineLength sep v off ≤ n := lineLength_le hvn hoff
  have hwpos : 0 < lineLength sep w off := lineLength_pos (hoff.trans_le hn.le_length)
  have hvpos : 0 < lineLength sep v off := lineLength_pos (hoff.trans_le hvn.le_length)
  have h1 : off + lineLength sep v off ≤ off + lineLength sep w off :=
    lineLength_le ((h _ hwn).mpr hw) (by omega)
  have h2 : off + lineLength sep w off ≤ off + lineLength sep v off :=
    lineLength_le ((h _ hvn').mp hv) (by omega)
  omega

end LineLength

/-! ## The longest line -/

/-- The lines of a sequence, each with its separator. -/
def lines (sep : α) : List α → List (List α)
  | [] => []
  | a :: l =>
      if a = sep then [a] :: lines sep l
      else match lines sep l with
        | [] => [[a]]
        | x :: xs => (a :: x) :: xs

def longestLine (sep : α) (l : List α) : ℕ := (lines sep l).foldr (fun x m => max x.length m) 0

theorem lines_head (sep : α) {l : List α} (h : l ≠ []) :
    ∃ rest, lines sep l = firstLine sep l :: rest := by
  induction l with
  | nil => exact absurd rfl h
  | cons a l ih =>
      unfold lines firstLine
      split
      · exact ⟨_, rfl⟩
      · cases l with
        | nil => exact ⟨[], rfl⟩
        | cons b l =>
            obtain ⟨rest, hrest⟩ := ih (List.cons_ne_nil b l)
            exact ⟨rest, by rw [hrest]⟩

/-- The first line, then the lines of what follows it. -/
theorem lines_eq_cons (sep : α) {l : List α} (h : l ≠ []) :
    lines sep l = firstLine sep l :: lines sep (l.drop (firstLine sep l).length) := by
  induction l with
  | nil => exact absurd rfl h
  | cons a l ih =>
      conv_lhs => unfold lines
      unfold firstLine
      by_cases ha : a = sep
      · rw [if_pos ha, if_pos ha]
        rfl
      · rw [if_neg ha, if_neg ha]
        cases l with
        | nil => rfl
        | cons b l =>
            rw [ih (List.cons_ne_nil b l)]
            rfl

@[simp] theorem lines_flatten (sep : α) (l : List α) : (lines sep l).flatten = l := by
  induction l with
  | nil => rfl
  | cons a l ih =>
      unfold lines
      split
      · rw [List.flatten_cons, ih, List.singleton_append]
      · cases hl : lines sep l with
        | nil =>
            rw [hl] at ih
            simp [← ih]
        | cons x xs =>
            rw [hl] at ih
            simp only [List.flatten_cons, List.cons_append] at ih ⊢
            rw [ih]

theorem lines_ne_nil {sep : α} {l x : List α} (h : x ∈ lines sep l) : x ≠ [] := by
  induction l generalizing x with
  | nil => cases h
  | cons a l ih =>
      unfold lines at h
      split at h
      · rcases List.mem_cons.mp h with rfl | h
        · exact List.cons_ne_nil _ _
        · exact ih h
      · cases hl : lines sep l with
        | nil =>
            rw [hl] at h
            simp only [List.mem_singleton] at h
            exact h ▸ List.cons_ne_nil _ _
        | cons y ys =>
            rw [hl] at h
            rcases List.mem_cons.mp h with rfl | h
            · exact List.cons_ne_nil _ _
            · exact ih (hl ▸ List.mem_cons_of_mem y h)

/-- A separator ends its line. -/
theorem notMem_dropLast_of_mem_lines {sep : α} {l x : List α} (h : x ∈ lines sep l) :
    sep ∉ x.dropLast := by
  induction l generalizing x with
  | nil => cases h
  | cons a l ih =>
      unfold lines at h
      split at h
      · rcases List.mem_cons.mp h with rfl | h
        · simp
        · exact ih h
      · rename_i ha
        cases hl : lines sep l with
        | nil =>
            rw [hl] at h
            rw [List.mem_singleton.mp h]
            simp
        | cons y ys =>
            rw [hl] at h
            rcases List.mem_cons.mp h with rfl | h
            · have hy : y ∈ lines sep l := hl ▸ List.mem_cons_self
              rw [List.dropLast_cons_of_ne_nil (lines_ne_nil hy), List.mem_cons, not_or]
              exact ⟨fun heq => ha heq.symm, ih hy⟩
            · exact ih (hl ▸ List.mem_cons_of_mem y h)

/-- Only the last line may lack its separator. -/
theorem getLast?_of_mem_dropLast_lines {sep : α} {l x : List α} (h : x ∈ (lines sep l).dropLast) :
    x.getLast? = some sep := by
  induction l generalizing x with
  | nil => cases h
  | cons a l ih =>
      unfold lines at h
      split at h
      · rename_i ha
        cases hl : lines sep l with
        | nil =>
            rw [hl] at h
            cases h
        | cons y ys =>
            rw [hl, List.dropLast_cons_of_ne_nil (List.cons_ne_nil y ys), ← hl] at h
            rcases List.mem_cons.mp h with rfl | h
            · rw [ha]
              rfl
            · exact ih h
      · cases hl : lines sep l with
        | nil =>
            rw [hl] at h
            cases h
        | cons y ys =>
            have hy : y ≠ [] := lines_ne_nil (hl ▸ List.mem_cons_self)
            rw [hl] at h
            cases ys with
            | nil => cases h
            | cons z zs =>
                have hrest := @ih
                rw [hl, List.dropLast_cons_of_ne_nil (List.cons_ne_nil z zs)] at hrest
                rw [List.dropLast_cons_of_ne_nil (List.cons_ne_nil z zs)] at h
                rcases List.mem_cons.mp h with rfl | h
                · rw [List.getLast?_cons_of_ne_nil hy]
                  exact hrest List.mem_cons_self
                · exact hrest (List.mem_cons_of_mem y h)

/-- Dropping whole lines leaves the other lines. -/
theorem lines_drop {sep : α} {l : List α} {first rest : List (List α)}
    (h : lines sep l = first ++ rest) : lines sep (l.drop first.flatten.length) = rest := by
  induction first generalizing l with
  | nil => simpa using h
  | cons x first ih =>
      by_cases hl : l = []
      · subst hl
        cases h
      · rw [lines_eq_cons sep hl, List.cons_append, List.cons.injEq] at h
        obtain ⟨rfl, h⟩ := h
        rw [List.flatten_cons, List.length_append, ← List.drop_drop]
        exact ih h

theorem longestLine_cons_le (sep : α) (a : α) (l : List α) :
    longestLine sep l ≤ longestLine sep (a :: l) := by
  unfold longestLine
  conv_rhs => unfold lines
  split
  · simp
  · cases hl : lines sep l with
    | nil => simp
    | cons x xs =>
        simp only [List.foldr_cons, List.length_cons]
        omega

/-- No line is longer than the longest line, wherever one starts to read. -/
theorem lineLength_le_longestLine (sep : α) (l : List α) (off : ℕ) :
    lineLength sep l off ≤ longestLine sep l := by
  induction l generalizing off with
  | nil => simp [lineLength, firstLine]
  | cons a l ih =>
      cases off with
      | zero =>
          obtain ⟨rest, hrest⟩ := lines_head sep (List.cons_ne_nil a l)
          simp [lineLength, longestLine, hrest]
      | succ off => exact (ih off).trans (longestLine_cons_le sep a l)

end LinkScheduling.Framework
