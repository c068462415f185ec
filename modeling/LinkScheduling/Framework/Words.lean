import Mathlib.Data.List.Basic
import Mathlib.Data.List.TakeWhile

/-!
# Words of a sequence

The words of a sequence are its longest non-empty runs without a separator. A reader
that skips separators and then takes everything up to the next one finds them in order.
-/

namespace LinkScheduling.Framework

variable {α : Type} {sep : α → Bool} {l l' w : List α} {x : α}

def words (sep : α → Bool) (l : List α) : List (List α) :=
  (l.splitOnP sep).filter (fun w => !w.isEmpty)

@[simp] theorem words_nil : words sep [] = [] := rfl

/-- No word crosses a separator. -/
theorem words_append_cons (h : sep x = true) :
    words sep (l ++ x :: l') = words sep l ++ words sep l' := by
  unfold words
  rw [List.splitOnP_append_cons _ _ h, List.filter_append]

theorem words_cons_sep (h : sep x = true) : words sep (x :: l) = words sep l :=
  words_append_cons (l := []) h

theorem words_singleton (hne : w ≠ []) (h : ∀ x ∈ w, sep x = false) : words sep w = [w] := by
  unfold words
  rw [List.splitOnP_eq_singleton h]
  simp [hne]

/-- Separators at the end do not matter. -/
theorem words_append_seps (h : ∀ x ∈ l', sep x = true) : words sep (l ++ l') = words sep l := by
  induction l' generalizing l with
  | nil => simp
  | cons x l' ih =>
      have hx := h x List.mem_cons_self
      have hl' : ∀ y ∈ l', sep y = true := fun y hy => h y (List.mem_cons_of_mem _ hy)
      rw [words_append_cons hx, ← List.nil_append l', ih hl', words_nil, List.append_nil]

theorem words_dropWhile (l : List α) : words sep (l.dropWhile sep) = words sep l := by
  induction l with
  | nil => rfl
  | cons x l ih =>
      by_cases hx : sep x = true
      · rw [List.dropWhile_cons_of_pos hx, words_cons_sep hx, ih]
      · rw [List.dropWhile_cons_of_neg hx]

/-- The word a reader takes off the front. -/
theorem words_takeWhile (hne : l.takeWhile (!sep ·) ≠ []) :
    words sep l = l.takeWhile (!sep ·) :: words sep (l.dropWhile (!sep ·)) := by
  have hword : ∀ x ∈ l.takeWhile (!sep ·), sep x = false := by
    intro x hx
    simpa using List.mem_takeWhile_imp hx
  have hsplit := List.takeWhile_append_dropWhile (p := (!sep ·)) (l := l)
  cases hrest : l.dropWhile (!sep ·) with
  | nil =>
      rw [hrest, List.append_nil] at hsplit
      rw [hsplit] at hne hword
      rw [hsplit, words_singleton hne hword, words_nil]
  | cons x rest =>
      have hx : sep x = true := by
        have := List.head_dropWhile_not (!sep ·) (l := l) (by rw [hrest]; simp)
        simpa [hrest] using this
      rw [hrest] at hsplit
      calc words sep l = words sep (l.takeWhile (!sep ·) ++ x :: rest) := by rw [hsplit]
        _ = [l.takeWhile (!sep ·)] ++ words sep rest := by
          rw [words_append_cons hx, words_singleton hne hword]
        _ = l.takeWhile (!sep ·) :: words sep (x :: rest) := by rw [words_cons_sep hx]; rfl

/-- Every word is a non-empty run without separators. -/
theorem mem_words (h : w ∈ words sep l) : w ≠ [] ∧ ∀ x ∈ w, sep x = false := by
  induction hn : l.length using Nat.strong_induction_on generalizing l with
  | _ n ih =>
      rw [← words_dropWhile] at h
      by_cases hne : (l.dropWhile sep).takeWhile (!sep ·) = []
      · -- the first byte after the separators would be a separator again
        cases hd : l.dropWhile sep with
        | nil =>
            rw [hd] at h
            cases h
        | cons x rest =>
            have hx := List.head_dropWhile_not sep (l := l) (by rw [hd]; simp)
            simp only [hd, List.head_cons] at hx
            rw [hd, List.takeWhile_cons_of_pos (by simp [hx])] at hne
            cases hne
      · rw [words_takeWhile hne] at h
        rcases List.mem_cons.mp h with rfl | h
        · exact ⟨hne, fun x hx => by simpa using List.mem_takeWhile_imp hx⟩
        · refine ih _ ?_ h rfl
          have hle := List.length_dropWhile_le sep l
          have hsum := congrArg List.length
            (List.takeWhile_append_dropWhile (p := (!sep ·)) (l := l.dropWhile sep))
          have hpos := List.length_pos_of_ne_nil hne
          rw [List.length_append] at hsum
          omega

/-- The bytes of a word are bytes of the sequence. -/
theorem words_subset (h : w ∈ words sep l) : w ⊆ l := by
  have hsplit : ∀ w ∈ l.splitOnP sep, w ⊆ l := by
    clear h
    induction l with
    | nil => simp
    | cons x l ih =>
        intro w hw
        rw [List.splitOnP_cons_eq_if_modifyHead] at hw
        split at hw
        · rcases List.mem_cons.mp hw with rfl | hw
          · exact List.nil_subset _
          · exact List.subset_cons_of_subset x (ih w hw)
        · obtain ⟨first, rest, hrest⟩ := List.exists_cons_of_ne_nil (List.splitOnP_ne_nil sep l)
          rw [hrest, List.modifyHead_cons] at hw
          rw [hrest] at ih
          rcases List.mem_cons.mp hw with rfl | hw
          · exact List.cons_subset_cons x (ih first List.mem_cons_self)
          · exact List.subset_cons_of_subset x (ih w (List.mem_cons_of_mem _ hw))
  exact hsplit w (List.mem_filter.mp h).1

/-- What follows the last separator of a sequence. -/
theorem append_cons_inj_right [DecidableEq α] {x : α} {a a' b b' : List α}
    (hb : x ∉ b) (hb' : x ∉ b') (h : a ++ x :: b = a' ++ x :: b') : b = b' := by
  have htake : ∀ {a b : List α}, x ∉ b →
      (a ++ x :: b).reverse.takeWhile (· ≠ x) = b.reverse := by
    intro a b hb
    have hall : ∀ y ∈ b.reverse, decide (y ≠ x) = true := by
      intro y hy
      simp only [ne_eq, decide_eq_true_eq]
      rintro rfl
      exact hb (List.mem_reverse.mp hy)
    rw [List.reverse_append, List.reverse_cons, List.append_assoc, List.takeWhile_append_of_pos hall]
    simp
  have := htake (a := a) hb
  rw [h, htake hb'] at this
  exact List.reverse_injective this.symm

end LinkScheduling.Framework
