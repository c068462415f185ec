import Mathlib.Data.List.Nodup
import Mathlib.Data.List.Sublists

/-!
# Turns in a line

A line of distinct members: newcomers join at the end, the first has its turn and goes to
the end, or leaves. Two members that stay take their turns alternately, whoever else comes
and goes.
-/

namespace LinkScheduling.Framework

variable {α : Type}

inductive Move (α : Type) : Type where
  | join (c : α)
  | turn (c : α)
  | leave (c : α)

inductive Moves : List α → Move α → List α → Prop
  | join (l : List α) (c : α) : Moves l (.join c) (l ++ [c])
  | turn (l : List α) (c : α) : Moves (c :: l) (.turn c) (l ++ [c])
  | leave (l : List α) (c : α) : Moves (c :: l) (.leave c) l

/-- The turns of `a` in a move. -/
def Move.turns [DecidableEq α] (a : α) : Move α → ℕ
  | .turn c => if c = a then 1 else 0
  | _ => 0

/-- `a` and `b` are in the line, `a` before `b` after equally many turns and behind it after
one more. -/
def Alternate (a b : α) (l : List α) (na nb : ℕ) : Prop :=
  [a, b].Sublist l ∧ na = nb ∨ [b, a].Sublist l ∧ na = nb + 1

variable {a b c : α} {l l' : List α} {na nb : ℕ}

theorem pair_sublist_snoc (ha : a ∈ l) : [a, c].Sublist (l ++ [c]) :=
  (List.singleton_sublist.mpr ha).append (.refl [c])

/-- Of two members of a line one comes first. -/
theorem pair_sublist_total (hab : a ≠ b) (ha : a ∈ l) (hb : b ∈ l) :
    [a, b].Sublist l ∨ [b, a].Sublist l := by
  induction l with
  | nil => cases ha
  | cons c l ih =>
      rcases List.mem_cons.mp ha with rfl | hal
      · left
        have hbl : b ∈ l := (List.mem_cons.mp hb).resolve_left hab.symm
        exact (List.singleton_sublist.mpr hbl).cons_cons a
      · rcases List.mem_cons.mp hb with rfl | hbl
        · right
          exact (List.singleton_sublist.mpr hal).cons_cons b
        · exact (ih hal hbl).imp (·.cons c) (·.cons c)

/-- A pair of a line whose first member is another is a pair of the rest. -/
theorem pair_sublist_tail (hac : a ≠ c) (h : [a, b].Sublist (c :: l)) : [a, b].Sublist l := by
  cases h with
  | cons _ h => exact h
  | cons_cons _ h => exact absurd rfl hac

/-- Nobody comes before the first of a line. -/
theorem not_pair_sublist_head (hnodup : (a :: l).Nodup) : ¬ [b, a].Sublist (a :: l) := by
  intro h
  have hnot := (List.nodup_cons.mp hnodup).1
  cases h with
  | cons _ h => exact hnot (h.subset (by simp))
  | cons_cons _ h => exact hnot (List.singleton_sublist.mp h)

variable [DecidableEq α]

/-- A move keeps the alternation of two members that stay. -/
theorem Alternate.move {m : Move α} (h : Alternate a b l na nb) (hab : a ≠ b)
    (hmove : Moves l m l') (hnodup : l.Nodup) (ha : a ∈ l') (hb : b ∈ l') :
    Alternate a b l' (na + m.turns a) (nb + m.turns b) := by
  cases hmove with
  | join l c =>
      exact h.imp (fun h => ⟨h.1.trans (List.sublist_append_left _ _), h.2⟩)
        (fun h => ⟨h.1.trans (List.sublist_append_left _ _), h.2⟩)
  | turn l c =>
      by_cases hca : c = a
      · -- `a` was first, so it has its turn and is now behind `b`
        subst hca
        have hbl : b ∈ l := by simpa [hab.symm] using hb
        obtain ⟨-, rfl⟩ := h.resolve_right fun h => not_pair_sublist_head hnodup h.1
        exact Or.inr ⟨pair_sublist_snoc hbl, by simp [Move.turns, hab]⟩
      · by_cases hcb : c = b
        · subst hcb
          have hal : a ∈ l := by simpa [hab] using ha
          obtain ⟨-, rfl⟩ := h.resolve_left fun h => not_pair_sublist_head hnodup h.1
          exact Or.inl ⟨pair_sublist_snoc hal, by simp [Move.turns, hca]⟩
        · simp only [Move.turns, if_neg hca, if_neg hcb, Nat.add_zero]
          refine h.imp (fun h => ⟨?_, h.2⟩) (fun h => ⟨?_, h.2⟩)
          · exact (pair_sublist_tail (Ne.symm hca) h.1).trans (List.sublist_append_left _ _)
          · exact (pair_sublist_tail (Ne.symm hcb) h.1).trans (List.sublist_append_left _ _)
  | leave l c =>
      -- the one that leaves is neither `a` nor `b`, who stay
      have hc := (List.nodup_cons.mp hnodup).1
      have hac : a ≠ c := fun heq => hc (heq ▸ ha)
      have hbc : b ≠ c := fun heq => hc (heq ▸ hb)
      exact h.imp (fun h => ⟨pair_sublist_tail hac h.1, h.2⟩)
        (fun h => ⟨pair_sublist_tail hbc h.1, h.2⟩)

end LinkScheduling.Framework
