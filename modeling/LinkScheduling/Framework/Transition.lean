import Mathlib.Order.WellFounded
import Mathlib.Data.Prod.Lex

/-!
# Runs of a labelled transition function

A label carries every choice of a step, so a step is a partial function of the
state and the label. `Run step P s t` is a finite run from `s` to `t` all of
whose steps satisfy `P` in the state they are taken from; `Behaviour` is an
infinite run.
-/

namespace LinkScheduling.Framework

variable {S L : Type}

inductive Run (step : S → L → Option S) (P : S → L → Prop) : S → S → Prop
  | refl (s : S) : Run step P s s
  | tail {s t u : S} {l : L} :
      Run step P s t → P t l → step t l = some u → Run step P s u

namespace Run

variable {step : S → L → Option S} {P Q : S → L → Prop} {s t u : S}

theorem trans (h : Run step P s t) (h' : Run step P t u) : Run step P s u := by
  induction h' with
  | refl => exact h
  | tail _ hp hs ih => exact .tail ih hp hs

theorem mono (h : Run step P s t) (hPQ : ∀ s l, P s l → Q s l) : Run step Q s t := by
  induction h with
  | refl => exact .refl s
  | tail _ hp hs ih => exact .tail ih (hPQ _ _ hp) hs

/-- The invariant rule: what the start satisfies and every allowed step keeps
holds at the end. -/
theorem invariant (Inv : S → Prop) (h : Run step P s t) (h0 : Inv s)
    (hstep : ∀ t l u, Inv t → P t l → step t l = some u → Inv u) : Inv t := by
  induction h with
  | refl => exact h0
  | tail _ hp hs ih => exact hstep _ _ _ ih hp hs

/-- The invariant rule with the run so far at hand. -/
theorem invariant_along (Inv : S → Prop) (h : Run step P s t) (h0 : Inv s)
    (hstep : ∀ t l u, Run step P s t → Inv t → P t l → step t l = some u → Inv u) :
    Inv t := by
  induction h with
  | refl => exact h0
  | tail h hp hs ih => exact hstep _ _ _ h ih hp hs

/-- Steps of a run may be judged by where the run ends. -/
theorem mono_reach (h : Run step P s t)
    (hPQ : ∀ u l v, Run step P s u → P u l → step u l = some v → Run step P v t → Q u l) :
    Run step Q s t := by
  suffices key : ∀ u, Run step P s u → Run step P u t → Run step Q s u from key t h (.refl t)
  intro u hu
  induction hu with
  | refl => exact fun _ => .refl s
  | tail hu hp hs ih =>
      intro hrest
      refine .tail (ih ?_) (hPQ _ _ _ hu hp hs hrest) hs
      exact trans (.tail (.refl _) hp hs) hrest

end Run

/-! ## Scripted runs -/

/-- The state after a list of labels, if every step is possible and passes `ok`. -/
def script (step : S → L → Option S) (ok : S → L → Bool) : S → List L → Option S
  | s, [] => some s
  | s, l :: ls => if ok s l then (step s l).bind fun t => script step ok t ls else none

section Script

variable {step : S → L → Option S} {ok : S → L → Bool} {P : S → L → Prop}

theorem script_run (hok : ∀ s l, ok s l = true → P s l) :
    ∀ {ls : List L} {s t : S}, script step ok s ls = some t → Run step P s t
  | [], s, t, h => by
      cases h
      exact .refl s
  | l :: ls, s, t, h => by
      unfold script at h
      split at h
      · rename_i hl
        obtain ⟨u, hu, hrest⟩ := Option.bind_eq_some_iff.mp h
        exact .trans (.tail (.refl s) (hok s l hl) hu) (script_run hok hrest)
      · cases h

/-- A script that ends in a state that passes a check. -/
theorem script_exists (ls : List L) (check : S → Bool) {s : S}
    (hok : ∀ s l, ok s l = true → P s l) (h : (script step ok s ls).any check = true) :
    ∃ t, Run step P s t ∧ check t = true := by
  obtain ⟨t, ht, hcheck⟩ := (Option.any_eq_true _ _).mp h
  exact ⟨t, script_run hok ht, hcheck⟩

theorem script_append {ls ls' : List L} {s : S} :
    script step ok s (ls ++ ls') = (script step ok s ls).bind fun t => script step ok t ls' := by
  induction ls generalizing s with
  | nil => rfl
  | cons l ls ih =>
      simp only [List.cons_append, script]
      split
      · cases step s l with
        | none => rfl
        | some u => exact ih
      · rfl

end Script

/-- An infinite run. -/
structure Behaviour (step : S → L → Option S) where
  state : ℕ → S
  label : ℕ → L
  next : ∀ t, step (state t) (label t) = some (state (t + 1))

namespace Behaviour

variable {step : S → L → Option S}

/-- The states of a behaviour are linked by finite runs. -/
theorem run (b : Behaviour step) {P : S → L → Prop}
    (hP : ∀ t, P (b.state t) (b.label t)) (t : ℕ) :
    Run step P (b.state 0) (b.state t) := by
  induction t with
  | zero => exact .refl _
  | succ t ih => exact .tail ih (hP t) (b.next t)

/-- A script that ends in a state with a loop, repeated for ever. -/
theorem exists_of_script {ok : S → L → Bool} {P : S → L → Prop} {ls : List L} {s u : S} {l : L}
    (h : script step ok s ls = some u) (hok : ∀ s l, ok s l = true → P s l)
    (hloop : step u l = some u) (hl : P u l) :
    ∃ b : Behaviour step, b.state 0 = s ∧ (∀ n, P (b.state n) (b.label n)) ∧
      (∀ n, n ≤ ls.length → script step ok s (ls.take n) = some (b.state n)) ∧
      (∀ n l', ls[n]? = some l' → b.label n = l') := by
  -- every part of the script succeeds
  have hpart : ∀ n, ∃ t, script step ok s (ls.take n) = some t ∧
      script step ok t (ls.drop n) = some u := by
    intro n
    rw [← List.take_append_drop n ls, script_append] at h
    obtain ⟨t, ht, hrest⟩ := Option.bind_eq_some_iff.mp h
    exact ⟨t, by simpa using ht, by simpa using hrest⟩
  choose state hstate hdrop using hpart
  have hstep : ∀ n, P (state n) (ls[n]?.getD l) ∧
      step (state n) (ls[n]?.getD l) = some (state (n + 1)) := by
    intro n
    rcases Nat.lt_or_ge n ls.length with hn | hn
    · have htake : ls.take (n + 1) = ls.take n ++ [ls[n]] := List.take_succ_eq_append_getElem hn
      have hnext := hstate (n + 1)
      rw [htake, script_append, hstate n] at hnext
      simp only [Option.bind_some, script] at hnext
      rw [List.getElem?_eq_getElem hn, Option.getD_some]
      split at hnext
      · rename_i hl'
        obtain ⟨v, hv, hv'⟩ := Option.bind_eq_some_iff.mp hnext
        cases hv'
        exact ⟨hok _ _ hl', hv⟩
      · cases hnext
    · have hend : ∀ m, ls.length ≤ m → state m = u := by
        intro m hm
        have := hdrop m
        rw [List.drop_eq_nil_of_le hm] at this
        cases this
        rfl
      rw [List.getElem?_eq_none hn, Option.getD_none, hend n hn, hend (n + 1) (by omega)]
      exact ⟨hl, hloop⟩
  refine ⟨⟨state, fun n => ls[n]?.getD l, fun n => (hstep n).2⟩, ?_, fun n => (hstep n).1,
    fun n _ => hstate n, ?_⟩
  · have := hstate 0
    cases this
    rfl
  · intro n l' hl'
    simp [hl']

/-- The behaviour from time `n` on. -/
def drop (b : Behaviour step) (n : ℕ) : Behaviour step where
  state t := b.state (n + t)
  label t := b.label (n + t)
  next t := b.next (n + t)

/-- A rank that no step raises and that keeps falling until `done` reaches
`done`. -/
theorem eventually (b : Behaviour step) {A : Type} {r : A → A → Prop}
    (hwf : WellFounded r) (rank : S → A) (done : S → Prop)
    (hstep : ∀ t, ¬ done (b.state t) →
      rank (b.state (t + 1)) = rank (b.state t) ∨
        r (rank (b.state (t + 1))) (rank (b.state t)) ∨ done (b.state (t + 1)))
    (hfair : ∀ t, ¬ done (b.state t) → ∃ u, t ≤ u ∧
      (done (b.state u) ∨ r (rank (b.state (u + 1))) (rank (b.state u)) ∨
        done (b.state (u + 1)))) :
    ∃ t, done (b.state t) := by
  suffices h : ∀ a t, rank (b.state t) = a → ∃ u, done (b.state u) from h _ 0 rfl
  intro a
  induction a using hwf.induction with
  | _ a ih =>
      intro t ht
      by_cases hd : done (b.state t)
      · exact ⟨t, hd⟩
      obtain ⟨u, htu, hu⟩ := hfair t hd
      -- up to `u` the rank is still `a`, or it fell, or the goal was reached
      have key : ∀ d, (∃ v, done (b.state v)) ∨ rank (b.state (t + d)) = a ∨
          r (rank (b.state (t + d))) a := by
        intro d
        induction d with
        | zero => exact Or.inr (Or.inl ht)
        | succ d ihd =>
            rcases ihd with h | h | h
            · exact Or.inl h
            · by_cases hdd : done (b.state (t + d))
              · exact Or.inl ⟨_, hdd⟩
              rcases hstep (t + d) hdd with h' | h' | h'
              · exact Or.inr (Or.inl (h'.trans h))
              · exact Or.inr (Or.inr (h ▸ h'))
              · exact Or.inl ⟨_, h'⟩
            · exact Or.inl (ih _ h (t + d) rfl)
      obtain ⟨d, rfl⟩ := Nat.exists_eq_add_of_le htu
      rcases hu with hu | hu | hu
      · exact ⟨_, hu⟩
      · rcases key d with h | h | h
        · exact h
        · exact ih _ (h ▸ hu) (t + d + 1) rfl
        · exact ih _ h (t + d) rfl
      · exact ⟨_, hu⟩

end Behaviour

/-! ## Bounded runs -/

section Bounded

variable {step : S → L → Option S} {Inv : S → Prop} {rank : S → ℕ} {bound : ℕ}

/-- Where every step raises a bounded rank, some run goes on until there is no step. -/
theorem Run.exists_stuck (hinv : ∀ t l u, Inv t → step t l = some u → Inv u)
    (hrank : ∀ t l u, Inv t → step t l = some u → rank t < rank u)
    (hbound : ∀ t, Inv t → rank t ≤ bound) {s : S} (hs : Inv s) :
    ∃ t, Run step (fun _ _ => True) s t ∧ ∀ l, step t l = none := by
  induction hn : bound - rank s using Nat.strong_induction_on generalizing s with
  | _ n ih =>
      by_cases hstuck : ∀ l, step s l = none
      · exact ⟨s, .refl s, hstuck⟩
      · push Not at hstuck
        obtain ⟨l, hl⟩ := hstuck
        obtain ⟨u, hu⟩ := Option.ne_none_iff_exists'.mp hl
        have hup := hrank s l u hs hu
        have hle := hbound u (hinv s l u hs hu)
        obtain ⟨t, ht, hend⟩ := ih (bound - rank u) (by omega) (hinv s l u hs hu) rfl
        exact ⟨t, .trans (.tail (.refl s) trivial hu) ht, hend⟩

/-- Where every step raises a bounded rank, there is no infinite run. -/
theorem Behaviour.not_of_bounded (hinv : ∀ t l u, Inv t → step t l = some u → Inv u)
    (hrank : ∀ t l u, Inv t → step t l = some u → rank t < rank u)
    (hbound : ∀ t, Inv t → rank t ≤ bound) (b : Behaviour step) : ¬ Inv (b.state 0) := by
  intro h0
  have hall : ∀ n, Inv (b.state n) ∧ n ≤ rank (b.state n) := by
    intro n
    induction n with
    | zero => exact ⟨h0, Nat.zero_le _⟩
    | succ n ih =>
        have hup := hrank _ _ _ ih.1 (b.next n)
        exact ⟨hinv _ _ _ ih.1 (b.next n), by omega⟩
  have hle := hbound _ (hall (bound + 1)).1
  have hge := (hall (bound + 1)).2
  omega

end Bounded

end LinkScheduling.Framework
