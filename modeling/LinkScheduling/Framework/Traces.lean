import Mathlib.Data.List.Infix
import LinkScheduling.Framework.Transition

/-!
# Runs with what they put out

A step may put out a list of things, and a run puts out what its steps do, in order. For a
line that is served from the front the law of a step, that the old line is a beginning of what
was served followed by the new line, is a law of whole runs, and it tells when each member of
the line is served.
-/

namespace LinkScheduling.Framework

variable {S L O : Type}

/-- A run from `s` to `t` whose steps satisfy `P` and put out the list. -/
inductive Traced (step : S → L → Option S) (out : S → L → List O) (P : S → L → Prop) :
    S → List O → S → Prop
  | refl (s : S) : Traced step out P s [] s
  | tail {s t u : S} {l : L} {outs : List O} :
      Traced step out P s outs t → P t l → step t l = some u →
        Traced step out P s (outs ++ out t l) u

namespace Traced

variable {step : S → L → Option S} {out : S → L → List O} {P : S → L → Prop} {s t u : S}
  {outs : List O}

theorem run (h : Traced step out P s outs t) : Run step P s t := by
  induction h with
  | refl => exact .refl _
  | tail _ hp hs ih => exact .tail ih hp hs

theorem trans {outs' : List O} (h : Traced step out P s outs t) (h' : Traced step out P t outs' u) :
    Traced step out P s (outs ++ outs') u := by
  induction h' with
  | refl => rwa [List.append_nil]
  | tail _ hp hs ih =>
      rw [← List.append_assoc]
      exact .tail ih hp hs

/-- What was in the line is put out before anything that joins it. -/
theorem line_prefix (line : S → List O) (Inv : S → Prop) (h : Traced step out P s outs t)
    (hs : Inv s) (hinv : ∀ t l u, Inv t → P t l → step t l = some u → Inv u)
    (hlaw : ∀ t l u, Inv t → P t l → step t l = some u → line t <+: out t l ++ line u) :
    line s <+: outs ++ line t := by
  suffices h : Inv t ∧ line s <+: outs ++ line t from h.2
  induction h with
  | refl => exact ⟨hs, List.prefix_rfl⟩
  | @tail t u l outs _ hp hstep ih =>
      refine ⟨hinv _ _ _ ih.1 hp hstep, ?_⟩
      rw [List.append_assoc]
      exact ih.2.trans (List.prefix_append_right_inj outs |>.mpr (hlaw _ _ _ ih.1 hp hstep))

end Traced

/-- What a script puts out. -/
def scriptOut (step : S → L → Option S) (out : S → L → List O) : S → List L → List O
  | _, [] => []
  | s, l :: ls => out s l ++ ((step s l).map fun t => scriptOut step out t ls).getD []

theorem script_traced {step : S → L → Option S} {out : S → L → List O} {P : S → L → Prop}
    {ok : S → L → Bool} (hok : ∀ s l, ok s l = true → P s l) :
    ∀ {ls : List L} {s t : S}, script step ok s ls = some t →
      Traced step out P s (scriptOut step out s ls) t
  | [], s, t, h => by
      cases h
      exact .refl s
  | l :: ls, s, t, h => by
      unfold script at h
      split at h
      · rename_i hl
        obtain ⟨u, hu, hrest⟩ := Option.bind_eq_some_iff.mp h
        rw [scriptOut, hu, Option.map_some, Option.getD_some]
        have hone : Traced step out P s ([] ++ out s l) u := .tail (.refl s) (hok s l hl) hu
        exact hone.trans (script_traced hok hrest)
      · cases h

/-! ## Places in a queue -/

section Line

variable {α : Type} {queue served queue' : List α} {p : ℕ} {a : α}

theorem getElem?_of_prefix {l l' : List α} (h : l <+: l') (ha : l[p]? = some a) :
    l'[p]? = some a := by
  obtain ⟨rest, rfl⟩ := h
  rw [List.getElem?_append_left (List.getElem?_eq_some_iff.mp ha).1, ha]

/-- As long as at most `p` were served, they stood before the member at place `p`, which has
moved up by as many places. -/
theorem prefix_waiting (h : queue <+: served ++ queue') (ha : queue[p]? = some a)
    (hserved : served.length ≤ p) :
    served = queue.take served.length ∧ queue'[p - served.length]? = some a := by
  have hlt : p < queue.length := (List.getElem?_eq_some_iff.mp ha).1
  constructor
  · refine List.prefix_iff_eq_take.mp (List.prefix_of_prefix_length_le (List.prefix_append _ _)
      h ?_)
    omega
  · rw [← List.getElem?_append_right hserved]
    exact getElem?_of_prefix h ha

/-- Once more were served, the member at place `p` was, right after those before it. -/
theorem prefix_served (h : queue <+: served ++ queue') (ha : queue[p]? = some a)
    (hserved : p < served.length) : served.take (p + 1) = queue.take (p + 1) := by
  have hlt : p < queue.length := (List.getElem?_eq_some_iff.mp ha).1
  have hprefix : queue.take (p + 1) <+: served := by
    refine List.prefix_of_prefix_length_le ((List.take_prefix _ _).trans h)
      (List.prefix_append _ _) ?_
    rw [List.length_take]
    omega
  have htake := List.prefix_iff_eq_take.mp hprefix
  rw [List.length_take, Nat.min_eq_left (by omega)] at htake
  exact htake.symm

end Line

end LinkScheduling.Framework
