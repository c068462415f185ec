import Mathlib.Data.List.Basic
import Mathlib.Algebra.Order.BigOperators.Group.List
import Mathlib.Tactic.Ring

/-!
# Greedy packing

Items of given sizes are packed, in order, into groups of a given capacity. A group takes
as many of the next items as fit; an item larger than the capacity is a group of its own.
Two neighbouring groups together always exceed the capacity, which bounds the space that is
left over and the number of groups.
-/

namespace LinkScheduling.Framework

variable {α : Type} (size : α → ℕ) (capacity : ℕ)

def total (items : List α) : ℕ := (items.map size).sum

/-- The longest beginning that fits. -/
structure LongestFit (group items : List α) : Prop where
  initial : group <+: items
  fits : total size group ≤ capacity
  longest : ∀ other, other <+: items → total size other ≤ capacity → other.length ≤ group.length

/-- The greedy packing of a list of items. -/
inductive Packs : List α → List (List α) → Prop
  | nil : Packs [] []
  | fit {group rest : List α} {groups : List (List α)} : group ≠ [] →
      LongestFit size capacity group (group ++ rest) → Packs rest groups →
      Packs (group ++ rest) (group :: groups)
  | long {x : α} {rest : List α} {groups : List (List α)} : capacity < size x →
      Packs rest groups → Packs (x :: rest) ([x] :: groups)

/-- What all groups but the last leave free. -/
def leftOver (groups : List (List α)) : ℕ :=
  (groups.dropLast.map fun group => capacity - total size group).sum

/-- The next items as long as they fit. -/
def fitting : ℕ → List α → List α
  | _, [] => []
  | room, x :: items => if size x ≤ room then x :: fitting (room - size x) items else []

/-- The first group of the packing. -/
def nextGroup (items : List α) : List α :=
  match items with
  | [] => []
  | x :: _ => if capacity < size x then [x] else fitting size capacity items

section

variable {size : α → ℕ} {capacity : ℕ} {items rest group : List α} {groups : List (List α)}

@[simp] theorem total_nil : total size [] = 0 := rfl

@[simp] theorem total_cons (x : α) (items : List α) :
    total size (x :: items) = size x + total size items := by
  simp [total]

@[simp] theorem total_append (a b : List α) :
    total size (a ++ b) = total size a + total size b := by
  simp [total]

theorem total_prefix_le {a b : List α} (h : a <+: b) : total size a ≤ total size b := by
  obtain ⟨rest, rfl⟩ := h
  rw [total_append]
  exact Nat.le_add_right _ _

theorem fitting_longest (room : ℕ) (items : List α) :
    LongestFit size room (fitting size room items) items := by
  induction items generalizing room with
  | nil => exact ⟨List.prefix_rfl, Nat.zero_le _, fun other h _ => h.length_le⟩
  | cons x items ih =>
      unfold fitting
      split
      · rename_i hx
        obtain ⟨hpre, hfits, hlongest⟩ := ih (room - size x)
        refine ⟨List.prefix_cons_inj x |>.mpr hpre, ?_, ?_⟩
        · rw [total_cons]
          omega
        · intro other hother hle
          cases other with
          | nil => exact Nat.zero_le _
          | cons y other =>
              obtain ⟨rfl, hrest⟩ := List.cons_prefix_cons.mp hother
              rw [total_cons] at hle
              exact Nat.succ_le_succ (hlongest other hrest (by omega))
      · rename_i hx
        refine ⟨List.nil_prefix, Nat.zero_le _, ?_⟩
        intro other hother hle
        cases other with
        | nil => exact Nat.zero_le _
        | cons y other =>
            obtain ⟨rfl, -⟩ := List.cons_prefix_cons.mp hother
            rw [total_cons] at hle
            omega

theorem LongestFit.eq_fitting (h : LongestFit size capacity group items) :
    group = fitting size capacity items := by
  have h' : LongestFit size capacity _ items := fitting_longest capacity items
  have hlen : group.length = (fitting size capacity items).length :=
    Nat.le_antisymm (h'.longest _ h.initial h.fits) (h.longest _ h'.initial h'.fits)
  exact (List.prefix_of_prefix_length_le h.initial h'.initial hlen.le).eq_of_length hlen

/-- The item after a longest beginning no longer fits. -/
theorem LongestFit.next {x : α} (h : LongestFit size capacity group (group ++ x :: rest)) :
    capacity < total size group + size x := by
  by_contra hle
  have hmore := h.longest (group ++ [x])
    ((List.prefix_append_right_inj group).mpr ⟨rest, rfl⟩) (by simpa using hle)
  simp at hmore

theorem nextGroup_cons (x : α) (items : List α) :
    nextGroup size capacity (x :: items) =
      if capacity < size x then [x] else fitting size capacity (x :: items) := rfl

theorem nextGroup_initial (items : List α) : nextGroup size capacity items <+: items := by
  cases items with
  | nil => exact List.prefix_rfl
  | cons x items =>
      rw [nextGroup_cons]
      split
      · exact ⟨items, rfl⟩
      · exact (fitting_longest capacity (x :: items)).initial

theorem nextGroup_ne_nil (h : items ≠ []) : nextGroup size capacity items ≠ [] := by
  cases items with
  | nil => exact absurd rfl h
  | cons x items =>
      rw [nextGroup_cons]
      split
      · exact List.cons_ne_nil x []
      · rename_i hx
        rw [fitting, if_pos (Nat.not_lt.mp hx)]
        exact List.cons_ne_nil _ _

/-- Items that all fit are one group. -/
theorem nextGroup_of_le (h : total size items ≤ capacity) : nextGroup size capacity items = items := by
  cases items with
  | nil => rfl
  | cons x items =>
      have hx := h
      rw [total_cons] at hx
      rw [nextGroup_cons, if_neg (by omega)]
      have hall : LongestFit size capacity (x :: items) (x :: items) :=
        ⟨List.prefix_rfl, h, fun other hother _ => hother.length_le⟩
      exact hall.eq_fitting.symm

/-- A group exceeds the capacity only as a single item. -/
theorem countP_nextGroup (items : List α) :
    (nextGroup size capacity items).countP (fun x => capacity < size x) =
      if capacity < total size (nextGroup size capacity items) then 1 else 0 := by
  cases items with
  | nil => simp [nextGroup]
  | cons x items =>
      rw [nextGroup_cons]
      split
      · rename_i hx
        simp [hx]
      · have hfits : total size _ ≤ capacity := (fitting_longest capacity (x :: items)).fits
        rw [if_neg (Nat.not_lt.mpr hfits), List.countP_eq_zero]
        intro y hy hlong
        have hle : size y ≤ total size (fitting size capacity (x :: items)) :=
          List.le_sum_of_mem (List.mem_map.mpr ⟨y, hy, rfl⟩)
        simp only [decide_eq_true_eq] at hlong
        omega

theorem Packs.flatten (h : Packs size capacity items groups) : groups.flatten = items := by
  induction h with
  | nil => rfl
  | fit _ _ _ ih => rw [List.flatten_cons, ih]
  | long _ _ ih => rw [List.flatten_cons, ih, List.singleton_append]

theorem Packs.ne_nil (h : Packs size capacity items groups) : ∀ group ∈ groups, group ≠ [] := by
  induction h with
  | nil => simp
  | fit hne _ _ ih => exact List.forall_mem_cons.mpr ⟨hne, ih⟩
  | long _ _ ih => exact List.forall_mem_cons.mpr ⟨List.cons_ne_nil _ _, ih⟩

theorem Packs.eq_nil (h : Packs size capacity [] groups) : groups = [] := by
  cases groups with
  | nil => rfl
  | cons group groups =>
      have hnil := h.flatten
      rw [List.flatten_cons] at hnil
      exact absurd (List.append_eq_nil_iff.mp hnil).1 (h.ne_nil group List.mem_cons_self)

/-- A packing starts with the next group and packs the rest. -/
theorem packs_cons_iff (hne : items ≠ []) :
    Packs size capacity items groups ↔ ∃ groups', groups = nextGroup size capacity items :: groups' ∧
      Packs size capacity (items.drop (nextGroup size capacity items).length) groups' := by
  constructor
  · intro h
    cases h with
    | nil => exact absurd rfl hne
    | @fit group rest groups' hgroup hlongest hrest =>
        have hnext : nextGroup size capacity (group ++ rest) = group := by
          cases group with
          | nil => exact absurd rfl hgroup
          | cons x group =>
              have hx := hlongest.fits
              rw [total_cons] at hx
              rw [List.cons_append, nextGroup_cons, if_neg (by omega), ← List.cons_append]
              exact hlongest.eq_fitting.symm
        rw [hnext]
        exact ⟨groups', rfl, by rwa [List.drop_left]⟩
    | @long x rest groups' hx hrest =>
        have hnext : nextGroup size capacity (x :: rest) = [x] := if_pos hx
        rw [hnext]
        exact ⟨groups', rfl, hrest⟩
  · rintro ⟨groups', rfl, hrest⟩
    obtain ⟨rest, hitems⟩ : nextGroup size capacity items <+: items := nextGroup_initial items
    have hgroup : nextGroup size capacity items ≠ [] := nextGroup_ne_nil hne
    cases items with
    | nil => exact absurd rfl hne
    | cons x items =>
        by_cases hx : capacity < size x
        · have hnext : nextGroup size capacity (x :: items) = [x] := if_pos hx
          rw [hnext] at hrest ⊢
          exact .long hx hrest
        · have hnext : nextGroup size capacity (x :: items) =
              fitting size capacity (x :: items) := if_neg hx
          have hlongest : LongestFit size capacity _ (x :: items) := fitting_longest capacity (x :: items)
          rw [← hnext] at hlongest
          generalize nextGroup size capacity (x :: items) = group at hitems hgroup hrest hlongest
          rw [← hitems] at hlongest ⊢
          rw [← hitems, List.drop_left] at hrest
          exact .fit hgroup hlongest hrest

theorem packs_exists (size : α → ℕ) (capacity : ℕ) (items : List α) :
    ∃ groups, Packs size capacity items groups := by
  induction hn : items.length using Nat.strong_induction_on generalizing items with
  | _ n ih =>
      by_cases hne : items = []
      · exact ⟨[], hne ▸ .nil⟩
      · have hlen : (items.drop (nextGroup size capacity items).length).length < n := by
          have hgroup : 0 < (nextGroup size capacity items).length :=
            List.length_pos_iff.mpr (nextGroup_ne_nil hne)
          have hitems := List.length_pos_iff.mpr hne
          rw [List.length_drop]
          omega
        obtain ⟨groups, hgroups⟩ := ih _ hlen _ rfl
        exact ⟨_, (packs_cons_iff hne).mpr ⟨groups, rfl, hgroups⟩⟩

/-! ## Pieces of a fixed length -/

/-- Pieces of `n` items, the last of which may be shorter. -/
structure Cut (n : ℕ) (items : List α) (pieces : List (List α)) : Prop where
  flatten : pieces.flatten = items
  bound : ∀ piece ∈ pieces, piece ≠ [] ∧ piece.length ≤ n
  full : ∀ piece ∈ pieces.dropLast, piece.length = n

theorem cut_nil (n : ℕ) : Cut n ([] : List α) [] := ⟨rfl, by simp, by simp⟩

theorem Cut.cons {n : ℕ} {pieces : List (List α)} (hn : 0 < n) (hne : items ≠ [])
    (h : Cut n (items.drop n) pieces) : Cut n items (items.take n :: pieces) := by
  have hlen : 0 < items.length := List.length_pos_iff.mpr hne
  refine ⟨?_, ?_, ?_⟩
  · rw [List.flatten_cons, h.flatten, List.take_append_drop]
  · refine List.forall_mem_cons.mpr ⟨⟨?_, List.length_take_le _ _⟩, h.bound⟩
    refine List.length_pos_iff.mp ?_
    rw [List.length_take]
    omega
  · cases pieces with
    | nil => simp
    | cons piece pieces =>
        -- more items follow, so the first piece is full
        rw [List.dropLast_cons_cons]
        refine List.forall_mem_cons.mpr ⟨?_, h.full⟩
        have hmore : piece.length ≤ (items.drop n).length := by
          rw [← h.flatten, List.flatten_cons, List.length_append]
          exact Nat.le_add_right _ _
        have hpos := List.length_pos_iff.mpr (h.bound piece List.mem_cons_self).1
        rw [List.length_drop] at hmore
        rw [List.length_take]
        omega

/-! ## What is left over -/

/-- Neighbouring groups exceed the capacity together. -/
theorem Packs.neighbours {group' : List α}
    (h : Packs size capacity items (group :: group' :: groups)) :
    capacity < total size group + total size group' := by
  have hnext : ∀ {rest : List α}, Packs size capacity rest (group' :: groups) →
      ∃ x more, rest = x :: more ∧ size x ≤ total size group' := by
    intro rest hrest
    cases group' with
    | nil => exact absurd rfl (hrest.ne_nil [] List.mem_cons_self)
    | cons x group' =>
        refine ⟨x, group' ++ groups.flatten, ?_, ?_⟩
        · rw [← hrest.flatten]
          rfl
        · rw [total_cons]
          exact Nat.le_add_right _ _
  cases h with
  | fit hne hlongest hrest =>
      obtain ⟨x, more, rfl, hx⟩ := hnext hrest
      have := hlongest.next
      omega
  | long hx hrest =>
      rw [total_cons]
      omega

theorem Packs.tail (h : Packs size capacity items (group :: groups)) :
    ∃ rest, items = group ++ rest ∧ Packs size capacity rest groups := by
  cases h with
  | fit _ _ hrest => exact ⟨_, rfl, hrest⟩
  | long _ hrest => exact ⟨_, rfl, hrest⟩

theorem leftOver_cons_cons {group' : List α} :
    leftOver size capacity (group :: group' :: groups) =
      (capacity - total size group) + leftOver size capacity (group' :: groups) := by
  simp [leftOver]

/-- The space left over is less than what the groups after the first hold. -/
theorem Packs.leftOver_le (h : Packs size capacity items (group :: groups)) :
    leftOver size capacity (group :: groups) + total size group ≤ total size items := by
  induction groups generalizing group items with
  | nil =>
      obtain ⟨rest, rfl, hrest⟩ := h.tail
      have hnil := hrest.flatten
      rw [← hnil, total_append]
      simp [leftOver]
  | cons group' groups ih =>
      obtain ⟨rest, rfl, hrest⟩ := h.tail
      have hneighbours := h.neighbours
      have hle := ih hrest
      rw [leftOver_cons_cons, total_append]
      omega

theorem Packs.length_mul_le (h : Packs size capacity items (group :: groups)) :
    groups.length * capacity + total size group ≤ 2 * total size items := by
  induction groups generalizing group items with
  | nil =>
      obtain ⟨rest, rfl, hrest⟩ := h.tail
      rw [total_append, List.length_nil]
      omega
  | cons group' groups ih =>
      obtain ⟨rest, rfl, hrest⟩ := h.tail
      have hneighbours := h.neighbours
      have hle := ih hrest
      have hmul : (groups.length + 1) * capacity = groups.length * capacity + capacity :=
        Nat.succ_mul _ _
      rw [total_append, List.length_cons, hmul]
      omega

theorem length_le_total (hpos : ∀ x ∈ items, 0 < size x) : items.length ≤ total size items := by
  induction items with
  | nil => exact Nat.zero_le _
  | cons x items ih =>
      have hx := hpos x List.mem_cons_self
      have hle := ih fun y hy => hpos y (List.mem_cons_of_mem x hy)
      rw [List.length_cons, total_cons]
      omega

theorem Packs.length_le (h : Packs size capacity items groups) : groups.length ≤ items.length := by
  induction h with
  | nil => exact le_rfl
  | fit hne _ _ ih =>
      have := List.length_pos_iff.mpr hne
      rw [List.length_cons, List.length_append]
      omega
  | long _ _ ih => exact Nat.succ_le_succ ih

variable (hpos : ∀ x ∈ items, 0 < size x) (hne : items ≠ [])

include hpos hne

theorem Packs.total_head_pos (h : Packs size capacity items groups) :
    ∃ group groups', groups = group :: groups' ∧ 0 < total size group := by
  cases groups with
  | nil => exact absurd h.flatten.symm hne
  | cons group groups =>
      refine ⟨group, groups, rfl, ?_⟩
      cases group with
      | nil => exact absurd rfl (h.ne_nil [] List.mem_cons_self)
      | cons x group =>
          have hmem : x ∈ items := by
            rw [← h.flatten]
            simp
          rw [total_cons]
          exact Nat.add_pos_left (hpos x hmem) _

theorem Packs.leftOver_lt (h : Packs size capacity items groups) :
    leftOver size capacity groups < total size items := by
  obtain ⟨group, groups', rfl, hgroup⟩ := h.total_head_pos hpos hne
  have := h.leftOver_le
  omega

theorem Packs.length_mul_lt (h : Packs size capacity items groups) :
    (groups.length - 1) * capacity < 2 * total size items := by
  obtain ⟨group, groups', rfl, hgroup⟩ := h.total_head_pos hpos hne
  have := h.length_mul_le
  rw [List.length_cons, Nat.add_sub_cancel]
  omega

end

end LinkScheduling.Framework
