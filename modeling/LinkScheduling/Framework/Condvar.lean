import Mathlib.Data.Fintype.Basic
import Mathlib.Logic.Function.Basic

/-!
# Condition variables

A thread whose predicate is false goes to sleep, and it is woken by a notification or for no
reason. Who changes what the predicate looks at owes a notification, which comes in a later step
of its own. `Condvar.Covers` is what keeps a pool of threads from sleeping over something to do:
while there is work for one of them, somebody will look at it without being woken or a
notification is owed, and what concerns all of them has been announced to every sleeper.
-/

namespace LinkScheduling.Framework

variable {ι : Type}

/-- Who sleeps, and how many calls of `notify_one` and `notify_all` are still to come. -/
structure Condvar (ι : Type) where
  asleep : ι → Bool := fun _ => false
  ones : ℕ := 0
  alls : ℕ := 0

namespace Condvar

def owed (v : Condvar ι) : ℕ := v.ones + v.alls

/-- A `notify_all` on the spot. -/
def wakeAll (v : Condvar ι) : Condvar ι := { v with asleep := fun _ => false }

def oweOne (v : Condvar ι) : Condvar ι := { v with ones := v.ones + 1 }

def oweAll (v : Condvar ι) : Condvar ι := { v with alls := v.alls + 1 }

/-- An owed `notify_all`. -/
def notifyAll (v : Condvar ι) : Option (Condvar ι) :=
  if v.alls = 0 then none else some { v.wakeAll with alls := v.alls - 1 }

section Pool

variable [DecidableEq ι]

def sleep (v : Condvar ι) (k : ι) : Condvar ι :=
  { v with asleep := Function.update v.asleep k true }

/-- A spurious wake-up. -/
def wake (v : Condvar ι) (k : ι) : Condvar ι :=
  { v with asleep := Function.update v.asleep k false }

/-- An owed `notify_one`: a sleeper is woken, whichever it is; without a sleeper nothing
happens. -/
def notifyOne [Fintype ι] (v : Condvar ι) (target : Option ι) : Option (Condvar ι) :=
  if v.ones = 0 then none
  else match target with
    | some k =>
        if v.asleep k then some { v.wake k with ones := v.ones - 1 } else none
    | none =>
        if ∀ k, v.asleep k = false then some { v with ones := v.ones - 1 } else none

end Pool

/-- Somebody who is up will come back without being woken, or a notification is owed. -/
def Alert (v : Condvar ι) (up : ι → Prop) : Prop :=
  (∃ k, v.asleep k = false ∧ up k) ∨ 0 < v.owed

/-- Sleepers are `idle`; while there is something for one thread to do (`some`), the pool is
alert; and what every thread is to see (`all`) has been announced to the sleepers. -/
structure Covers (v : Condvar ι) (idle up : ι → Prop) (some all : Prop) : Prop where
  idle : ∀ k, v.asleep k = true → idle k
  alert : some → v.Alert up
  announced : all → ∀ k, v.asleep k = true → 0 < v.alls

namespace Covers

variable {v v' : Condvar ι} {idle idle' up up' : ι → Prop} {some some' all all' : Prop} {k : ι}

/-- Nobody sleeps at the start, when there is nothing to do. -/
theorem start (hsome : ¬ some) : Covers ({} : Condvar ι) idle up some all where
  idle _ h := by cases h
  alert h := absurd h hsome
  announced _ _ h := by cases h

/-- A change that leaves the sleepers alone, lets nobody leave who is up and makes nothing to
do. -/
theorem mono (h : v.Covers idle up some all) (hidle : ∀ k, v.asleep k = true → idle k → idle' k)
    (hup : ∀ k, v.asleep k = false → up k → up' k) (hsome : some' → some) (hall : all' → all) :
    v.Covers idle' up' some' all' where
  idle k hk := hidle k hk (h.idle k hk)
  alert hs := (h.alert (hsome hs)).imp_left fun ⟨k, hk, hupk⟩ => ⟨k, hk, hup k hk hupk⟩
  announced ha := h.announced (hall ha)

/-- A change by somebody who is up, and stays so. -/
theorem of_up (h : v.Covers idle up some all) (hidle : ∀ k, v.asleep k = true → idle k → idle' k)
    (hk : v.asleep k = false) (hup : up' k) (hall : all' → all) :
    v.Covers idle' up' some' all' where
  idle j hj := hidle j hj (h.idle j hj)
  alert _ := Or.inl ⟨k, hk, hup⟩
  announced ha := h.announced (hall ha)

/-- A change that owes a `notify_one`. -/
theorem oweOne (h : v.Covers idle up some all) (hidle : ∀ k, v.asleep k = true → idle k → idle' k)
    (hall : all' → all) : v.oweOne.Covers idle' up' some' all' where
  idle k hk := hidle k hk (h.idle k hk)
  alert _ := by
    refine Or.inr ?_
    change 0 < v.ones + 1 + v.alls
    omega
  announced ha := h.announced (hall ha)

/-- A change that owes a `notify_all`. -/
theorem oweAll (h : v.Covers idle up some all)
    (hidle : ∀ k, v.asleep k = true → idle k → idle' k) : v.oweAll.Covers idle' up' some' all' where
  idle k hk := hidle k hk (h.idle k hk)
  alert _ := Or.inr (Nat.succ_pos _)
  announced _ _ _ := Nat.succ_pos _

/-- A `notify_all` on the spot by somebody who is up. -/
theorem wakeAll (hup : up' k) : v.wakeAll.Covers idle' up' some' all' where
  idle _ h := by cases h
  alert _ := Or.inl ⟨k, rfl, hup⟩
  announced _ _ h := by cases h

/-- An owed `notify_all` comes. -/
theorem notifyAll [Nonempty ι] (hall : some → ∀ k, up k)
    (hv : v.notifyAll = Option.some v') : v'.Covers idle up some all := by
  unfold Condvar.notifyAll at hv
  split at hv
  · cases hv
  · cases hv
    obtain ⟨k⟩ := ‹Nonempty ι›
    exact ⟨fun _ h => (by cases h), fun hs => Or.inl ⟨k, rfl, hall hs k⟩, fun _ _ h => (by cases h)⟩

variable [DecidableEq ι]

/-- Somebody whose predicate is false goes to sleep. -/
theorem sleep (h : v.Covers idle up some all) (hk : idle k) (hsome : ¬ some) (hall : ¬ all) :
    (v.sleep k).Covers idle up some all where
  idle j hj := by
    by_cases hjk : j = k
    · exact hjk ▸ hk
    · refine h.idle j ?_
      simpa only [Condvar.sleep, Function.update_of_ne hjk] using hj
  alert hs := absurd hs hsome
  announced ha := absurd ha hall

theorem wake_asleep {j : ι} (hj : (v.wake k).asleep j = true) : v.asleep j = true := by
  by_cases hjk : j = k
  · subst hjk
    simp only [Condvar.wake, Function.update_self] at hj
    cases hj
  · simpa only [Condvar.wake, Function.update_of_ne hjk] using hj

theorem wake_awake {j : ι} (hj : v.asleep j = false) : (v.wake k).asleep j = false := by
  by_cases hjk : j = k
  · subst hjk
    exact Function.update_self _ _ _
  · simpa only [Condvar.wake, Function.update_of_ne hjk] using hj

theorem wake (h : v.Covers idle up some all) : (v.wake k).Covers idle up some all where
  idle j hj := h.idle j (wake_asleep hj)
  alert hs := (h.alert hs).imp_left fun ⟨j, hj, hup⟩ => ⟨j, wake_awake hj, hup⟩
  announced ha j hj := h.announced ha j (wake_asleep hj)

/-- An owed `notify_one` comes. Whom it wakes is up then; if it wakes nobody, nobody sleeps. -/
theorem notifyOne [Fintype ι] [Nonempty ι] (h : v.Covers idle up some all) (hup : ∀ k, idle k → up k)
    (hall : some → ∀ k, up k) {target : Option ι} (hv : v.notifyOne target = Option.some v') :
    v'.Covers idle up some all := by
  unfold Condvar.notifyOne at hv
  split at hv
  · cases hv
  split at hv
  · rename_i k
    split at hv
    · rename_i hk
      cases hv
      refine ⟨h.wake.idle, fun _ => Or.inl ⟨k, Function.update_self _ _ _, hup k (h.idle k hk)⟩,
        h.wake.announced⟩
    · cases hv
  · split at hv
    · rename_i hawake
      cases hv
      obtain ⟨k⟩ := ‹Nonempty ι›
      exact ⟨h.idle, fun hs => Or.inl ⟨k, hawake k, hall hs k⟩, h.announced⟩
    · cases hv

end Covers

/-! ## Nothing owed -/

theorem notifyOne_owed [DecidableEq ι] [Fintype ι] {v v' : Condvar ι} {target : Option ι}
    (h : v.notifyOne target = some v') : v'.owed < v.owed := by
  unfold notifyOne at h
  split at h
  · cases h
  rename_i hones
  have hlt : v.ones - 1 + v.alls < v.ones + v.alls := by omega
  split at h
  · split at h
    · cases h
      exact hlt
    · cases h
  · split at h
    · cases h
      exact hlt
    · cases h

theorem notifyAll_owed {v v' : Condvar ι} (h : v.notifyAll = some v') : v'.owed < v.owed := by
  unfold notifyAll at h
  split at h
  · cases h
  · rename_i halls
    cases h
    change v.ones + (v.alls - 1) < v.ones + v.alls
    omega

/-- A notification that is owed can come. -/
theorem owed_eq_zero [DecidableEq ι] [Fintype ι] {v : Condvar ι}
    (hone : ∀ target, v.notifyOne target = none)
    (hall : v.notifyAll = none) : v.owed = 0 := by
  have hones : v.ones = 0 := by
    by_contra hne
    by_cases hawake : ∀ k, v.asleep k = false
    · have hnone := hone none
      rw [notifyOne, if_neg hne] at hnone
      simp only [if_pos hawake] at hnone
      cases hnone
    · obtain ⟨k, hk⟩ := not_forall.mp hawake
      have hnone := hone (some k)
      rw [notifyOne, if_neg hne] at hnone
      simp only [if_pos (Bool.eq_true_of_not_eq_false hk)] at hnone
      cases hnone
  have halls : v.alls = 0 := by
    by_contra hne
    rw [notifyAll, if_neg hne] at hall
    cases hall
  rw [owed, hones, halls]

/-- With nothing owed nobody sleeps over what all are to see, and somebody who is up is awake
while there is something to do. -/
theorem Covers.of_owed {v : Condvar ι} {idle up : ι → Prop} {some all : Prop}
    (h : v.Covers idle up some all) (howed : v.owed = 0) :
    (some → ∃ k, v.asleep k = false ∧ up k) ∧ (all → ∀ k, v.asleep k = false) := by
  constructor
  · exact fun hs => (h.alert hs).resolve_right (by rw [howed]; exact lt_irrefl 0)
  · intro ha k
    by_contra hk
    have hpos := h.announced ha k (Bool.eq_true_of_not_eq_false hk)
    rw [owed] at howed
    omega

end Condvar

end LinkScheduling.Framework
