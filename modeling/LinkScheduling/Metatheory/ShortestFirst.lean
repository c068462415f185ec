import LinkScheduling.Framework.Selection
import LinkScheduling.Framework.Waiting
import LinkScheduling.Model.Scheduling
import Mathlib.Data.Prod.Lex

/-!
# The order of SJF

`wait_pop_best` scans the queue for the first least request and erases it there. Popping until
the queue is empty is therefore a stable sort by size and arrival, and with requests arriving in
between every pop takes the first least of what is queued then.
-/

namespace LinkScheduling

open Framework

/-- What SJF orders by: the size, then the arrival. -/
def Request.sjfKey (r : Request) : ℕ ×ₗ ℕ := toLex (r.totalBytes, r.arrivalNs)

theorem sjfLess_iff {a b : Request} : sjfLess a b = true ↔ a.sjfKey < b.sjfKey := by
  rw [Request.sjfKey, Request.sjfKey, Prod.Lex.toLex_lt_toLex, sjfLess]
  by_cases h : a.totalBytes = b.totalBytes
  · simp [h]
  · simp [h]

namespace RequestQueue

/-! ## One pop -/

section Pop

variable {β : Type} [LinearOrder β] {key : Request → β} {compare : Request → Request → Bool}

/-- The scan, with the best request of the scanned part and what is still to scan. -/
theorem scanBest_firstLeast (hcompare : ∀ a b, compare a b = true ↔ key a < key b) :
    ∀ (rest front mid : List Request) (r : Request), FirstLeast key front r mid →
      ∃ front' r' back', front ++ r :: (mid ++ rest) = front' ++ r' :: back' ∧
        scanBest compare (front.length, r) (front.length + 1 + mid.length) rest =
          (front'.length, r') ∧ FirstLeast key front' r' back'
  | [], front, mid, r, h => ⟨front, r, mid, by rw [List.append_nil], rfl, h⟩
  | x :: rest, front, mid, r, h => by
      unfold scanBest
      by_cases hless : compare x r = true
      · -- `x` is the new best, and everything before it is larger
        have hx := (hcompare x r).mp hless
        have hbest : FirstLeast key (front ++ r :: mid) x [] := by
          refine ⟨fun y hy => ?_, by simp⟩
          rcases List.mem_append.mp hy with hy | hy
          · exact hx.trans (h.front y hy)
          · rcases List.mem_cons.mp hy with rfl | hy
            · exact hx
            · exact hx.trans_le (h.back y hy)
        obtain ⟨front', r', back', hsplit, hscan, hleast⟩ :=
          scanBest_firstLeast hcompare rest (front ++ r :: mid) [] x hbest
        have hlen : (front ++ r :: mid).length = front.length + 1 + mid.length := by
          rw [List.length_append, List.length_cons]
          omega
        rw [hlen] at hscan
        refine ⟨front', r', back', ?_, ?_, hleast⟩
        · rw [← hsplit]
          simp
        · rw [if_pos hless]
          exact hscan
      · have hx : key r ≤ key x := not_lt.mp fun hlt => hless ((hcompare x r).mpr hlt)
        have hbest : FirstLeast key front r (mid ++ [x]) := by
          refine ⟨h.front, fun y hy => ?_⟩
          rcases List.mem_append.mp hy with hy | hy
          · exact h.back y hy
          · rw [List.mem_singleton.mp hy]
            exact hx
        obtain ⟨front', r', back', hsplit, hscan, hleast⟩ :=
          scanBest_firstLeast hcompare rest front (mid ++ [x]) r hbest
        rw [List.length_append, List.length_singleton, ← Nat.add_assoc] at hscan
        refine ⟨front', r', back', ?_, ?_, hleast⟩
        · rw [← hsplit]
          simp
        · rw [if_neg hless]
          exact hscan

/-- A pop takes the first least request, and the others stay as they stand. -/
theorem waitPopBest_firstLeast (hcompare : ∀ a b, compare a b = true ↔ key a < key b)
    {q q' : RequestQueue} {r : Request} (h : q.waitPopBest compare = some (r, q')) :
    ∃ front back, q.queue = front ++ r :: back ∧ q'.queue = front ++ back ∧
      FirstLeast key front r back := by
  unfold waitPopBest at h
  cases hq : q.queue with
  | nil => simp [hq] at h
  | cons first rest =>
      simp only [hq, Option.some.injEq, Prod.mk.injEq] at h
      obtain ⟨front, best, back, hsplit, hscan, hleast⟩ :=
        scanBest_firstLeast hcompare rest [] [] first ⟨by simp, by simp⟩
      rw [List.nil_append, List.nil_append] at hsplit
      rw [show ([] : List Request).length + 1 + ([] : List Request).length = 1 from rfl] at hscan
      obtain ⟨hr, hqueue⟩ := h
      rw [List.length_nil] at hscan
      rw [hscan] at hr hqueue
      subst hr
      refine ⟨front, back, hsplit, ?_, hleast⟩
      rw [← hqueue]
      change (first :: rest).eraseIdx front.length = _
      rw [hsplit, List.eraseIdx_append_of_length_le le_rfl, Nat.sub_self]
      rfl

end Pop

theorem pop_firstLeast {q q' : RequestQueue} {r : Request}
    (h : q.waitPopBest sjfLess = some (r, q')) :
    ∃ front back, q.queue = front ++ r :: back ∧ q'.queue = front ++ back ∧
      FirstLeast Request.sjfKey front r back :=
  waitPopBest_firstLeast (fun a b => @sjfLess_iff a b) h

theorem waitPopBest_isSome (compare : Request → Request → Bool) {q : RequestQueue}
    (h : q.queue ≠ []) : ∃ r q', q.waitPopBest compare = some (r, q') := by
  obtain ⟨first, rest, hq⟩ := List.exists_cons_of_ne_nil h
  unfold waitPopBest
  rw [hq]
  exact ⟨_, _, rfl⟩

/-! ## Runs of the queue -/

/-- What a thread did to the queue. -/
inductive Turn : Type where
  | arrived (r : Request)
  | popped (r : Request)
  | other

/-- One critical section on the queue of an SJF server. -/
inductive Takes : RequestQueue → Turn → RequestQueue → Prop
  | push {q q' : RequestQueue} {r : Request} : q.push r = (true, q') → Takes q (.arrived r) q'
  | requeue {q q' : RequestQueue} {r : Request} :
      q.requeue r = (true, q') → Takes q (.arrived r) q'
  | pop {q q' : RequestQueue} {r : Request} :
      q.waitPopBest sjfLess = some (r, q') → Takes q (.popped r) q'
  | complete {q : RequestQueue} : Takes q .other q.complete
  | close {q : RequestQueue} : Takes q .other q.close

/-- Any interleaving of critical sections. -/
inductive Turns : RequestQueue → List Turn → RequestQueue → Prop
  | nil {q : RequestQueue} : Turns q [] q
  | cons {q q₁ q₂ : RequestQueue} {turn : Turn} {turns : List Turn} :
      Takes q turn q₁ → Turns q₁ turns q₂ → Turns q (turn :: turns) q₂

def Turn.arrival : Turn → Option Request
  | .arrived r => some r
  | _ => none

def Turn.departure : Turn → Option Request
  | .popped r => some r
  | _ => none

/-- What a section leaves in the queue, with what it took out. -/
theorem Takes.perm {q q' : RequestQueue} {turn : Turn} (h : Takes q turn q') :
    (turn.departure.toList ++ q'.queue).Perm (q.queue ++ turn.arrival.toList) := by
  cases h with
  | push h =>
      unfold RequestQueue.push at h
      split at h
      · cases h
      · cases h
        exact .refl _
  | requeue h =>
      cases h
      exact .refl _
  | pop h =>
      obtain ⟨front, back, hq, hq', -⟩ := pop_firstLeast h
      rw [hq, hq']
      change (_ :: (front ++ back)).Perm (front ++ _ :: back ++ [])
      rw [List.append_nil]
      exact List.perm_middle.symm
  | complete => exact List.append_nil _ ▸ .refl _
  | close => exact List.append_nil _ ▸ .refl _

/-- No request is lost or duplicated. -/
theorem Turns.perm {q q' : RequestQueue} {turns : List Turn} (h : Turns q turns q') :
    (turns.filterMap Turn.departure ++ q'.queue).Perm
      (q.queue ++ turns.filterMap Turn.arrival) := by
  induction h with
  | nil => exact List.append_nil _ ▸ .refl _
  | @cons q q₁ q₂ turn turns hturn _ ih =>
      have hdep : (turn :: turns).filterMap Turn.departure =
          turn.departure.toList ++ turns.filterMap Turn.departure := by
        cases turn <;> rfl
      have harr : (turn :: turns).filterMap Turn.arrival =
          turn.arrival.toList ++ turns.filterMap Turn.arrival := by
        cases turn <;> rfl
      rw [hdep, harr, List.append_assoc, ← List.append_assoc q.queue]
      refine (ih.append_left _).trans ?_
      rw [← List.append_assoc]
      exact hturn.perm.append_right _

theorem Turns.split {q q' : RequestQueue} {before after : List Turn} {turn : Turn}
    (h : Turns q (before ++ turn :: after) q') :
    ∃ q₁ q₂, Turns q before q₁ ∧ Takes q₁ turn q₂ ∧ Turns q₂ after q' := by
  induction before generalizing q with
  | nil =>
      cases h with
      | cons hturn hafter => exact ⟨_, _, .nil, hturn, hafter⟩
  | cons first before ih =>
      cases h with
      | cons hfirst h =>
          obtain ⟨q₁, q₂, hbefore, hturn, hafter⟩ := ih h
          exact ⟨q₁, q₂, .cons hfirst hbefore, hturn, hafter⟩

/-! ## Draining -/

/-- Pops in a row return `popped`, and then the queue is empty. -/
def Drains (q : RequestQueue) (popped : List Request) : Prop :=
  ∃ q', Turns q (popped.map .popped) q' ∧ q'.queue = []

/-- Popping until the queue is empty is stable selection. -/
theorem Drains.selects {q : RequestQueue} {popped : List Request} (h : Drains q popped) :
    Selects Request.sjfKey q.queue popped := by
  obtain ⟨q', h, hempty⟩ := h
  induction popped generalizing q with
  | nil =>
      cases h
      rw [hempty]
      exact .nil
  | cons r popped ih =>
      cases h with
      | cons hturn h =>
          cases hturn with
          | pop hpop =>
              obtain ⟨front, back, hq, hq', hleast⟩ :=
                pop_firstLeast hpop
              rw [hq]
              exact .cons hleast (hq' ▸ ih h)

theorem drains_exists (q : RequestQueue) : ∃ popped, Drains q popped := by
  induction hn : q.queue.length generalizing q with
  | zero => exact ⟨[], q, .nil, List.eq_nil_of_length_eq_zero hn⟩
  | succ n ih =>
      obtain ⟨r, q₁, hpop⟩ := waitPopBest_isSome sjfLess (q := q)
        (List.ne_nil_of_length_eq_add_one hn)
      obtain ⟨front, back, hq, hq₁, -⟩ := pop_firstLeast hpop
      have hlen : q₁.queue.length = n := by
        rw [hq, List.length_append, List.length_cons] at hn
        rw [hq₁, List.length_append]
        omega
      obtain ⟨popped, q', hrun, hempty⟩ := ih q₁ hlen
      exact ⟨r :: popped, q', .cons (.pop hpop) hrun, hempty⟩

end RequestQueue

/-- Under SJF the scheduler pops with `sjfLess` and hands the request out as it is. -/
theorem Scheduler.next_sjf {S : Scheduler} (hsjf : S.policy = .SJF) (q : RequestQueue) :
    (S.next q).map (fun next => (next.1.request, next.2)) = q.waitPopBest sjfLess := by
  unfold next
  rw [hsjf]
  simp only [Option.map_map]
  cases q.waitPopBest sjfLess with
  | none => rfl
  | some popped =>
      have hsame : (S.getBudget popped.1).1 = popped.1 := by
        unfold getBudget
        rw [hsjf]
        simp only
        split
        · rfl
        · rfl
      exact congrArg some (Prod.ext hsame rfl)

open RequestQueue in
/-- **SJF is a stable sort.** Draining the queue yields its stable sort by size and arrival. With
arrivals anywhere in between nothing is lost or duplicated, every pop takes the first least of
the requests queued then, and the others keep their order. -/
theorem sjf_order (q : RequestQueue) :
    (∃ popped, Drains q popped) ∧
    (∀ popped, Drains q popped →
      popped = q.queue.mergeSort (fun a b => a.sjfKey ≤ b.sjfKey) ∧
      popped.Perm q.queue ∧ StablySorts Request.sjfKey q.queue popped) ∧
    (∀ turns q', Turns q turns q' →
      (turns.filterMap Turn.departure ++ q'.queue).Perm
        (q.queue ++ turns.filterMap Turn.arrival) ∧
      ∀ before r after, turns = before ++ .popped r :: after →
        ∃ q₁ q₂, Turns q before q₁ ∧ Takes q₁ (.popped r) q₂ ∧ Turns q₂ after q' ∧
          ∃ front back, q₁.queue = front ++ r :: back ∧ q₂.queue = front ++ back ∧
            FirstLeast Request.sjfKey front r back) ∧
    ∀ S : Scheduler, S.policy = .SJF →
      (S.next q).map (fun next => (next.1.request, next.2)) = q.waitPopBest sjfLess := by
  refine ⟨drains_exists q, fun popped h => ?_, fun turns q' h => ⟨h.perm, ?_⟩,
    fun S hsjf => Scheduler.next_sjf hsjf q⟩
  · have hselects := h.selects
    exact ⟨hselects.eq_mergeSort, hselects.stablySorts.perm, hselects.stablySorts⟩
  · rintro before r after rfl
    obtain ⟨q₁, q₂, hbefore, hturn, hafter⟩ := h.split
    refine ⟨q₁, q₂, hbefore, hturn, hafter, ?_⟩
    cases hturn with
    | pop hpop => exact pop_firstLeast hpop

/-- Three requests, the first the largest and the others of one size and arrival. -/
def tied : RequestQueue where
  queue := [{ clientFd := 7, totalBytes := 5 }, { clientFd := 8, totalBytes := 3 },
    { clientFd := 9, totalBytes := 3 }]

open RequestQueue in
theorem sjf_order_tied :
    ∃ popped, Drains tied popped ∧ popped.map (·.clientFd) = [8, 9, 7] ∧
      popped = tied.queue.mergeSort (fun a b => a.sjfKey ≤ b.sjfKey) := by
  have hdrains : Drains tied [{ clientFd := 8, totalBytes := 3 },
      { clientFd := 9, totalBytes := 3 }, { clientFd := 7, totalBytes := 5 }] :=
    ⟨_, .cons (.pop rfl) (.cons (.pop rfl) (.cons (.pop rfl) .nil)), rfl⟩
  exact ⟨_, hdrains, rfl, ((sjf_order tied).2.1 _ hdrains).1⟩

/-! ## What SJF is for -/

/-- The decisions of up to `n` calls of `next`, with no arrivals in between. -/
def Scheduler.dispatches (S : Scheduler) : ℕ → RequestQueue → List ScheduleDecision
  | 0, _ => []
  | n + 1, q =>
      match S.next q with
      | none => []
      | some (decision, q') => decision :: S.dispatches n q'

theorem Scheduler.next_popped {S : Scheduler} (hsjf : S.policy = .SJF) {q q' : RequestQueue}
    {r : Request} (hpop : q.waitPopBest sjfLess = some (r, q')) :
    S.next q = some ({ request := r, budget := r.totalBytes - r.offset }, q') := by
  unfold next getBudget
  rw [hsjf]
  simp only [hpop, Option.map_some, Request.remaining_eq]
  split
  · rename_i hzero
    rw [hzero]
  · rfl

open RequestQueue in
/-- Enough calls under SJF drain the queue, and every decision hands out all that is left. -/
theorem Scheduler.dispatches_sjf {S : Scheduler} (hsjf : S.policy = .SJF) {q : RequestQueue}
    {popped : List Request} (h : Drains q popped) :
    S.dispatches q.queue.length q =
      popped.map fun r => { request := r, budget := r.totalBytes - r.offset } := by
  obtain ⟨q', h, hempty⟩ := h
  induction popped generalizing q with
  | nil =>
      cases h
      rw [hempty]
      rfl
  | cons r popped ih =>
      cases h with
      | cons hturn h =>
          cases hturn with
          | pop hpop =>
              obtain ⟨front, back, hq, hq₁, -⟩ := pop_firstLeast hpop
              have hnext := Scheduler.next_popped hsjf hpop
              have hlen : q.queue.length = (front ++ back).length + 1 := by
                rw [hq, List.length_append, List.length_cons, List.length_append]
                rfl
              rw [hlen, dispatches, hnext, List.map_cons]
              simp only
              rw [← hq₁]
              exact congrArg (List.cons _) (ih h)

open RequestQueue in
/-- The order that SJF takes, for a queue of requests that were not served yet. -/
theorem Scheduler.least_wait {S : Scheduler} (hsjf : S.policy = .SJF) (q : RequestQueue)
    (hfresh : ∀ r ∈ q.queue, r.offset = 0) :
    ((S.dispatches q.queue.length q).map ScheduleDecision.request).Perm q.queue ∧
    ∀ order : List Request, order.Perm q.queue →
      (∀ k, (((S.dispatches q.queue.length q).take k).map ScheduleDecision.budget).sum ≤
        ((order.take k).map Request.totalBytes).sum) ∧
      totalWait ScheduleDecision.budget (S.dispatches q.queue.length q) ≤
        totalWait Request.totalBytes order ∧
      (totalWait Request.totalBytes order =
          totalWait ScheduleDecision.budget (S.dispatches q.queue.length q) ↔
        order.Pairwise fun a b => a.totalBytes ≤ b.totalBytes) := by
  obtain ⟨popped, hdrains⟩ := drains_exists q
  have hsorts := hdrains.selects.stablySorts
  have hperm := hsorts.perm
  have hsorted : popped.Pairwise fun a b => a.totalBytes ≤ b.totalBytes := by
    refine hsorts.ascending.imp fun hle => ?_
    rcases Prod.Lex.toLex_le_toLex.mp hle with hlt | ⟨heq, -⟩
    · exact hlt.le
    · exact heq.le
  have hdispatches := S.dispatches_sjf hsjf hdrains
  have hbudget : popped.map (fun r => r.totalBytes - r.offset) = popped.map Request.totalBytes := by
    refine List.map_congr_left fun r hr => ?_
    rw [hfresh r (hperm.subset hr), Nat.sub_zero]
  have htaken : ∀ k, ((S.dispatches q.queue.length q).take k).map ScheduleDecision.budget =
      (popped.take k).map Request.totalBytes := by
    intro k
    rw [hdispatches, List.map_take, List.map_map, List.map_take, ← hbudget]
    rfl
  have hwait : totalWait ScheduleDecision.budget (S.dispatches q.queue.length q) =
      totalWait Request.totalBytes popped := by
    have hall := htaken q.queue.length
    have hlength : (S.dispatches q.queue.length q).length = q.queue.length := by
      rw [hdispatches, List.length_map, hperm.length_eq]
    rw [List.take_of_length_le hlength.le, List.take_of_length_le hperm.length_eq.le] at hall
    exact totalWait_congr hall
  constructor
  · rw [hdispatches, List.map_map]
    exact (List.map_id popped).symm ▸ hperm
  intro order horder
  have hsame := horder.trans hperm.symm
  refine ⟨fun k => ?_, ?_, fun heq => ?_, fun hascending => ?_⟩
  · rw [htaken]
    exact take_sum_le hsorted hsame k
  · rw [hwait]
    exact totalWait_le hsorted hsame
  · exact ascending_of_totalWait_le hsorted hsame (heq.trans hwait).le
  · rw [hwait]
    exact le_antisymm (totalWait_le hascending hsame.symm) (totalWait_le hsorted hsame)

end LinkScheduling
