import Mathlib.Data.List.Basic
import Mathlib.Order.WellFounded

/-!
# Interaction programs and their contracts

A program of a thread is a tree: it either returns or performs a call and
continues with the answer. The tree says nothing about who answers, so one
program serves every interleaving: the other threads are part of the answers.

A contract fixes what the program owes before each call, what it may assume
of the answers, and a ghost state that follows the calls. `Prog.wp` is the
weakest precondition of a program under a contract; the rules below are all
the later proofs use. Programs are inductive, so every program ends after
finitely many calls whatever the answers are (`Prog.child_wellFounded`).
-/

namespace LinkScheduling.Framework

/-- A program with calls `E`, answered by `R`, that returns an `α`. -/
inductive Prog (E : Type) (R : E → Type) (α : Type) : Type where
  | ret (a : α)
  | call (e : E) (k : R e → Prog E R α)

/-- A call together with the answer it got. -/
structure Event (E : Type) (R : E → Type) where
  eff : E
  res : R eff

namespace Prog

variable {E : Type} {R : E → Type} {α β : Type}

def bind : Prog E R α → (α → Prog E R β) → Prog E R β
  | .ret a, f => f a
  | .call e k, f => .call e (fun r => (k r).bind f)

instance : Monad (Prog E R) where
  pure := .ret
  bind := bind

/-- The program that performs one call and returns its answer. -/
def perform (e : E) : Prog E R (R e) := .call e .ret

/-- `q` is what is left of `p` after its first call was answered. -/
def Child (q p : Prog E R α) : Prop := ∃ e k r, p = .call e k ∧ q = k r

theorem child_wellFounded : WellFounded (@Child E R α) := by
  refine ⟨fun p => ?_⟩
  induction p with
  | ret a =>
      refine ⟨_, ?_⟩
      rintro q ⟨e, k, r, h, -⟩
      cases h
  | call e k ih =>
      refine ⟨_, ?_⟩
      rintro q ⟨e', k', r, h, rfl⟩
      cases h
      exact ih r

end Prog

/-- What a program owes before a call, what it may assume of the answer, and
how a ghost state follows. -/
structure Contract (E : Type) (R : E → Type) (G : Type) where
  guarantee : G → E → Prop
  rely : G → (e : E) → R e → Prop
  next : G → (e : E) → R e → G

namespace Prog

variable {E : Type} {R : E → Type} {α β G : Type} (C : Contract E R G)

/-- Every call of `p` keeps the guarantee and, as long as the answers keep
the rely, `p` ends with `Q`. -/
def wp : Prog E R α → (α → G → Prop) → G → Prop
  | .ret a, Q, g => Q a g
  | .call e k, Q, g =>
      C.guarantee g e ∧ ∀ r, C.rely g e r → (k r).wp Q (C.next g e r)

/-- The next call of a program, if it makes one, keeps the guarantee. -/
def Owes : Prog E R α → G → Prop
  | .ret _, _ => True
  | .call e _, g => C.guarantee g e

variable {C}

theorem wp.owes {p : Prog E R α} {Q : α → G → Prop} {g : G} (h : p.wp C Q g) : p.Owes C g := by
  cases p with
  | ret a => trivial
  | call e k => exact h.1

@[simp] theorem wp_ret {a : α} {Q : α → G → Prop} {g : G} :
    (Prog.ret a : Prog E R α).wp C Q g ↔ Q a g := Iff.rfl

@[simp] theorem wp_pure {a : α} {Q : α → G → Prop} {g : G} :
    (pure a : Prog E R α).wp C Q g ↔ Q a g := Iff.rfl

theorem wp_call {e : E} {k : R e → Prog E R α} {Q : α → G → Prop} {g : G} :
    (Prog.call e k).wp C Q g ↔
      C.guarantee g e ∧ ∀ r, C.rely g e r → (k r).wp C Q (C.next g e r) :=
  Iff.rfl

@[simp] theorem wp_perform {e : E} {Q : R e → G → Prop} {g : G} :
    (perform e : Prog E R (R e)).wp C Q g ↔
      C.guarantee g e ∧ ∀ r, C.rely g e r → Q r (C.next g e r) :=
  Iff.rfl

/-- Sequential composition. -/
@[simp] theorem wp_bind {p : Prog E R α} {f : α → Prog E R β}
    {Q : β → G → Prop} {g : G} :
    (p >>= f).wp C Q g ↔ p.wp C (fun a g' => (f a).wp C Q g') g := by
  change (p.bind f).wp C Q g ↔ _
  induction p generalizing g with
  | ret a => exact Iff.rfl
  | call e k ih =>
      simp only [bind, wp_call]
      exact and_congr_right fun _ => forall_congr' fun r => imp_congr_right fun _ => ih r

/-- Consequence: the postcondition may be weakened. -/
theorem wp_mono {p : Prog E R α} {Q Q' : α → G → Prop} {g : G}
    (h : p.wp C Q g) (hQ : ∀ a g', Q a g' → Q' a g') : p.wp C Q' g := by
  induction p generalizing g with
  | ret a => exact hQ a g h
  | call e k ih => exact ⟨h.1, fun r hr => ih r (h.2 r hr)⟩

/-- Two postconditions may be proved separately. -/
theorem wp_and {p : Prog E R α} {Q Q' : α → G → Prop} {g : G} (h : p.wp C Q g)
    (h' : p.wp C Q' g) : p.wp C (fun a g' => Q a g' ∧ Q' a g') g := by
  induction p generalizing g with
  | ret a => exact ⟨h, h'⟩
  | call e k ih => exact ⟨h.1, fun r hr => ih r (h.2 r hr) (h'.2 r hr)⟩

/-- Whatever the answers are, all calls of `p` satisfy `P` and its result
satisfies `Q`. -/
def Only (P : E → Prop) : Prog E R α → (α → Prop) → Prop
  | .ret a, Q => Q a
  | .call e k, Q => P e ∧ ∀ r, (k r).Only P Q

section Only

variable {P P' : E → Prop}

@[simp] theorem only_ret {a : α} {Q : α → Prop} :
    (Prog.ret a : Prog E R α).Only P Q ↔ Q a := Iff.rfl

@[simp] theorem only_pure {a : α} {Q : α → Prop} :
    (pure a : Prog E R α).Only P Q ↔ Q a := Iff.rfl

@[simp] theorem only_perform {e : E} {Q : R e → Prop} :
    (perform e : Prog E R (R e)).Only P Q ↔ P e ∧ ∀ r, Q r := Iff.rfl

@[simp] theorem only_bind {p : Prog E R α} {f : α → Prog E R β} {Q : β → Prop} :
    (p >>= f).Only P Q ↔ p.Only P (fun a => (f a).Only P Q) := by
  change (p.bind f).Only P Q ↔ _
  induction p with
  | ret a => exact Iff.rfl
  | call e k ih => exact and_congr_right fun _ => forall_congr' fun r => ih r

theorem Only.mono {p : Prog E R α} {Q Q' : α → Prop} (h : p.Only P Q)
    (hP : ∀ e, P e → P' e) (hQ : ∀ a, Q a → Q' a) : p.Only P' Q' := by
  induction p with
  | ret a => exact hQ a h
  | call e k ih => exact ⟨hP e h.1, fun r => ih r (h.2 r)⟩

/-- A program whose calls all leave the ghost state alone. -/
theorem Only.wp {p : Prog E R α} {Q : α → Prop} {g : G} (h : p.Only P Q)
    (hg : ∀ e, P e → C.guarantee g e) (hn : ∀ e r, P e → C.next g e r = g) :
    p.wp C (fun a g' => Q a ∧ g' = g) g := by
  induction p with
  | ret a => exact ⟨h, rfl⟩
  | call e k ih =>
      refine ⟨hg e h.1, fun r _ => ?_⟩
      rw [hn e r h.1]
      exact ih r (h.2 r)

/-- What every call of the footprint keeps holds to the end. -/
theorem Only.wp_inv {p : Prog E R α} {Q : α → Prop} {I : G → Prop} {g : G} (h : p.Only P Q)
    (hg : ∀ g e, I g → P e → C.guarantee g e) (hn : ∀ g e r, I g → P e → I (C.next g e r))
    (hI : I g) : p.wp C (fun a g' => Q a ∧ I g') g := by
  induction p generalizing g with
  | ret a => exact ⟨h, hI⟩
  | call e k ih => exact ⟨hg g e hI h.1, fun r _ => ih r (h.2 r) (hn g e r hI h.1)⟩

/-- What holds whatever the answers are may be added to every postcondition. -/
theorem Only.wp_and {p : Prog E R α} {Q : α → Prop} {Q' : α → G → Prop} {g : G}
    (h : p.Only P Q) (h' : p.wp C Q' g) : p.wp C (fun a g' => Q a ∧ Q' a g') g := by
  induction p generalizing g with
  | ret a => exact ⟨h, h'⟩
  | call e k ih => exact ⟨h'.1, fun r hr => ih r (h.2 r) (h'.2 r hr)⟩

/-- What holds under one contract holds under another that treats the calls of the footprint
alike. -/
theorem Only.wp_transfer {C' : Contract E R G} {p : Prog E R α} {Q : α → Prop}
    {Q' : α → G → Prop} {g : G} (h : p.Only P Q) (hwp : p.wp C Q' g)
    (hguarantee : ∀ g e, P e → C'.guarantee g e)
    (hrely : ∀ g e r, P e → C'.rely g e r → C.rely g e r)
    (hnext : ∀ g e r, P e → C'.next g e r = C.next g e r) : p.wp C' Q' g := by
  induction p generalizing g with
  | ret a => exact hwp
  | call e k ih =>
      refine ⟨hguarantee g e h.1, fun r hr => ?_⟩
      rw [hnext g e r h.1]
      exact ih r (h.2 r) (hwp.2 r (hrely g e r h.1 hr))

/-- `Only` is the weakest precondition under a contract that asks for `P`. -/
theorem only_iff_wp {p : Prog E R α} {Q : α → Prop} :
    p.Only P Q ↔ p.wp ⟨fun (_ : Unit) e => P e, fun _ _ _ => True, fun _ _ _ => ()⟩
      (fun a _ => Q a) () := by
  induction p with
  | ret a => exact Iff.rfl
  | call e k ih =>
      exact and_congr_right fun _ => forall_congr' fun r =>
        ⟨fun h _ => (ih r).mp h, fun h => (ih r).mpr (h trivial)⟩

end Only

/-! ## Paths of a program -/

/-- `p` may make the calls of `log`, get the answers of `log`, and then be at `q`. -/
inductive Steps : Prog E R α → List (Event E R) → Prog E R α → Prop
  | refl (p : Prog E R α) : Steps p [] p
  | call {e : E} {k : R e → Prog E R α} {log : List (Event E R)} {q : Prog E R α} (r : R e) :
      Steps (k r) log q → Steps (.call e k) (⟨e, r⟩ :: log) q

namespace Steps

theorem trans {p q r : Prog E R α} {log log' : List (Event E R)} (h : Steps p log q)
    (h' : Steps q log' r) : Steps p (log ++ log') r := by
  induction h with
  | refl => exact h'
  | call res _ ih => exact .call res (ih h')

theorem bind {p q : Prog E R α} {log : List (Event E R)} (h : Steps p log q)
    (f : α → Prog E R β) : Steps (p >>= f) log (q >>= f) := by
  induction h with
  | refl => exact .refl _
  | call res _ ih => exact .call res ih

/-- Along a path whose answers keep the rely, the rest of the program is still correct. -/
theorem wp {p q : Prog E R α} {log : List (Event E R)} {Q : α → G → Prop} {g : G}
    (h : Steps p log q) (hp : p.wp C Q g)
    (hrely : ∀ g, ∀ event ∈ log, C.rely g event.eff event.res) :
    q.wp C Q (log.foldl (fun g event => C.next g event.eff event.res) g) := by
  induction h generalizing g with
  | refl => exact hp
  | call res _ ih =>
      refine ih (hp.2 res (hrely g _ List.mem_cons_self)) fun g event hmem => ?_
      exact hrely g event (List.mem_cons_of_mem _ hmem)

/-- The answers of a path keep the rely of `C`, from the ghost state `g` on. -/
def Keeps (C : Contract E R G) : G → List (Event E R) → Prop
  | _, [] => True
  | g, event :: log => C.rely g event.eff event.res ∧ Keeps C (C.next g event.eff event.res) log

/-- What a path makes of the ghost state. -/
def after (C : Contract E R G) (g : G) (log : List (Event E R)) : G :=
  log.foldl (fun g event => C.next g event.eff event.res) g

/-- Along a path whose answers keep the rely, the rest is correct from the ghost state
the path leads to. -/
theorem wp_after {p q : Prog E R α} {log : List (Event E R)} {Q : α → G → Prop} {g : G}
    (h : Steps p log q) (hp : p.wp C Q g) (hlog : Keeps C g log) : q.wp C Q (after C g log) := by
  induction h generalizing g with
  | refl => exact hp
  | call res _ ih => exact ih (hp.2 res hlog.1) hlog.2

/-- A path to the end whose answers keep the rely ends as the program is correct. -/
theorem wp_keeps {p : Prog E R α} {a : α} {log : List (Event E R)} {Q : α → G → Prop} {g : G}
    (h : Steps p log (.ret a)) (hp : p.wp C Q g) (hlog : Keeps C g log) : Q a (after C g log) :=
  h.wp_after hp hlog

/-- What every call that keeps the guarantee preserves holds along such a path. -/
theorem inv_after {p q : Prog E R α} {log : List (Event E R)} {Q : α → G → Prop} {I : G → Prop}
    {g : G} (h : Steps p log q) (hp : p.wp C Q g) (hlog : Keeps C g log)
    (hI : ∀ g e r, C.guarantee g e → C.rely g e r → I g → I (C.next g e r)) (hg : I g) :
    I (after C g log) := by
  induction h generalizing g with
  | refl => exact hg
  | call res _ ih => exact ih (hp.2 res hlog.1) hlog.2 (hI _ _ res hp.1 hlog.1 hg)

/-- Some path goes on to the end of the program, or to a call without an answer that
keeps the rely. -/
theorem exists_last (C : Contract E R G) (p : Prog E R α) (g : G) :
    ∃ log q, Steps p log q ∧ Keeps C g log ∧
      ((∃ a, q = .ret a) ∨ ∃ e k, q = .call e k ∧ ∀ r, ¬ C.rely (after C g log) e r) := by
  induction p generalizing g with
  | ret a => exact ⟨[], .ret a, .refl _, trivial, Or.inl ⟨a, rfl⟩⟩
  | call e k ih =>
      by_cases hr : ∃ r, C.rely g e r
      · obtain ⟨r, hr⟩ := hr
        obtain ⟨log, q, hsteps, hlog, hq⟩ := ih r (C.next g e r)
        exact ⟨⟨e, r⟩ :: log, q, .call r hsteps, ⟨hr, hlog⟩, hq⟩
      · exact ⟨[], .call e k, .refl _, trivial, Or.inr ⟨e, k, rfl, not_exists.mp hr⟩⟩

/-- Where every call has an answer that keeps the rely, the program has such a path. -/
theorem exists_keeps (I : G → Prop) (hok : ∀ g e, I g → ∃ r, C.rely g e r ∧ I (C.next g e r))
    (p : Prog E R α) {g : G} (hg : I g) : ∃ log a, Steps p log (.ret a) ∧ Keeps C g log := by
  induction p generalizing g with
  | ret a => exact ⟨[], a, .refl _, trivial⟩
  | call e k ih =>
      obtain ⟨r, hr, hnext⟩ := hok g e hg
      obtain ⟨log, a, hsteps, hlog⟩ := ih r hnext
      exact ⟨⟨e, r⟩ :: log, a, .call r hsteps, hr, hlog⟩

/-- A program ends when every call may be answered. -/
theorem exists_ret (ok : Event E R → Prop) (hok : ∀ e, ∃ r, ok ⟨e, r⟩) (p : Prog E R α) :
    ∃ log a, Steps p log (.ret a) ∧ ∀ event ∈ log, ok event := by
  induction p with
  | ret a => exact ⟨[], a, .refl _, by simp⟩
  | call e k ih =>
      obtain ⟨r, hr⟩ := hok e
      obtain ⟨log, a, hsteps, hlog⟩ := ih r
      exact ⟨⟨e, r⟩ :: log, a, .call r hsteps, List.forall_mem_cons.mpr ⟨hr, hlog⟩⟩

end Steps

/-! ## Programs over fewer calls -/

section Embed

variable {E' : Type} {R' : E' → Type}

/-- A program that performs its call `e` as `f e`. -/
def embed (f : E → E') : Prog E (fun e => R' (f e)) α → Prog E' R' α
  | .ret a => .ret a
  | .call e k => .call (f e) fun r => (k r).embed f

end Embed

end Prog

/-- The contract as a program sees it that performs only the calls `f e`. -/
def Contract.restrict {E E' : Type} {R' : E' → Type} {G : Type} (C : Contract E' R' G)
    (f : E → E') : Contract E (fun e => R' (f e)) G where
  guarantee g e := C.guarantee g (f e)
  rely g e r := C.rely g (f e) r
  next g e r := C.next g (f e) r

/-- An embedded program is correct as it is under the restricted contract. -/
theorem Prog.wp_embed {E E' : Type} {R' : E' → Type} {α G : Type} {C : Contract E' R' G}
    {f : E → E'} {p : Prog E (fun e => R' (f e)) α} {Q : α → G → Prop} {g : G} :
    (p.embed f).wp C Q g ↔ p.wp (C.restrict f) Q g := by
  induction p generalizing g with
  | ret a => exact Iff.rfl
  | call e k ih =>
      exact and_congr_right fun _ => forall_congr' fun r => imp_congr_right fun _ => ih r

/-! ## Computations that may fail -/

section Except

variable {ε α β : Type}

theorem except_ok_bind (a : α) (f : α → Except ε β) : (.ok a : Except ε α) >>= f = f a := rfl

theorem except_bind_eq_ok {x : Except ε α} {f : α → Except ε β} {b : β} :
    x >>= f = .ok b ↔ ∃ a, x = .ok a ∧ f a = .ok b := by
  cases x with
  | error e =>
      constructor
      · intro h
        cases h
      · rintro ⟨a, h, -⟩
        cases h
  | ok a =>
      constructor
      · exact fun h => ⟨a, rfl, h⟩
      · rintro ⟨a', h, hf⟩
        cases h
        exact hf

/-- A computation fails where its first part does, or after it. -/
theorem except_bind_eq_error {x : Except ε α} {f : α → Except ε β} {e : ε}
    (h : x >>= f = .error e) : x = .error e ∨ ∃ a, x = .ok a ∧ f a = .error e := by
  cases x with
  | error e' =>
      cases h
      exact Or.inl rfl
  | ok a => exact Or.inr ⟨a, rfl, h⟩

theorem except_ite_error {c : Prop} [Decidable c] {e : ε} {x : Except ε α} {a : α} :
    (if c then .error e else x) = .ok a ↔ ¬ c ∧ x = .ok a := by
  split
  · rename_i hc
    simp [hc]
  · rename_i hc
    simp [hc]

end Except

end LinkScheduling.Framework
