import LinkScheduling.Config.Execution
import LinkScheduling.Config.Language

/-!
# The parser stays inside the text

`watch text` is what the parser owes at each access: the text is touched only where there
is text, `pos_` only grows and never passes the end, a member function called inside a call
of itself starts further on than that call did, and so does each pass of a loop. The ghost
state is the cursor and the calls that have not returned.

**Each call of a member function keeps this and gives the stack of calls back as it was**,
with the cursor moved. That is one lemma for each function; the mutual recursion is one
induction on the fuel, which is three units for each byte that is left.
-/

namespace LinkScheduling

open Framework

namespace Json.Parser

/-! ## What the parser owes -/

/-- A call that has not returned: where the cursor was when it was entered, and at the
last pass of its loops. -/
structure Frame where
  routine : Routine
  entry : ℕ
  last : Option ℕ

/-- The cursor, and the calls that have not returned, the innermost first. -/
structure State where
  pos : ℕ
  frames : List Frame

def start : State := ⟨0, []⟩

/-- A call of `routine` with the cursor at `pos` is further on than the calls of `routine`
it is made in. -/
def Fresh (routine : Routine) (pos : ℕ) (frames : List Frame) : Prop :=
  ∀ f ∈ frames, f.routine = routine → f.entry < pos

/-- Only `skip_ws` may leave the cursor where it was. -/
def Allowed (text : Bytes) (t : State) : Access → Prop
  | .read pos => pos = t.pos ∧ pos < text.length
  | .compare pos _ _ => pos = t.pos ∧ pos ≤ text.length
  | .substr pos _ => pos ≤ text.length
  | .move pos => t.pos < pos ∧ pos ≤ text.length
  | .enter routine pos => pos = t.pos ∧ Fresh routine pos t.frames
  | .leave routine pos => pos = t.pos ∧ ∃ f rest, t.frames = f :: rest ∧ f.routine = routine ∧
      (routine ≠ .skipWs → f.entry < pos)
  | .iterate pos => pos = t.pos ∧ ∃ f rest, t.frames = f :: rest ∧ ∀ p ∈ f.last, p < pos
  | .fail => True
  | .outOfFuel => False

/-- The text is the one that is parsed. -/
def Answers (text : Bytes) : (e : Access) → Answer e → Prop
  | .read pos, c => text[pos]? = some c
  | .compare pos len literal, equal => equal = decide ((text.drop pos).take len = literal)
  | .substr pos len, token => token = (text.drop pos).take len
  | _, _ => True

def follow (t : State) : Access → State
  | .move pos => { t with pos := pos }
  | .enter routine pos => { t with frames := ⟨routine, pos, none⟩ :: t.frames }
  | .leave _ _ => { t with frames := t.frames.tail }
  | .iterate pos => { t with frames := t.frames.modifyHead fun f => { f with last := some pos } }
  | _ => t

def watch (text : Bytes) : Contract Access Answer State where
  guarantee := Allowed text
  rely _ := Answers text
  next t e _ := follow t e

section Rules

variable {α : Type} {text : Bytes} {pos : ℕ} {frames : List Frame} {r : Routine} {entry : ℕ}
  {last : Option ℕ}

/-! ## One access -/

theorem wp_read {Q : UInt8 → State → Prop} (h : pos < text.length)
    (hQ : Q text[pos] ⟨pos, frames⟩) : (read pos).wp (watch text) Q ⟨pos, frames⟩ := by
  refine Prog.wp_perform.mpr ⟨⟨rfl, h⟩, fun c hc => ?_⟩
  have hc : some text[pos] = some c := (List.getElem?_eq_getElem h).symm.trans hc
  cases hc
  exact hQ

theorem wp_compare {Q : Bool → State → Prop} {len : ℕ} {literal : Bytes} (h : pos ≤ text.length)
    (hQ : Q (decide ((text.drop pos).take len = literal)) ⟨pos, frames⟩) :
    (compare pos len literal).wp (watch text) Q ⟨pos, frames⟩ := by
  refine Prog.wp_perform.mpr ⟨⟨rfl, h⟩, fun equal hequal => ?_⟩
  have hequal : equal = decide ((text.drop pos).take len = literal) := hequal
  exact hequal ▸ hQ

theorem wp_substr {Q : Bytes → State → Prop} {p len : ℕ} (h : p ≤ text.length)
    (hQ : ∀ token, Q token ⟨pos, frames⟩) :
    (substr p len).wp (watch text) Q ⟨pos, frames⟩ :=
  Prog.wp_perform.mpr ⟨h, fun token _ => hQ token⟩

theorem wp_move {Q : Unit → State → Prop} {pos' : ℕ} (hlt : pos < pos')
    (hle : pos' ≤ text.length) (hQ : Q () ⟨pos', frames⟩) :
    (move pos').wp (watch text) Q ⟨pos, frames⟩ :=
  Prog.wp_perform.mpr ⟨⟨hlt, hle⟩, fun _ _ => hQ⟩

theorem wp_enter {Q : Unit → State → Prop} (h : Fresh r pos frames)
    (hQ : Q () ⟨pos, ⟨r, pos, none⟩ :: frames⟩) :
    (enter r pos).wp (watch text) Q ⟨pos, frames⟩ :=
  Prog.wp_perform.mpr ⟨⟨rfl, h⟩, fun _ _ => hQ⟩

theorem wp_leave {Q : Unit → State → Prop} (h : r ≠ .skipWs → entry < pos)
    (hQ : Q () ⟨pos, frames⟩) :
    (leave r pos).wp (watch text) Q ⟨pos, ⟨r, entry, last⟩ :: frames⟩ :=
  Prog.wp_perform.mpr ⟨⟨rfl, _, _, rfl, rfl, h⟩, fun _ _ => hQ⟩

theorem wp_iterate {Q : Unit → State → Prop} (h : ∀ p ∈ last, p < pos)
    (hQ : Q () ⟨pos, ⟨r, entry, some pos⟩ :: frames⟩) :
    (iterate pos).wp (watch text) Q ⟨pos, ⟨r, entry, last⟩ :: frames⟩ :=
  Prog.wp_perform.mpr ⟨⟨rfl, _, _, rfl, h⟩, fun _ _ => hQ⟩

theorem wp_fail {Q : α → State → Prop} {t : State} :
    (fail : Scan α).wp (watch text) Q t :=
  ⟨trivial, fun r => r.elim⟩

/-! ## The cursor -/

theorem lt_of_isAt {p : UInt8 → Bool} (h : isAt p text pos = true) : pos < text.length := by
  unfold isAt at h
  split at h
  · rename_i hlt
    exact hlt
  · cases h

/-- A guarded read is answered as the text is, and is made inside it. -/
theorem wp_test {Q : Bool → State → Prop} {p : UInt8 → Bool}
    (hQ : Q (isAt p text pos) ⟨pos, frames⟩) :
    (test text.length p pos).wp (watch text) Q ⟨pos, frames⟩ := by
  unfold test
  by_cases h : pos < text.length
  · rw [if_pos h, Prog.wp_bind]
    apply wp_read h
    rw [isAt, dif_pos h] at hQ
    exact hQ
  · rw [if_neg h]
    rw [isAt, dif_neg h] at hQ
    exact hQ

/-! ## The stack of calls -/

def Routine.isCompound : Routine → Bool
  | .value | .object | .array => true
  | _ => false

/-- The calls that have not returned are of the mutually recursive functions and were
entered before `n`. -/
def Nested (n : ℕ) (frames : List Frame) : Prop :=
  ∀ f ∈ frames, f.routine.isCompound = true ∧ f.entry < n

theorem Nested.mono {n m : ℕ} (h : Nested n frames) (hle : n ≤ m) : Nested m frames :=
  fun f hf => ⟨(h f hf).1, (h f hf).2.trans_le hle⟩

theorem Nested.cons {n : ℕ} (h : Nested n frames) (hr : r.isCompound = true) (hn : entry < n) :
    Nested n (⟨r, entry, last⟩ :: frames) := by
  intro f hf
  rcases List.mem_cons.mp hf with rfl | hf
  · exact ⟨hr, hn⟩
  · exact h f hf

theorem Nested.fresh (h : Nested pos frames) : Fresh r pos frames :=
  fun f hf _ => (h f hf).2

/-- The other functions are never called inside a call of themselves. -/
theorem Nested.fresh_leaf {n : ℕ} (h : Nested n frames) (hr : r.isCompound = false) :
    Fresh r pos frames := by
  intro f hf heq
  have hcompound := (h f hf).1
  rw [heq, hr] at hcompound
  cases hcompound

theorem Fresh.cons {r' : Routine} (h : Fresh r pos frames) (hne : r' ≠ r) :
    Fresh r pos (⟨r', entry, last⟩ :: frames) := by
  intro f hf heq
  rcases List.mem_cons.mp hf with rfl | hf
  · exact absurd heq hne
  · exact h f hf heq

/-- The cursor is left at `p`, which is not before `lo`, with the stack `frames`. -/
structure Moved (text : Bytes) (lo : ℕ) (frames : List Frame) (p : ℕ) (t : State) : Prop where
  state : t = ⟨p, frames⟩
  lo_le : lo ≤ p
  le : p ≤ text.length

/-- The same inside a call that may have begun passes of a loop. -/
def MovedOn (text : Bytes) (lo : ℕ) (r : Routine) (entry : ℕ) (frames : List Frame) (p : ℕ)
    (t : State) : Prop :=
  ∃ last, (∀ q ∈ last, q < p) ∧ Moved text lo (⟨r, entry, last⟩ :: frames) p t

theorem Moved.mono {lo lo' p : ℕ} {t : State} (h : Moved text lo frames p t) (hle : lo' ≤ lo) :
    Moved text lo' frames p t :=
  ⟨h.state, hle.trans h.lo_le, h.le⟩

theorem MovedOn.mono {lo lo' p : ℕ} {t : State} (h : MovedOn text lo r entry frames p t)
    (hle : lo' ≤ lo) : MovedOn text lo' r entry frames p t := by
  obtain ⟨last, hlast, hmoved⟩ := h
  exact ⟨last, hlast, hmoved.mono hle⟩

theorem lt_of_last {p : ℕ} (hlast : ∀ q ∈ last, q < pos) (hle : pos ≤ p) : ∀ q ∈ last, q < p :=
  fun q hq => (hlast q hq).trans_le hle

/-- Behind the start of the pass that is running. -/
theorem lt_of_pass {p : ℕ} (hlt : pos < p) : ∀ q ∈ some pos, q < p := by
  rintro q ⟨⟩
  exact hlt

/-- **A call of a member function** that moves the cursor, if its body does. -/
theorem wp_called {body : Scan (α × ℕ)} (hfresh : Fresh r pos frames)
    (hbody : body.wp (watch text) (fun a => MovedOn text (pos + 1) r pos frames a.2)
      ⟨pos, ⟨r, pos, none⟩ :: frames⟩) :
    (called r pos body).wp (watch text) (fun a => Moved text (pos + 1) frames a.2)
      ⟨pos, frames⟩ := by
  simp only [called, Prog.wp_bind]
  apply wp_enter hfresh
  refine Prog.wp_mono hbody ?_
  rintro ⟨a, p⟩ _ ⟨last, -, rfl, hlo, hle⟩
  exact wp_leave (fun _ => hlo) ⟨rfl, hlo, hle⟩

/-! ## The cursor's loops -/

/-- Each pass of the loop moves the cursor; the passes end with the text. -/
theorem wp_skipLoop (p : UInt8 → Bool) : ∀ (fuel pos : ℕ) (last : Option ℕ),
    text.length < pos + fuel → pos ≤ text.length → (∀ q ∈ last, q < pos) →
      (skipLoop text.length p fuel pos).wp (watch text)
        (MovedOn text (if isAt p text pos then pos + 1 else pos) r entry frames)
        ⟨pos, ⟨r, entry, last⟩ :: frames⟩ := by
  intro fuel
  induction fuel with
  | zero =>
      intro pos last hfuel hle
      omega
  | succ fuel ih =>
      intro pos last hfuel hle hlast
      rw [skipLoop, Prog.wp_bind]
      apply wp_test
      cases hp : isAt p text pos with
      | false => exact ⟨last, hlast, rfl, le_rfl, hle⟩
      | true =>
          have hlt := lt_of_isAt hp
          simp only [↓reduceIte, Prog.wp_bind]
          apply wp_iterate hlast
          apply wp_move (Nat.lt_succ_self pos) hlt
          refine Prog.wp_mono (ih (pos + 1) (some pos) (by omega) hlt
            (lt_of_pass (Nat.lt_succ_self pos))) fun _ _ h => h.mono ?_
          split
          · exact Nat.le_succ _
          · exact le_rfl

theorem wp_skipWhile (p : UInt8 → Bool) (hle : pos ≤ text.length) (hlast : ∀ q ∈ last, q < pos) :
    (skipWhile text.length p pos).wp (watch text)
      (MovedOn text (if isAt p text pos then pos + 1 else pos) r entry frames)
      ⟨pos, ⟨r, entry, last⟩ :: frames⟩ :=
  wp_skipLoop p _ pos last (by omega) hle hlast

theorem wp_skipWs (hfresh : Fresh .skipWs pos frames) (hle : pos ≤ text.length) :
    (skipWs text.length pos).wp (watch text) (Moved text pos frames) ⟨pos, frames⟩ := by
  simp only [skipWs, Prog.wp_bind]
  apply wp_enter hfresh
  refine Prog.wp_mono (wp_skipWhile isspace hle (by simp)) ?_
  rintro p _ ⟨last, -, rfl, hlo, hle⟩
  have hlo : pos ≤ p := by
    split at hlo
    · exact (Nat.le_succ pos).trans hlo
    · exact hlo
  exact wp_leave (fun h => absurd rfl h) ⟨rfl, hlo, hle⟩

theorem wp_consume {c : UInt8} (hfresh : Fresh .skipWs pos frames) (hle : pos ≤ text.length) :
    (consume text.length c pos).wp (watch text)
      (fun a => Moved text (if a.1 then pos + 1 else pos) frames a.2) ⟨pos, frames⟩ := by
  simp only [consume, Prog.wp_bind]
  refine Prog.wp_mono (wp_skipWs hfresh hle) ?_
  rintro p _ ⟨rfl, hlo, hle⟩
  apply wp_test
  cases hc : isAt (· = c) text p with
  | false => exact ⟨rfl, hlo, hle⟩
  | true =>
      have hlt := lt_of_isAt hc
      simp only [↓reduceIte, Prog.wp_bind]
      exact wp_move (Nat.lt_succ_self p) hlt ⟨rfl, Nat.succ_le_succ hlo, hlt⟩

/-- What `peek` returns stands in the text. -/
theorem wp_peek (hfresh : Fresh .skipWs pos frames) (hle : pos ≤ text.length) :
    (peek text.length pos).wp (watch text)
      (fun a t => Moved text pos frames a.2 t ∧ a.2 < text.length) ⟨pos, frames⟩ := by
  simp only [peek, Prog.wp_bind]
  refine Prog.wp_mono (wp_skipWs hfresh hle) ?_
  rintro p _ ⟨rfl, hlo, hle⟩
  by_cases h : text.length ≤ p
  · rw [if_pos h]
    exact wp_fail
  · rw [if_neg h, Prog.wp_bind]
    exact wp_read (Nat.lt_of_not_le h) ⟨⟨rfl, hlo, hle⟩, Nat.lt_of_not_le h⟩

/-! ## Strings -/

/-- A pass takes one byte, two or six. -/
theorem wp_stringLoop : ∀ (fuel pos : ℕ) (str : Bytes) (last : Option ℕ),
    text.length < pos + fuel → pos ≤ text.length → (∀ q ∈ last, q < pos) →
      (stringLoop text.length fuel pos str).wp (watch text)
        (fun a => MovedOn text pos r entry frames a.2) ⟨pos, ⟨r, entry, last⟩ :: frames⟩ := by
  intro fuel
  induction fuel with
  | zero =>
      intro pos str last hfuel hle
      omega
  | succ fuel ih =>
      intro pos str last hfuel hle hlast
      -- another pass, with the cursor at `p`
      have again : ∀ (p : ℕ) (str : Bytes), pos < p → p ≤ text.length →
          (stringLoop text.length fuel p str).wp (watch text)
            (fun a => MovedOn text pos r entry frames a.2)
            ⟨p, ⟨r, entry, some pos⟩ :: frames⟩ := by
        intro p str hlt hp
        have hloop := ih p str (some pos) (by omega) hp (lt_of_pass hlt)
        exact Prog.wp_mono hloop fun _ _ h => h.mono hlt.le
      rw [stringLoop]
      by_cases hpos : pos < text.length
      · rw [if_pos hpos]
        simp only [Prog.wp_bind]
        apply wp_iterate hlast
        apply wp_read hpos
        apply wp_move (Nat.lt_succ_self pos) hpos
        split
        · exact ⟨some pos, lt_of_pass (Nat.lt_succ_self pos), rfl, Nat.le_succ pos, hpos⟩
        split
        · split
          · exact wp_fail
          · rename_i hesc
            have hesc : pos + 1 < text.length := Nat.lt_of_not_le hesc
            rw [Prog.wp_bind]
            apply wp_read hesc
            rw [Prog.wp_bind]
            apply wp_move (Nat.lt_succ_self _) hesc
            split
            · split
              · exact wp_fail
              · rename_i hfour
                rw [Prog.wp_bind]
                apply wp_move (by omega) (Nat.le_of_not_lt hfour)
                exact again _ _ (by omega) (Nat.le_of_not_lt hfour)
            · split
              · exact again _ _ (by omega) hesc
              · exact wp_fail
        · split
          · exact wp_fail
          · exact again _ _ (Nat.lt_succ_self pos) hpos
      · rw [if_neg hpos]
        exact wp_fail

theorem wp_parseString {n : ℕ} (hframes : Nested n frames) (hle : pos ≤ text.length) :
    (parseString text.length pos).wp (watch text) (fun a => Moved text (pos + 1) frames a.2)
      ⟨pos, frames⟩ := by
  apply wp_called (hframes.fresh_leaf rfl)
  rw [Prog.wp_bind]
  refine Prog.wp_mono (wp_skipWs ((hframes.fresh_leaf rfl).cons (by decide)) hle) ?_
  rintro p _ ⟨rfl, hlo, hle⟩
  rw [Prog.wp_bind]
  apply wp_test
  cases hquote : isAt (· = 34) text p with
  | false => exact wp_fail
  | true =>
      have hlt := lt_of_isAt hquote
      simp only [↓reduceIte, Prog.wp_bind]
      apply wp_move (Nat.lt_succ_self p) hlt
      refine Prog.wp_mono (wp_stringLoop _ _ [] none (by omega) hlt (by simp)) fun _ _ h => ?_
      exact h.mono (Nat.succ_le_succ hlo)

/-! ## Numbers -/

theorem wp_skipOne {p : UInt8 → Bool} (hle : pos ≤ text.length) :
    (skipOne text.length p pos).wp (watch text) (Moved text pos frames) ⟨pos, frames⟩ := by
  rw [skipOne, Prog.wp_bind]
  apply wp_test
  cases hp : isAt p text pos with
  | false => exact ⟨rfl, le_rfl, hle⟩
  | true =>
      have hlt := lt_of_isAt hp
      simp only [↓reduceIte, Prog.wp_bind]
      exact wp_move (Nat.lt_succ_self pos) hlt ⟨rfl, Nat.le_succ pos, hlt⟩

/-- The digit that was seen is still there, so the loop over the digits moves. -/
theorem wp_digits (hdigit : isAt isdigit text pos = true) (hlast : ∀ q ∈ last, q < pos) :
    (skipWhile text.length isdigit pos).wp (watch text) (MovedOn text (pos + 1) r entry frames)
      ⟨pos, ⟨r, entry, last⟩ :: frames⟩ := by
  refine Prog.wp_mono (wp_skipWhile isdigit (lt_of_isAt hdigit).le hlast) fun _ _ h => ?_
  rwa [hdigit, if_pos rfl] at h

theorem wp_someDigits (hlast : ∀ q ∈ last, q < pos) :
    (someDigits text.length pos).wp (watch text) (MovedOn text (pos + 1) r entry frames)
      ⟨pos, ⟨r, entry, last⟩ :: frames⟩ := by
  rw [someDigits, Prog.wp_bind]
  apply wp_test
  cases hdigit : isAt isdigit text pos with
  | false => exact wp_fail
  | true => exact wp_digits hdigit hlast

theorem wp_integerPart (hle : pos ≤ text.length) (hlast : ∀ q ∈ last, q < pos) :
    (integerPart text.length pos).wp (watch text) (MovedOn text (pos + 1) r entry frames)
      ⟨pos, ⟨r, entry, last⟩ :: frames⟩ := by
  rw [integerPart, Prog.wp_bind]
  refine Prog.wp_mono (wp_skipOne hle) ?_
  rintro p _ ⟨rfl, hlo, hle⟩
  have hlast := lt_of_last hlast hlo
  rw [Prog.wp_bind]
  apply wp_test
  cases hdigit : isAt isdigit text p with
  | false => exact wp_fail
  | true =>
      have hlt := lt_of_isAt hdigit
      simp only [↓reduceIte, Prog.wp_bind]
      apply wp_read hlt
      split
      · rw [Prog.wp_bind]
        apply wp_move (Nat.lt_succ_self p) hlt
        exact ⟨last, lt_of_last hlast (Nat.le_succ p), rfl, Nat.succ_le_succ hlo, hlt⟩
      · refine Prog.wp_mono (wp_digits hdigit hlast) fun _ _ h => h.mono ?_
        exact Nat.succ_le_succ hlo

theorem wp_fractionPart (hle : pos ≤ text.length) (hlast : ∀ q ∈ last, q < pos) :
    (fractionPart text.length pos).wp (watch text) (fun a => MovedOn text pos r entry frames a.2)
      ⟨pos, ⟨r, entry, last⟩ :: frames⟩ := by
  rw [fractionPart, Prog.wp_bind]
  apply wp_test
  cases hdot : isAt (· = 46) text pos with
  | false => exact ⟨last, hlast, rfl, le_rfl, hle⟩
  | true =>
      simp only [↓reduceIte, Prog.wp_bind]
      apply wp_move (Nat.lt_succ_self pos) (lt_of_isAt hdot)
      refine Prog.wp_mono (wp_someDigits (lt_of_last hlast (Nat.le_succ pos))) fun _ _ h => ?_
      exact h.mono (Nat.le_add_right pos 2)

theorem wp_exponentPart (hle : pos ≤ text.length) (hlast : ∀ q ∈ last, q < pos) :
    (exponentPart text.length pos).wp (watch text) (fun a => MovedOn text pos r entry frames a.2)
      ⟨pos, ⟨r, entry, last⟩ :: frames⟩ := by
  rw [exponentPart, Prog.wp_bind]
  apply wp_test
  cases hexp : isAt (fun c => c = 101 || c = 69) text pos with
  | false => exact ⟨last, hlast, rfl, le_rfl, hle⟩
  | true =>
      simp only [↓reduceIte, Prog.wp_bind]
      apply wp_move (Nat.lt_succ_self pos) (lt_of_isAt hexp)
      refine Prog.wp_mono (wp_skipOne (lt_of_isAt hexp)) ?_
      rintro p _ ⟨rfl, hlo, hle⟩
      have hlo : pos ≤ p := (Nat.le_succ pos).trans hlo
      refine Prog.wp_mono (wp_someDigits (lt_of_last hlast hlo)) fun _ _ h => ?_
      exact h.mono (hlo.trans (Nat.le_succ p))

section Values

variable {D : Type} {stod : Bytes → Option D}

/-- The token starts where the cursor was, so `substr` does not throw. -/
theorem wp_parseNumber {n : ℕ} (hframes : Nested n frames) (hle : pos ≤ text.length) :
    (parseNumber text.length stod pos).wp (watch text)
      (fun a => Moved text (pos + 1) frames a.2) ⟨pos, frames⟩ := by
  apply wp_called (hframes.fresh_leaf rfl)
  simp only [Prog.wp_bind]
  refine Prog.wp_mono (wp_skipWs ((hframes.fresh_leaf rfl).cons (by decide)) hle) ?_
  rintro start _ ⟨rfl, hlo, hle⟩
  refine Prog.wp_mono (wp_integerPart hle (by simp)) ?_
  rintro p₁ _ ⟨last₁, hlast₁, rfl, hlo₁, hle₁⟩
  refine Prog.wp_mono (wp_fractionPart hle₁ hlast₁) ?_
  rintro ⟨noFraction, p₂⟩ _ ⟨last₂, hlast₂, rfl, hlo₂, hle₂⟩
  refine Prog.wp_mono (wp_exponentPart hle₂ hlast₂) ?_
  rintro ⟨noExponent, p₃⟩ _ ⟨last₃, hlast₃, rfl, hlo₃, hle₃⟩
  refine wp_substr hle fun token => ?_
  split
  · have hlo₃ : pos + 1 ≤ p₃ := (Nat.succ_le_succ hlo).trans (hlo₁.trans (hlo₂.trans hlo₃))
    exact ⟨last₃, hlast₃, rfl, hlo₃, hle₃⟩
  · exact wp_fail

/-! ## Literals -/

/-- A literal that was found is in the text. -/
theorem length_of_take {len : ℕ} {literal : Bytes} (h : (text.drop pos).take len = literal)
    (hlen : literal.length = len) (hpos : 0 < len) : pos + len ≤ text.length := by
  have hlength := congrArg List.length h
  rw [List.length_take, List.length_drop, hlen] at hlength
  omega

theorem wp_literal {len : ℕ} {literal : Bytes} {v : Json D} (hlen : literal.length = len)
    (hpos : 0 < len) (hfound : (text.drop pos).take len = literal) :
    ((do
        move (pos + len)
        return (v, pos + len)) : Scan (Json D × ℕ)).wp (watch text)
      (fun a => MovedOn text (pos + 1) r entry frames a.2)
      ⟨pos, ⟨r, entry, none⟩ :: frames⟩ := by
  have hle := length_of_take hfound hlen hpos
  rw [Prog.wp_bind]
  apply wp_move (Nat.lt_add_of_pos_right hpos) hle
  exact ⟨none, by simp, rfl, Nat.add_le_add_left hpos pos, hle⟩

theorem wp_parseBool {n : ℕ} (hframes : Nested n frames) (hle : pos ≤ text.length) :
    (parseBool pos : Scan (Json D × ℕ)).wp (watch text)
      (fun a => Moved text (pos + 1) frames a.2) ⟨pos, frames⟩ := by
  apply wp_called (hframes.fresh_leaf rfl)
  rw [Prog.wp_bind]
  apply wp_compare hle
  split
  · rename_i htrue
    exact wp_literal rfl (by decide) (of_decide_eq_true htrue)
  rw [Prog.wp_bind]
  apply wp_compare hle
  split
  · rename_i hfalse
    exact wp_literal rfl (by decide) (of_decide_eq_true hfalse)
  · exact wp_fail

theorem wp_parseNull {n : ℕ} (hframes : Nested n frames) (hle : pos ≤ text.length) :
    (parseNull pos : Scan (Json D × ℕ)).wp (watch text)
      (fun a => Moved text (pos + 1) frames a.2) ⟨pos, frames⟩ := by
  apply wp_called (hframes.fresh_leaf rfl)
  rw [Prog.wp_bind]
  apply wp_compare hle
  split
  · rename_i hnull
    exact wp_literal rfl (by decide) (of_decide_eq_true hnull)
  · exact wp_fail

/-! ## Values -/

/-- With the given fuel the mutually recursive functions keep the contract. The fuel is
three units for each byte that is left, and one or two for the calls that have not moved
the cursor yet. -/
structure Confined (stod : Bytes → Option D) (text : Bytes) (fuel : ℕ) : Prop where
  value : ∀ {pos : ℕ} {frames : List Frame}, Nested pos frames → pos ≤ text.length →
    3 * (text.length - pos) + 1 ≤ fuel →
      (parseValue text.length stod fuel pos).wp (watch text)
        (fun a => Moved text (pos + 1) frames a.2) ⟨pos, frames⟩
  object : ∀ {pos : ℕ} {frames : List Frame}, Nested (pos + 1) frames →
    Fresh .object pos frames → pos < text.length → 3 * (text.length - pos) ≤ fuel →
      (parseObject text.length stod fuel pos).wp (watch text)
        (fun a => Moved text (pos + 1) frames a.2) ⟨pos, frames⟩
  members : ∀ {pos entry : ℕ} {last : Option ℕ} {frames : List Frame}
    (members : List (Bytes × Json D)), Nested pos frames → entry < pos → pos ≤ text.length →
    (∀ q ∈ last, q < pos) → 3 * (text.length - pos) + 2 ≤ fuel →
      (parseMembers text.length stod fuel pos members).wp (watch text)
        (fun a => MovedOn text pos .object entry frames a.2)
        ⟨pos, ⟨.object, entry, last⟩ :: frames⟩
  array : ∀ {pos : ℕ} {frames : List Frame}, Nested (pos + 1) frames →
    Fresh .array pos frames → pos < text.length → 3 * (text.length - pos) ≤ fuel →
      (parseArray text.length stod fuel pos).wp (watch text)
        (fun a => Moved text (pos + 1) frames a.2) ⟨pos, frames⟩
  elements : ∀ {pos entry : ℕ} {last : Option ℕ} {frames : List Frame}
    (elements : List (Json D)), Nested pos frames → entry < pos → pos ≤ text.length →
    (∀ q ∈ last, q < pos) → 3 * (text.length - pos) + 2 ≤ fuel →
      (parseElements text.length stod fuel pos elements).wp (watch text)
        (fun a => MovedOn text pos .array entry frames a.2)
        ⟨pos, ⟨.array, entry, last⟩ :: frames⟩

variable {fuel : ℕ}

/-- `parse_value` itself moves the cursor over whitespace only; the function it calls for
the character it sees is one it is not called from at this place. -/
theorem wp_parseValue (ih : Confined stod text fuel) (hframes : Nested pos frames)
    (hle : pos ≤ text.length) (hfuel : 3 * (text.length - pos) + 1 ≤ fuel + 1) :
    (parseValue text.length stod (fuel + 1) pos).wp (watch text)
      (fun a => Moved text (pos + 1) frames a.2) ⟨pos, frames⟩ := by
  rw [parseValue]
  apply wp_called hframes.fresh
  have hvalue : Nested (pos + 1) (⟨.value, pos, none⟩ :: frames) :=
    (hframes.mono (Nat.le_succ pos)).cons rfl (Nat.lt_succ_self pos)
  rw [Prog.wp_bind]
  refine Prog.wp_mono (wp_peek (hvalue.fresh_leaf rfl) hle) ?_
  rintro ⟨c, p⟩ _ ⟨⟨rfl, hlo, hle⟩, hlt⟩
  dsimp only at hlo hle hlt ⊢
  have hnested : Nested (p + 1) (⟨.value, pos, none⟩ :: frames) :=
    hvalue.mono (Nat.succ_le_succ hlo)
  have hfresh : ∀ r, .value ≠ r → Fresh r p (⟨.value, pos, none⟩ :: frames) :=
    fun r hne => (hframes.mono hlo).fresh.cons hne
  have hdone : ∀ (a : Json D × ℕ) (t : State),
      Moved text (p + 1) (⟨.value, pos, none⟩ :: frames) a.2 t →
        MovedOn text (pos + 1) .value pos frames a.2 t :=
    fun a t h => ⟨none, by simp, h.mono (Nat.succ_le_succ hlo)⟩
  split
  · exact Prog.wp_mono (ih.object hnested (hfresh _ (by decide)) hlt (by omega)) hdone
  split
  · exact Prog.wp_mono (ih.array hnested (hfresh _ (by decide)) hlt (by omega)) hdone
  split
  · rw [Prog.wp_bind]
    exact Prog.wp_mono (wp_parseString hnested hle) fun a t h => hdone (.string a.1, a.2) t h
  split
  · exact Prog.wp_mono (wp_parseBool hnested hle) hdone
  split
  · exact Prog.wp_mono (wp_parseNull hnested hle) hdone
  split
  · exact Prog.wp_mono (wp_parseNumber hnested hle) hdone
  · exact wp_fail

section Compound

variable (opening closing : UInt8) (v : Json D) (next : ℕ → Scan (Json D × ℕ))

/-- `parse_object` and `parse_array` up to their loop, `next`: the cursor is behind the
opening bracket then. -/
theorem wp_opening (hr : r.isCompound = true) (hframes : Nested (pos + 1) frames)
    (hfresh : Fresh r pos frames) (hle : pos ≤ text.length)
    (hnext : ∀ p, pos < p → p ≤ text.length → (next p).wp (watch text)
      (fun a => MovedOn text p r pos frames a.2) ⟨p, ⟨r, pos, none⟩ :: frames⟩) :
    (called r pos (do
        let (opened, pos) ← consume text.length opening pos
        if opened then
          let pos ← skipWs text.length pos
          let (closed, pos) ← consume text.length closing pos
          if closed then return (v, pos) else next pos
        else fail)).wp (watch text) (fun a => Moved text (pos + 1) frames a.2) ⟨pos, frames⟩ := by
  apply wp_called hfresh
  have hnested : Nested (pos + 1) (⟨r, pos, none⟩ :: frames) :=
    hframes.cons hr (Nat.lt_succ_self pos)
  rw [Prog.wp_bind]
  refine Prog.wp_mono (wp_consume (hnested.fresh_leaf rfl) hle) ?_
  rintro ⟨opened, p₁⟩ _ ⟨rfl, hlo₁, hle₁⟩
  cases opened with
  | false => exact wp_fail
  | true =>
      simp only [↓reduceIte, Prog.wp_bind] at hlo₁ ⊢
      refine Prog.wp_mono (wp_skipWs (hnested.fresh_leaf rfl) hle₁) ?_
      rintro p₂ _ ⟨rfl, hlo₂, hle₂⟩
      refine Prog.wp_mono (wp_consume (hnested.fresh_leaf rfl) hle₂) ?_
      rintro ⟨closed, p₃⟩ _ ⟨rfl, hlo₃, hle₃⟩
      have hlo₃ : p₂ ≤ p₃ := by
        split at hlo₃
        · exact (Nat.le_succ p₂).trans hlo₃
        · exact hlo₃
      have hlt : pos + 1 ≤ p₃ := hlo₁.trans (hlo₂.trans hlo₃)
      cases closed with
      | true => exact ⟨none, by simp, rfl, hlt, hle₃⟩
      | false => exact Prog.wp_mono (hnext p₃ hlt hle₃) fun _ _ h => h.mono hlt

/-- The end of a pass: the closing bracket, or a comma and another pass further on. -/
theorem wp_pass {lo : ℕ} (hr : r.isCompound = true) (hframes : Nested pos frames)
    (hentry : entry < pos) (hle : pos ≤ text.length) (hlast : ∀ q ∈ last, q < pos)
    (hlo : lo ≤ pos)
    (hnext : ∀ p, pos < p → p ≤ text.length → (next p).wp (watch text)
      (fun a => MovedOn text p r entry frames a.2) ⟨p, ⟨r, entry, last⟩ :: frames⟩) :
    ((do
        let (closed, pos) ← consume text.length closing pos
        if closed then return (v, pos)
        else
          let (comma, pos) ← consume text.length 44 pos
          if comma then next pos else fail) : Scan (Json D × ℕ)).wp (watch text)
      (fun a => MovedOn text lo r entry frames a.2) ⟨pos, ⟨r, entry, last⟩ :: frames⟩ := by
  have hnested : Nested pos (⟨r, entry, last⟩ :: frames) := hframes.cons hr hentry
  rw [Prog.wp_bind]
  refine Prog.wp_mono (wp_consume (hnested.fresh_leaf rfl) hle) ?_
  rintro ⟨closed, p₁⟩ _ ⟨rfl, hlo₁, hle₁⟩
  cases closed with
  | true =>
      have hlt : pos < p₁ := hlo₁
      exact ⟨last, lt_of_last hlast hlt.le, rfl, hlo.trans hlt.le, hle₁⟩
  | false =>
      simp only [Bool.false_eq_true, ↓reduceIte, Prog.wp_bind] at hlo₁ ⊢
      refine Prog.wp_mono (wp_consume (hnested.fresh_leaf rfl) hle₁) ?_
      rintro ⟨comma, p₂⟩ _ ⟨rfl, hlo₂, hle₂⟩
      cases comma with
      | false => exact wp_fail
      | true =>
          have hlt : pos < p₂ := hlo₁.trans_lt hlo₂
          exact Prog.wp_mono (hnext p₂ hlt hle₂) fun _ _ h => h.mono (hlo.trans hlt.le)

end Compound

theorem wp_parseObject (ih : Confined stod text fuel) (hframes : Nested (pos + 1) frames)
    (hfresh : Fresh .object pos frames) (hlt : pos < text.length)
    (hfuel : 3 * (text.length - pos) ≤ fuel + 1) :
    (parseObject text.length stod (fuel + 1) pos).wp (watch text)
      (fun a => Moved text (pos + 1) frames a.2) ⟨pos, frames⟩ := by
  rw [parseObject]
  refine wp_opening 123 125 (.object []) (fun p => parseMembers text.length stod fuel p []) rfl
    hframes hfresh hlt.le fun p hp hle => ?_
  exact ih.members [] (hframes.mono hp) hp hle (by simp) (by omega)

theorem wp_parseArray (ih : Confined stod text fuel) (hframes : Nested (pos + 1) frames)
    (hfresh : Fresh .array pos frames) (hlt : pos < text.length)
    (hfuel : 3 * (text.length - pos) ≤ fuel + 1) :
    (parseArray text.length stod (fuel + 1) pos).wp (watch text)
      (fun a => Moved text (pos + 1) frames a.2) ⟨pos, frames⟩ := by
  rw [parseArray]
  refine wp_opening 91 93 (.array []) (fun p => parseElements text.length stod fuel p []) rfl
    hframes hfresh hlt.le fun p hp hle => ?_
  exact ih.elements [] (hframes.mono hp) hp hle (by simp) (by omega)

/-- The cursor is in front of the object's bracket no more, so the value of a member is
further on than all the calls that have not returned. -/
theorem wp_parseMembers (ih : Confined stod text fuel) (members : List (Bytes × Json D))
    (hframes : Nested pos frames) (hentry : entry < pos) (hle : pos ≤ text.length)
    (hlast : ∀ q ∈ last, q < pos) (hfuel : 3 * (text.length - pos) + 2 ≤ fuel + 1) :
    (parseMembers text.length stod (fuel + 1) pos members).wp (watch text)
      (fun a => MovedOn text pos .object entry frames a.2)
      ⟨pos, ⟨.object, entry, last⟩ :: frames⟩ := by
  rw [parseMembers]
  simp only [Prog.wp_bind]
  apply wp_iterate hlast
  have hnested : ∀ p, pos ≤ p → Nested p (⟨.object, entry, some pos⟩ :: frames) :=
    fun p hp => (hframes.cons rfl hentry).mono hp
  refine Prog.wp_mono (wp_skipWs ((hnested pos le_rfl).fresh_leaf rfl) hle) ?_
  rintro p₁ _ ⟨rfl, hlo₁, hle₁⟩
  refine Prog.wp_mono (wp_peek ((hnested p₁ hlo₁).fresh_leaf rfl) hle₁) ?_
  rintro ⟨c, p₂⟩ _ ⟨⟨rfl, hlo₂, hle₂⟩, hlt₂⟩
  dsimp only at hlo₂ hle₂ hlt₂ ⊢
  have hlo₂ := hlo₁.trans hlo₂
  split
  · rw [Prog.wp_bind]
    refine Prog.wp_mono (wp_parseString (hnested p₂ hlo₂) hle₂) ?_
    rintro ⟨key, p₃⟩ _ ⟨rfl, hlo₃, hle₃⟩
    dsimp only at hlo₃ hle₃ ⊢
    have hlo₃ : pos < p₃ := hlo₂.trans_lt hlo₃
    rw [Prog.wp_bind]
    refine Prog.wp_mono (wp_consume ((hnested p₃ hlo₃.le).fresh_leaf rfl) hle₃) ?_
    rintro ⟨colon, p₄⟩ _ ⟨rfl, hlo₄, hle₄⟩
    cases colon with
    | false => exact wp_fail
    | true =>
        have hlo₄ : pos < p₄ := hlo₃.trans hlo₄
        dsimp only at hle₄ ⊢
        simp only [↓reduceIte]
        rw [Prog.wp_bind]
        refine Prog.wp_mono (ih.value (hnested p₄ hlo₄.le) hle₄ (by omega)) ?_
        rintro ⟨value, p₅⟩ _ ⟨rfl, hlo₅, hle₅⟩
        have hlo₅ : pos < p₅ := hlo₄.trans hlo₅
        refine wp_pass 125 _ (fun p => parseMembers text.length stod fuel p
          (emplace key value members)) rfl (hframes.mono hlo₅.le) (hentry.trans hlo₅) hle₅
          (lt_of_pass hlo₅) hlo₅.le ?_
        intro p hp hle
        have hlt := hlo₅.trans hp
        exact ih.members _ (hframes.mono hlt.le) (hentry.trans hlt) hle (lt_of_pass hlt)
          (by omega)
  · exact wp_fail

theorem wp_parseElements (ih : Confined stod text fuel) (elements : List (Json D))
    (hframes : Nested pos frames) (hentry : entry < pos) (hle : pos ≤ text.length)
    (hlast : ∀ q ∈ last, q < pos) (hfuel : 3 * (text.length - pos) + 2 ≤ fuel + 1) :
    (parseElements text.length stod (fuel + 1) pos elements).wp (watch text)
      (fun a => MovedOn text pos .array entry frames a.2)
      ⟨pos, ⟨.array, entry, last⟩ :: frames⟩ := by
  rw [parseElements, Prog.wp_bind]
  apply wp_iterate hlast
  rw [Prog.wp_bind]
  refine Prog.wp_mono (ih.value (hframes.cons rfl hentry) hle (by omega)) ?_
  rintro ⟨value, p₁⟩ _ ⟨rfl, hlo₁, hle₁⟩
  have hlo₁ : pos < p₁ := hlo₁
  refine wp_pass 93 _ (fun p => parseElements text.length stod fuel p (elements ++ [value])) rfl
    (hframes.mono hlo₁.le) (hentry.trans hlo₁) hle₁ (lt_of_pass hlo₁) hlo₁.le ?_
  intro p hp hle
  have hlt := hlo₁.trans hp
  exact ih.elements _ (hframes.mono hlt.le) (hentry.trans hlt) hle (lt_of_pass hlt) (by omega)

theorem confined (stod : Bytes → Option D) (text : Bytes) (fuel : ℕ) :
    Confined stod text fuel := by
  induction fuel with
  | zero =>
      constructor
      · intro pos frames _ _ hfuel
        omega
      · intro pos frames _ _ hlt hfuel
        omega
      · intro pos entry last frames members _ _ _ _ hfuel
        omega
      · intro pos frames _ _ hlt hfuel
        omega
      · intro pos entry last frames elements _ _ _ _ hfuel
        omega
  | succ fuel ih =>
      exact ⟨wp_parseValue ih, wp_parseObject ih, wp_parseMembers ih, wp_parseArray ih,
        wp_parseElements ih⟩

/-- `Parser::parse` keeps the contract. -/
theorem wp_parse (stod : Bytes → Option D) (text : Bytes) :
    (parse text.length stod).wp (watch text) (fun _ t => t = ⟨text.length, []⟩) start := by
  have hnil : ∀ n, Nested n [] := fun n f hf => absurd hf List.not_mem_nil
  simp only [parse, Prog.wp_bind]
  refine Prog.wp_mono (wp_skipWs ((hnil 0).fresh_leaf rfl) (Nat.zero_le _)) ?_
  rintro p₁ _ ⟨rfl, -, hle₁⟩
  refine Prog.wp_mono ((confined stod text _).value (hnil p₁) hle₁ (by omega)) ?_
  rintro ⟨value, p₂⟩ _ ⟨rfl, -, hle₂⟩
  refine Prog.wp_mono (wp_skipWs ((hnil p₂).fresh_leaf rfl) hle₂) ?_
  rintro p₃ _ ⟨rfl, -, hle₃⟩
  by_cases h : p₃ ≠ text.length
  · rw [if_pos h]
    exact wp_fail
  · rw [if_neg h]
    have hend : p₃ = text.length := not_not.mp h
    subst hend
    exact rfl

/-! ## The runs of the parser -/

/-- An allowed access is answered as `exec` answers it. -/
theorem exec_call {t : State} {e : Access} {k : Answer e → Scan α} {a : Answer e}
    (he : Allowed text t e) (ha : Answers text e a) : exec text (.call e k) = exec text (k a) := by
  cases e with
  | read pos =>
      have ha : text[pos]? = some a := ha
      simp only [exec, ha]
  | compare pos len literal =>
      have ha : a = decide ((text.drop pos).take len = literal) := ha
      have hle : ¬ text.length < pos := Nat.not_lt.mpr he.2
      simp only [exec, Json.compare, hle, ↓reduceIte, except_ok_bind, ha]
  | substr pos len =>
      have ha : a = (text.drop pos).take len := ha
      have hle : ¬ text.length < pos := Nat.not_lt.mpr he
      simp only [exec, Json.substr, hle, ↓reduceIte, except_ok_bind, ha]
  | move _ => rfl
  | enter _ _ => rfl
  | leave _ _ => rfl
  | iterate _ => rfl
  | fail => exact a.elim
  | outOfFuel => exact a.elim

/-- What a run has done so far does not change what it returns. -/
theorem exec_steps {p q : Scan α} {Q : α → State → Prop} {t : State}
    {log : List (Event Access Answer)} (h : Prog.Steps p log q) (hp : p.wp (watch text) Q t)
    (hlog : Prog.Steps.Keeps (watch text) t log) : exec text p = exec text q := by
  induction h generalizing t with
  | refl => rfl
  | call a _ ih =>
      rw [exec_call hp.1 hlog.1]
      exact ih (hp.2 a hlog.1) hlog.2

/-- Nothing but `fail()` is without an answer. -/
theorem eq_fail_of_unanswered {t : State} {e : Access} (he : Allowed text t e)
    (hnone : ∀ a, ¬ Answers text e a) : e = .fail := by
  cases e with
  | read pos => exact absurd (List.getElem?_eq_getElem he.2) (hnone _)
  | compare pos len literal => exact absurd rfl (hnone _)
  | substr pos len => exact absurd rfl (hnone _)
  | move _ => exact absurd trivial (hnone ())
  | enter _ _ => exact absurd trivial (hnone ())
  | leave _ _ => exact absurd trivial (hnone ())
  | iterate _ => exact absurd trivial (hnone ())
  | fail => rfl
  | outOfFuel => exact he.elim

theorem follow_le {t : State} {e : Access} (he : Allowed text t e) (ht : t.pos ≤ text.length) :
    (follow t e).pos ≤ text.length := by
  cases e with
  | move _ => exact he.2
  | read _ => exact ht
  | compare _ _ _ => exact ht
  | substr _ _ => exact ht
  | enter _ _ => exact ht
  | leave _ _ => exact ht
  | iterate _ => exact ht
  | fail => exact ht
  | outOfFuel => exact ht

/-- **The parser is confined to its text and ends.** However far it has run, its next
access is an allowed one and the cursor is not behind the end; and the run goes on to an
end, which is the value of the text or `fail()` as the function says. -/
theorem parse_confined (stod : Bytes → Option D) (text : Bytes)
    {log : List (Event Access Answer)} {rest : Scan (Json D)}
    (hrun : Prog.Steps (parse text.length stod) log rest)
    (hlog : Prog.Steps.Keeps (watch text) start log) :
    rest.Owes (watch text) (Prog.Steps.after (watch text) start log) ∧
      (Prog.Steps.after (watch text) start log).pos ≤ text.length ∧
      ∃ log' last, Prog.Steps rest log' last ∧
        Prog.Steps.Keeps (watch text) (Prog.Steps.after (watch text) start log) log' ∧
        ((∃ value, last = .ret value ∧ Json.parse stod text = .ok value) ∨
          ∃ k, last = .call .fail k ∧ Json.parse stod text = .error .malformed) := by
  have hparse := wp_parse stod text
  have hrest := hrun.wp_after hparse hlog
  refine ⟨hrest.owes, ?_, ?_⟩
  · exact hrun.inv_after (I := fun t => t.pos ≤ text.length) hparse hlog
      (fun _ _ _ he _ ht => follow_le he ht) (Nat.zero_le _)
  obtain ⟨log', last, hrun', hlog', hlast⟩ := Prog.Steps.exists_last (watch text) rest
    (Prog.Steps.after (watch text) start log)
  refine ⟨log', last, hrun', hlog', ?_⟩
  have hexec : exec text last = Json.parse stod text := by
    rw [← exec_parse, exec_steps hrun hparse hlog, exec_steps hrun' hrest hlog']
  rcases hlast with ⟨value, rfl⟩ | ⟨e, k, rfl, hnone⟩
  · exact Or.inl ⟨value, rfl, hexec.symm⟩
  · obtain rfl := eq_fail_of_unanswered (hrun'.wp_after hrest hlog').1 hnone
    exact Or.inr ⟨k, rfl, hexec.symm⟩

/-- `{"` ends where a key begins. -/
theorem parse_confined_truncated :
    ∃ log k, Prog.Steps (parse 2 fun _ => (none : Option ℚ)) log (.call .fail k) ∧
      Prog.Steps.Keeps (watch [123, 34]) start log := by
  obtain ⟨-, -, log, last, hrun, hlog, hlast⟩ :=
    parse_confined (fun _ => (none : Option ℚ)) [123, 34] (.refl _) trivial
  have hparse : Json.parse (fun _ => (none : Option ℚ)) [123, 34] = .error .malformed :=
    (exec_parse _ _).symm.trans rfl
  rcases hlast with ⟨value, -, hvalue⟩ | ⟨k, rfl, -⟩
  · rw [hparse] at hvalue
    cases hvalue
  · exact ⟨log, k, hrun, hlog⟩

end Values

end Rules

end Json.Parser

end LinkScheduling
