import Mathlib.Data.List.Forall2
import LinkScheduling.Model.Analyser
import LinkScheduling.Model.Metrics
import LinkScheduling.Metatheory.Names

/-!
# The exported metrics and the analyser

`write_csv` writes the names of the files as they are, and the reader of the analyser
takes a comma for the end of a field and a leading quote for the start of a quoted one.
The rows come back exactly when no name has the one or the other.
-/

namespace LinkScheduling

namespace Csv

/-! ## The reader on a plain field -/

/-- A field that is read as it is written. -/
structure Plain (x : Str) : Prop where
  no_end : ∀ n ∈ x, n ≠ 10 ∧ n ≠ 13
  no_comma : 44 ∉ x
  no_quote : x.head? ≠ some 34
  short : x.length ≤ fieldSizeLimit

variable {r r' : Reader} {x : Str}

theorem feed_append (r : Reader) (a b : Str) : r.feed (a ++ b) = (r.feed a).bind (·.feed b) := by
  induction a generalizing r with
  | nil => rfl
  | cons c a ih =>
      show (r.process (some c)).bind (·.feed (a ++ b)) =
        ((r.process (some c)).bind (·.feed a)).bind (·.feed b)
      rw [Option.bind_assoc]
      exact Option.bind_congr fun r' _ => ih r'

/-- One more character of an unquoted field. -/
theorem process_inField {acc : Str} {fields : List Str} {c : ℕ} (hend : c ≠ 10 ∧ c ≠ 13)
    (hcomma : c ≠ 44) : (Reader.mk .inField acc fields).process (some c) =
      (Reader.mk .inField acc fields).addChar c .inField := by
  simp [Reader.process, hend.1, hend.2, hcomma]

/-- The characters of an unquoted field that does not get too long. -/
theorem feed_inField (fields : List Str) :
    ∀ {x : Str} (acc : Str), (∀ n ∈ x, n ≠ 10 ∧ n ≠ 13) → 44 ∉ x →
      acc.length + x.length ≤ fieldSizeLimit →
      (Reader.mk .inField acc fields).feed x = some ⟨.inField, acc ++ x, fields⟩
  | [], acc, _, _, _ => by rw [List.append_nil, Reader.feed]
  | c :: x, acc, hend, hcomma, hlen => by
      have hx : ∀ n ∈ x, n ≠ 10 ∧ n ≠ 13 := fun n hn => hend n (List.mem_cons_of_mem c hn)
      have hne : c ≠ 44 := fun heq => hcomma (heq ▸ List.mem_cons_self)
      rw [List.length_cons] at hlen
      rw [Reader.feed, process_inField (hend c List.mem_cons_self) hne, Reader.addChar,
        if_pos (by show acc.length < _; omega)]
      have ih := feed_inField fields (acc ++ [c]) hx
        (fun hmem => hcomma (List.mem_cons_of_mem c hmem))
        (by rw [List.length_append, List.length_singleton]; omega)
      rw [List.append_assoc] at ih
      exact ih

/-- A field that gets too long is an error. -/
theorem feed_inField_long (fields : List Str) :
    ∀ {x : Str} (acc : Str), (∀ n ∈ x, n ≠ 10 ∧ n ≠ 13) → 44 ∉ x → acc.length ≤ fieldSizeLimit →
      fieldSizeLimit < acc.length + x.length →
      (Reader.mk .inField acc fields).feed x = none
  | [], acc, _, _, hacc, hlen => by
      rw [List.length_nil] at hlen
      omega
  | c :: x, acc, hend, hcomma, hacc, hlen => by
      have hx : ∀ n ∈ x, n ≠ 10 ∧ n ≠ 13 := fun n hn => hend n (List.mem_cons_of_mem c hn)
      have hne : c ≠ 44 := fun heq => hcomma (heq ▸ List.mem_cons_self)
      rw [List.length_cons] at hlen
      rw [Reader.feed, process_inField (hend c List.mem_cons_self) hne, Reader.addChar]
      by_cases hfull : acc.length < fieldSizeLimit
      · rw [if_pos hfull]
        exact feed_inField_long fields (acc ++ [c]) hx (fun hmem => hcomma (List.mem_cons_of_mem c hmem))
          (by rw [List.length_append, List.length_singleton]; omega)
          (by rw [List.length_append, List.length_singleton]; omega)
      · rw [if_neg hfull]
        rfl

/-- The first character of an unquoted field. -/
theorem process_startField {fields : List Str} {c : ℕ} (hend : c ≠ 10 ∧ c ≠ 13)
    (hquote : c ≠ 34) (hcomma : c ≠ 44) :
    (Reader.mk .startField [] fields).process (some c) = some ⟨.inField, [c], fields⟩ := by
  simp [Reader.process, Reader.startField, Reader.addChar, hend.1, hend.2, hquote, hcomma,
    fieldSizeLimit]

/-- The reader after a plain field and one more character: the field is saved. -/
theorem feed_plain (h : Plain x) (fields : List Str) {c : ℕ} (hc : c = 44 ∨ c = 10) :
    (Reader.mk .startField [] fields).feed (x ++ [c]) =
      some ⟨if c = 44 then .startField else .eatCrnl, [], fields ++ [x]⟩ := by
  cases x with
  | nil => rcases hc with rfl | rfl <;> rfl
  | cons d x =>
      obtain ⟨hend, hcomma, hquote, hlen⟩ := h
      have hd : d ≠ 34 := fun heq => hquote (by rw [heq]; rfl)
      have hd' : d ≠ 44 := fun heq => hcomma (heq ▸ List.mem_cons_self)
      have hfield := feed_inField fields [d]
        (fun n hn => hend n (List.mem_cons_of_mem d hn))
        (fun hmem => hcomma (List.mem_cons_of_mem d hmem))
        (by rw [List.length_cons] at hlen; rw [List.length_singleton]; omega)
      rw [List.cons_append, Reader.feed, process_startField (hend d List.mem_cons_self) hd hd']
      show (Reader.mk .inField [d] fields).feed (x ++ [c]) = _
      rw [feed_append, hfield]
      rcases hc with rfl | rfl <;> rfl

theorem feed_long (hend : ∀ n ∈ x, n ≠ 10 ∧ n ≠ 13) (hcomma : 44 ∉ x) (hquote : x.head? ≠ some 34)
    (hlen : fieldSizeLimit < x.length) (fields : List Str) :
    (Reader.mk .startField [] fields).feed x = none := by
  cases x with
  | nil => exact absurd hlen (Nat.not_lt_zero _)
  | cons d x =>
      have hd : d ≠ 34 := fun heq => hquote (by rw [heq]; rfl)
      have hd' : d ≠ 44 := fun heq => hcomma (heq ▸ List.mem_cons_self)
      rw [Reader.feed, process_startField (hend d List.mem_cons_self) hd hd']
      refine feed_inField_long fields [d] (fun n hn => hend n (List.mem_cons_of_mem d hn))
        (fun hmem => hcomma (List.mem_cons_of_mem d hmem)) ?_ ?_
      · rw [List.length_singleton]
        decide
      · rw [List.length_cons] at hlen
        rw [List.length_singleton]
        omega

/-- A row of plain fields. -/
theorem feed_row : ∀ {row : List Str}, row ≠ [] → (∀ x ∈ row, Plain x) →
    ∀ fields, (Reader.mk .startField [] fields).feed ([44].intercalate row ++ [10]) =
      some ⟨.eatCrnl, [], fields ++ row⟩
  | [], hne, _, _ => absurd rfl hne
  | [x], _, hplain, fields => by
      simpa using feed_plain (hplain x List.mem_cons_self) fields (c := 10) (Or.inr rfl)
  | x :: y :: row, _, hplain, fields => by
      have hsplit : [44].intercalate (x :: y :: row) ++ [10] =
          (x ++ [44]) ++ ([44].intercalate (y :: row) ++ [10]) := by
        simp [List.intercalate]
      have ih := feed_row (List.cons_ne_nil y row)
        (fun z hz => hplain z (List.mem_cons_of_mem x hz)) (fields ++ [x])
      rw [hsplit, feed_append, feed_plain (hplain x List.mem_cons_self) fields (Or.inl rfl)]
      simpa using ih

/-! ## The reader on any other field

The row where a field `x` should stand at index `k` is spoiled once another text was saved
there, or once the open field there holds a line feed. -/

/-- The states in which a field has begun. -/
def State.IsOpen (s : State) : Prop :=
  s = .inField ∨ s = .inQuotedField ∨ s = .quoteInQuotedField

def Saved (k : ℕ) (x : Str) (r : Reader) : Prop := ∃ f, r.fields[k]? = some f ∧ f ≠ x

def Spoiled (k : ℕ) (x : Str) (r : Reader) : Prop :=
  Saved k x r ∨ r.fields.length = k ∧ 10 ∈ r.field ∧ r.state.IsOpen

/-- What one character, or the end of the line, can do to a row: it saves the field, it
only moves the state, or it is added to the field. -/
inductive Effect (r : Reader) : Option ℕ → Reader → Prop
  | save (c : Option ℕ) (s : State) : Effect r c (r.saveField s)
  | move (c : Option ℕ) {s : State} : (r.state.IsOpen → s.IsOpen) → Effect r c { r with state := s }
  | add (n : ℕ) {s : State} : s.IsOpen → Effect r (some n) ⟨s, r.field ++ [n], r.fields⟩

theorem addChar_effect {n : ℕ} {s : State} (hs : s.IsOpen) (h : r.addChar n s = some r') :
    Effect r (some n) r' := by
  unfold Reader.addChar at h
  split at h
  · cases h
    exact .add n hs
  · cases h

theorem startField_effect {c : Option ℕ} (hclosed : ¬ r.state.IsOpen)
    (h : r.startField c = some r') : Effect r c r' := by
  unfold Reader.startField at h
  split at h
  · cases h
    exact .save _ _
  split at h
  · cases h
    exact .save _ _
  split at h
  · cases h
    exact .move _ fun hopen => absurd hopen hclosed
  split at h
  · cases h
    exact .save _ _
  · exact addChar_effect (Or.inl rfl) h

theorem process_effect {c : Option ℕ} (h : r.process c = some r') : Effect r c r' := by
  obtain ⟨s, field, fields⟩ := r
  cases s with
  | startRecord =>
      have hclosed : ¬ State.startRecord.IsOpen := by simp [State.IsOpen]
      simp only [Reader.process] at h
      split at h
      · cases h
        exact .move _ id
      split at h
      · cases h
        exact .move _ fun hopen => absurd hopen hclosed
      · exact startField_effect hclosed h
  | startField => exact startField_effect (by simp [State.IsOpen]) h
  | inField =>
      simp only [Reader.process] at h
      split at h
      · cases h
        exact .save _ _
      split at h
      · cases h
        exact .save _ _
      split at h
      · cases h
        exact .save _ _
      · exact addChar_effect (Or.inl rfl) h
  | inQuotedField =>
      simp only [Reader.process] at h
      split at h
      · cases h
        exact .move _ id
      split at h
      · cases h
        exact .move _ fun _ => Or.inr (Or.inr rfl)
      · exact addChar_effect (Or.inr (Or.inl rfl)) h
  | quoteInQuotedField =>
      simp only [Reader.process] at h
      split at h
      · cases h
        exact .save _ _
      split at h
      · exact addChar_effect (Or.inr (Or.inl rfl)) h
      split at h
      · cases h
        exact .save _ _
      split at h
      · cases h
        exact .save _ _
      · exact addChar_effect (Or.inl rfl) h
  | eatCrnl =>
      have hclosed : ¬ State.eatCrnl.IsOpen := by simp [State.IsOpen]
      simp only [Reader.process] at h
      split at h
      · cases h
        exact .move _ fun hopen => absurd hopen hclosed
      split at h
      · cases h
        exact .move _ id
      · cases h

section Spoiled

variable {k : ℕ}

theorem Saved.effect {c : Option ℕ} (h : Saved k x r) (he : Effect r c r') : Saved k x r' := by
  obtain ⟨f, hf, hne⟩ := h
  refine ⟨f, ?_, hne⟩
  cases he with
  | save c s =>
      show (r.fields ++ [r.field])[k]? = some f
      rw [List.getElem?_append_left (List.getElem?_eq_some_iff.mp hf).1, hf]
  | move c _ => exact hf
  | add n _ => exact hf

theorem Saved.feed : ∀ {s : Str} {r r' : Reader}, Saved k x r → r.feed s = some r' → Saved k x r'
  | [], r, r', h, hres => by
      cases hres
      exact h
  | c :: s, r, r', h, hres => by
      obtain ⟨r₁, hr₁, hres⟩ := Option.bind_eq_some_iff.mp hres
      exact (h.effect (process_effect hr₁)).feed hres

/-- A field that is saved where the row ends. -/
theorem saved_saveField {s : State} (hk : r.fields.length = k) (hne : r.field ≠ x) :
    Saved k x (r.saveField s) := by
  refine ⟨r.field, ?_, hne⟩
  show (r.fields ++ [r.field])[k]? = some r.field
  rw [← hk, List.getElem?_append_right le_rfl, Nat.sub_self]
  rfl

theorem Spoiled.effect {c : Option ℕ} (hx : 10 ∉ x) (h : Spoiled k x r) (he : Effect r c r') :
    Spoiled k x r' := by
  rcases h with h | ⟨hk, hmem, hopen⟩
  · exact Or.inl (h.effect he)
  cases he with
  | save c s => exact Or.inl (saved_saveField hk fun heq => hx (heq ▸ hmem))
  | move c hs => exact Or.inr ⟨hk, hmem, hs hopen⟩
  | add n hs => exact Or.inr ⟨hk, List.mem_append_left _ hmem, hs⟩

theorem Spoiled.feed (hx : 10 ∉ x) : ∀ {s : Str} {r r' : Reader}, Spoiled k x r →
    r.feed s = some r' → Spoiled k x r'
  | [], r, r', h, hres => by
      cases hres
      exact h
  | c :: s, r, r', h, hres => by
      obtain ⟨r₁, hr₁, hres⟩ := Option.bind_eq_some_iff.mp hres
      exact Spoiled.feed hx (h.effect hx (process_effect hr₁)) hres

/-- The row that comes out of a spoiled one, if any does. -/
def Misses (k : ℕ) (x : Str) (rows : List (List Str)) : Prop :=
  ∀ row ∈ rows.head?, row ≠ [] ∧ row[k]? ≠ some x

theorem Saved.row (h : Saved k x r) : r.fields ≠ [] ∧ r.fields[k]? ≠ some x := by
  obtain ⟨f, hf, hne⟩ := h
  constructor
  · intro hnil
    rw [hnil] at hf
    cases hf
  · rw [hf]
    exact fun heq => hne (Option.some.inj heq)

theorem readRows_cons {line : Str} {lines : List Str} {rows : List (List Str)} (hx : 10 ∉ x)
    (ih : ∀ {r : Reader} {rows : List (List Str)}, Spoiled k x r → readRows r lines = some rows →
      Misses k x rows)
    (h : ∀ r', r.feed line = some r' → Spoiled k x r')
    (hres : readRows r (line :: lines) = some rows) : Misses k x rows := by
  obtain ⟨r₁, hr₁, hres⟩ := Option.bind_eq_some_iff.mp hres
  obtain ⟨r₂, hr₂, hres⟩ := Option.bind_eq_some_iff.mp hres
  have hspoiled := (h r₁ hr₁).effect hx (process_effect hr₂)
  split at hres
  · rename_i hstart
    obtain ⟨rest, -, hres⟩ := Option.bind_eq_some_iff.mp hres
    cases hres
    rintro row hrow
    cases hrow
    rcases hspoiled with hsaved | ⟨-, -, hopen⟩
    · exact hsaved.row
    · rw [hstart] at hopen
      simp [State.IsOpen] at hopen
  · exact ih hspoiled hres

theorem Spoiled.rows (hx : 10 ∉ x) {lines : List Str} :
    ∀ {r : Reader} {rows : List (List Str)}, Spoiled k x r → readRows r lines = some rows →
      Misses k x rows := by
  induction lines with
  | nil =>
      intro r rows h hres
      rw [readRows] at hres
      split at hres
      · cases hres
        have hsaved : Saved k x (r.saveField r.state) := by
          rcases h with h | ⟨hk, hmem, -⟩
          · exact h.effect (.save none _)
          · exact saved_saveField hk fun heq => hx (heq ▸ hmem)
        rintro row hrow
        cases hrow
        exact hsaved.row
      · cases hres
        rintro row hrow
        cases hrow
  | cons line lines ih =>
      intro r rows h hres
      exact readRows_cons hx ih (fun r' hr' => h.feed hx hr') hres

/-! ### Names that spoil their row -/

/-- Inside a name that began with a quote: the field is shorter than what was read. -/
def Short (k m : ℕ) (r : Reader) : Prop :=
  r.fields.length = k ∧ r.field.length ≤ m ∧ r.state.IsOpen

theorem Short.effect {m : ℕ} {c : Option ℕ} (h : Short k m r) (hm : m < x.length)
    (he : Effect r c r') : Saved k x r' ∨ Short k (m + 1) r' := by
  obtain ⟨hk, hlen, hopen⟩ := h
  cases he with
  | save c s =>
      refine Or.inl (saved_saveField hk fun heq => ?_)
      rw [heq] at hlen
      omega
  | move c hs => exact Or.inr ⟨hk, hlen.trans (Nat.le_succ m), hs hopen⟩
  | add n hs =>
      refine Or.inr ⟨hk, ?_, hs⟩
      show (r.field ++ [n]).length ≤ m + 1
      rw [List.length_append, List.length_singleton]
      omega

theorem Short.feed : ∀ {s : Str} {m : ℕ} {r r' : Reader}, Short k m r → m + s.length < x.length →
    r.feed s = some r' → Saved k x r' ∨ Short k (m + s.length) r'
  | [], m, r, r', h, _, hres => by
      cases hres
      exact Or.inr h
  | c :: s, m, r, r', h, hm, hres => by
      rw [List.length_cons] at hm
      obtain ⟨r₁, hr₁, hres⟩ := Option.bind_eq_some_iff.mp hres
      rcases h.effect (x := x) (by omega) (process_effect hr₁) with hsaved | hshort
      · exact Or.inl (hsaved.feed hres)
      · have := hshort.feed (by omega) hres
        rwa [List.length_cons, Nat.add_comm s.length, ← Nat.add_assoc]

/-- Without another quote a quoted field goes on over the end of the line. -/
theorem feed_quoted : ∀ {s : Str} {r r' : Reader}, r.state = .inQuotedField → 34 ∉ s →
    r.feed s = some r' → r' = ⟨.inQuotedField, r.field ++ s, r.fields⟩
  | [], r, r', hr, _, hres => by
      cases hres
      rw [List.append_nil, ← hr]
  | c :: s, r, r', hr, hs, hres => by
      obtain ⟨r₁, hr₁, hres⟩ := Option.bind_eq_some_iff.mp hres
      have hc : c ≠ 34 := fun heq => hs (heq ▸ List.mem_cons_self)
      rw [Reader.process, hr] at hr₁
      simp only [hc, ↓reduceIte] at hr₁
      unfold Reader.addChar at hr₁
      split at hr₁
      · cases hr₁
        have := feed_quoted rfl (fun hmem => hs (List.mem_cons_of_mem c hmem)) hres
        rw [this, List.append_assoc]
        rfl
      · cases hr₁

/-- A name that begins with a quote. -/
theorem feed_quote {y post : Str} {fields : List Str} (hpost : 34 ∉ post) (hten : 10 ∈ post)
    (hres : (Reader.mk .startField [] fields).feed (34 :: y ++ 44 :: post) = some r) :
    Spoiled fields.length (34 :: y) r := by
  have hfeed : (Reader.mk .inQuotedField [] fields).feed (y ++ 44 :: post) = some r := hres
  rw [feed_append] at hfeed
  obtain ⟨r₁, hr₁, hfeed⟩ := Option.bind_eq_some_iff.mp hfeed
  have hshort : Short fields.length 0 ⟨.inQuotedField, [], fields⟩ :=
    ⟨rfl, le_rfl, Or.inr (Or.inl rfl)⟩
  rcases hshort.feed (x := 34 :: y) (by simp) hr₁ with hsaved | ⟨hk, hlen, hopen⟩
  · exact Or.inl (hsaved.feed hfeed)
  have hne : r₁.field ≠ 34 :: y := by
    intro heq
    rw [heq, List.length_cons] at hlen
    omega
  -- the comma behind the name ends the field, unless the field is still quoted
  have hcomma : r₁.process (some 44) = some (r₁.saveField .startField) →
      Spoiled fields.length (34 :: y) r := by
    intro hprocess
    rw [Reader.feed, hprocess] at hfeed
    exact Or.inl ((saved_saveField hk hne).feed hfeed)
  rcases hopen with hstate | hstate | hstate
  · exact hcomma (by simp [Reader.process, hstate])
  · have hquoted := feed_quoted hstate (by simpa using hpost) hfeed
    rw [hquoted]
    exact Or.inr ⟨hk, List.mem_append_right _ (List.mem_cons_of_mem _ hten), Or.inr (Or.inl rfl)⟩
  · exact hcomma (by simp [Reader.process, hstate])

/-- A name that is not plain spoils its row. -/
theorem feed_unplain {post : Str} {fields : List Str} (hend : ∀ n ∈ x, n ≠ 10 ∧ n ≠ 13)
    (hbad : ¬ Plain x) (hpost : 34 ∉ post) (hten : 10 ∈ post)
    (hres : (Reader.mk .startField [] fields).feed (x ++ 44 :: post) = some r) :
    Spoiled fields.length x r := by
  by_cases hquote : x.head? = some 34
  · obtain ⟨y, rfl⟩ : ∃ y, x = 34 :: y := by
      cases x with
      | nil => cases hquote
      | cons d y =>
          cases hquote
          exact ⟨y, rfl⟩
    exact feed_quote hpost hten hres
  by_cases hcomma : 44 ∈ x
  · -- the name is cut at its first comma
    obtain ⟨x₁, x₂, rfl, hx₁⟩ := List.eq_append_cons_of_mem hcomma
    have hend₁ : ∀ n ∈ x₁, n ≠ 10 ∧ n ≠ 13 := fun n hn => hend n (List.mem_append_left _ hn)
    have hquote₁ : x₁.head? ≠ some 34 := by
      intro heq
      apply hquote
      rw [List.head?_append, heq]
      rfl
    have hsplit : x₁ ++ 44 :: x₂ ++ 44 :: post = (x₁ ++ [44]) ++ (x₂ ++ 44 :: post) := by simp
    by_cases hlen : x₁.length ≤ fieldSizeLimit
    · rw [hsplit, feed_append, feed_plain ⟨hend₁, hx₁, hquote₁, hlen⟩ fields (Or.inl rfl)] at hres
      refine Or.inl (Saved.feed ⟨x₁, ?_, ?_⟩ hres)
      · show (fields ++ [x₁])[fields.length]? = some x₁
        rw [List.getElem?_append_right le_rfl, Nat.sub_self]
        rfl
      · intro heq
        have := congrArg List.length heq
        rw [List.length_append, List.length_cons] at this
        omega
    · rw [hsplit, feed_append, feed_append, feed_long hend₁ hx₁ hquote₁ (by omega)] at hres
      cases hres
  · have hlen : fieldSizeLimit < x.length := by
      by_contra hle
      exact hbad ⟨hend, hcomma, hquote, by omega⟩
    rw [feed_append, feed_long hend hcomma hquote hlen] at hres
    cases hres

end Spoiled

/-! ## Lines and rows -/

theorem splitLines_body {s : Str} : ∀ {body : Str} (line : Str), (∀ n ∈ body, n ≠ 10 ∧ n ≠ 13) →
    splitLines line (body ++ 10 :: s) = (line ++ (body ++ [10])) :: splitLines [] s
  | [], line, _ => rfl
  | c :: body, line, h => by
      obtain ⟨h10, h13⟩ := h c List.mem_cons_self
      have ih := splitLines_body (s := s) (line ++ [c]) fun n hn => h n (List.mem_cons_of_mem c hn)
      rw [List.cons_append, splitLines, ih]
      · simp
      · exact h10
      · exact fun _ heq => absurd heq h13
      · exact h13

/-- A row starts like a field. -/
theorem feed_fresh {c : ℕ} (hc : c ≠ 10 ∧ c ≠ 13) (s : Str) :
    Reader.fresh.feed (c :: s) = (Reader.mk .startField [] []).feed (c :: s) := by
  have hprocess : Reader.fresh.process (some c) = Reader.fresh.startField (some c) := by
    simp [Reader.process, Reader.fresh, hc.1, hc.2]
  rw [Reader.feed, hprocess]
  rfl

/-- A line of plain fields is one row. -/
theorem readRows_plain {x : Str} {row : List Str} (lines : List Str) (hx : x ≠ [])
    (hplain : ∀ y ∈ x :: row, Plain y) :
    readRows .fresh (([44].intercalate (x :: row) ++ [10]) :: lines) =
      (readRows .fresh lines).map ((x :: row) :: ·) := by
  obtain ⟨c, x, rfl⟩ := List.exists_cons_of_ne_nil hx
  have hc := (hplain (c :: x) List.mem_cons_self).no_end c List.mem_cons_self
  obtain ⟨s, hs⟩ : ∃ s, [44].intercalate ((c :: x) :: row) ++ [10] = c :: s := by
    cases row with
    | nil => exact ⟨_, rfl⟩
    | cons y row => exact ⟨_, rfl⟩
  have hfeed := feed_row (List.cons_ne_nil (c :: x) row) hplain []
  rw [hs, ← feed_fresh hc, ← hs] at hfeed
  rw [readRows, hfeed]
  cases readRows .fresh lines with
  | none => rfl
  | some rows => rfl

/-! ## Columns -/

def columns : List Str :=
  [str "request_id", str "op", str "filename", str "bytes", str "rounds", str "forfeited_bytes",
    str "arrival_ns", str "start_ns", str "finish_ns"]

theorem get_filename (row : List Str) :
    (DictRow.ofRow columns row).get (str "filename") = row[2]? := rfl

end Csv

/-! ## Decoding the file -/

/-- Bytes of ASCII as text. -/
def asciiText (b : Bytes) : Str := b.map UInt8.toNat

theorem isAscii_of_isdigit {c : UInt8} (h : isdigit c = true) : c < 128 := by
  rw [isdigit_iff] at h
  rw [UInt8.lt_iff_toNat_lt]
  exact Nat.lt_of_le_of_lt h.2 (by decide)

theorem decimalInt_mem {z : ℤ} {c : UInt8} (h : c ∈ decimalInt z) : isdigit c = true ∨ c = 45 := by
  by_contra hne
  obtain ⟨hdigit, hc⟩ := not_or.mp hne
  exact decimalInt_notMem (by simpa using hdigit) hc h

section Encoding

variable (enc : Encoding)

theorem Encoding.decode_ascii_append {a : Bytes} (ha : ∀ c ∈ a, c < 128) (b : Bytes) :
    enc.decode (a ++ b) = (enc.decode b).map (asciiText a ++ ·) := by
  induction a with
  | nil =>
      show enc.decode b = (enc.decode b).map id
      rw [Option.map_id]
      rfl
  | cons c a ih =>
      have hcons := enc.decode_ascii [] c (a ++ b) (ha c List.mem_cons_self)
      rw [List.nil_append, enc.decode_nil, ih fun d hd => ha d (List.mem_cons_of_mem c hd)] at hcons
      rw [List.cons_append, hcons]
      cases enc.decode b with
      | none => rfl
      | some y => rfl

/-- An ASCII character of the text is a byte of the file. -/
theorem Encoding.mem_of_decode : ∀ (a : Bytes) {x : Str} {n : ℕ}, enc.decode a = some x → n ∈ x →
    n < 128 → ∃ c ∈ a, c.toNat = n := by
  intro a
  -- by length: the bytes behind the first ASCII byte come again
  induction hlen : a.length using Nat.strong_induction_on generalizing a with
  | _ len ih =>
      intro x n hx hn hlt
      by_cases hascii : ∃ c ∈ a, c < 128
      · obtain ⟨c, hmem, hc⟩ := hascii
        obtain ⟨a₁, a₂, rfl⟩ := List.append_of_mem hmem
        rw [enc.decode_ascii a₁ c a₂ hc] at hx
        obtain ⟨x₁, hx₁, hx⟩ := Option.bind_eq_some_iff.mp hx
        obtain ⟨x₂, hx₂, hx⟩ := Option.bind_eq_some_iff.mp hx
        cases hx
        rw [List.length_append, List.length_cons] at hlen
        rcases List.mem_append.mp hn with hn | hn
        · obtain ⟨d, hd, heq⟩ := ih a₁.length (by omega) a₁ rfl hx₁ hn hlt
          exact ⟨d, List.mem_append_left _ hd, heq⟩
        rcases List.mem_cons.mp hn with rfl | hn
        · exact ⟨c, hmem, rfl⟩
        · obtain ⟨d, hd, heq⟩ := ih a₂.length (by omega) a₂ rfl hx₂ hn hlt
          exact ⟨d, List.mem_append_right _ (List.mem_cons_of_mem c hd), heq⟩
      · exact absurd hlt (enc.decode_non_ascii a x
          (fun c hc hlt => hascii ⟨c, hc, hlt⟩) hx n hn)

/-- A name without whitespace has no line end in its text. -/
theorem Encoding.name_no_end {name : Bytes} {x : Str} (hname : ∀ c ∈ name, isspace c = false)
    (hx : enc.decode name = some x) : ∀ n ∈ x, n ≠ 10 ∧ n ≠ 13 := by
  have hspace : ∀ {n : ℕ}, n ∈ x → n = 10 ∨ n = 13 → False := by
    intro n hn hend
    obtain ⟨c, hc, heq⟩ := enc.mem_of_decode name hx hn (by omega)
    have := hname c hc
    rw [Bool.eq_false_iff, Ne, isspace_iff] at this
    omega
  exact fun n hn => ⟨fun heq => hspace hn (Or.inl heq), fun heq => hspace hn (Or.inr heq)⟩

end Encoding

/-! ## The rows of the file -/

/-- What stands before the name in a row, and behind the comma after it. -/
def rowHead (row : RequestMetrics) : Bytes := decimalInt row.requestId ++ 44 :: (opName row.op ++ [44])

def rowTail (row : RequestMetrics) : Bytes :=
  [44].intercalate [decimal row.totalBytes, decimal row.rounds, decimal row.forfeitedBytes,
    decimal row.arrivalNs, decimal row.startNs, decimal row.finishNs] ++ [10]

/-- The fields of a row as text, with the text of the name. -/
def fieldTexts (row : RequestMetrics) (name : Str) : List Str :=
  [asciiText (decimalInt row.requestId), asciiText (opName row.op), name,
    asciiText (decimal row.totalBytes), asciiText (decimal row.rounds),
    asciiText (decimal row.forfeitedBytes), asciiText (decimal row.arrivalNs),
    asciiText (decimal row.startNs), asciiText (decimal row.finishNs)]

theorem csvRow_eq (row : RequestMetrics) :
    csvRow row = rowHead row ++ (row.filename ++ 44 :: rowTail row) := by
  simp [csvRow, csvFields, rowHead, rowTail, List.intercalate]

theorem fieldTexts_eq (row : RequestMetrics) (name : Str) :
    [44].intercalate (fieldTexts row name) ++ [10] =
      asciiText (rowHead row) ++ (name ++ 44 :: asciiText (rowTail row)) := by
  simp [fieldTexts, rowHead, rowTail, asciiText, List.intercalate]

theorem opName_ascii (op : Operation) : ∀ c ∈ opName op, 65 ≤ c ∧ c < 128 := by
  cases op <;> decide

theorem rowHead_ascii (row : RequestMetrics) : ∀ c ∈ rowHead row, c < 128 := by
  intro c hc
  rcases List.mem_append.mp hc with hc | hc
  · rcases decimalInt_mem hc with hdigit | rfl
    · exact isAscii_of_isdigit hdigit
    · decide
  rcases List.mem_cons.mp hc with rfl | hc
  · decide
  rcases List.mem_append.mp hc with hc | hc
  · exact (opName_ascii row.op c hc).2
  · rw [List.mem_singleton.mp hc]
    decide

theorem rowTail_mem {row : RequestMetrics} {c : UInt8} (h : c ∈ rowTail row) :
    isdigit c = true ∨ c = 44 ∨ c = 10 := by
  have hdigits : ∀ {n : ℕ}, c ∈ decimal n → isdigit c = true := decimal_isdigit
  simp only [rowTail, List.intercalate, List.intersperse, List.flatten_cons, List.flatten_nil,
    List.mem_append, List.mem_singleton, List.append_nil] at h
  grind

theorem rowTail_ascii (row : RequestMetrics) : ∀ c ∈ rowTail row, c < 128 := by
  intro c hc
  rcases rowTail_mem hc with hdigit | rfl | rfl
  · exact isAscii_of_isdigit hdigit
  · decide
  · decide

theorem rowTail_no_quote (row : RequestMetrics) : 34 ∉ asciiText (rowTail row) := by
  intro hmem
  obtain ⟨c, hc, heq⟩ := List.mem_map.mp hmem
  obtain rfl : c = 34 := UInt8.toNat_inj.mp heq
  rcases rowTail_mem hc with h | h | h
  · exact absurd h (by decide)
  · cases h
  · cases h

theorem rowTail_end (row : RequestMetrics) : 10 ∈ asciiText (rowTail row) :=
  List.mem_map.mpr ⟨10, List.mem_append_right _ List.mem_cons_self, rfl⟩

theorem Encoding.decode_row (enc : Encoding) (row : RequestMetrics) (b : Bytes) :
    enc.decode (csvRow row ++ b) = (enc.decode row.filename).bind fun name =>
      (enc.decode b).map ([44].intercalate (fieldTexts row name) ++ [10] ++ ·) := by
  have hsplit : csvRow row ++ b = rowHead row ++ (row.filename ++ 44 :: (rowTail row ++ b)) := by
    rw [csvRow_eq]
    simp
  rw [hsplit, enc.decode_ascii_append (rowHead_ascii row), enc.decode_ascii _ _ _ (by decide),
    enc.decode_ascii_append (rowTail_ascii row)]
  cases enc.decode row.filename with
  | none => rfl
  | some name =>
      cases enc.decode b with
      | none => rfl
      | some y =>
          show some _ = some _
          rw [fieldTexts_eq]
          simp

/-- The text of a recorded name; one that cannot be decoded is not read at all. -/
def nameText (enc : Encoding) (row : RequestMetrics) : Str := (enc.decode row.filename).getD []

def lineText (enc : Encoding) (row : RequestMetrics) : Str :=
  [44].intercalate (fieldTexts row (nameText enc row)) ++ [10]

theorem Encoding.decode_rows (enc : Encoding) {rows : List RequestMetrics}
    (h : ∀ row ∈ rows, (enc.decode row.filename).isSome) :
    enc.decode (rows.flatMap csvRow) = some (rows.flatMap (lineText enc)) := by
  induction rows with
  | nil => exact enc.decode_nil
  | cons row rows ih =>
      obtain ⟨name, hname⟩ := Option.isSome_iff_exists.mp (h row List.mem_cons_self)
      rw [List.flatMap_cons, enc.decode_row, ih fun r hr => h r (List.mem_cons_of_mem row hr),
        hname, List.flatMap_cons, lineText, nameText, hname]
      rfl

theorem Encoding.decode_rows_isSome (enc : Encoding) {rows : List RequestMetrics} {x : Str}
    (h : enc.decode (rows.flatMap csvRow) = some x) :
    ∀ row ∈ rows, (enc.decode row.filename).isSome := by
  induction rows generalizing x with
  | nil =>
      intro row hrow
      cases hrow
  | cons row rows ih =>
      rw [List.flatMap_cons, enc.decode_row] at h
      obtain ⟨name, hname, h⟩ := Option.bind_eq_some_iff.mp h
      obtain ⟨y, hy, -⟩ := Option.map_eq_some_iff.mp h
      intro r hr
      rcases List.mem_cons.mp hr with rfl | hr
      · rw [hname]
        rfl
      · exact ih hy r hr

theorem csvHeader_text : asciiText csvHeader = [44].intercalate Csv.columns ++ [10] := by decide

theorem csvHeader_ascii : ∀ c ∈ csvHeader, c < 128 := by decide

/-! ## The round trip -/

/-- A row of `Metrics`: a transfer with a name the server admits, and numbers in the range
of their types. -/
structure RequestMetrics.Recorded (row : RequestMetrics) : Prop where
  op : row.op = .GET ∨ row.op = .PUT
  filename : isValidFilename row.filename = true
  no_space : ∀ c ∈ row.filename, isspace c = false
  requestId : -2 ^ 31 ≤ row.requestId ∧ row.requestId < 2 ^ 31
  totalBytes : row.totalBytes < 2 ^ 64
  arrivalNs : row.arrivalNs < 2 ^ 64
  startNs : row.startNs < 2 ^ 64
  finishNs : row.finishNs < 2 ^ 64
  rounds : row.rounds < 2 ^ 64
  forfeitedBytes : row.forfeitedBytes < 2 ^ 64

/-- The analyser's row tells what was recorded. -/
structure Agrees (enc : Encoding) (record : RequestMetrics) (row : Csv.DictRow) : Prop where
  requestId : row.get (str "request_id") = some (asciiText (decimalInt record.requestId))
  op : row.get (str "op") = some (asciiText (opName record.op))
  filename : ∃ name, enc.decode record.filename = some name ∧ row.get (str "filename") = some name
  totalBytes : row.get (str "bytes") = some (asciiText (decimal record.totalBytes))
  rounds : row.get (str "rounds") = some (asciiText (decimal record.rounds))
  forfeitedBytes :
    row.get (str "forfeited_bytes") = some (asciiText (decimal record.forfeitedBytes))
  arrivalNs : row.get (str "arrival_ns") = some (asciiText (decimal record.arrivalNs))
  startNs : row.get (str "start_ns") = some (asciiText (decimal record.startNs))
  finishNs : row.get (str "finish_ns") = some (asciiText (decimal record.finishNs))

/-- The analyser reads one row for each record, in the order of the numbers. -/
def LoadsBack (enc : Encoding) (records : List RequestMetrics) : Prop :=
  ∃ sorted rows, sorted.Perm records ∧ sorted.Pairwise (fun a b => a.requestId < b.requestId) ∧
    loadRows enc (writeCsv records) = some rows ∧ List.Forall₂ (Agrees enc) sorted rows

/-- The text of the name has no comma, does not begin with a quote, and fits a field. -/
def Survives (enc : Encoding) (name : Bytes) : Prop :=
  ∃ x, enc.decode name = some x ∧ 44 ∉ x ∧ x.head? ≠ some 34 ∧ x.length ≤ Csv.fieldSizeLimit

theorem plain_asciiText {b : Bytes} (h : ∀ c ∈ b, c ≠ 10 ∧ c ≠ 13 ∧ c ≠ 44 ∧ c ≠ 34)
    (hlen : b.length ≤ Csv.fieldSizeLimit) : Csv.Plain (asciiText b) := by
  have hne : ∀ {c : UInt8} {n : ℕ}, n < 256 → c ≠ UInt8.ofNat n → c.toNat ≠ n := by
    intro c n hn hc heq
    apply hc
    rw [← UInt8.toNat_inj, UInt8.toNat_ofNat', heq, Nat.mod_eq_of_lt hn]
  refine ⟨?_, ?_, ?_, ?_⟩
  · intro n hn
    obtain ⟨c, hc, rfl⟩ := List.mem_map.mp hn
    exact ⟨hne (by decide) (h c hc).1, hne (by decide) (h c hc).2.1⟩
  · intro hn
    obtain ⟨c, hc, heq⟩ := List.mem_map.mp hn
    exact hne (by decide) (h c hc).2.2.1 heq
  · intro hhead
    obtain ⟨c, hc, heq⟩ := List.mem_map.mp (List.mem_of_mem_head? hhead)
    exact hne (by decide) (h c hc).2.2.2 heq
  · rwa [asciiText, List.length_map]

theorem digit_plain {c : UInt8} (h : isdigit c = true) : c ≠ 10 ∧ c ≠ 13 ∧ c ≠ 44 ∧ c ≠ 34 := by
  refine ⟨?_, ?_, ?_, ?_⟩ <;>
    (rintro rfl; exact absurd h (by decide))

theorem plain_decimal {n : ℕ} (h : n < 2 ^ 64) : Csv.Plain (asciiText (decimal n)) :=
  plain_asciiText (fun _ hc => digit_plain (decimal_isdigit hc))
    ((decimal_length_le h).trans (by decide))

theorem plain_decimalInt {z : ℤ} (h : -2 ^ 31 ≤ z ∧ z < 2 ^ 31) :
    Csv.Plain (asciiText (decimalInt z)) := by
  refine plain_asciiText (fun c hc => ?_) ?_
  · rcases decimalInt_mem hc with hdigit | rfl
    · exact digit_plain hdigit
    · decide
  · cases z with
    | ofNat n =>
        have hn : (n : ℤ) < 2 ^ 31 := h.2
        exact (decimal_length_le (n := n) (by omega)).trans (by decide)
    | negSucc n =>
        have hn : -2 ^ 31 ≤ Int.negSucc n := h.1
        have hlen := decimal_length_le (n := n + 1) (by omega)
        unfold decimalInt
        rw [List.length_append]
        have hminus : (ascii "-").length = 1 := by decide
        have hlimit : 21 ≤ Csv.fieldSizeLimit := by decide
        omega

theorem plain_opName (op : Operation) : Csv.Plain (asciiText (opName op)) := by
  refine plain_asciiText ?_ ?_
  · cases op <;> decide
  · cases op <;> decide

theorem plain_fieldTexts {row : RequestMetrics} (h : row.Recorded) {name : Str}
    (hname : Csv.Plain name) : ∀ x ∈ fieldTexts row name, Csv.Plain x := by
  simp only [fieldTexts, List.forall_mem_cons, List.not_mem_nil, false_implies, implies_true,
    and_true]
  exact ⟨plain_decimalInt h.requestId, plain_opName row.op, hname, plain_decimal h.totalBytes,
    plain_decimal h.rounds, plain_decimal h.forfeitedBytes, plain_decimal h.arrivalNs,
    plain_decimal h.startNs, plain_decimal h.finishNs⟩

theorem decimalInt_ne_nil (z : ℤ) : asciiText (decimalInt z) ≠ [] := by
  have hpos : ∀ n, decimal n ≠ [] := by
    intro n hnil
    have := Nat.length_toDigits_pos (b := 10) (n := n)
    rw [decimal, List.map_eq_nil_iff] at hnil
    rw [hnil] at this
    exact absurd this (Nat.lt_irrefl 0)
  cases z with
  | ofNat n => exact fun h => hpos n (List.map_eq_nil_iff.mp h)
  | negSucc n => exact fun h => hpos (n + 1) (List.append_eq_nil_iff.mp (List.map_eq_nil_iff.mp h)).2

section Rows

variable {enc : Encoding}

theorem nameText_no_end (enc : Encoding) {row : RequestMetrics} (h : row.Recorded) :
    ∀ n ∈ nameText enc row, n ≠ 10 ∧ n ≠ 13 := by
  unfold nameText
  cases hname : enc.decode row.filename with
  | none =>
      intro n hn
      cases hn
  | some x => exact enc.name_no_end h.no_space hname

theorem decode_eq_nameText {row : RequestMetrics} (h : (enc.decode row.filename).isSome) :
    enc.decode row.filename = some (nameText enc row) := by
  obtain ⟨x, hx⟩ := Option.isSome_iff_exists.mp h
  rw [nameText, hx]
  rfl

theorem fieldTexts_no_end {row : RequestMetrics} (h : row.Recorded) :
    ∀ x ∈ fieldTexts row (nameText enc row), ∀ n ∈ x, n ≠ 10 ∧ n ≠ 13 := by
  have hnil : Csv.Plain [] := ⟨by simp, by simp, by simp, by simp⟩
  have hrest := plain_fieldTexts h hnil
  simp only [fieldTexts, List.forall_mem_cons] at hrest ⊢
  obtain ⟨h1, h2, -, h4, h5, h6, h7, h8, h9, h10⟩ := hrest
  exact ⟨h1.no_end, h2.no_end, nameText_no_end enc h, h4.no_end, h5.no_end, h6.no_end, h7.no_end,
    h8.no_end, h9.no_end, by simp⟩

theorem mem_intercalate {n : ℕ} : ∀ {row : List Str}, n ∈ [44].intercalate row →
    n = 44 ∨ ∃ x ∈ row, n ∈ x
  | [], h => by cases h
  | [x], h => Or.inr ⟨x, List.mem_cons_self, by simpa [List.intercalate] using h⟩
  | x :: y :: row, h => by
      have hsplit : [44].intercalate (x :: y :: row) = x ++ 44 :: [44].intercalate (y :: row) := by
        simp [List.intercalate]
      rw [hsplit] at h
      rcases List.mem_append.mp h with h | h
      · exact Or.inr ⟨x, List.mem_cons_self, h⟩
      rcases List.mem_cons.mp h with rfl | h
      · exact Or.inl rfl
      · rcases mem_intercalate h with h | ⟨z, hz, hn⟩
        · exact Or.inl h
        · exact Or.inr ⟨z, List.mem_cons_of_mem x hz, hn⟩

/-- The file is cut into one line for each row. -/
theorem splitLines_rows {rows : List RequestMetrics} (h : ∀ row ∈ rows, row.Recorded) :
    Csv.splitLines [] (rows.flatMap (lineText enc)) = rows.map (lineText enc) := by
  induction rows with
  | nil => rfl
  | cons row rows ih =>
      have hbody : ∀ n ∈ [44].intercalate (fieldTexts row (nameText enc row)), n ≠ 10 ∧ n ≠ 13 := by
        intro n hn
        rcases mem_intercalate hn with rfl | ⟨x, hx, hn⟩
        · decide
        · exact fieldTexts_no_end (h row List.mem_cons_self) x hx n hn
      have hline := Csv.splitLines_body (s := rows.flatMap (lineText enc)) [] hbody
      rw [List.flatMap_cons, List.map_cons, ← ih fun r hr => h r (List.mem_cons_of_mem row hr)]
      rw [lineText, List.append_assoc]
      exact hline

theorem readRows_line {row : RequestMetrics} (h : row.Recorded)
    (hplain : Csv.Plain (nameText enc row)) (lines : List Str) :
    Csv.readRows .fresh (lineText enc row :: lines) =
      (Csv.readRows .fresh lines).map (fieldTexts row (nameText enc row) :: ·) :=
  Csv.readRows_plain lines (decimalInt_ne_nil row.requestId) (plain_fieldTexts h hplain)

theorem rows_of_plain {rows : List RequestMetrics} (h : ∀ row ∈ rows, row.Recorded)
    (hplain : ∀ row ∈ rows, Csv.Plain (nameText enc row)) :
    Csv.readRows .fresh (rows.map (lineText enc)) =
      some (rows.map fun row => fieldTexts row (nameText enc row)) := by
  induction rows with
  | nil => rfl
  | cons row rows ih =>
      rw [List.map_cons, readRows_line (h row List.mem_cons_self) (hplain row List.mem_cons_self),
        ih (fun r hr => h r (List.mem_cons_of_mem row hr))
          fun r hr => hplain r (List.mem_cons_of_mem row hr)]
      rfl

/-- A row with a plain name agrees with its record. -/
theorem agrees_fieldTexts {row : RequestMetrics} (hname : (enc.decode row.filename).isSome) :
    Agrees enc row (Csv.DictRow.ofRow Csv.columns (fieldTexts row (nameText enc row))) where
  requestId := rfl
  op := rfl
  filename := ⟨nameText enc row, decode_eq_nameText hname, rfl⟩
  totalBytes := rfl
  rounds := rfl
  forfeitedBytes := rfl
  arrivalNs := rfl
  startNs := rfl
  finishNs := rfl

/-- The reader reaches the name of a row with the two fields before it. -/
theorem feed_rowHead {row : RequestMetrics} (h : row.Recorded) (s : Str) :
    Csv.Reader.fresh.feed (asciiText (rowHead row) ++ s) =
      (Csv.Reader.mk .startField []
        [asciiText (decimalInt row.requestId), asciiText (opName row.op)]).feed s := by
  obtain ⟨c, d, hcons⟩ := List.exists_cons_of_ne_nil (decimalInt_ne_nil row.requestId)
  have hid := plain_decimalInt h.requestId
  have hsplit : asciiText (rowHead row) ++ s = (asciiText (decimalInt row.requestId) ++ [44]) ++
      ((asciiText (opName row.op) ++ [44]) ++ s) := by
    simp [rowHead, asciiText]
  have hhead : ∃ t, asciiText (rowHead row) ++ s = c :: t := by
    rw [hsplit, hcons]
    exact ⟨_, rfl⟩
  obtain ⟨t, ht⟩ := hhead
  rw [ht, Csv.feed_fresh (hid.no_end c (hcons ▸ List.mem_cons_self)), ← ht, hsplit,
    Csv.feed_append, Csv.feed_plain hid [] (Or.inl rfl)]
  show (Csv.Reader.mk .startField [] [asciiText (decimalInt row.requestId)]).feed _ = _
  rw [Csv.feed_append, Csv.feed_plain (plain_opName row.op) _ (Or.inl rfl)]
  rfl

/-- If the rows agree, then every name was plain: the first one that is not spoils its row. -/
theorem plain_of_agrees {rows : List RequestMetrics} (h : ∀ row ∈ rows, row.Recorded) :
    ∀ {found : List (List Str)}, Csv.readRows .fresh (rows.map (lineText enc)) = some found →
      List.Forall₂ (Agrees enc) rows
        ((found.filter (· ≠ [])).map (Csv.DictRow.ofRow Csv.columns)) →
      ∀ row ∈ rows, Csv.Plain (nameText enc row) := by
  induction rows with
  | nil =>
      intro found _ _ row hrow
      cases hrow
  | cons row rows ih =>
      intro found hfound hagree
      have hrow := h row List.mem_cons_self
      by_cases hplain : Csv.Plain (nameText enc row)
      · rw [List.map_cons, readRows_line hrow hplain] at hfound
        obtain ⟨rest, hrest, rfl⟩ := Option.map_eq_some_iff.mp hfound
        have hne : fieldTexts row (nameText enc row) ≠ [] := List.cons_ne_nil _ _
        rw [List.filter_cons_of_pos (by simpa using hne), List.map_cons] at hagree
        intro r hr
        rcases List.mem_cons.mp hr with rfl | hr
        · exact hplain
        · exact ih (fun r hr => h r (List.mem_cons_of_mem row hr)) hrest
            (List.forall₂_cons.mp hagree).2 r hr
      · exfalso
        have hten : 10 ∉ nameText enc row := fun hmem => (nameText_no_end enc hrow 10 hmem).1 rfl
        have hmiss : Csv.Misses 2 (nameText enc row) found := by
          refine Csv.readRows_cons hten (Csv.Spoiled.rows hten) (fun r hr => ?_) hfound
          rw [lineText, fieldTexts_eq, feed_rowHead hrow] at hr
          exact Csv.feed_unplain (nameText_no_end enc hrow) hplain (rowTail_no_quote row)
            (rowTail_end row) hr
        cases found with
        | nil => cases hagree
        | cons first rest =>
            obtain ⟨hne, hfirst⟩ := hmiss first rfl
            rw [List.filter_cons_of_pos (by simpa using hne), List.map_cons] at hagree
            obtain ⟨x, hx, hget⟩ := (List.forall₂_cons.mp hagree).1.filename
            rw [Csv.get_filename] at hget
            apply hfirst
            rw [hget, nameText, hx]
            rfl

theorem columns_plain : ∀ x ∈ Csv.columns, Csv.Plain x := by
  have hplain : ∀ {x : Str}, (∀ n ∈ x, n ≠ 10 ∧ n ≠ 13) → 44 ∉ x → x.head? ≠ some 34 →
      x.length ≤ Csv.fieldSizeLimit → Csv.Plain x := fun h1 h2 h3 h4 => ⟨h1, h2, h3, h4⟩
  simp only [Csv.columns, List.forall_mem_cons, List.not_mem_nil, false_implies, implies_true,
    and_true]
  refine ⟨?_, ?_, ?_, ?_, ?_, ?_, ?_, ?_, ?_⟩ <;>
    exact hplain (by decide) (by decide) (by decide) (by decide)

theorem sortRows_perm (records : List RequestMetrics) : (sortRows records).Perm records :=
  List.mergeSort_perm records _

/-- The analyser on the file, when all names can be decoded. -/
theorem loadRows_writeCsv {records : List RequestMetrics} (h : ∀ r ∈ records, r.Recorded)
    (hnames : ∀ r ∈ sortRows records, (enc.decode r.filename).isSome) :
    loadRows enc (writeCsv records) =
      (Csv.readRows .fresh ((sortRows records).map (lineText enc))).map fun found =>
        (found.filter (· ≠ [])).map (Csv.DictRow.ofRow Csv.columns) := by
  have hrecorded : ∀ r ∈ sortRows records, r.Recorded :=
    fun r hr => h r ((sortRows_perm records).mem_iff.mp hr)
  have hbody : ∀ n ∈ [44].intercalate Csv.columns, n ≠ 10 ∧ n ≠ 13 := by decide
  have hlines := Csv.splitLines_body (s := (sortRows records).flatMap (lineText enc)) [] hbody
  rw [splitLines_rows hrecorded] at hlines
  have hheader := Csv.readRows_plain ((sortRows records).map (lineText enc)) (by decide)
    columns_plain
  unfold loadRows writeCsv
  rw [enc.decode_ascii_append csvHeader_ascii, enc.decode_rows hnames, csvHeader_text]
  show (Csv.readRows .fresh (Csv.splitLines [] ([44].intercalate Csv.columns ++ [10] ++
    (sortRows records).flatMap (lineText enc)))).bind _ = _
  rw [List.append_assoc, List.singleton_append, hlines, List.nil_append, Csv.columns, hheader]
  cases Csv.readRows .fresh ((sortRows records).map (lineText enc)) with
  | none => rfl
  | some found => rfl

theorem sortRows_pairwise {records : List RequestMetrics}
    (h : (records.map (·.requestId)).Nodup) :
    (sortRows records).Pairwise fun a b => a.requestId < b.requestId := by
  have hle : (sortRows records).Pairwise fun a b => decide (a.requestId ≤ b.requestId) = true := by
    refine List.pairwise_mergeSort (fun a b c hab hbc => ?_) (fun a b => ?_) records
    · simp only [decide_eq_true_eq] at hab hbc ⊢
      exact hab.trans hbc
    · simp only [Bool.or_eq_true, decide_eq_true_eq]
      exact le_total _ _
  have hne : (sortRows records).Pairwise fun a b => a.requestId ≠ b.requestId :=
    List.pairwise_map.mp (((sortRows_perm records).map _).nodup_iff.mpr h)
  refine hle.imp₂ (fun a b hab hne => ?_) hne
  exact lt_of_le_of_ne (of_decide_eq_true hab) hne

end Rows

theorem LoadsBack.survives {enc : Encoding} {records : List RequestMetrics}
    (hids : (records.map (·.requestId)).Nodup) (h : ∀ record ∈ records, record.Recorded)
    (hload : LoadsBack enc records) : ∀ record ∈ records, Survives enc record.filename := by
  have hperm := sortRows_perm records
  have hsorted : ∀ r ∈ sortRows records, r.Recorded := fun r hr => h r (hperm.mem_iff.mp hr)
  obtain ⟨sorted, rows, hperm', hpair, hload, hagree⟩ := hload
  obtain rfl : sorted = sortRows records :=
    List.Perm.eq_of_pairwise (fun a b _ _ hab hba => absurd (hab.trans hba) (lt_irrefl _)) hpair
      (sortRows_pairwise hids) (hperm'.trans hperm.symm)
  -- a file that was read at all was decoded
  have hnames : ∀ r ∈ sortRows records, (enc.decode r.filename).isSome := by
    obtain ⟨text, htext, -⟩ := Option.bind_eq_some_iff.mp hload
    rw [writeCsv, enc.decode_ascii_append csvHeader_ascii] at htext
    obtain ⟨body, hbody, -⟩ := Option.map_eq_some_iff.mp htext
    exact enc.decode_rows_isSome hbody
  rw [loadRows_writeCsv h hnames] at hload
  obtain ⟨found, hfound, rfl⟩ := Option.map_eq_some_iff.mp hload
  intro record hmem
  have hmem' := hperm.mem_iff.mpr hmem
  obtain ⟨-, hcomma, hquote, hlen⟩ := plain_of_agrees hsorted hfound hagree record hmem'
  exact ⟨_, decode_eq_nameText (hnames record hmem'), hcomma, hquote, hlen⟩

theorem Survives.plain {enc : Encoding} {row : RequestMetrics} (hrow : row.Recorded)
    (h : Survives enc row.filename) :
    (enc.decode row.filename).isSome ∧ Csv.Plain (nameText enc row) := by
  obtain ⟨x, hx, hcomma, hquote, hlen⟩ := h
  have hname : nameText enc row = x := by
    rw [nameText, hx]
    rfl
  have hend := nameText_no_end enc hrow
  rw [hname] at hend ⊢
  exact ⟨by rw [hx]; rfl, hend, hcomma, hquote, hlen⟩

theorem loadsBack_of_survives {enc : Encoding} {records : List RequestMetrics}
    (hids : (records.map (·.requestId)).Nodup) (h : ∀ record ∈ records, record.Recorded)
    (hall : ∀ record ∈ records, Survives enc record.filename) : LoadsBack enc records := by
  have hperm := sortRows_perm records
  have hsorted : ∀ r ∈ sortRows records, r.Recorded := fun r hr => h r (hperm.mem_iff.mp hr)
  have hplain : ∀ r ∈ sortRows records,
      (enc.decode r.filename).isSome ∧ Csv.Plain (nameText enc r) :=
    fun r hr => (hall r (hperm.mem_iff.mp hr)).plain (hsorted r hr)
  refine ⟨sortRows records, (sortRows records).map fun r =>
    Csv.DictRow.ofRow Csv.columns (fieldTexts r (nameText enc r)), hperm,
    sortRows_pairwise hids, ?_, ?_⟩
  · rw [loadRows_writeCsv h fun r hr => (hplain r hr).1,
      rows_of_plain hsorted fun r hr => (hplain r hr).2, Option.map_some,
      List.filter_eq_self.mpr, List.map_map]
    · rfl
    · intro row hrow
      obtain ⟨r, -, rfl⟩ := List.mem_map.mp hrow
      exact decide_eq_true (List.cons_ne_nil _ _)
  · exact List.forall₂_map_right_iff.mpr
      (List.forall₂_same.mpr fun r hr => agrees_fieldTexts (hplain r hr).1)

/-- **Metrics round trip.** For records with distinct numbers and names the server admits,
the analyser reads back what was recorded exactly when every name can be decoded and its
text has no comma, does not begin with a quote and fits a field. -/
theorem loadsBack_iff (enc : Encoding) (records : List RequestMetrics)
    (hids : (records.map (·.requestId)).Nodup) (h : ∀ record ∈ records, record.Recorded) :
    LoadsBack enc records ↔ ∀ record ∈ records, Survives enc record.filename :=
  ⟨LoadsBack.survives hids h, loadsBack_of_survives hids h⟩

/-- ISO 8859-1: every byte is a character. -/
def latin1 : Encoding where
  decode a := some (a.map UInt8.toNat)
  decode_nil := rfl
  decode_ascii a c b _ := by simp
  decode_non_ascii a x ha hx n hn := by
    cases hx
    obtain ⟨c, hc, rfl⟩ := List.mem_map.mp hn
    exact fun hlt => ha c hc (UInt8.lt_iff_toNat_lt.mpr hlt)

/-- A GET of a file with the given name. -/
def sampleMetrics (requestId : ℤ) (filename : Bytes) : RequestMetrics where
  requestId := requestId
  op := .GET
  filename := filename
  totalBytes := 5
  arrivalNs := 1
  startNs := 2
  finishNs := 3
  rounds := 1
  forfeitedBytes := 0
  a14Events := 0

theorem sampleMetrics_recorded {requestId : ℤ} {filename : Bytes}
    (hid : -2 ^ 31 ≤ requestId ∧ requestId < 2 ^ 31) (hname : isValidFilename filename = true)
    (hspace : ∀ c ∈ filename, isspace c = false) :
    (sampleMetrics requestId filename).Recorded := by
  have hsmall : ∀ {n : ℕ}, n ≤ 5 → n < 2 ^ 64 := fun hn => Nat.lt_of_le_of_lt hn (by decide)
  exact ⟨Or.inl rfl, hname, hspace, hid, hsmall le_rfl, hsmall (show 1 ≤ 5 by decide),
    hsmall (show 2 ≤ 5 by decide), hsmall (show 3 ≤ 5 by decide), hsmall (show 1 ≤ 5 by decide),
    hsmall (show 0 ≤ 5 by decide)⟩

theorem loadsBack_iff_two_names :
    LoadsBack latin1 [sampleMetrics 2 (ascii "b.txt"), sampleMetrics 1 (ascii "a.txt")] :=
  (loadsBack_iff latin1 _ (by decide) (by
    intro record hmem
    rcases List.mem_cons.mp hmem with rfl | hmem
    · exact sampleMetrics_recorded (by decide) (by decide) (by decide)
    · rw [List.mem_singleton.mp hmem]
      exact sampleMetrics_recorded (by decide) (by decide) (by decide))).mpr (by
    intro record hmem
    rcases List.mem_cons.mp hmem with rfl | hmem
    · exact ⟨_, rfl, by decide, by decide, by decide⟩
    · rw [List.mem_singleton.mp hmem]
      exact ⟨_, rfl, by decide, by decide, by decide⟩)

/-- The name `a,b` is cut at its comma. -/
theorem loadsBack_comma :
    (sampleMetrics 1 (ascii "a,b")).Recorded ∧
      ¬ LoadsBack latin1 [sampleMetrics 1 (ascii "a,b")] := by
  have hrecorded : (sampleMetrics 1 (ascii "a,b")).Recorded :=
    sampleMetrics_recorded (by decide) (by decide) (by decide)
  refine ⟨hrecorded, fun hload => ?_⟩
  have hall := hload.survives (by decide) fun record hmem => by
    rw [List.mem_singleton.mp hmem]
    exact hrecorded
  obtain ⟨x, hx, hcomma, -⟩ := hall _ List.mem_cons_self
  cases hx
  exact hcomma (by decide)

end LinkScheduling
