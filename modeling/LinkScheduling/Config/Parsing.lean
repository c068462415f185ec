import Mathlib.Data.List.DropRight
import LinkScheduling.Framework.Interaction
import LinkScheduling.Metatheory.Header
import LinkScheduling.Config.Cursor

/-!
# What the parser accepts

`Parser::parse` returns a value exactly for the texts of the grammar with the whitespace
of `std::isspace` and any four bytes behind `\u`; every other text is malformed.
-/

namespace LinkScheduling

open Framework

namespace Json

variable {D : Type} {stod : Bytes → Option D} {text s : Bytes} {pos : ℕ}

/-- The texts `Parser` derives. -/
abbrev Accepts (stod : Bytes → Option D) : Bytes → Symbol D → Bytes → Prop :=
  Derives isspace anyByte stod

/-! ## Tokens -/

theorem parseNumber_sound {v : Json D} {pos' : ℕ} (h : At text pos s)
    (hres : parseNumber stod text pos = .ok (v, pos')) :
    ∃ rest, Accepts stod (s.dropWhile isspace) (.value v) rest ∧ At text pos' rest := by
  have hws := skipWs_at h
  generalize s.dropWhile isspace = s₁ at hws
  simp only [parseNumber, except_bind_eq_ok, Prod.exists] at hres
  obtain ⟨p₁, hres₁, noFrac, p₂, hres₂, noExp, p₃, hres₃, token, htoken, hres⟩ := hres
  obtain ⟨int, r₁, rfl, hint, hat₁⟩ := integerPart_sound hws hres₁
  obtain ⟨frac, r₂, rfl, hat₂, hfrac⟩ := fractionPart_sound hat₁ hres₂
  obtain ⟨exp, r₃, rfl, hat₃, hexp⟩ := exponentPart_sound hat₂ hres₃
  have hsplit : int ++ (frac ++ (exp ++ r₃)) = int ++ (frac ++ exp) ++ r₃ := by simp
  rw [hsplit] at hws ⊢
  rw [substr_between hws hat₃] at htoken
  cases htoken
  split at hres
  · rename_i hnone
    obtain ⟨rfl, rfl⟩ : noFrac = true ∧ noExp = true := by simpa using hnone
    have hfrac : frac = [] := by simpa using hfrac
    have hexp : exp = [] := by simpa using hexp
    subst hfrac hexp
    split at hres
    · rename_i n hn
      cases hres
      exact ⟨r₃, .integer r₃ (by simpa using hint) hn, hat₃⟩
    · cases hres
  · rename_i hnone
    split at hres
    · rename_i d hd
      cases hres
      refine ⟨r₃, .real r₃ hint ?_ ?_ ?_ hd, hat₃⟩
      · exact hfrac.imp (·.2) (·.2)
      · exact hexp.imp (·.2) (·.2)
      · rintro heq
        obtain ⟨rfl, rfl⟩ := List.append_eq_nil_iff.mp heq
        rcases hfrac with ⟨rfl, -⟩ | ⟨-, digits, hcons, -⟩
        · rcases hexp with ⟨rfl, -⟩ | ⟨-, e, sign, digits, hcons, -⟩
          · exact hnone rfl
          · cases hcons
        · cases hcons
    · cases hres

/-- What may follow a value in a text: whitespace, a comma or a closing bracket. -/
def Ends (rest : Bytes) : Prop :=
  ∀ c ∈ rest.head?, isspace c = true ∨ c = 44 ∨ c = 93 ∨ c = 125

theorem Ends.stops {rest : Bytes} (h : Ends rest) {p : UInt8 → Bool}
    (hp : ∀ c, p c = true → isspace c = false ∧ c ≠ 44 ∧ c ≠ 93 ∧ c ≠ 125) : Stops p rest := by
  intro c hc
  by_contra htrue
  obtain ⟨h1, h2, h3, h4⟩ := hp c (by simpa using htrue)
  rcases h c hc with hspace | rfl | rfl | rfl
  · rw [h1] at hspace
    cases hspace
  · exact h2 rfl
  · exact h3 rfl
  · exact h4 rfl

theorem Ends.stops_digit {rest : Bytes} (h : Ends rest) : Stops isdigit rest := by
  refine h.stops fun c hc => ⟨isspace_of_isdigit hc, ?_, ?_, ?_⟩ <;>
    (rintro rfl; exact absurd hc (by decide))

theorem Ends.stops_dot {rest : Bytes} (h : Ends rest) : Stops (· = 46) rest := by
  refine h.stops fun c hc => ?_
  obtain rfl : c = 46 := by simpa using hc
  decide

theorem Ends.stops_e {rest : Bytes} (h : Ends rest) :
    Stops (fun c => c = 101 || c = 69) rest := by
  refine h.stops fun c hc => ?_
  rcases (by simpa using hc : c = 101 ∨ c = 69) with rfl | rfl <;> decide

/-- A number starts with a minus sign or a digit. -/
theorem IsInteger.head {token : Bytes} (h : IsInteger token) (rest : Bytes) :
    ∃ c t, token ++ rest = c :: t ∧ (c = 45 ∨ isdigit c = true) := by
  obtain ⟨sign, digits, rfl, hsign, hdigits⟩ := h
  have hhead : ∃ c ds, digits = c :: ds ∧ isdigit c = true := by
    rcases hdigits with rfl | ⟨⟨hne, hall⟩, -⟩
    · exact ⟨48, [], rfl, by decide⟩
    · obtain ⟨c, ds, rfl⟩ := List.exists_cons_of_ne_nil hne
      exact ⟨c, ds, rfl, hall c List.mem_cons_self⟩
  obtain ⟨c, ds, rfl, hc⟩ := hhead
  rcases hsign with rfl | rfl
  · exact ⟨c, ds ++ rest, rfl, Or.inr hc⟩
  · exact ⟨45, c :: ds ++ rest, rfl, Or.inl rfl⟩

theorem isspace_of_number {c : UInt8} (h : c = 45 ∨ isdigit c = true) : isspace c = false := by
  rcases h with rfl | h
  · decide
  · exact isspace_of_isdigit h

/-- The parts of a number one after the other. -/
theorem parseNumber_parts {int frac exp rest : Bytes}
    (h : At text pos (int ++ (frac ++ exp) ++ rest)) (hint : IsInteger int)
    (hfrac : frac = [] ∨ IsFraction frac) (hexp : exp = [] ∨ IsExponent exp) (hrest : Ends rest) :
    ∃ p₁ p₂ pos', integerPart text pos = .ok p₁ ∧
      fractionPart text p₁ = .ok (decide (frac = []), p₂) ∧
      exponentPart text p₂ = .ok (decide (exp = []), pos') ∧ At text pos' rest := by
  -- what follows each part cannot be taken for a piece of it
  have hstops : Stops isdigit (exp ++ rest) := by
    rcases hexp with rfl | ⟨e, sign, digits, rfl, he, -, -⟩
    · exact hrest.stops_digit
    · rintro c hc
      cases hc
      rcases he with rfl | rfl <;> decide
  have hstops' : Stops isdigit (frac ++ (exp ++ rest)) := by
    rcases hfrac with rfl | ⟨digits, rfl, -⟩
    · exact hstops
    · rintro c hc
      cases hc
      decide
  have hdot : Stops (· = 46) (exp ++ rest) := by
    rcases hexp with rfl | ⟨e, sign, digits, rfl, he, -, -⟩
    · exact hrest.stops_dot
    · rintro c hc
      cases hc
      rcases he with rfl | rfl <;> decide
  have hsplit : int ++ (frac ++ exp) ++ rest = int ++ (frac ++ (exp ++ rest)) := by simp
  rw [hsplit] at h
  obtain ⟨p₁, h₁, hat₁⟩ := integerPart_complete h hint hstops'
  obtain ⟨p₂, h₂, hat₂⟩ : ∃ p₂, fractionPart text p₁ = .ok (decide (frac = []), p₂) ∧
      At text p₂ (exp ++ rest) := by
    rcases hfrac with rfl | hfrac
    · exact ⟨p₁, fractionPart_absent hat₁ hdot, hat₁⟩
    · have hne : frac ≠ [] := by
        obtain ⟨digits, rfl, -⟩ := hfrac
        exact List.cons_ne_nil _ _
      rw [decide_eq_false hne]
      exact fractionPart_complete hat₁ hfrac hstops
  obtain ⟨p₃, h₃, hat₃⟩ : ∃ p₃, exponentPart text p₂ = .ok (decide (exp = []), p₃) ∧
      At text p₃ rest := by
    rcases hexp with rfl | hexp
    · exact ⟨p₂, exponentPart_absent hat₂ hrest.stops_e, hat₂⟩
    · have hne : exp ≠ [] := by
        obtain ⟨e, sign, digits, rfl, -⟩ := hexp
        exact List.cons_ne_nil _ _
      rw [decide_eq_false hne]
      exact exponentPart_complete hat₂ hexp hrest.stops_digit
  exact ⟨p₁, p₂, p₃, h₁, h₂, h₃, hat₃⟩

theorem skipWs_number {token rest : Bytes} (h : At text pos (token ++ rest))
    (htoken : IsInteger token ∨ ∃ int more, token = int ++ more ∧ IsInteger int) :
    At text (skipWs text pos) (token ++ rest) := by
  obtain ⟨c, t, heq, hc⟩ : ∃ c t, token ++ rest = c :: t ∧ (c = 45 ∨ isdigit c = true) := by
    rcases htoken with htoken | ⟨int, more, rfl, hint⟩
    · exact htoken.head rest
    · rw [List.append_assoc]
      exact hint.head (more ++ rest)
  have hws := skipWs_at h
  rwa [heq, List.dropWhile_cons_of_neg (by simp [isspace_of_number hc]), ← heq] at hws

theorem parseNumber_integer {token rest : Bytes} {n : ℤ} (h : At text pos (token ++ rest))
    (htoken : IsInteger token) (hn : stoll token = some n) (hrest : Ends rest) :
    ∃ pos', parseNumber stod text pos = .ok (.integer n, pos') ∧ At text pos' rest := by
  have hws := skipWs_number h (Or.inl htoken)
  have hws' : At text (skipWs text pos) (token ++ ([] ++ []) ++ rest) := by simpa using hws
  obtain ⟨p₁, p₂, pos', h₁, h₂, h₃, hat⟩ :=
    parseNumber_parts hws' htoken (Or.inl rfl) (Or.inl rfl) hrest
  refine ⟨pos', ?_, hat⟩
  simp only [parseNumber, except_bind_eq_ok, Prod.exists]
  exact ⟨p₁, h₁, _, p₂, h₂, _, pos', h₃, token, substr_between hws hat, by simp [hn]⟩

theorem parseNumber_real {int frac exp rest : Bytes} {d : D}
    (h : At text pos (int ++ (frac ++ exp) ++ rest)) (hint : IsInteger int)
    (hfrac : frac = [] ∨ IsFraction frac) (hexp : exp = [] ∨ IsExponent exp)
    (hne : frac ++ exp ≠ []) (hd : stod (int ++ (frac ++ exp)) = some d) (hrest : Ends rest) :
    ∃ pos', parseNumber stod text pos = .ok (.real d, pos') ∧ At text pos' rest := by
  have hws := skipWs_number h (Or.inr ⟨int, frac ++ exp, rfl, hint⟩)
  obtain ⟨p₁, p₂, pos', h₁, h₂, h₃, hat⟩ := parseNumber_parts hws hint hfrac hexp hrest
  refine ⟨pos', ?_, hat⟩
  simp only [parseNumber, except_bind_eq_ok, Prod.exists]
  refine ⟨p₁, h₁, _, p₂, h₂, _, pos', h₃, _, substr_between hws hat, ?_⟩
  rw [if_neg, hd]
  intro hboth
  simp only [Bool.and_eq_true, decide_eq_true_eq] at hboth
  exact hne (by rw [hboth.1, hboth.2]; rfl)

theorem eq_append_of_take {n : ℕ} {literal : Bytes} (h : s.take n = literal) :
    s = literal ++ s.drop n := by
  rw [← h, List.take_append_drop]

theorem parseBool_sound {v : Json D} {pos' : ℕ} (h : At text pos s)
    (hres : parseBool text pos = .ok (v, pos')) :
    ∃ rest, Accepts stod s (.value v) rest ∧ At text pos' rest := by
  simp only [parseBool, compare_eq h, except_bind_eq_ok, Except.ok.injEq, exists_eq_left',
    decide_eq_true_eq] at hres
  split at hres
  · rename_i htrue
    cases hres
    have hs := eq_append_of_take htrue
    refine ⟨s.drop 4, hs ▸ .litTrue _, ?_⟩
    exact (show At text pos (ascii "true" ++ s.drop 4) from hs ▸ h).append
  · simp only [except_bind_eq_ok, Except.ok.injEq, exists_eq_left', decide_eq_true_eq] at hres
    split at hres
    · rename_i hfalse
      cases hres
      have hs := eq_append_of_take hfalse
      refine ⟨s.drop 5, hs ▸ .litFalse _, ?_⟩
      exact (show At text pos (ascii "false" ++ s.drop 5) from hs ▸ h).append
    · cases hres

theorem parseNull_sound {v : Json D} {pos' : ℕ} (h : At text pos s)
    (hres : parseNull text pos = .ok (v, pos')) :
    ∃ rest, Accepts stod s (.value v) rest ∧ At text pos' rest := by
  simp only [parseNull, compare_eq h, except_bind_eq_ok, Except.ok.injEq, exists_eq_left',
    decide_eq_true_eq] at hres
  split at hres
  · rename_i hnull
    cases hres
    have hs := eq_append_of_take hnull
    refine ⟨s.drop 4, hs ▸ .litNull _, ?_⟩
    exact (show At text pos (ascii "null" ++ s.drop 4) from hs ▸ h).append
  · cases hres

/-! ## Soundness -/

/-- What the functions on values return with `fuel` is derived by the grammar. -/
structure Sound (stod : Bytes → Option D) (text : Bytes) (fuel : ℕ) : Prop where
  value : ∀ {pos : ℕ} {s : Bytes} {v : Json D} {pos' : ℕ}, At text pos s →
    parseValue stod text fuel pos = .ok (v, pos') →
    ∃ rest, Accepts stod (s.dropWhile isspace) (.value v) rest ∧ At text pos' rest
  object : ∀ {pos : ℕ} {s : Bytes} {v : Json D} {pos' : ℕ}, At text pos s →
    parseObject stod text fuel pos = .ok (v, pos') →
    ∃ rest, Accepts stod (s.dropWhile isspace) (.value v) rest ∧ At text pos' rest
  members : ∀ {pos : ℕ} {s : Bytes} {object : List (Bytes × Json D)} {v : Json D} {pos' : ℕ},
    At text pos s → parseMembers stod text fuel pos object = .ok (v, pos') →
    ∃ members rest, Accepts stod s (.members members) rest ∧ At text pos' rest ∧
      v = .object (members.foldl (fun object member => emplace member.1 member.2 object) object)
  array : ∀ {pos : ℕ} {s : Bytes} {v : Json D} {pos' : ℕ}, At text pos s →
    parseArray stod text fuel pos = .ok (v, pos') →
    ∃ rest, Accepts stod (s.dropWhile isspace) (.value v) rest ∧ At text pos' rest
  elements : ∀ {pos : ℕ} {s : Bytes} {array : List (Json D)} {v : Json D} {pos' : ℕ},
    At text pos s → parseElements stod text fuel pos array = .ok (v, pos') →
    ∃ elements rest, Accepts stod s (.elements elements) rest ∧ At text pos' rest ∧
      v = .array (array ++ elements)

/-- A `consume` that found its character. -/
theorem consume_sound {c : UInt8} {pos' : ℕ} (h : At text pos s)
    (hres : consume c text pos = (true, pos')) :
    ∃ t, s.dropWhile isspace = c :: t ∧ At text pos' t := by
  by_cases hhead : (s.dropWhile isspace).head? = some c
  · obtain ⟨t, ht⟩ : ∃ t, s.dropWhile isspace = c :: t := by
      cases hs : s.dropWhile isspace with
      | nil =>
          rw [hs] at hhead
          cases hhead
      | cons d t =>
          rw [hs] at hhead
          cases hhead
          exact ⟨t, rfl⟩
    obtain ⟨p, hp, hat⟩ := consume_hit h ht
    rw [hp] at hres
    cases hres
    exact ⟨t, ht, hat⟩
  · obtain ⟨p, hp, -⟩ := consume_miss h hhead
    rw [hp] at hres
    cases hres

/-- A `consume` that found something else. -/
theorem consume_sound_false {c : UInt8} {pos' : ℕ} (h : At text pos s)
    (hres : consume c text pos = (false, pos')) : At text pos' (s.dropWhile isspace) := by
  by_cases hhead : (s.dropWhile isspace).head? = some c
  · cases hs : s.dropWhile isspace with
    | nil =>
        rw [hs] at hhead
        cases hhead
    | cons d t =>
        rw [hs] at hhead
        cases hhead
        obtain ⟨p, hp, -⟩ := consume_hit h hs
        rw [hp] at hres
        cases hres
  · obtain ⟨p, hp, hat⟩ := consume_miss h hhead
    rw [hp] at hres
    cases hres
    exact hat

theorem peek_sound {c : UInt8} {pos' : ℕ} (h : At text pos s)
    (hres : peek text pos = .ok (c, pos')) :
    ∃ t, s.dropWhile isspace = c :: t ∧ At text pos' (c :: t) := by
  cases hs : s.dropWhile isspace with
  | nil =>
      rw [peek_nil h hs] at hres
      cases hres
  | cons d t =>
      obtain ⟨p, hp, hat⟩ := peek_cons h hs
      rw [hp] at hres
      cases hres
      exact ⟨t, rfl, hat⟩

theorem parseValue_sound {fuel : ℕ} (ih : Sound stod text fuel) {v : Json D} {pos' : ℕ}
    (h : At text pos s) (hres : parseValue stod text (fuel + 1) pos = .ok (v, pos')) :
    ∃ rest, Accepts stod (s.dropWhile isspace) (.value v) rest ∧ At text pos' rest := by
  simp only [parseValue, except_bind_eq_ok, Prod.exists] at hres
  obtain ⟨c, p, hpeek, hres⟩ := hres
  obtain ⟨t, ht, hat⟩ := peek_sound h hpeek
  have hdrop : (c :: t).dropWhile isspace = c :: t := by
    rw [← ht, List.dropWhile_idempotent]
  rw [ht]
  split at hres
  · have := ih.object hat hres
    rwa [hdrop] at this
  split at hres
  · have := ih.array hat hres
    rwa [hdrop] at this
  split at hres
  · rename_i hquote
    simp only [except_bind_eq_ok, Prod.exists, Except.ok.injEq, Prod.mk.injEq] at hres
    obtain ⟨str, p', hstr, rfl, rfl⟩ := hres
    obtain ⟨s₁, rest, hs₁, hchars, hat'⟩ := parseString_sound hat hstr
    rw [hdrop] at hs₁
    rw [hs₁]
    exact ⟨rest, .string hchars, hat'⟩
  split at hres
  · exact parseBool_sound hat hres
  split at hres
  · exact parseNull_sound hat hres
  split at hres
  · have := parseNumber_sound hat hres
    rwa [hdrop] at this
  · cases hres

section Brackets

variable (opening closing : UInt8) (v : Json D) (next : ℕ → Except Fault (Json D × ℕ))
  {v' : Json D} {pos' : ℕ}

/-- Objects and arrays up to their loop: the brackets close at once, or `next` goes on
behind the opening one. -/
theorem opening_sound (h : At text pos s)
    (hres : ((let (opened, pos) := consume opening text pos
      if !opened then .error .malformed
      else
        let (closed, pos) := consume closing text (skipWs text pos)
        if closed then .ok (v, pos) else next pos) : Except Fault (Json D × ℕ)) = .ok (v', pos')) :
    ∃ t, s.dropWhile isspace = opening :: t ∧
      ((v' = v ∧ ∃ rest, Ws isspace t (closing :: rest) ∧ At text pos' rest) ∨
        ∃ p, At text p (t.dropWhile isspace) ∧ next p = .ok (v', pos')) := by
  obtain ⟨opened, p, hopen⟩ : ∃ opened p, consume opening text pos = (opened, p) := ⟨_, _, rfl⟩
  cases opened with
  | false => simp [hopen] at hres
  | true =>
      obtain ⟨t, ht, hat⟩ := consume_sound h hopen
      have hws := skipWs_at hat
      obtain ⟨closed, p₁, hclose⟩ :
        ∃ closed p₁, consume closing text (skipWs text p) = (closed, p₁) := ⟨_, _, rfl⟩
      simp only [hopen, hclose, Bool.not_true, Bool.false_eq_true, ↓reduceIte] at hres
      refine ⟨t, ht, ?_⟩
      cases closed with
      | true =>
          cases hres
          obtain ⟨rest, hrest, hat'⟩ := consume_sound hws hclose
          rw [List.dropWhile_idempotent] at hrest
          exact Or.inl ⟨rfl, rest, hrest ▸ ws_dropWhile isspace t, hat'⟩
      | false =>
          have hat' := consume_sound_false hws hclose
          rw [List.dropWhile_idempotent] at hat'
          exact Or.inr ⟨p₁, hat', by simpa using hres⟩

/-- The end of a pass of the two loops: the closing bracket, or a comma and `next`. -/
theorem pass_sound (h : At text pos s)
    (hres : ((let (closed, pos) := consume closing text pos
      if closed then .ok (v, pos)
      else
        let (comma, pos) := consume 44 text pos
        if !comma then .error .malformed else next pos) : Except Fault (Json D × ℕ)) =
          .ok (v', pos')) :
    (v' = v ∧ ∃ rest, Ws isspace s (closing :: rest) ∧ At text pos' rest) ∨
      ∃ t p, Ws isspace s (44 :: t) ∧ At text p t ∧ next p = .ok (v', pos') := by
  obtain ⟨closed, p, hclose⟩ : ∃ closed p, consume closing text pos = (closed, p) := ⟨_, _, rfl⟩
  simp only [hclose] at hres
  cases closed with
  | true =>
      cases hres
      obtain ⟨rest, hrest, hat⟩ := consume_sound h hclose
      exact Or.inl ⟨rfl, rest, hrest ▸ ws_dropWhile isspace s, hat⟩
  | false =>
      have hat := consume_sound_false h hclose
      obtain ⟨comma, p₁, hcomma⟩ : ∃ comma p₁, consume 44 text p = (comma, p₁) := ⟨_, _, rfl⟩
      simp only [hcomma, Bool.false_eq_true, ↓reduceIte, except_ite_error] at hres
      obtain ⟨hfound, hres⟩ := hres
      obtain rfl : comma = true := by simpa using hfound
      obtain ⟨t, ht, hat'⟩ := consume_sound hat hcomma
      rw [List.dropWhile_idempotent] at ht
      exact Or.inr ⟨t, p₁, ht ▸ ws_dropWhile isspace s, hat', hres⟩

end Brackets

theorem parseObject_sound {fuel : ℕ} (ih : Sound stod text fuel) {v : Json D} {pos' : ℕ}
    (h : At text pos s) (hres : parseObject stod text (fuel + 1) pos = .ok (v, pos')) :
    ∃ rest, Accepts stod (s.dropWhile isspace) (.value v) rest ∧ At text pos' rest := by
  rw [parseObject] at hres
  obtain ⟨t, ht, hopened⟩ :=
    opening_sound 123 125 _ (fun p => parseMembers stod text fuel p []) h hres
  rw [ht]
  rcases hopened with ⟨hv, rest, hclose, hat⟩ | ⟨p, hat, hnext⟩
  · obtain rfl : v = .object [] := hv
    exact ⟨rest, .emptyObject hclose, hat⟩
  · obtain ⟨members, rest, hmem, hat', rfl⟩ := ih.members hat hnext
    exact ⟨rest, .object (hmem.ws_members (ws_dropWhile isspace t)), hat'⟩

theorem parseMembers_sound {fuel : ℕ} (ih : Sound stod text fuel)
    {object : List (Bytes × Json D)} {v : Json D} {pos' : ℕ} (h : At text pos s)
    (hres : parseMembers stod text (fuel + 1) pos object = .ok (v, pos')) :
    ∃ members rest, Accepts stod s (.members members) rest ∧ At text pos' rest ∧
      v = .object
        (members.foldl (fun object member => emplace member.1 member.2 object) object) := by
  simp only [parseMembers, except_bind_eq_ok, except_ite_error, Prod.exists] at hres
  obtain ⟨c, p, hpeek, hquote, key, p₁, hkey, hres⟩ := hres
  -- the key
  obtain ⟨t, ht, hat⟩ := peek_sound (skipWs_at h) hpeek
  rw [List.dropWhile_idempotent] at ht
  obtain ⟨s₁, s₂, hs₁, hchars, hat₁⟩ := parseString_sound hat hkey
  have hwskey : Ws isspace s (34 :: s₁) := by
    rw [← hs₁, ← ht, List.dropWhile_idempotent]
    exact ws_dropWhile isspace s
  obtain ⟨colon, p₂, hcolon⟩ : ∃ colon p₂, consume 58 text p₁ = (colon, p₂) := ⟨_, _, rfl⟩
  simp only [hcolon] at hres
  obtain ⟨hfound, v₁, p₃, hvalue, hres⟩ := hres
  obtain rfl : colon = true := by simpa using hfound
  obtain ⟨s₃, hs₃, hat₂⟩ := consume_sound hat₁ hcolon
  -- the value
  obtain ⟨s₅, hderives, hat₃⟩ := ih.value hat₂ hvalue
  have hwscolon : Ws isspace s₂ (58 :: s₃) := hs₃ ▸ ws_dropWhile isspace s₂
  rcases pass_sound 125 _ (fun p => parseMembers stod text fuel p (emplace key v₁ object)) hat₃
    hres with ⟨hv, rest, hclose, hat₄⟩ | ⟨s₆, p₄, hcomma, hat₄, hnext⟩
  · obtain rfl : v = .object (emplace key v₁ object) := hv
    exact ⟨[(key, v₁)], rest, .lastMember hwskey hchars hwscolon (ws_dropWhile isspace s₃)
      hderives hclose, hat₄, rfl⟩
  · obtain ⟨members, rest, hmembers, hat₅, rfl⟩ := ih.members hat₄ hnext
    exact ⟨(key, v₁) :: members, rest, .member hwskey hchars hwscolon
      (ws_dropWhile isspace s₃) hderives hcomma hmembers, hat₅, rfl⟩

theorem parseArray_sound {fuel : ℕ} (ih : Sound stod text fuel) {v : Json D} {pos' : ℕ}
    (h : At text pos s) (hres : parseArray stod text (fuel + 1) pos = .ok (v, pos')) :
    ∃ rest, Accepts stod (s.dropWhile isspace) (.value v) rest ∧ At text pos' rest := by
  rw [parseArray] at hres
  obtain ⟨t, ht, hopened⟩ :=
    opening_sound 91 93 _ (fun p => parseElements stod text fuel p []) h hres
  rw [ht]
  rcases hopened with ⟨hv, rest, hclose, hat⟩ | ⟨p, hat, hnext⟩
  · obtain rfl : v = .array [] := hv
    exact ⟨rest, .emptyArray hclose, hat⟩
  · obtain ⟨elements, rest, hmem, hat', rfl⟩ := ih.elements hat hnext
    exact ⟨rest, .array (hmem.ws_elements (ws_dropWhile isspace t)), hat'⟩

theorem parseElements_sound {fuel : ℕ} (ih : Sound stod text fuel) {array : List (Json D)}
    {v : Json D} {pos' : ℕ} (h : At text pos s)
    (hres : parseElements stod text (fuel + 1) pos array = .ok (v, pos')) :
    ∃ elements rest, Accepts stod s (.elements elements) rest ∧ At text pos' rest ∧
      v = .array (array ++ elements) := by
  simp only [parseElements, except_bind_eq_ok, Prod.exists] at hres
  obtain ⟨v₁, p, hvalue, hres⟩ := hres
  obtain ⟨s₂, hderives, hat⟩ := ih.value h hvalue
  rcases pass_sound 93 _ (fun p => parseElements stod text fuel p (array ++ [v₁])) hat hres with
    ⟨hv, rest, hclose, hat₁⟩ | ⟨s₃, p₁, hcomma, hat₁, hnext⟩
  · obtain rfl : v = .array (array ++ [v₁]) := hv
    exact ⟨[v₁], rest, .lastElement (ws_dropWhile isspace s) hderives hclose, hat₁, rfl⟩
  · obtain ⟨elements, rest, helements, hat₂, rfl⟩ := ih.elements hat₁ hnext
    refine ⟨v₁ :: elements, rest, .element (ws_dropWhile isspace s) hderives hcomma helements,
      hat₂, by simp⟩

theorem sound (stod : Bytes → Option D) (text : Bytes) : ∀ fuel, Sound stod text fuel
  | 0 =>
      { value := fun _ h => by simp [parseValue] at h
        object := fun _ h => by simp [parseObject] at h
        members := fun _ h => by simp [parseMembers] at h
        array := fun _ h => by simp [parseArray] at h
        elements := fun _ h => by simp [parseElements] at h }
  | fuel + 1 =>
      { value := parseValue_sound (sound stod text fuel)
        object := parseObject_sound (sound stod text fuel)
        members := parseMembers_sound (sound stod text fuel)
        array := parseArray_sound (sound stod text fuel)
        elements := parseElements_sound (sound stod text fuel) }

/-! ## Completeness -/

/-- What the grammar derives at the cursor, whitespace before it aside, is returned when
there is fuel enough. -/
def Completes (stod : Bytes → Option D) (text s : Bytes) (symbol : Symbol D) (rest : Bytes) :
    Prop :=
  match symbol with
  | .value v => Ends rest → ∀ (fuel : ℕ) {pos : ℕ} {t : Bytes}, At text pos t →
      t.dropWhile isspace = s → 3 * s.length + 1 ≤ fuel →
      ∃ pos', parseValue stod text fuel pos = .ok (v, pos') ∧ At text pos' rest
  | .members members => ∀ (fuel : ℕ) {pos : ℕ} {t : Bytes} (object : List (Bytes × Json D)),
      At text pos t → t.dropWhile isspace = s.dropWhile isspace → 3 * s.length + 2 ≤ fuel →
      ∃ pos', parseMembers stod text fuel pos object = .ok (.object
        (members.foldl (fun object member => emplace member.1 member.2 object) object), pos') ∧
        At text pos' rest
  | .elements elements => ∀ (fuel : ℕ) {pos : ℕ} {t : Bytes} (array : List (Json D)),
      At text pos t → t.dropWhile isspace = s.dropWhile isspace → 3 * s.length + 2 ≤ fuel →
      ∃ pos', parseElements stod text fuel pos array = .ok (.array (array ++ elements), pos') ∧
        At text pos' rest

/-- `parse_value` looks at the first character that is not whitespace. -/
theorem parseValue_at (stod : Bytes → Option D) {c : UInt8} {t : Bytes} (fuel : ℕ) (h : At text pos s)
    (hs : s.dropWhile isspace = c :: t) :
    ∃ p, At text p (c :: t) ∧ parseValue stod text (fuel + 1) pos =
      (if c = 123 then parseObject stod text fuel p
      else if c = 91 then parseArray stod text fuel p
      else if c = 34 then do
        let (str, pos) ← parseString text p
        .ok (.string str, pos)
      else if c = 116 ∨ c = 102 then parseBool text p
      else if c = 110 then parseNull text p
      else if c = 45 ∨ isdigit c = true then parseNumber stod text p
      else .error .malformed) := by
  obtain ⟨p, hp, hat⟩ := peek_cons h hs
  refine ⟨p, hat, ?_⟩
  rw [parseValue, hp]
  rfl

theorem number_dispatch {c : UInt8} (h : c = 45 ∨ isdigit c = true) :
    c ≠ 123 ∧ c ≠ 91 ∧ c ≠ 34 ∧ ¬ (c = 116 ∨ c = 102) ∧ c ≠ 110 := by
  refine ⟨?_, ?_, ?_, ?_, ?_⟩
  · rintro rfl
    exact absurd h (by decide)
  · rintro rfl
    exact absurd h (by decide)
  · rintro rfl
    exact absurd h (by decide)
  · rintro (rfl | rfl)
    · exact absurd h (by decide)
    · exact absurd h (by decide)
  · rintro rfl
    exact absurd h (by decide)

/-- What stands before a comma or a closing bracket ends a value. -/
theorem Ws.ends {c : UInt8} {t : Bytes} (h : Ws isspace s (c :: t))
    (hc : c = 44 ∨ c = 93 ∨ c = 125) : Ends s := by
  cases h with
  | nil _ =>
      rintro d hd
      cases hd
      exact Or.inr hc
  | cons hspace _ =>
      rintro d hd
      cases hd
      exact Or.inl hspace

theorem Ws.ends_nil (h : Ws isspace s []) : Ends s := by
  cases h with
  | nil _ =>
      rintro d hd
      cases hd
  | cons hspace _ =>
      rintro d hd
      cases hd
      exact Or.inl hspace

theorem number_ne_bracket {c : UInt8} (h : c = 45 ∨ isdigit c = true) : c ≠ 93 := by
  rintro rfl
  exact absurd h (by decide)

/-- A value starts with a character that is neither whitespace nor a closing bracket. -/
theorem Derives.head {ws hex : UInt8 → Bool} {v : Json D} {rest : Bytes}
    (h : Derives ws hex stod s (.value v) rest) :
    ∃ c t, s = c :: t ∧ isspace c = false ∧ c ≠ 93 := by
  cases h with
  | litNull rest => exact ⟨110, _, rfl, by decide⟩
  | litTrue rest => exact ⟨116, _, rfl, by decide⟩
  | litFalse rest => exact ⟨102, _, rfl, by decide⟩
  | integer rest ht _ =>
      obtain ⟨c, t, heq, hc⟩ := ht.head rest
      exact ⟨c, t, heq, isspace_of_number hc, number_ne_bracket hc⟩
  | @real int frac exp d _ hi _ _ _ _ =>
      obtain ⟨c, t, heq, hc⟩ := hi.head (frac ++ exp ++ rest)
      refine ⟨c, t, ?_, isspace_of_number hc, number_ne_bracket hc⟩
      rw [List.append_assoc, heq]
  | string _ => exact ⟨34, _, rfl, by decide⟩
  | emptyObject _ => exact ⟨123, _, rfl, by decide⟩
  | object _ => exact ⟨123, _, rfl, by decide⟩
  | emptyArray _ => exact ⟨91, _, rfl, by decide⟩
  | array _ => exact ⟨91, _, rfl, by decide⟩

theorem Ws.dropWhile_value {t : Bytes} {v : Json D} {rest : Bytes} (h : Ws isspace t s)
    (hv : Accepts stod s (.value v) rest) : t.dropWhile isspace = s := by
  obtain ⟨c, s', rfl, hc, -⟩ := hv.head
  exact h.dropWhile_eq hc

/-- A member up to what follows its value. -/
theorem parseMembers_at {s₁ s₂ s₃ s₅ key : Bytes} {v : Json D} (fuel : ℕ)
    (object : List (Bytes × Json D)) (h : At text pos s) (hs : s.dropWhile isspace = 34 :: s₁)
    (hchars : Chars anyByte s₁ key s₂) (hcolon : Ws isspace s₂ (58 :: s₃))
    (hvalue : ∀ {pos : ℕ}, At text pos s₃ →
      ∃ pos', parseValue stod text fuel pos = .ok (v, pos') ∧ At text pos' s₅) :
    ∃ p, At text p s₅ ∧ parseMembers stod text (fuel + 1) pos object =
      (let (closed, pos) := consume 125 text p
      if closed then .ok (.object (emplace key v object), pos)
      else
        let (comma, pos) := consume 44 text pos
        if !comma then .error .malformed
        else parseMembers stod text fuel pos (emplace key v object)) := by
  have hskip := skipWs_at h
  obtain ⟨p₁, hpeek, hat₁⟩ := peek_cons hskip (by rw [List.dropWhile_idempotent, hs])
  obtain ⟨p₂, hstr, hat₂⟩ := parseString_complete hat₁ rfl hchars
  obtain ⟨p₃, hcons, hat₃⟩ := consume_hit hat₂ (hcolon.dropWhile_eq (by decide))
  obtain ⟨p₄, hval, hat₄⟩ := hvalue hat₃
  refine ⟨p₄, hat₄, ?_⟩
  simp only [parseMembers, hpeek, hstr, hcons, hval, bind, Except.bind, ne_eq,
    not_true_eq_false, ↓reduceIte, Bool.not_true, Bool.false_eq_true]

/-- The value of a member is shorter than the member. -/
theorem value_length_lt {s₁ s₂ s₃ s₄ key : Bytes} (hkey : Ws isspace s (34 :: s₁))
    (hchars : Chars anyByte s₁ key s₂) (hcolon : Ws isspace s₂ (58 :: s₃))
    (hws : Ws isspace s₃ s₄) : s₄.length < s.length := by
  have h1 := hkey.length_le
  have h2 := hchars.length_lt
  have h3 := hcolon.length_le
  have h4 := hws.length_le
  simp only [List.length_cons] at h1 h3
  omega

theorem lastMember_completes {s₁ s₂ s₃ s₄ s₅ key rest : Bytes} {v : Json D}
    (hkey : Ws isspace s (34 :: s₁)) (hchars : Chars anyByte s₁ key s₂)
    (hcolon : Ws isspace s₂ (58 :: s₃)) (hws : Ws isspace s₃ s₄)
    (hvalue : Accepts stod s₄ (.value v) s₅) (hclose : Ws isspace s₅ (125 :: rest))
    (ih : Completes stod text s₄ (.value v) s₅) :
    Completes stod text s (.members [(key, v)]) rest := by
  intro fuel pos t object h ht hfuel
  obtain ⟨fuel, rfl⟩ := Nat.exists_eq_add_of_le' (show 1 ≤ fuel by omega)
  have hlen := value_length_lt hkey hchars hcolon hws
  obtain ⟨p, hat, heq⟩ := parseMembers_at fuel object h
    (ht.trans (hkey.dropWhile_eq (by decide))) hchars hcolon fun hat =>
    ih (hclose.ends (by decide)) fuel hat (hws.dropWhile_value hvalue) (by omega)
  obtain ⟨pos', hcons, hat'⟩ := consume_hit hat (hclose.dropWhile_eq (by decide))
  refine ⟨pos', ?_, hat'⟩
  rw [heq, hcons]
  rfl

theorem member_completes {s₁ s₂ s₃ s₄ s₅ s₆ key rest : Bytes} {v : Json D}
    {members : List (Bytes × Json D)}
    (hkey : Ws isspace s (34 :: s₁)) (hchars : Chars anyByte s₁ key s₂)
    (hcolon : Ws isspace s₂ (58 :: s₃)) (hws : Ws isspace s₃ s₄)
    (hvalue : Accepts stod s₄ (.value v) s₅) (hcomma : Ws isspace s₅ (44 :: s₆))
    (ih : Completes stod text s₄ (.value v) s₅)
    (ih' : Completes stod text s₆ (.members members) rest)
    (hlen₅ : s₅.length ≤ s₄.length) :
    Completes stod text s (.members ((key, v) :: members)) rest := by
  intro fuel pos t object h ht hfuel
  obtain ⟨fuel, rfl⟩ := Nat.exists_eq_add_of_le' (show 1 ≤ fuel by omega)
  have hlen := value_length_lt hkey hchars hcolon hws
  have hlen₆ := hcomma.length_le
  rw [List.length_cons] at hlen₆
  have hnext := hcomma.dropWhile_eq (c := 44) (by decide)
  obtain ⟨p, hat, heq⟩ := parseMembers_at fuel object h
    (ht.trans (hkey.dropWhile_eq (by decide))) hchars hcolon fun hat =>
    ih (hcomma.ends (by decide)) fuel hat (hws.dropWhile_value hvalue) (by omega)
  obtain ⟨p₁, hmiss, hat₁⟩ := consume_miss (c := 125) hat (by rw [hnext]; simp)
  rw [hnext] at hat₁
  obtain ⟨p₂, hhit, hat₂⟩ := consume_hit hat₁ (c := 44) (t := s₆) rfl
  obtain ⟨pos', hrest, hat₃⟩ := ih' fuel (emplace key v object) hat₂ rfl (by omega)
  refine ⟨pos', ?_, hat₃⟩
  rw [heq, hmiss]
  simp only [Bool.false_eq_true, ↓reduceIte, hhit, Bool.not_true]
  exact hrest

/-- An element up to what follows it. -/
theorem parseElements_at {s₂ : Bytes} {v : Json D} (fuel : ℕ) (array : List (Json D))
    (hvalue : ∃ pos', parseValue stod text fuel pos = .ok (v, pos') ∧ At text pos' s₂) :
    ∃ p, At text p s₂ ∧ parseElements stod text (fuel + 1) pos array =
      (let (closed, pos) := consume 93 text p
      if closed then .ok (.array (array ++ [v]), pos)
      else
        let (comma, pos) := consume 44 text pos
        if !comma then .error .malformed
        else parseElements stod text fuel pos (array ++ [v])) := by
  obtain ⟨p, hval, hat⟩ := hvalue
  refine ⟨p, hat, ?_⟩
  rw [parseElements, hval]
  rfl

theorem lastElement_completes {s₁ s₂ rest : Bytes} {v : Json D} (hws : Ws isspace s s₁)
    (hvalue : Accepts stod s₁ (.value v) s₂) (hclose : Ws isspace s₂ (93 :: rest))
    (ih : Completes stod text s₁ (.value v) s₂) :
    Completes stod text s (.elements [v]) rest := by
  intro fuel pos t array h ht hfuel
  obtain ⟨fuel, rfl⟩ := Nat.exists_eq_add_of_le' (show 1 ≤ fuel by omega)
  have hlen := hws.length_le
  obtain ⟨p, hat, heq⟩ := parseElements_at fuel array
    (ih (hclose.ends (by decide)) fuel h (ht.trans (hws.dropWhile_value hvalue)) (by omega))
  obtain ⟨pos', hcons, hat'⟩ := consume_hit hat (hclose.dropWhile_eq (by decide))
  refine ⟨pos', ?_, hat'⟩
  rw [heq, hcons]
  rfl

theorem element_completes {s₁ s₂ s₃ rest : Bytes} {v : Json D} {elements : List (Json D)}
    (hws : Ws isspace s s₁) (hvalue : Accepts stod s₁ (.value v) s₂)
    (hcomma : Ws isspace s₂ (44 :: s₃)) (ih : Completes stod text s₁ (.value v) s₂)
    (ih' : Completes stod text s₃ (.elements elements) rest) (hlen₂ : s₂.length ≤ s₁.length) :
    Completes stod text s (.elements (v :: elements)) rest := by
  intro fuel pos t array h ht hfuel
  obtain ⟨fuel, rfl⟩ := Nat.exists_eq_add_of_le' (show 1 ≤ fuel by omega)
  have hlen := hws.length_le
  have hlen₃ := hcomma.length_le
  rw [List.length_cons] at hlen₃
  have hnext := hcomma.dropWhile_eq (c := 44) (by decide)
  obtain ⟨p, hat, heq⟩ := parseElements_at fuel array
    (ih (hcomma.ends (by decide)) fuel h (ht.trans (hws.dropWhile_value hvalue)) (by omega))
  obtain ⟨p₁, hmiss, hat₁⟩ := consume_miss (c := 93) hat (by rw [hnext]; simp)
  rw [hnext] at hat₁
  obtain ⟨p₂, hhit, hat₂⟩ := consume_hit hat₁ (c := 44) (t := s₃) rfl
  obtain ⟨pos', hrest, hat₃⟩ := ih' fuel (array ++ [v]) hat₂ rfl (by omega)
  refine ⟨pos', ?_, hat₃⟩
  rw [heq, hmiss]
  simp only [Bool.false_eq_true, ↓reduceIte, hhit, Bool.not_true]
  rw [hrest, List.append_assoc]
  rfl

theorem Derives.length_lt {ws hex : UInt8 → Bool} {symbol : Symbol D} {rest : Bytes}
    (h : Derives ws hex stod s symbol rest) : rest.length < s.length := by
  have hint : ∀ {token : Bytes}, IsInteger token → 0 < token.length := by
    intro token htoken
    obtain ⟨c, t, heq, -⟩ := htoken.head []
    rw [List.append_nil] at heq
    simp [heq]
  have hlit : ∀ {token rest : Bytes}, 0 < token.length →
      rest.length < (token ++ rest).length := by
    intro token rest htoken
    rw [List.length_append]
    omega
  induction h with
  | litNull rest => exact hlit (by decide)
  | litTrue rest => exact hlit (by decide)
  | litFalse rest => exact hlit (by decide)
  | integer rest ht _ => exact hlit (hint ht)
  | real rest hi _ _ _ _ =>
      have := hint hi
      simp only [List.length_append]
      omega
  | string h =>
      have := h.length_lt
      rw [List.length_cons]
      omega
  | emptyObject h =>
      have := h.length_le
      rw [List.length_cons] at this ⊢
      omega
  | object _ ih => exact ih.trans (Nat.lt_succ_self _)
  | emptyArray h =>
      have := h.length_le
      rw [List.length_cons] at this ⊢
      omega
  | array _ ih => exact ih.trans (Nat.lt_succ_self _)
  | lastMember h1 h2 h3 h4 _ h6 ih =>
      have := h1.length_le
      have := h2.length_lt
      have := h3.length_le
      have := h4.length_le
      have := h6.length_le
      simp only [List.length_cons] at *
      omega
  | member h1 h2 h3 h4 _ h6 _ ih ih' =>
      have := h1.length_le
      have := h2.length_lt
      have := h3.length_le
      have := h4.length_le
      have := h6.length_le
      simp only [List.length_cons] at *
      omega
  | lastElement h1 _ h3 ih =>
      have := h1.length_le
      have := h3.length_le
      simp only [List.length_cons] at *
      omega
  | element h1 _ h3 _ ih ih' =>
      have := h1.length_le
      have := h3.length_le
      simp only [List.length_cons] at *
      omega

theorem take_literal {n : ℕ} {literal : Bytes} (h : literal.length = n) (rest : Bytes) :
    (literal ++ rest).take n = literal := by
  rw [← h, List.take_left]

theorem litNull_completes (rest : Bytes) :
    Completes stod text (ascii "null" ++ rest) (.value .null) rest := by
  intro _ fuel pos s' h hs hfuel
  obtain ⟨fuel, rfl⟩ := Nat.exists_eq_add_of_le' (show 1 ≤ fuel by omega)
  have hcons : ascii "null" ++ rest = 110 :: ([117, 108, 108] ++ rest) := by rfl
  rw [hcons] at hs
  obtain ⟨p, hat, heq⟩ := parseValue_at stod fuel h hs
  rw [← hcons] at hat
  refine ⟨p + 4, ?_, hat.append⟩
  rw [heq, if_neg (by decide), if_neg (by decide), if_neg (by decide), if_neg (by decide),
    if_pos rfl, parseNull, compare_eq hat, take_literal (by decide)]
  rfl

theorem litTrue_completes (rest : Bytes) :
    Completes stod text (ascii "true" ++ rest) (.value (.bool true)) rest := by
  intro _ fuel pos s' h hs hfuel
  obtain ⟨fuel, rfl⟩ := Nat.exists_eq_add_of_le' (show 1 ≤ fuel by omega)
  have hcons : ascii "true" ++ rest = 116 :: ([114, 117, 101] ++ rest) := by rfl
  rw [hcons] at hs
  obtain ⟨p, hat, heq⟩ := parseValue_at stod fuel h hs
  rw [← hcons] at hat
  refine ⟨p + 4, ?_, hat.append⟩
  rw [heq, if_neg (by decide), if_neg (by decide), if_neg (by decide), if_pos (by decide),
    parseBool, compare_eq hat, take_literal (by decide)]
  rfl

theorem litFalse_completes (rest : Bytes) :
    Completes stod text (ascii "false" ++ rest) (.value (.bool false)) rest := by
  intro _ fuel pos s' h hs hfuel
  obtain ⟨fuel, rfl⟩ := Nat.exists_eq_add_of_le' (show 1 ≤ fuel by omega)
  have hcons : ascii "false" ++ rest = 102 :: ([97, 108, 115, 101] ++ rest) := by rfl
  rw [hcons] at hs
  obtain ⟨p, hat, heq⟩ := parseValue_at stod fuel h hs
  rw [← hcons] at hat
  refine ⟨p + 5, ?_, hat.append⟩
  have hne : (ascii "false" ++ rest).take 4 ≠ ascii "true" := by
    rw [hcons]
    simp [ascii]
  have hfalse : (ascii "false" ++ rest).take 5 = ascii "false" := take_literal (by decide) rest
  rw [heq, if_neg (by decide), if_neg (by decide), if_neg (by decide), if_pos (by decide),
    parseBool, compare_eq hat, compare_eq hat, decide_eq_false hne, hfalse]
  rfl

theorem number_completes {v : Json D} {rest : Bytes}
    (hparse : Ends rest → ∀ {p : ℕ}, At text p s →
      ∃ pos', parseNumber stod text p = .ok (v, pos') ∧ At text pos' rest)
    (hs : ∃ c t, s = c :: t ∧ (c = 45 ∨ isdigit c = true)) :
    Completes stod text s (.value v) rest := by
  intro hends fuel pos s' h hs' hfuel
  obtain ⟨c, t, rfl, hc⟩ := hs
  obtain ⟨fuel, rfl⟩ := Nat.exists_eq_add_of_le' (show 1 ≤ fuel by omega)
  obtain ⟨p, hat, heq⟩ := parseValue_at stod fuel h hs'
  obtain ⟨pos', hres, hat'⟩ := hparse hends hat
  obtain ⟨h1, h2, h3, h4, h5⟩ := number_dispatch hc
  refine ⟨pos', ?_, hat'⟩
  rw [heq, if_neg h1, if_neg h2, if_neg h3, if_neg h4, if_neg h5, if_pos hc, hres]

theorem string_completes {t str rest : Bytes} (hchars : Chars anyByte t str rest) :
    Completes stod text (34 :: t) (.value (.string str)) rest := by
  intro _ fuel pos s' h hs hfuel
  obtain ⟨fuel, rfl⟩ := Nat.exists_eq_add_of_le' (show 1 ≤ fuel by omega)
  obtain ⟨p, hat, heq⟩ := parseValue_at stod fuel h hs
  obtain ⟨pos', hstr, hat'⟩ := parseString_complete hat rfl hchars
  refine ⟨pos', ?_, hat'⟩
  rw [heq, if_neg (by decide), if_neg (by decide), if_pos rfl, hstr]
  rfl

theorem parseValue_object (stod : Bytes → Option D) {t : Bytes} (fuel : ℕ) (h : At text pos s)
    (hs : s.dropWhile isspace = 123 :: t) :
    ∃ p, At text p t ∧ parseValue stod text (fuel + 2) pos =
      if (consume 125 text (skipWs text p)).1 then
        .ok (.object [], (consume 125 text (skipWs text p)).2)
      else parseMembers stod text fuel (consume 125 text (skipWs text p)).2 [] := by
  obtain ⟨p, hat, heq⟩ := parseValue_at stod (fuel + 1) h hs
  obtain ⟨p₁, hopen, hat₁⟩ := consume_hit (c := 123) (t := t) hat rfl
  refine ⟨p₁, hat₁, ?_⟩
  rw [heq, if_pos rfl, parseObject, hopen]
  rfl

theorem parseValue_array (stod : Bytes → Option D) {t : Bytes} (fuel : ℕ) (h : At text pos s)
    (hs : s.dropWhile isspace = 91 :: t) :
    ∃ p, At text p t ∧ parseValue stod text (fuel + 2) pos =
      if (consume 93 text (skipWs text p)).1 then
        .ok (.array [], (consume 93 text (skipWs text p)).2)
      else parseElements stod text fuel (consume 93 text (skipWs text p)).2 [] := by
  obtain ⟨p, hat, heq⟩ := parseValue_at stod (fuel + 1) h hs
  obtain ⟨p₁, hopen, hat₁⟩ := consume_hit (c := 91) (t := t) hat rfl
  refine ⟨p₁, hat₁, ?_⟩
  rw [heq, if_neg (by decide), if_pos rfl, parseArray, hopen]
  rfl

/-- The members of an object start with a quote, so the object is not taken for an
empty one. -/
theorem Derives.members_head {ws hex : UInt8 → Bool} {members : List (Bytes × Json D)}
    {rest : Bytes} (h : Derives ws hex stod s (.members members) rest) :
    ∃ t, Ws ws s (34 :: t) := by
  cases h with
  | lastMember h1 => exact ⟨_, h1⟩
  | member h1 => exact ⟨_, h1⟩

/-- The elements of an array do not start with a closing bracket. -/
theorem Derives.elements_head {elements : List (Json D)} {rest : Bytes}
    (h : Accepts stod s (.elements elements) rest) :
    (s.dropWhile isspace).head? ≠ some 93 := by
  have hvalue : ∀ {t : Bytes} {v : Json D} {r : Bytes}, Ws isspace s t →
      Accepts stod t (.value v) r → (s.dropWhile isspace).head? ≠ some 93 := by
    intro t v r hws hv
    rw [hws.dropWhile_value hv]
    obtain ⟨c, t', rfl, -, hc⟩ := hv.head
    simpa using hc
  cases h with
  | lastElement h1 h2 _ => exact hvalue h1 h2
  | element h1 h2 _ _ => exact hvalue h1 h2

theorem emptyObject_completes {t rest : Bytes} (hclose : Ws isspace t (125 :: rest)) :
    Completes stod text (123 :: t) (.value (.object [])) rest := by
  intro _ fuel pos s' h hs hfuel
  rw [List.length_cons] at hfuel
  obtain ⟨fuel, rfl⟩ := Nat.exists_eq_add_of_le' (show 2 ≤ fuel by omega)
  obtain ⟨p, hat, heq⟩ := parseValue_object stod fuel h hs
  obtain ⟨pos', hcons, hat'⟩ := consume_hit (c := 125) (t := rest) (skipWs_at hat)
    (by rw [List.dropWhile_idempotent, hclose.dropWhile_eq (by decide)])
  refine ⟨pos', ?_, hat'⟩
  rw [heq, hcons]
  rfl

theorem object_completes {t rest : Bytes} {members : List (Bytes × Json D)}
    (hmembers : Accepts stod t (.members members) rest)
    (ih : Completes stod text t (.members members) rest) :
    Completes stod text (123 :: t) (.value (.object (ofMembers members))) rest := by
  intro _ fuel pos s' h hs hfuel
  rw [List.length_cons] at hfuel
  obtain ⟨fuel, rfl⟩ := Nat.exists_eq_add_of_le' (show 2 ≤ fuel by omega)
  obtain ⟨p, hat, heq⟩ := parseValue_object stod fuel h hs
  obtain ⟨t', hquote⟩ := hmembers.members_head
  obtain ⟨p', hmiss, hat'⟩ := consume_miss (c := 125) (skipWs_at hat)
    (by rw [List.dropWhile_idempotent, hquote.dropWhile_eq (by decide)]; simp)
  obtain ⟨pos', hres, hrest⟩ := ih fuel [] hat'
    (by rw [List.dropWhile_idempotent, List.dropWhile_idempotent]) (by omega)
  refine ⟨pos', ?_, hrest⟩
  rw [heq, hmiss]
  exact hres

theorem emptyArray_completes {t rest : Bytes} (hclose : Ws isspace t (93 :: rest)) :
    Completes stod text (91 :: t) (.value (.array [])) rest := by
  intro _ fuel pos s' h hs hfuel
  rw [List.length_cons] at hfuel
  obtain ⟨fuel, rfl⟩ := Nat.exists_eq_add_of_le' (show 2 ≤ fuel by omega)
  obtain ⟨p, hat, heq⟩ := parseValue_array stod fuel h hs
  obtain ⟨pos', hcons, hat'⟩ := consume_hit (c := 93) (t := rest) (skipWs_at hat)
    (by rw [List.dropWhile_idempotent, hclose.dropWhile_eq (by decide)])
  refine ⟨pos', ?_, hat'⟩
  rw [heq, hcons]
  rfl

theorem array_completes {t rest : Bytes} {elements : List (Json D)}
    (helements : Accepts stod t (.elements elements) rest)
    (ih : Completes stod text t (.elements elements) rest) :
    Completes stod text (91 :: t) (.value (.array elements)) rest := by
  intro _ fuel pos s' h hs hfuel
  rw [List.length_cons] at hfuel
  obtain ⟨fuel, rfl⟩ := Nat.exists_eq_add_of_le' (show 2 ≤ fuel by omega)
  obtain ⟨p, hat, heq⟩ := parseValue_array stod fuel h hs
  obtain ⟨p', hmiss, hat'⟩ := consume_miss (c := 93) (skipWs_at hat)
    (by rw [List.dropWhile_idempotent]; exact helements.elements_head)
  obtain ⟨pos', hres, hrest⟩ := ih fuel [] hat'
    (by rw [List.dropWhile_idempotent, List.dropWhile_idempotent]) (by omega)
  refine ⟨pos', ?_, hrest⟩
  rw [heq, hmiss]
  exact hres

/-- Every derivation is followed, one case for each rule of the grammar. -/
theorem completes {symbol : Symbol D} {rest : Bytes} (text : Bytes)
    (h : Accepts stod s symbol rest) : Completes stod text s symbol rest := by
  induction h with
  | litNull rest => exact litNull_completes rest
  | litTrue rest => exact litTrue_completes rest
  | litFalse rest => exact litFalse_completes rest
  | integer rest ht hn =>
      exact number_completes (fun hends _ hat => parseNumber_integer hat ht hn hends) (ht.head rest)
  | @real int frac exp d rest hi hf he hne hd =>
      refine number_completes (fun hends _ hat => parseNumber_real hat hi hf he hne hd hends) ?_
      rw [List.append_assoc]
      exact hi.head (frac ++ exp ++ rest)
  | string hchars => exact string_completes hchars
  | emptyObject hclose => exact emptyObject_completes hclose
  | object hmembers ih => exact object_completes hmembers ih
  | emptyArray hclose => exact emptyArray_completes hclose
  | array helements ih => exact array_completes helements ih
  | lastMember h1 h2 h3 h4 h5 h6 ih => exact lastMember_completes h1 h2 h3 h4 h5 h6 ih
  | member h1 h2 h3 h4 h5 h6 _ ih ih' =>
      exact member_completes h1 h2 h3 h4 h5 h6 ih ih' h5.length_lt.le
  | lastElement h1 h2 h3 ih => exact lastElement_completes h1 h2 h3 ih
  | element h1 h2 h3 _ ih ih' => exact element_completes h1 h2 h3 ih ih' h2.length_lt.le

end Json

end LinkScheduling
