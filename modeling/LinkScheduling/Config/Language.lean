import LinkScheduling.Config.Parsing

/-!
# The language of the parser

A text the grammar does not derive is malformed: the parser neither reads behind the end
of the text nor runs out of fuel. Where the parser and RFC 8259 differ is then a matter
of the two grammars: vertical tabs and form feeds between the tokens, and bytes behind
`\u` that are not hex digits.
-/

namespace LinkScheduling

open Framework

namespace Json

variable {D : Type} {stod : Bytes → Option D} {text s : Bytes} {pos : ℕ}

/-! ## Every other text is malformed -/

/-- If `x` fails, then by `fail()`. -/
def OnlyMalformed {α : Type} (x : Except Fault α) : Prop :=
  ∀ fault, x = .error fault → fault = .malformed

section OnlyMalformed

variable {α β : Type}

theorem OnlyMalformed.ok (a : α) : OnlyMalformed (.ok a) := by
  intro fault h
  cases h

theorem OnlyMalformed.malformed : OnlyMalformed (.error .malformed : Except Fault α) := by
  intro fault h
  cases h
  rfl

theorem OnlyMalformed.bind {x : Except Fault α} {f : α → Except Fault β} (hx : OnlyMalformed x)
    (hf : ∀ a, x = .ok a → OnlyMalformed (f a)) : OnlyMalformed (x >>= f) := by
  intro fault h
  rcases except_bind_eq_error h with h | ⟨a, ha, h⟩
  · exact hx fault h
  · exact hf a ha fault h

theorem OnlyMalformed.ite {c : Prop} [Decidable c] {x y : Except Fault α}
    (hx : c → OnlyMalformed x) (hy : ¬ c → OnlyMalformed y) :
    OnlyMalformed (if c then x else y) := by
  split
  · rename_i hc
    exact hx hc
  · rename_i hc
    exact hy hc

end OnlyMalformed

theorem peek_malformed (h : At text pos s) : OnlyMalformed (peek text pos) := by
  cases hs : s.dropWhile isspace with
  | nil =>
      rw [peek_nil h hs]
      exact .malformed
  | cons c t =>
      obtain ⟨p, hp, -⟩ := peek_cons h hs
      rw [hp]
      exact .ok _

theorem integerPart_malformed : OnlyMalformed (integerPart text pos) :=
  .ite (fun _ => .malformed) fun _ => .ite (fun _ => .ok _) fun _ => .ok _

theorem fractionPart_malformed : OnlyMalformed (fractionPart text pos) :=
  .ite (fun _ => .ite (fun _ => .malformed) fun _ => .ok _) fun _ => .ok _

theorem exponentPart_malformed : OnlyMalformed (exponentPart text pos) :=
  .ite (fun _ => .ite (fun _ => .malformed) fun _ => .ok _) fun _ => .ok _

theorem parseNumber_malformed (h : At text pos s) :
    OnlyMalformed (parseNumber stod text pos) := by
  have hws := skipWs_at h
  refine .bind integerPart_malformed fun p₁ hint => ?_
  obtain ⟨int, r₁, hs, -, hat₁⟩ := integerPart_sound hws hint
  refine .bind fractionPart_malformed ?_
  rintro ⟨noFrac, p₂⟩ hfrac
  obtain ⟨frac, r₂, rfl, hat₂, -⟩ := fractionPart_sound hat₁ hfrac
  refine .bind exponentPart_malformed ?_
  rintro ⟨noExp, p₃⟩ hexp
  obtain ⟨exp, r₃, rfl, hat₃, -⟩ := exponentPart_sound hat₂ hexp
  have hat : At text (skipWs text pos) (int ++ (frac ++ exp) ++ r₃) := by
    rw [hs] at hws
    simpa using hws
  -- the cursor has stayed inside the text, so `substr` does not throw
  have htoken : OnlyMalformed (substr text (skipWs text pos) (p₃ - skipWs text pos)) := by
    rw [substr_between hat hat₃]
    exact .ok _
  refine .bind htoken fun token _ => .ite (fun _ => ?_) fun _ => ?_
  · cases stoll token with
    | some n => exact .ok _
    | none => exact .malformed
  · cases stod token with
    | some d => exact .ok _
    | none => exact .malformed

theorem compare_malformed (h : At text pos s) (len : ℕ) (literal : Bytes) :
    OnlyMalformed (compare text pos len literal) := by
  rw [compare_eq h]
  exact .ok _

theorem parseBool_malformed (h : At text pos s) :
    OnlyMalformed (parseBool text pos : Except Fault (Json D × ℕ)) :=
  .bind (compare_malformed h _ _) fun _ _ => .ite (fun _ => .ok _) fun _ =>
    .bind (compare_malformed h _ _) fun _ _ => .ite (fun _ => .ok _) fun _ => .malformed

theorem parseNull_malformed (h : At text pos s) :
    OnlyMalformed (parseNull text pos : Except Fault (Json D × ℕ)) :=
  .bind (compare_malformed h _ _) fun _ _ => .ite (fun _ => .ok _) fun _ => .malformed

/-- With the given fuel the functions on values fail by `fail()` only. -/
structure Fails (stod : Bytes → Option D) (text : Bytes) (fuel : ℕ) : Prop where
  value : ∀ {pos : ℕ} {s : Bytes}, At text pos s → 3 * s.length + 1 ≤ fuel →
    OnlyMalformed (parseValue stod text fuel pos)
  object : ∀ {pos : ℕ} {s : Bytes}, At text pos s → 3 * s.length ≤ fuel → 0 < fuel →
    OnlyMalformed (parseObject stod text fuel pos)
  members : ∀ {pos : ℕ} {s : Bytes} (object : List (Bytes × Json D)), At text pos s →
    3 * s.length + 2 ≤ fuel → OnlyMalformed (parseMembers stod text fuel pos object)
  array : ∀ {pos : ℕ} {s : Bytes}, At text pos s → 3 * s.length ≤ fuel → 0 < fuel →
    OnlyMalformed (parseArray stod text fuel pos)
  elements : ∀ {pos : ℕ} {s : Bytes} (array : List (Json D)), At text pos s →
    3 * s.length + 2 ≤ fuel → OnlyMalformed (parseElements stod text fuel pos array)

theorem length_dropWhile_le (p : UInt8 → Bool) (s : Bytes) :
    (s.dropWhile p).length ≤ s.length :=
  (ws_dropWhile p s).length_le

theorem parseValue_malformed {fuel : ℕ} (ih : Fails stod text fuel) (h : At text pos s)
    (hfuel : 3 * s.length + 1 ≤ fuel + 1) :
    OnlyMalformed (parseValue stod text (fuel + 1) pos) := by
  rw [parseValue]
  refine .bind (peek_malformed h) ?_
  rintro ⟨c, p⟩ hpeek
  obtain ⟨t, ht, hat⟩ := peek_sound h hpeek
  have hlen := length_dropWhile_le isspace s
  rw [ht] at hlen
  have hpos : 0 < (c :: t).length := Nat.succ_pos _
  refine .ite (fun _ => ih.object hat (by omega) (by omega)) fun _ => ?_
  refine .ite (fun _ => ih.array hat (by omega) (by omega)) fun _ => ?_
  refine .ite (fun _ => .bind (fun _ hfault => parseString_error hfault) fun _ _ => .ok _)
    fun _ => ?_
  refine .ite (fun _ => parseBool_malformed hat) fun _ => ?_
  refine .ite (fun _ => parseNull_malformed hat) fun _ => ?_
  exact .ite (fun _ => parseNumber_malformed hat) fun _ => .malformed

/-- Objects and arrays up to their loop, `next`. -/
theorem opening_malformed (opening closing : UInt8) (v : Json D)
    (next : ℕ → Except Fault (Json D × ℕ)) (h : At text pos s)
    (hnext : ∀ {p : ℕ} {t : Bytes}, At text p t → t.length < s.length →
      OnlyMalformed (next p)) :
    OnlyMalformed
      (let (opened, pos) := consume opening text pos
      if !opened then .error .malformed
      else
        let (closed, pos) := consume closing text (skipWs text pos)
        if closed then .ok (v, pos) else next pos) := by
  obtain ⟨opened, p, hopen⟩ : ∃ opened p, consume opening text pos = (opened, p) := ⟨_, _, rfl⟩
  rw [hopen]
  cases opened with
  | false => exact .malformed
  | true =>
      obtain ⟨t, ht, hat⟩ := consume_sound h hopen
      have hlen := length_dropWhile_le isspace s
      rw [ht, List.length_cons] at hlen
      have hlen' := length_dropWhile_le isspace t
      obtain ⟨closed, p', hclose⟩ :
        ∃ closed p', consume closing text (skipWs text p) = (closed, p') := ⟨_, _, rfl⟩
      simp only [hclose]
      cases closed with
      | true => exact .ok _
      | false =>
          have hat' := consume_sound_false (skipWs_at hat) hclose
          rw [List.dropWhile_idempotent] at hat'
          exact hnext hat' (by omega)

theorem parseObject_malformed {fuel : ℕ} (ih : Fails stod text fuel) (h : At text pos s)
    (hfuel : 3 * s.length ≤ fuel + 1) : OnlyMalformed (parseObject stod text (fuel + 1) pos) := by
  rw [parseObject]
  exact opening_malformed 123 125 _ (fun p => parseMembers stod text fuel p []) h
    fun hat hlen => ih.members [] hat (by omega)

theorem parseArray_malformed {fuel : ℕ} (ih : Fails stod text fuel) (h : At text pos s)
    (hfuel : 3 * s.length ≤ fuel + 1) : OnlyMalformed (parseArray stod text (fuel + 1) pos) := by
  rw [parseArray]
  exact opening_malformed 91 93 _ (fun p => parseElements stod text fuel p []) h
    fun hat hlen => ih.elements [] hat (by omega)

/-- The end of a pass of the two loops: a closing bracket, or a comma and another pass. -/
theorem pass_malformed {c : UInt8} {v : Json D} {again : ℕ → Except Fault (Json D × ℕ)}
    (h : At text pos s)
    (hagain : ∀ {p : ℕ} {t : Bytes}, At text p t → t.length < s.length →
      OnlyMalformed (again p)) :
    OnlyMalformed
      (let (closed, pos) := consume c text pos
      if closed then .ok (v, pos)
      else
        let (comma, pos) := consume 44 text pos
        if !comma then .error .malformed else again pos) := by
  obtain ⟨closed, p₁, hclose⟩ : ∃ closed p₁, consume c text pos = (closed, p₁) := ⟨_, _, rfl⟩
  rw [hclose]
  cases closed with
  | true => exact .ok _
  | false =>
      have hat := consume_sound_false h hclose
      obtain ⟨comma, p₂, hcomma⟩ : ∃ comma p₂, consume 44 text p₁ = (comma, p₂) := ⟨_, _, rfl⟩
      simp only [hcomma, Bool.false_eq_true, ↓reduceIte]
      cases comma with
      | false => exact .malformed
      | true =>
          obtain ⟨t, ht, hat'⟩ := consume_sound hat hcomma
          rw [List.dropWhile_idempotent] at ht
          have hlen := length_dropWhile_le isspace s
          rw [ht, List.length_cons] at hlen
          exact hagain hat' hlen

theorem parseMembers_malformed {fuel : ℕ} (ih : Fails stod text fuel)
    (object : List (Bytes × Json D)) (h : At text pos s) (hfuel : 3 * s.length + 2 ≤ fuel + 1) :
    OnlyMalformed (parseMembers stod text (fuel + 1) pos object) := by
  rw [parseMembers]
  have hskip := skipWs_at h
  refine .bind (peek_malformed hskip) ?_
  rintro ⟨c, p⟩ hpeek
  refine .ite (fun _ => .malformed) fun _ => ?_
  obtain ⟨t, ht, hat⟩ := peek_sound hskip hpeek
  rw [List.dropWhile_idempotent] at ht
  refine .bind (fun _ hfault => parseString_error hfault) ?_
  rintro ⟨key, p₁⟩ hkey
  obtain ⟨s₁, s₂, hs₁, hchars, hat₁⟩ := parseString_sound hat hkey
  have hlen : s₂.length < s.length := by
    have h1 := length_dropWhile_le isspace s
    have h2 := hchars.length_lt
    rw [← ht, List.dropWhile_idempotent] at hs₁
    rw [hs₁, List.length_cons] at h1
    omega
  obtain ⟨colon, p₂, hcolon⟩ : ∃ colon p₂, consume 58 text p₁ = (colon, p₂) := ⟨_, _, rfl⟩
  simp only [hcolon]
  cases colon with
  | false => exact .malformed
  | true =>
      obtain ⟨s₃, hs₃, hat₂⟩ := consume_sound hat₁ hcolon
      have hlen₃ := length_dropWhile_le isspace s₂
      rw [hs₃, List.length_cons] at hlen₃
      refine .bind (ih.value hat₂ (by omega)) ?_
      rintro ⟨v, p₃⟩ hvalue
      obtain ⟨s₅, hderives, hat₃⟩ := (sound stod text fuel).value hat₂ hvalue
      have hlen₅ := hderives.length_lt
      have hlen₄ := length_dropWhile_le isspace s₃
      exact pass_malformed hat₃ fun hat₄ hlen₆ => ih.members _ hat₄ (by omega)

theorem parseElements_malformed {fuel : ℕ} (ih : Fails stod text fuel)
    (array : List (Json D)) (h : At text pos s) (hfuel : 3 * s.length + 2 ≤ fuel + 1) :
    OnlyMalformed (parseElements stod text (fuel + 1) pos array) := by
  rw [parseElements]
  refine .bind (ih.value h (by omega)) ?_
  rintro ⟨v, p⟩ hvalue
  obtain ⟨s₂, hderives, hat⟩ := (sound stod text fuel).value h hvalue
  have hlen₂ := hderives.length_lt
  have hlen₁ := length_dropWhile_le isspace s
  exact pass_malformed hat fun hat₁ hlen₃ => ih.elements _ hat₁ (by omega)

theorem fails (stod : Bytes → Option D) (text : Bytes) : ∀ fuel, Fails stod text fuel
  | 0 =>
      { value := fun _ hfuel => by omega
        object := fun _ _ hfuel => by omega
        members := fun _ _ hfuel => by omega
        array := fun _ _ hfuel => by omega
        elements := fun _ _ hfuel => by omega }
  | fuel + 1 =>
      { value := parseValue_malformed (fails stod text fuel)
        object := fun h hfuel _ => parseObject_malformed (fails stod text fuel) h hfuel
        members := parseMembers_malformed (fails stod text fuel)
        array := fun h hfuel _ => parseArray_malformed (fails stod text fuel) h hfuel
        elements := parseElements_malformed (fails stod text fuel) }

/-! ## The parser and its grammar -/

theorem At.zero (text : Bytes) : At text 0 text := ⟨Nat.zero_le _, rfl⟩

theorem skipWs_end {pos' : ℕ} (h : At text pos s) (hpos : pos' = skipWs text pos) :
    pos' = text.length ↔ Ws isspace s [] := by
  have hws := skipWs_at h
  have hlen := hws.length
  subst hpos
  constructor
  · intro hend
    have hnil : s.dropWhile isspace = [] := List.eq_nil_of_length_eq_zero (by omega)
    exact hnil ▸ ws_dropWhile isspace s
  · intro hs
    rw [hs.dropWhile_eq_nil, List.length_nil] at hlen
    omega

/-- `Parser::parse` returns `v` exactly for the texts of `v` in its grammar. -/
theorem parse_eq_ok_iff {v : Json D} :
    parse stod text = .ok v ↔ IsText isspace anyByte stod text v := by
  have hskip := skipWs_at (At.zero text)
  constructor
  · intro h
    simp only [parse, except_bind_eq_ok, except_ite_error, Prod.exists] at h
    obtain ⟨v', pos, hvalue, hend, hv⟩ := h
    cases hv
    obtain ⟨rest, hderives, hat⟩ := (sound stod text _).value hskip hvalue
    rw [List.dropWhile_idempotent] at hderives
    exact ⟨text.dropWhile isspace, rest, ws_dropWhile isspace text, hderives,
      (skipWs_end hat rfl).mp (by simpa using hend)⟩
  · rintro ⟨s₁, s₂, hws, hderives, hend⟩
    have hdrop : (text.dropWhile isspace).dropWhile isspace = s₁ := by
      rw [List.dropWhile_idempotent, hws.dropWhile_value hderives]
    have hlen := hws.length_le
    obtain ⟨pos, hvalue, hat⟩ := completes text hderives hend.ends_nil (3 * text.length + 3)
      hskip hdrop (by omega)
    simp only [parse, except_bind_eq_ok, except_ite_error, Prod.exists]
    refine ⟨v, pos, hvalue, ?_, rfl⟩
    simpa using (skipWs_end hat rfl).mpr hend

theorem parse_malformed (stod : Bytes → Option D) (text : Bytes) :
    OnlyMalformed (parse stod text) := by
  have hskip := skipWs_at (At.zero text)
  have hlen := length_dropWhile_le isspace text
  exact .bind ((fails stod text _).value hskip (by omega)) fun _ _ =>
    .ite (fun _ => .malformed) fun _ => .ok _

/-! ## RFC 8259

`isClean` runs over a text and knows whether it stands inside a string. -/

/-- Between the strings neither a vertical tab nor a form feed, and in the strings four
hex digits behind every `\u`. -/
def isClean (inString : Bool) : Bytes → Bool
  | [] => true
  | c :: s =>
      if inString then
        if c = 34 then isClean false s
        else if c = 92 then
          match s with
          | [] => true
          | esc :: s =>
              if esc = 117 then
                match s with
                | a :: b :: c :: d :: s =>
                    isHexDigit a && isHexDigit b && isHexDigit c && isHexDigit d && isClean true s
                | _ => false
              else isClean true s
        else isClean true s
      else if c = 11 ∨ c = 12 then false
      else isClean (c = 34) s

/-- A character of a token that is not a string. -/
def IsPlain (c : UInt8) : Prop := c ≠ 11 ∧ c ≠ 12 ∧ c ≠ 34

instance (c : UInt8) : Decidable (IsPlain c) := inferInstanceAs (Decidable (_ ∧ _))

theorem isClean_cons {c : UInt8} (h : IsPlain c) (s : Bytes) :
    isClean false (c :: s) = isClean false s := by
  obtain ⟨h1, h2, h3⟩ := h
  rw [isClean.eq_def]
  simp [h1, h2, h3]

theorem isClean_append {token : Bytes} (h : ∀ c ∈ token, IsPlain c) (s : Bytes) :
    isClean false (token ++ s) = isClean false s := by
  induction token with
  | nil => rfl
  | cons c token ih =>
      rw [List.cons_append, isClean_cons (h c List.mem_cons_self)]
      exact ih fun d hd => h d (List.mem_cons_of_mem c hd)

theorem isClean_quote (s : Bytes) : isClean false (34 :: s) = isClean true s := by
  rw [isClean.eq_def]
  simp

theorem isPlain_of_isdigit {c : UInt8} (h : isdigit c = true) : IsPlain c := by
  refine ⟨?_, ?_, ?_⟩ <;>
    (rintro rfl; exact absurd h (by decide))

theorem IsInteger.plain {token : Bytes} (h : IsInteger token) : ∀ c ∈ token, IsPlain c := by
  obtain ⟨sign, digits, rfl, hsign, hdigits⟩ := h
  intro c hc
  rcases List.mem_append.mp hc with hc | hc
  · rcases hsign with rfl | rfl
    · cases hc
    · rw [List.mem_singleton.mp hc]
      decide
  · rcases hdigits with rfl | ⟨hdigits, -⟩
    · rw [List.mem_singleton.mp hc]
      decide
    · exact isPlain_of_isdigit (hdigits.2 c hc)

theorem IsFraction.plain {token : Bytes} (h : IsFraction token) : ∀ c ∈ token, IsPlain c := by
  obtain ⟨digits, rfl, hdigits⟩ := h
  intro c hc
  rcases List.mem_cons.mp hc with rfl | hc
  · decide
  · exact isPlain_of_isdigit (hdigits.2 c hc)

theorem IsExponent.plain {token : Bytes} (h : IsExponent token) : ∀ c ∈ token, IsPlain c := by
  obtain ⟨e, sign, digits, rfl, he, hsign, hdigits⟩ := h
  intro c hc
  rcases List.mem_cons.mp hc with rfl | hc
  · rcases he with rfl | rfl <;> decide
  rcases List.mem_append.mp hc with hc | hc
  · rcases hsign with rfl | rfl | rfl
    · cases hc
    · rw [List.mem_singleton.mp hc]
      decide
    · rw [List.mem_singleton.mp hc]
      decide
  · exact isPlain_of_isdigit (hdigits.2 c hc)

theorem isClean_integer {token : Bytes} (h : IsInteger token) (rest : Bytes) :
    isClean false (token ++ rest) = isClean false rest :=
  isClean_append h.plain rest

theorem isClean_real {int frac exp : Bytes} (hint : IsInteger int)
    (hfrac : frac = [] ∨ IsFraction frac) (hexp : exp = [] ∨ IsExponent exp) (rest : Bytes) :
    isClean false (int ++ (frac ++ exp) ++ rest) = isClean false rest := by
  have hplain : ∀ c ∈ int ++ (frac ++ exp), IsPlain c := by
    intro c hc
    rcases List.mem_append.mp hc with hc | hc
    · exact hint.plain c hc
    rcases List.mem_append.mp hc with hc | hc
    · rcases hfrac with rfl | hfrac
      · cases hc
      · exact hfrac.plain c hc
    · rcases hexp with rfl | hexp
      · cases hc
      · exact hexp.plain c hc
  exact isClean_append hplain rest

/-! ### Clean texts lose nothing -/

theorem isJsonSpace_of_isspace {c : UInt8} (h : isspace c = true) (hne : ¬ (c = 11 ∨ c = 12)) :
    isJsonSpace c = true ∧ IsPlain c := by
  rw [isspace_iff] at h
  simp only [isJsonSpace, IsPlain, Bool.or_eq_true, decide_eq_true_eq, ne_eq,
    ← UInt8.toNat_inj, UInt8.reduceToNat] at hne ⊢
  omega

theorem Ws.strict {rest : Bytes} (h : Ws isspace s rest) (hs : isClean false s = true) :
    Ws isJsonSpace s rest ∧ isClean false rest = true := by
  induction h with
  | nil s => exact ⟨.nil s, hs⟩
  | @cons c s rest hc _ ih =>
      have hne : ¬ (c = 11 ∨ c = 12) := by
        intro hbad
        rw [isClean.eq_def] at hs
        simp [hbad] at hs
      have hspace := isJsonSpace_of_isspace hc hne
      rw [isClean_cons hspace.2] at hs
      obtain ⟨hws, hrest⟩ := ih hs
      exact ⟨.cons hspace.1 hws, hrest⟩

theorem isClean_escape {esc d : UInt8} (h : unescape esc = some d) (s : Bytes) :
    isClean true (92 :: esc :: s) = isClean true s := by
  have hne : esc ≠ 117 := by
    rintro rfl
    rw [unescape_u] at h
    cases h
  rw [isClean.eq_def]
  simp [hne]

theorem isClean_unicode {a b c d : UInt8} {s : Bytes} :
    isClean true (92 :: 117 :: a :: b :: c :: d :: s) = true ↔ isHexDigit a = true ∧
      isHexDigit b = true ∧ isHexDigit c = true ∧ isHexDigit d = true ∧
      isClean true s = true := by
  rw [isClean.eq_def]
  simp [and_assoc]

theorem isClean_char {c : UInt8} (hquote : c ≠ 34) (hslash : c ≠ 92) (s : Bytes) :
    isClean true (c :: s) = isClean true s := by
  rw [isClean.eq_def]
  simp [hquote, hslash]

theorem isClean_close (s : Bytes) : isClean true (34 :: s) = isClean false s := by
  rw [isClean.eq_def]
  simp

theorem Chars.strict {str rest : Bytes} (h : Chars anyByte s str rest)
    (hs : isClean true s = true) : Chars isHexDigit s str rest ∧ isClean false rest = true := by
  induction h with
  | quote rest => exact ⟨.quote rest, (isClean_close rest).symm.trans hs⟩
  | plain h1 h2 h3 _ ih =>
      rw [isClean_char h2 h3] at hs
      obtain ⟨hchars, hrest⟩ := ih hs
      exact ⟨.plain h1 h2 h3 hchars, hrest⟩
  | escape he _ ih =>
      rw [isClean_escape he] at hs
      obtain ⟨hchars, hrest⟩ := ih hs
      exact ⟨.escape he hchars, hrest⟩
  | unicode _ _ _ _ _ ih =>
      obtain ⟨ha, hb, hc, hd, hs⟩ := isClean_unicode.mp hs
      obtain ⟨hchars, hrest⟩ := ih hs
      exact ⟨.unicode ha hb hc hd hchars, hrest⟩

/-- The grammar of RFC 8259. -/
abbrev Strict (stod : Bytes → Option D) : Bytes → Symbol D → Bytes → Prop :=
  Derives isJsonSpace isHexDigit stod

theorem Derives.strict {symbol : Symbol D} {rest : Bytes} (h : Accepts stod s symbol rest)
    (hs : isClean false s = true) : Strict stod s symbol rest ∧ isClean false rest = true := by
  induction h with
  | litNull rest =>
      rw [isClean_append (by decide)] at hs
      exact ⟨.litNull rest, hs⟩
  | litTrue rest =>
      rw [isClean_append (by decide)] at hs
      exact ⟨.litTrue rest, hs⟩
  | litFalse rest =>
      rw [isClean_append (by decide)] at hs
      exact ⟨.litFalse rest, hs⟩
  | integer rest ht hn =>
      rw [isClean_integer ht] at hs
      exact ⟨.integer rest ht hn, hs⟩
  | real rest hi hf he hne hd =>
      rw [isClean_real hi hf he] at hs
      exact ⟨.real rest hi hf he hne hd, hs⟩
  | string hchars =>
      rw [isClean_quote] at hs
      obtain ⟨hchars, hrest⟩ := hchars.strict hs
      exact ⟨.string hchars, hrest⟩
  | emptyObject hclose =>
      rw [isClean_cons (by decide)] at hs
      obtain ⟨hclose, hrest⟩ := hclose.strict hs
      rw [isClean_cons (by decide)] at hrest
      exact ⟨.emptyObject hclose, hrest⟩
  | object _ ih =>
      rw [isClean_cons (by decide)] at hs
      obtain ⟨hmembers, hrest⟩ := ih hs
      exact ⟨.object hmembers, hrest⟩
  | emptyArray hclose =>
      rw [isClean_cons (by decide)] at hs
      obtain ⟨hclose, hrest⟩ := hclose.strict hs
      rw [isClean_cons (by decide)] at hrest
      exact ⟨.emptyArray hclose, hrest⟩
  | array _ ih =>
      rw [isClean_cons (by decide)] at hs
      obtain ⟨helements, hrest⟩ := ih hs
      exact ⟨.array helements, hrest⟩
  | lastMember h1 h2 h3 h4 _ h6 ih =>
      obtain ⟨h1, hs⟩ := h1.strict hs
      rw [isClean_quote] at hs
      obtain ⟨h2, hs⟩ := h2.strict hs
      obtain ⟨h3, hs⟩ := h3.strict hs
      rw [isClean_cons (by decide)] at hs
      obtain ⟨h4, hs⟩ := h4.strict hs
      obtain ⟨hv, hs⟩ := ih hs
      obtain ⟨h6, hs⟩ := h6.strict hs
      rw [isClean_cons (by decide)] at hs
      exact ⟨.lastMember h1 h2 h3 h4 hv h6, hs⟩
  | member h1 h2 h3 h4 _ h6 _ ih ih' =>
      obtain ⟨h1, hs⟩ := h1.strict hs
      rw [isClean_quote] at hs
      obtain ⟨h2, hs⟩ := h2.strict hs
      obtain ⟨h3, hs⟩ := h3.strict hs
      rw [isClean_cons (by decide)] at hs
      obtain ⟨h4, hs⟩ := h4.strict hs
      obtain ⟨hv, hs⟩ := ih hs
      obtain ⟨h6, hs⟩ := h6.strict hs
      rw [isClean_cons (by decide)] at hs
      obtain ⟨hmembers, hs⟩ := ih' hs
      exact ⟨.member h1 h2 h3 h4 hv h6 hmembers, hs⟩
  | lastElement h1 _ h3 ih =>
      obtain ⟨h1, hs⟩ := h1.strict hs
      obtain ⟨hv, hs⟩ := ih hs
      obtain ⟨h3, hs⟩ := h3.strict hs
      rw [isClean_cons (by decide)] at hs
      exact ⟨.lastElement h1 hv h3, hs⟩
  | element h1 _ h3 _ ih ih' =>
      obtain ⟨h1, hs⟩ := h1.strict hs
      obtain ⟨hv, hs⟩ := ih hs
      obtain ⟨h3, hs⟩ := h3.strict hs
      rw [isClean_cons (by decide)] at hs
      obtain ⟨helements, hs⟩ := ih' hs
      exact ⟨.element h1 hv h3 helements, hs⟩

/-! ### The texts of RFC 8259 are clean -/

theorem isPlain_of_isJsonSpace {c : UInt8} (h : isJsonSpace c = true) : IsPlain c := by
  simp only [isJsonSpace, Bool.or_eq_true, decide_eq_true_eq] at h
  rcases h with ((rfl | rfl) | rfl) | rfl <;> decide

theorem Ws.isClean {rest : Bytes} (h : Ws isJsonSpace s rest)
    (hrest : isClean false rest = true) : isClean false s = true := by
  induction h with
  | nil s => exact hrest
  | @cons c s rest hc _ ih =>
      rw [isClean_cons (isPlain_of_isJsonSpace hc)]
      exact ih hrest

theorem Chars.isClean {str rest : Bytes} (h : Chars isHexDigit s str rest)
    (hrest : isClean false rest = true) : isClean true s = true := by
  induction h with
  | quote rest => exact (isClean_close rest).trans hrest
  | plain h1 h2 h3 _ ih => exact (isClean_char h2 h3 _).trans (ih hrest)
  | escape he _ ih => exact (isClean_escape he _).trans (ih hrest)
  | unicode ha hb hc hd _ ih => exact isClean_unicode.mpr ⟨ha, hb, hc, hd, ih hrest⟩

theorem Derives.isClean {symbol : Symbol D} {rest : Bytes} (h : Strict stod s symbol rest)
    (hrest : isClean false rest = true) : isClean false s = true := by
  -- behind a bracket, a comma or a colon the text stays clean
  have hpunct : ∀ {c : UInt8} {t : Bytes}, IsPlain c → Json.isClean false t = true →
      Json.isClean false (c :: t) = true := fun hc ht => (isClean_cons hc _).trans ht
  have hkey : ∀ {t : Bytes}, Json.isClean true t = true → Json.isClean false (34 :: t) = true :=
    fun ht => (isClean_quote _).trans ht
  induction h with
  | litNull rest => exact (isClean_append (by decide) rest).trans hrest
  | litTrue rest => exact (isClean_append (by decide) rest).trans hrest
  | litFalse rest => exact (isClean_append (by decide) rest).trans hrest
  | integer rest ht _ => exact (isClean_integer ht rest).trans hrest
  | real rest hi hf he _ _ => exact (isClean_real hi hf he rest).trans hrest
  | string hchars => exact hkey (hchars.isClean hrest)
  | emptyObject hclose => exact hpunct (by decide) (hclose.isClean (hpunct (by decide) hrest))
  | object _ ih => exact hpunct (by decide) (ih hrest)
  | emptyArray hclose => exact hpunct (by decide) (hclose.isClean (hpunct (by decide) hrest))
  | array _ ih => exact hpunct (by decide) (ih hrest)
  | lastMember h1 h2 h3 h4 _ h6 ih =>
      have hvalue := h4.isClean (ih (h6.isClean (hpunct (by decide) hrest)))
      exact h1.isClean (hkey (h2.isClean (h3.isClean (hpunct (by decide) hvalue))))
  | member h1 h2 h3 h4 _ h6 _ ih ih' =>
      have hvalue := h4.isClean (ih (h6.isClean (hpunct (by decide) (ih' hrest))))
      exact h1.isClean (hkey (h2.isClean (h3.isClean (hpunct (by decide) hvalue))))
  | lastElement h1 _ h3 ih => exact h1.isClean (ih (h3.isClean (hpunct (by decide) hrest)))
  | element h1 _ h3 _ ih ih' =>
      exact h1.isClean (ih (h3.isClean (hpunct (by decide) (ih' hrest))))

/-! ### The two grammars compared -/

theorem isspace_of_isJsonSpace {c : UInt8} (h : isJsonSpace c = true) : isspace c = true := by
  simp only [isJsonSpace, Bool.or_eq_true, decide_eq_true_eq] at h
  rcases h with ((rfl | rfl) | rfl) | rfl <;> decide

theorem IsText.accepted {v : Json D} (h : IsText isJsonSpace isHexDigit stod text v) :
    IsText isspace anyByte stod text v :=
  h.mono (fun _ hc => isspace_of_isJsonSpace hc) (fun _ _ => rfl) fun _ _ hd => hd

theorem IsText.isClean {v : Json D} (h : IsText isJsonSpace isHexDigit stod text v) :
    isClean false text = true := by
  obtain ⟨s₁, s₂, h1, h2, h3⟩ := h
  exact h1.isClean (h2.isClean (h3.isClean rfl))

theorem IsText.strict {v : Json D} (h : IsText isspace anyByte stod text v)
    (htext : Json.isClean false text = true) : IsText isJsonSpace isHexDigit stod text v := by
  obtain ⟨s₁, s₂, h1, h2, h3⟩ := h
  obtain ⟨h1, hs⟩ := h1.strict htext
  obtain ⟨h2, hs⟩ := h2.strict hs
  exact ⟨s₁, s₂, h1, h2, (h3.strict hs).1⟩

/-- **The parser and RFC 8259.** A text is parsed exactly when it is a JSON text, and is
malformed otherwise, unless it is a text that only the wider whitespace and the unchecked
`\u` make acceptable. -/
theorem parse_isText_iff (stod : Bytes → Option D) (text : Bytes) :
    (((∃ v, parse stod text = .ok v) ↔ ∃ v, IsText isJsonSpace isHexDigit stod text v) ∧
      ((¬ ∃ v, IsText isJsonSpace isHexDigit stod text v) →
        parse stod text = .error .malformed)) ↔
    ((∃ v, IsText isspace anyByte stod text v) → isClean false text = true) := by
  constructor
  · rintro ⟨hiff, -⟩ ⟨v, hv⟩
    obtain ⟨v', hv'⟩ := hiff.mp ⟨v, parse_eq_ok_iff.mpr hv⟩
    exact hv'.isClean
  · intro hclean
    have hiff : (∃ v, parse stod text = .ok v) ↔
        ∃ v, IsText isJsonSpace isHexDigit stod text v := by
      constructor
      · rintro ⟨v, hv⟩
        have htext := parse_eq_ok_iff.mp hv
        exact ⟨v, htext.strict (hclean ⟨v, htext⟩)⟩
      · rintro ⟨v, hv⟩
        exact ⟨v, parse_eq_ok_iff.mpr hv.accepted⟩
    refine ⟨hiff, fun hnone => ?_⟩
    cases hres : parse stod text with
    | ok v => exact absurd (hiff.mp ⟨v, hres⟩) hnone
    | error fault => rw [parse_malformed stod text fault hres]

/-- `"\uzzzz"` is parsed to the string `?`, although no four hex digits follow the `\u`. -/
theorem parse_isText_unchecked_unicode :
    parse (fun _ => (none : Option ℚ)) [34, 92, 117, 122, 122, 122, 122, 34] =
        .ok (.string [63]) ∧
      ¬ ∃ v, IsText isJsonSpace isHexDigit (fun _ => (none : Option ℚ))
        [34, 92, 117, 122, 122, 122, 122, 34] v := by
  constructor
  · rw [parse_eq_ok_iff]
    exact ⟨_, [], .nil _, .string (.unicode rfl rfl rfl rfl (.quote [])), .nil []⟩
  · rintro ⟨v, hv⟩
    exact absurd hv.isClean (by decide)

end Json

end LinkScheduling
