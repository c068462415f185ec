import Mathlib.Data.List.TakeWhile
import LinkScheduling.Config.Grammar

/-!
# The cursor of the parser

`At text pos s` says that the cursor is inside the text or at its end and that `s` is
what follows it. The functions of the parser that read a token are specified by what
they do to `s`.
-/

namespace LinkScheduling

namespace Json

structure At (text : Bytes) (pos : ℕ) (s : Bytes) : Prop where
  le : pos ≤ text.length
  drop : text.drop pos = s

section Cursor

variable {text s t : Bytes} {pos : ℕ} {c : UInt8}

theorem At.length (h : At text pos s) : pos + s.length = text.length := by
  have hlen := congrArg List.length h.drop
  have hle := h.le
  rw [List.length_drop] at hlen
  omega

theorem At.lt (h : At text pos (c :: s)) : pos < text.length := by
  have hlen := h.length
  rw [List.length_cons] at hlen
  omega

theorem At.next (h : At text pos (c :: s)) : At text (pos + 1) s := by
  refine ⟨h.lt, ?_⟩
  rw [← List.drop_drop, h.drop]
  rfl

theorem At.read (h : At text pos (c :: s)) (hlt : pos < text.length) : text[pos] = c := by
  have hdrop := h.drop
  rw [List.drop_eq_getElem_cons hlt] at hdrop
  exact (List.cons.inj hdrop).1

/-- The cursor after a token. -/
theorem At.append {token : Bytes} (h : At text pos (token ++ s)) :
    At text (pos + token.length) s := by
  have hlen := h.length
  rw [List.length_append] at hlen
  refine ⟨by omega, ?_⟩
  rw [← List.drop_drop, h.drop, List.drop_left]

/-- Two cursors inside one text: the token between them. -/
theorem At.between {pos' : ℕ} {token : Bytes} (h : At text pos (token ++ s))
    (h' : At text pos' s) : pos' = pos + token.length := by
  have h1 := h.length
  have h2 := h'.length
  rw [List.length_append] at h1
  omega

theorem isAt_nil (p : UInt8 → Bool) (h : At text pos []) : isAt p text pos = false := by
  have hlen := h.length
  unfold isAt
  rw [dif_neg]
  simp only [List.length_nil] at hlen
  omega

theorem isAt_cons (p : UInt8 → Bool) (h : At text pos (c :: s)) : isAt p text pos = p c := by
  unfold isAt
  rw [dif_pos h.lt, h.read]

theorem skipLoop_at (p : UInt8 → Bool) :
    ∀ (fuel : ℕ) {pos : ℕ} {s : Bytes}, At text pos s → s.length ≤ fuel →
      At text (skipLoop p text fuel pos) (s.dropWhile p)
  | 0, pos, s, h, hfuel => by
      obtain rfl := List.eq_nil_of_length_eq_zero (Nat.le_zero.mp hfuel)
      exact h
  | fuel + 1, pos, [], h, _ => by
      rw [skipLoop, isAt_nil p h]
      exact h
  | fuel + 1, pos, c :: s, h, hfuel => by
      rw [skipLoop, isAt_cons p h]
      cases hc : p c with
      | false =>
          rw [List.dropWhile_cons_of_neg (by simp [hc])]
          exact h
      | true =>
          rw [List.dropWhile_cons_of_pos hc]
          exact skipLoop_at p fuel h.next (Nat.le_of_succ_le_succ hfuel)

theorem skipWhile_at (p : UInt8 → Bool) (h : At text pos s) :
    At text (skipWhile p text pos) (s.dropWhile p) := by
  refine skipLoop_at p _ h ?_
  have hlen := h.length
  omega

theorem skipWs_at (h : At text pos s) : At text (skipWs text pos) (s.dropWhile isspace) :=
  skipWhile_at isspace h

theorem peek_nil (h : At text pos s) (hs : s.dropWhile isspace = []) :
    peek text pos = .error .malformed := by
  have hws := (skipWs_at h).length
  rw [hs] at hws
  unfold peek
  rw [dif_neg]
  simp only [List.length_nil] at hws
  omega

theorem peek_cons (h : At text pos s) (hs : s.dropWhile isspace = c :: t) :
    ∃ pos', peek text pos = .ok (c, pos') ∧ At text pos' (c :: t) := by
  have hws := skipWs_at h
  rw [hs] at hws
  refine ⟨skipWs text pos, ?_, hws⟩
  unfold peek
  rw [dif_pos hws.lt, hws.read]

theorem consume_hit (h : At text pos s) (hs : s.dropWhile isspace = c :: t) :
    ∃ pos', consume c text pos = (true, pos') ∧ At text pos' t := by
  have hws := skipWs_at h
  rw [hs] at hws
  refine ⟨skipWs text pos + 1, ?_, hws.next⟩
  unfold consume
  simp [isAt_cons _ hws]

theorem consume_miss (h : At text pos s) (hs : (s.dropWhile isspace).head? ≠ some c) :
    ∃ pos', consume c text pos = (false, pos') ∧ At text pos' (s.dropWhile isspace) := by
  have hws := skipWs_at h
  refine ⟨skipWs text pos, ?_, hws⟩
  unfold consume
  cases hd : s.dropWhile isspace with
  | nil =>
      rw [hd] at hws
      simp [isAt_nil _ hws]
  | cons d t =>
      rw [hd] at hws hs
      have hne : d ≠ c := fun heq => hs (by simp [heq])
      simp [isAt_cons _ hws, hne]

/-! ## Whitespace -/

theorem ws_dropWhile (ws : UInt8 → Bool) : ∀ s : Bytes, Ws ws s (s.dropWhile ws)
  | [] => .nil []
  | c :: s => by
      cases hc : ws c with
      | true =>
          rw [List.dropWhile_cons_of_pos hc]
          exact .cons hc (ws_dropWhile ws s)
      | false =>
          rw [List.dropWhile_cons_of_neg (by simp [hc])]
          exact .nil (c :: s)

/-- Whitespace that ends before another character is all the whitespace there is. -/
theorem Ws.dropWhile_eq {ws : UInt8 → Bool} (h : Ws ws s (c :: t)) (hc : ws c = false) :
    s.dropWhile ws = c :: t := by
  generalize ht : c :: t = rest at h
  induction h with
  | nil s =>
      subst ht
      rw [List.dropWhile_cons_of_neg (by simp [hc])]
  | cons hd _ ih =>
      rw [List.dropWhile_cons_of_pos hd]
      exact ih ht

theorem Ws.dropWhile_eq_nil {ws : UInt8 → Bool} (h : Ws ws s []) : s.dropWhile ws = [] := by
  generalize ht : ([] : Bytes) = rest at h
  induction h with
  | nil s =>
      subst ht
      rfl
  | cons hd _ ih =>
      rw [List.dropWhile_cons_of_pos hd]
      exact ih ht

theorem Ws.length_le {ws : UInt8 → Bool} (h : Ws ws s t) : t.length ≤ s.length := by
  induction h with
  | nil s => exact le_rfl
  | cons _ _ ih => exact ih.trans (Nat.le_succ _)

/-! ## Strings -/

/-- The parser takes any four bytes behind `\u`. -/
def anyByte : UInt8 → Bool := fun _ => true

theorem stringLoop_sound :
    ∀ (fuel : ℕ) {pos : ℕ} {s str : Bytes} {result : Bytes × ℕ}, At text pos s →
      stringLoop text fuel pos str = .ok result →
      ∃ tail rest, result.1 = str ++ tail ∧ Chars anyByte s tail rest ∧ At text result.2 rest
  | 0, pos, s, str, result, _, hres => by cases hres
  | fuel + 1, pos, [], str, result, h, hres => by
      have hlen := h.length
      simp only [List.length_nil, Nat.add_zero] at hlen
      rw [stringLoop, dif_neg (by omega)] at hres
      cases hres
  | fuel + 1, pos, c :: s, str, result, h, hres => by
      rw [stringLoop, dif_pos h.lt] at hres
      simp only [h.read h.lt] at hres
      split at hres
      · rename_i hquote
        cases hres
        exact ⟨[], s, by simp, hquote ▸ .quote s, h.next⟩
      rename_i hquote
      split at hres
      · -- an escape: `\u` takes four more bytes, the others one
        rename_i hback
        subst hback
        split at hres
        · rename_i hlt
          cases s with
          | nil =>
              have hlen := h.length
              simp only [List.length_cons, List.length_nil] at hlen
              omega
          | cons esc s =>
              simp only [h.next.read hlt] at hres
              have hnext := h.next.next
              split at hres
              · rename_i hu
                subst hu
                split at hres
                · cases hres
                rename_i hfour
                have hlen := hnext.length
                obtain ⟨a, b, c, d, s, rfl⟩ : ∃ a b c d s', s = a :: b :: c :: d :: s' := by
                  match s, hlen with
                  | a :: b :: c :: d :: s', _ => exact ⟨a, b, c, d, s', rfl⟩
                  | [], hlen | [_], hlen | [_, _], hlen | [_, _, _], hlen =>
                      simp only [List.length_nil, List.length_cons] at hlen
                      omega
                obtain ⟨tail, rest, hstr, hchars, hat⟩ :=
                  stringLoop_sound fuel hnext.next.next.next.next hres
                refine ⟨63 :: tail, rest, by simp [hstr], ?_, hat⟩
                exact .unicode rfl rfl rfl rfl hchars
              · split at hres
                · rename_i d hd
                  obtain ⟨tail, rest, hstr, hchars, hat⟩ := stringLoop_sound fuel hnext hres
                  exact ⟨d :: tail, rest, by simp [hstr], .escape hd hchars, hat⟩
                · cases hres
        · cases hres
      rename_i hback
      split at hres
      · cases hres
      rename_i hcontrol
      obtain ⟨tail, rest, hstr, hchars, hat⟩ := stringLoop_sound fuel h.next hres
      refine ⟨c :: tail, rest, by simp [hstr], .plain ?_ hquote hback hchars, hat⟩
      exact UInt8.not_lt.mp hcontrol

theorem unescape_u : unescape 117 = none := by decide

theorem Chars.length_lt {hex : UInt8 → Bool} {str rest : Bytes} (h : Chars hex s str rest) :
    rest.length < s.length := by
  induction h with
  | quote rest => exact Nat.lt_succ_self _
  | plain _ _ _ _ ih =>
      simp only [List.length_cons]
      omega
  | escape _ _ ih =>
      simp only [List.length_cons]
      omega
  | unicode _ _ _ _ _ ih =>
      simp only [List.length_cons]
      omega

theorem stringLoop_complete {tail rest : Bytes} (hchars : Chars anyByte s tail rest) :
    ∀ (fuel : ℕ) {pos : ℕ} (str : Bytes), At text pos s → s.length ≤ fuel →
      ∃ pos', stringLoop text fuel pos str = .ok (str ++ tail, pos') ∧ At text pos' rest := by
  induction hchars with
  | quote rest =>
      intro fuel pos str h hfuel
      obtain ⟨fuel, rfl⟩ := Nat.exists_eq_add_of_le' (show 1 ≤ fuel by simp at hfuel; omega)
      refine ⟨pos + 1, ?_, h.next⟩
      rw [stringLoop, dif_pos h.lt]
      simp [h.read h.lt]
  | @plain c s tail rest h1 h2 h3 _ ih =>
      intro fuel pos str h hfuel
      obtain ⟨fuel, rfl⟩ := Nat.exists_eq_add_of_le' (show 1 ≤ fuel by simp at hfuel; omega)
      obtain ⟨pos', hloop, hat⟩ := ih fuel (str ++ [c]) h.next
        (by simp only [List.length_cons] at hfuel; omega)
      refine ⟨pos', ?_, hat⟩
      rw [stringLoop, dif_pos h.lt]
      simp only [h.read h.lt, h2, h3, ↓reduceIte]
      rw [if_neg (UInt8.not_lt.mpr h1), hloop]
      simp
  | @escape esc d s tail rest he _ ih =>
      intro fuel pos str h hfuel
      obtain ⟨fuel, rfl⟩ := Nat.exists_eq_add_of_le' (show 1 ≤ fuel by simp at hfuel; omega)
      obtain ⟨pos', hloop, hat⟩ := ih fuel (str ++ [d]) h.next.next
        (by simp only [List.length_cons] at hfuel; omega)
      refine ⟨pos', ?_, hat⟩
      have hu : esc ≠ 117 := by
        rintro rfl
        rw [unescape_u] at he
        cases he
      rw [stringLoop, dif_pos h.lt]
      simp only [h.read h.lt, h.next.lt, h.next.read h.next.lt, hu, he, ↓reduceIte, ↓reduceDIte]
      rw [hloop]
      simp
  | @unicode a b c d s tail rest _ _ _ _ _ ih =>
      intro fuel pos str h hfuel
      obtain ⟨fuel, rfl⟩ := Nat.exists_eq_add_of_le' (show 1 ≤ fuel by simp at hfuel; omega)
      have hfour := h.next.next
      obtain ⟨pos', hloop, hat⟩ := ih fuel (str ++ [63]) hfour.next.next.next.next
        (by simp only [List.length_cons] at hfuel; omega)
      refine ⟨pos', ?_, hat⟩
      have hlen := hfour.length
      simp only [List.length_cons] at hlen
      rw [stringLoop, dif_pos h.lt]
      simp only [h.read h.lt, h.next.lt, h.next.read h.next.lt, ↓reduceIte, ↓reduceDIte]
      rw [if_neg (by decide), if_neg (by omega)]
      simpa using hloop

theorem stringLoop_error {fault : Fault} :
    ∀ (fuel : ℕ) {pos : ℕ} {str : Bytes}, stringLoop text fuel pos str = .error fault →
      fault = .malformed
  | 0, pos, str, h => by
      cases h
      rfl
  | fuel + 1, pos, str, h => by
      unfold stringLoop at h
      simp only at h
      split at h
      · split at h
        · cases h
        split at h
        · split at h
          · split at h
            · split at h
              · cases h
                rfl
              · exact stringLoop_error fuel h
            · split at h
              · exact stringLoop_error fuel h
              · cases h
                rfl
          · cases h
            rfl
        · split at h
          · cases h
            rfl
          · exact stringLoop_error fuel h
      · cases h
        rfl

theorem parseString_error {fault : Fault} (h : parseString text pos = .error fault) :
    fault = .malformed := by
  unfold parseString at h
  simp only at h
  split at h
  · cases h
    rfl
  · exact stringLoop_error _ h

theorem parseString_sound {result : Bytes × ℕ} (h : At text pos s)
    (hres : parseString text pos = .ok result) :
    ∃ s₁ rest, s.dropWhile isspace = 34 :: s₁ ∧ Chars anyByte s₁ result.1 rest ∧
      At text result.2 rest := by
  have hws := skipWs_at h
  unfold parseString at hres
  simp only at hres
  split at hres
  · cases hres
  rename_i hquote
  cases hs : s.dropWhile isspace with
  | nil =>
      rw [hs] at hws
      simp [isAt_nil _ hws] at hquote
  | cons c s₁ =>
      rw [hs] at hws
      obtain rfl : c = 34 := by simpa [isAt_cons _ hws] using hquote
      obtain ⟨tail, rest, hstr, hchars, hat⟩ := stringLoop_sound _ hws.next hres
      exact ⟨s₁, rest, rfl, hstr ▸ hchars, hat⟩

theorem parseString_complete {s₁ str rest : Bytes} (h : At text pos s)
    (hs : s.dropWhile isspace = 34 :: s₁) (hchars : Chars anyByte s₁ str rest) :
    ∃ pos', parseString text pos = .ok (str, pos') ∧ At text pos' rest := by
  have hws := skipWs_at h
  rw [hs] at hws
  have hlen := hws.next.length
  obtain ⟨pos', hloop, hat⟩ := stringLoop_complete hchars
    (text.length - (skipWs text pos + 1)) [] hws.next (by omega)
  refine ⟨pos', ?_, hat⟩
  unfold parseString
  simpa [isAt_cons _ hws] using hloop

/-! ## Numbers -/

/-- `rest` does not go on with a character that `p` holds of. -/
def Stops (p : UInt8 → Bool) (rest : Bytes) : Prop := ∀ c ∈ rest.head?, p c = false

theorem Stops.dropWhile_append {p : UInt8 → Bool} {token rest : Bytes} (h : Stops p rest)
    (htoken : ∀ c ∈ token, p c = true) : (token ++ rest).dropWhile p = rest := by
  rw [List.dropWhile_append_of_pos htoken]
  cases rest with
  | nil => rfl
  | cons c rest =>
      have hc := h c rfl
      rw [List.dropWhile_cons_of_neg (by simp [hc])]

theorem isAt_of_stops {p : UInt8 → Bool} (h : At text pos s) (hs : Stops p s) :
    isAt p text pos = false := by
  cases s with
  | nil => exact isAt_nil p h
  | cons c s =>
      rw [isAt_cons p h]
      exact hs c rfl

/-- What the loop over digits takes. -/
theorem digits_sound (h : At text pos s) (hdigit : isAt isdigit text pos = true) :
    ∃ digits rest, s = digits ++ rest ∧ IsDigits digits ∧
      At text (skipWhile isdigit text pos) rest := by
  refine ⟨s.takeWhile isdigit, s.dropWhile isdigit, List.takeWhile_append_dropWhile.symm,
    ⟨?_, fun c hc => List.mem_takeWhile_imp hc⟩, skipWhile_at isdigit h⟩
  cases s with
  | nil =>
      rw [isAt_nil _ h] at hdigit
      cases hdigit
  | cons c s =>
      rw [isAt_cons _ h] at hdigit
      rw [List.takeWhile_cons_of_pos hdigit]
      exact List.cons_ne_nil _ _

theorem digits_complete {digits rest : Bytes} (h : At text pos (digits ++ rest))
    (hdigits : IsDigits digits) (hrest : Stops isdigit rest) :
    isAt isdigit text pos = true ∧ At text (skipWhile isdigit text pos) rest := by
  constructor
  · obtain ⟨c, ds, rfl⟩ := List.exists_cons_of_ne_nil hdigits.1
    rw [List.cons_append] at h
    rw [isAt_cons _ h]
    exact hdigits.2 c List.mem_cons_self
  · have hskip := skipWhile_at isdigit h
    rwa [hrest.dropWhile_append hdigits.2] at hskip

theorem integerPart_sound {pos' : ℕ} (h : At text pos s)
    (hres : integerPart text pos = .ok pos') :
    ∃ token rest, s = token ++ rest ∧ IsInteger token ∧ At text pos' rest := by
  -- the sign first
  obtain ⟨sign, s₁, rfl, hsign, hat⟩ : ∃ sign s₁, s = sign ++ s₁ ∧ (sign = [] ∨ sign = [45]) ∧
      At text (if isAt (· = 45) text pos then pos + 1 else pos) s₁ := by
    split
    · rename_i hminus
      cases s with
      | nil =>
          rw [isAt_nil _ h] at hminus
          cases hminus
      | cons c s =>
          obtain rfl : c = 45 := by simpa [isAt_cons _ h] using hminus
          exact ⟨[45], s, rfl, Or.inr rfl, h.next⟩
    · exact ⟨[], s, rfl, Or.inl rfl, h⟩
  unfold integerPart at hres
  simp only at hres
  generalize (if isAt (· = 45) text pos then pos + 1 else pos) = pos₁ at hres hat
  split at hres
  · cases hres
  rename_i hdigit
  have hdigit : isAt isdigit text pos₁ = true := by simpa using hdigit
  split at hres
  · rename_i hzero
    cases hres
    cases s₁ with
    | nil =>
        rw [isAt_nil _ hat] at hzero
        cases hzero
    | cons c s₁ =>
        obtain rfl : c = 48 := by simpa [isAt_cons _ hat] using hzero
        exact ⟨sign ++ [48], s₁, by simp, ⟨sign, [48], rfl, hsign, Or.inl rfl⟩, hat.next⟩
  · rename_i hzero
    cases hres
    obtain ⟨digits, rest, rfl, hdigits, hat'⟩ := digits_sound hat hdigit
    refine ⟨sign ++ digits, rest, by simp, ⟨sign, digits, rfl, hsign, Or.inr ⟨hdigits, ?_⟩⟩, hat'⟩
    obtain ⟨c, ds, rfl⟩ := List.exists_cons_of_ne_nil hdigits.1
    rw [List.cons_append] at hat
    simpa [isAt_cons _ hat] using hzero

theorem integerPart_complete {token rest : Bytes} (h : At text pos (token ++ rest))
    (htoken : IsInteger token) (hrest : Stops isdigit rest) :
    ∃ pos', integerPart text pos = .ok pos' ∧ At text pos' rest := by
  obtain ⟨sign, digits, rfl, hsign, hdigits⟩ := htoken
  rw [List.append_assoc] at h
  have hne : digits ≠ [] := by
    rcases hdigits with rfl | ⟨hdigits, -⟩
    · simp
    · exact hdigits.1
  obtain ⟨c, ds, rfl⟩ := List.exists_cons_of_ne_nil hne
  have hc : isdigit c = true := by
    rcases hdigits with heq | ⟨hdigits, -⟩
    · cases heq
      decide
    · exact hdigits.2 c List.mem_cons_self
  -- the sign first
  have hat : At text (if isAt (· = 45) text pos then pos + 1 else pos) (c :: ds ++ rest) := by
    rcases hsign with rfl | rfl
    · rw [List.nil_append, List.cons_append] at h
      rw [isAt_cons _ h, if_neg]
      · exact h
      · intro hminus
        have hminus : c = 45 := by simpa using hminus
        rw [hminus] at hc
        exact absurd hc (by decide)
    · rw [List.singleton_append] at h
      rw [isAt_cons _ h, if_pos (by decide)]
      exact h.next
  unfold integerPart
  simp only
  generalize (if isAt (· = 45) text pos then pos + 1 else pos) = pos₁ at hat
  rw [isAt_cons _ hat, isAt_cons _ hat, hc]
  simp only [Bool.not_true, Bool.false_eq_true, ↓reduceIte, decide_eq_true_eq]
  rcases hdigits with heq | ⟨hdigits, hzero⟩
  · cases heq
    exact ⟨pos₁ + 1, if_pos rfl, hat.next⟩
  · refine ⟨_, if_neg fun heq => hzero (by simp [heq]), ?_⟩
    exact (digits_complete hat hdigits hrest).2

theorem fractionPart_sound {none : Bool} {pos' : ℕ} (h : At text pos s)
    (hres : fractionPart text pos = .ok (none, pos')) :
    ∃ token rest, s = token ++ rest ∧ At text pos' rest ∧
      (none = true ∧ token = [] ∨ none = false ∧ IsFraction token) := by
  unfold fractionPart at hres
  split at hres
  · rename_i hdot
    split at hres
    · cases hres
    rename_i hdigit
    cases hres
    cases s with
    | nil =>
        rw [isAt_nil _ h] at hdot
        cases hdot
    | cons c s =>
        obtain rfl : c = 46 := by simpa [isAt_cons _ h] using hdot
        obtain ⟨digits, rest, rfl, hdigits, hat⟩ := digits_sound h.next (by simpa using hdigit)
        exact ⟨46 :: digits, rest, rfl, hat, Or.inr ⟨rfl, digits, rfl, hdigits⟩⟩
  · cases hres
    exact ⟨[], s, rfl, h, Or.inl ⟨rfl, rfl⟩⟩

theorem fractionPart_complete {token rest : Bytes} (h : At text pos (token ++ rest))
    (htoken : IsFraction token) (hrest : Stops isdigit rest) :
    ∃ pos', fractionPart text pos = .ok (false, pos') ∧ At text pos' rest := by
  obtain ⟨digits, rfl, hdigits⟩ := htoken
  rw [List.cons_append] at h
  obtain ⟨hdigit, hat⟩ := digits_complete h.next hdigits hrest
  refine ⟨_, ?_, hat⟩
  unfold fractionPart
  rw [isAt_cons _ h, hdigit]
  rfl

theorem fractionPart_absent (h : At text pos s) (hs : Stops (· = 46) s) :
    fractionPart text pos = .ok (true, pos) := by
  unfold fractionPart
  rw [isAt_of_stops h hs]
  rfl

theorem exponentPart_sound {none : Bool} {pos' : ℕ} (h : At text pos s)
    (hres : exponentPart text pos = .ok (none, pos')) :
    ∃ token rest, s = token ++ rest ∧ At text pos' rest ∧
      (none = true ∧ token = [] ∨ none = false ∧ IsExponent token) := by
  unfold exponentPart at hres
  split at hres
  · rename_i hexp
    cases s with
    | nil =>
        rw [isAt_nil _ h] at hexp
        cases hexp
    | cons e s =>
        have he : e = 101 ∨ e = 69 := by simpa [isAt_cons _ h] using hexp
        obtain ⟨sign, s₁, rfl, hsign, hat⟩ : ∃ sign s₁, s = sign ++ s₁ ∧
            (sign = [] ∨ sign = [43] ∨ sign = [45]) ∧
            At text (if isAt (fun c => c = 43 || c = 45) text (pos + 1) then pos + 1 + 1
              else pos + 1) s₁ := by
          split
          · rename_i hsign
            cases s with
            | nil =>
                rw [isAt_nil _ h.next] at hsign
                cases hsign
            | cons c s =>
                have hc : c = 43 ∨ c = 45 := by simpa [isAt_cons _ h.next] using hsign
                refine ⟨[c], s, rfl, Or.inr ?_, h.next.next⟩
                rcases hc with rfl | rfl
                · exact Or.inl rfl
                · exact Or.inr rfl
          · exact ⟨[], s, rfl, Or.inl rfl, h.next⟩
        simp only at hres
        generalize (if isAt (fun c => c = 43 || c = 45) text (pos + 1) then pos + 1 + 1
          else pos + 1) = pos₁ at hres hat
        split at hres
        · cases hres
        rename_i hdigit
        cases hres
        obtain ⟨digits, rest, rfl, hdigits, hat'⟩ := digits_sound hat (by simpa using hdigit)
        exact ⟨e :: (sign ++ digits), rest, by simp, hat',
          Or.inr ⟨rfl, e, sign, digits, rfl, he, hsign, hdigits⟩⟩
  · cases hres
    exact ⟨[], s, rfl, h, Or.inl ⟨rfl, rfl⟩⟩

theorem exponentPart_complete {token rest : Bytes} (h : At text pos (token ++ rest))
    (htoken : IsExponent token) (hrest : Stops isdigit rest) :
    ∃ pos', exponentPart text pos = .ok (false, pos') ∧ At text pos' rest := by
  obtain ⟨e, sign, digits, rfl, he, hsign, hdigits⟩ := htoken
  rw [List.cons_append, List.append_assoc] at h
  have hexp : isAt (fun c => c = 101 || c = 69) text pos = true := by
    rw [isAt_cons _ h]
    simpa using he
  have hat : At text (if isAt (fun c => c = 43 || c = 45) text (pos + 1) then pos + 1 + 1
      else pos + 1) (digits ++ rest) := by
    have hnext := h.next
    rcases hsign with rfl | rfl | rfl
    · rw [List.nil_append] at hnext
      obtain ⟨c, ds, rfl⟩ := List.exists_cons_of_ne_nil hdigits.1
      rw [List.cons_append] at hnext
      have hc := hdigits.2 c List.mem_cons_self
      rw [isAt_cons _ hnext, if_neg]
      · exact hnext
      · intro hsign
        have hsign : c = 43 ∨ c = 45 := by simpa using hsign
        rcases hsign with rfl | rfl
        · exact absurd hc (by decide)
        · exact absurd hc (by decide)
    · rw [List.singleton_append] at hnext
      rw [isAt_cons _ hnext, if_pos (by decide)]
      exact hnext.next
    · rw [List.singleton_append] at hnext
      rw [isAt_cons _ hnext, if_pos (by decide)]
      exact hnext.next
  obtain ⟨hdigit, hat'⟩ := digits_complete hat hdigits hrest
  refine ⟨_, ?_, hat'⟩
  unfold exponentPart
  simp only [hexp, hdigit, ↓reduceIte, Bool.not_true, Bool.false_eq_true]

theorem exponentPart_absent (h : At text pos s) (hs : Stops (fun c => c = 101 || c = 69) s) :
    exponentPart text pos = .ok (true, pos) := by
  unfold exponentPart
  rw [isAt_of_stops h hs]
  rfl

/-- The text between two cursors. -/
theorem substr_between {token rest : Bytes} {pos' : ℕ} (h : At text pos (token ++ rest))
    (h' : At text pos' rest) : substr text pos (pos' - pos) = .ok token := by
  unfold substr
  rw [if_neg (Nat.not_lt.mpr h.le), h.drop, h.between h', Nat.add_sub_cancel_left, List.take_left]

/-! ## Literals -/

theorem compare_eq (h : At text pos s) (len : ℕ) (literal : Bytes) :
    compare text pos len literal = .ok (s.take len = literal) := by
  unfold compare
  rw [if_neg (Nat.not_lt.mpr h.le), h.drop]

end Cursor

end Json

end LinkScheduling
