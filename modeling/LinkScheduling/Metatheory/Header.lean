import LinkScheduling.Framework.Words
import LinkScheduling.Model.Client

/-!
# Header lines as words

What `parse_request_header` makes of a line depends on the words of the line only:
the operation, then the file name, then the byte count.
-/

namespace LinkScheduling

open Framework

/-! ## Numbers -/

theorem decimal_ne_nil (n : ℕ) : decimal n ≠ [] := by
  unfold decimal
  simp [Nat.toDigits_ne_nil]

theorem decimal_length_le {n : ℕ} (h : n < 2 ^ 64) : (decimal n).length ≤ 20 := by
  rw [decimal, List.length_map]
  exact (Nat.length_toDigits_le_iff (by decide) (by decide)).mpr (h.trans (by decide))

theorem toNat_of_digit {c : Char} (h : c.isDigit = true) :
    (UInt8.ofNat c.toNat).toNat = c.toNat ∧ 48 ≤ c.toNat ∧ c.toNat ≤ 57 := by
  simp only [Char.isDigit, ge_iff_le, Bool.and_eq_true, decide_eq_true_eq] at h
  have h1 : 48 ≤ c.toNat := UInt32.le_iff_toNat_le.mp h.1
  have h2 : c.toNat ≤ 57 := UInt32.le_iff_toNat_le.mp h.2
  refine ⟨?_, h1, h2⟩
  rw [UInt8.toNat_ofNat']
  exact Nat.mod_eq_of_lt (by omega)

theorem isdigit_iff {c : UInt8} : isdigit c = true ↔ 48 ≤ c.toNat ∧ c.toNat ≤ 57 := by
  simp only [isdigit, Bool.and_eq_true, decide_eq_true_eq, UInt8.le_iff_toNat_le]
  exact Iff.rfl

theorem isspace_iff {c : UInt8} :
    isspace c = true ↔ c.toNat = 32 ∨ 9 ≤ c.toNat ∧ c.toNat ≤ 13 := by
  simp only [isspace, Bool.or_eq_true, Bool.and_eq_true, decide_eq_true_eq,
    UInt8.le_iff_toNat_le, ← UInt8.toNat_inj]
  exact Iff.rfl

theorem isspace_of_isdigit {c : UInt8} (h : isdigit c = true) : isspace c = false := by
  rw [Bool.eq_false_iff, Ne, isspace_iff]
  rw [isdigit_iff] at h
  omega

theorem decimal_isdigit {n : ℕ} {c : UInt8} (h : c ∈ decimal n) : isdigit c = true := by
  obtain ⟨d, hd, rfl⟩ := List.mem_map.mp h
  obtain ⟨heq, hbounds⟩ := toNat_of_digit (Nat.isDigit_of_mem_toDigits (by decide) (by decide) hd)
  rwa [isdigit_iff, heq]

/-- `std::stoull` reads back what `std::to_string` wrote. -/
theorem digitsValue_decimal (n : ℕ) : digitsValue (decimal n) = n := by
  have hstep : ∀ (m : ℕ), ∀ d ∈ Nat.toDigits 10 n,
      10 * m + ((UInt8.ofNat d.toNat).toNat - 48) = 10 * m + (d.toNat - '0'.toNat) := by
    intro m d hd
    obtain ⟨heq, -⟩ := toNat_of_digit (Nat.isDigit_of_mem_toDigits (by decide) (by decide) hd)
    rw [heq]
    rfl
  unfold digitsValue decimal
  rw [List.foldl_map, List.foldl_ext _ _ 0 hstep]
  exact Nat.ofDigitChars_ten_toDigits

/-! ## Words of a header line -/

theorem extract_none {iss : Bytes} (h : extract iss = none) : words isspace iss = [] := by
  unfold extract at h
  simp only [List.isEmpty_iff, ite_eq_left_iff, reduceCtorEq, imp_false, Decidable.not_not] at h
  rw [← words_dropWhile]
  cases hd : iss.dropWhile isspace with
  | nil => rfl
  | cons c rest =>
      have hc := List.head_dropWhile_not isspace (l := iss) (by rw [hd]; simp)
      simp only [hd, List.head_cons] at hc
      rw [hd, List.takeWhile_cons_of_pos (by simp [hc])] at h
      cases h

theorem extract_some {iss token rest : Bytes} (h : extract iss = some (token, rest)) :
    words isspace iss = token :: words isspace rest := by
  unfold extract at h
  simp only [List.isEmpty_iff] at h
  split at h
  · cases h
  · rename_i hne
    cases h
    rw [← words_dropWhile, words_takeWhile hne]

theorem extract_of_words_nil {iss : Bytes} (h : words isspace iss = []) : extract iss = none := by
  cases hex : extract iss with
  | none => rfl
  | some res =>
      rw [extract_some hex] at h
      cases h

theorem extract_of_words_cons {iss token : Bytes} {tokens : List Bytes}
    (h : words isspace iss = token :: tokens) :
    ∃ rest, extract iss = some (token, rest) ∧ words isspace rest = tokens := by
  cases hex : extract iss with
  | none =>
      rw [extract_none hex] at h
      cases h
  | some res =>
      obtain ⟨token', rest⟩ := res
      rw [extract_some hex] at h
      cases h
      exact ⟨rest, rfl, rfl⟩

/-- Removing CR and LF from the end leaves the words. -/
theorem words_stripLine (line : Bytes) : words isspace (stripLine line) = words isspace line := by
  have hsplit := congrArg List.reverse (List.takeWhile_append_dropWhile
    (p := fun c => decide (c = newline) || decide (c = 13)) (l := line.reverse))
  rw [List.reverse_append, List.reverse_reverse] at hsplit
  have hspaces : ∀ c ∈ (line.reverse.takeWhile
      (fun c => decide (c = newline) || decide (c = 13))).reverse, isspace c = true := by
    intro c hc
    have := List.mem_takeWhile_imp (List.mem_reverse.mp hc)
    simp only [Bool.or_eq_true, decide_eq_true_eq] at this
    rcases this with rfl | rfl <;> decide
  calc words isspace (stripLine line)
      = words isspace (stripLine line ++ (line.reverse.takeWhile
          (fun c => decide (c = newline) || decide (c = 13))).reverse) :=
        (words_append_seps hspaces).symm
    _ = words isspace line := by rw [stripLine, hsplit]

/-! ## What is parsed -/

/-- The words of a line that is parsed to `req`. -/
def Request.HeaderWords (req : Request) (tokens : List Bytes) : Prop :=
  match req.op with
  | .HEALTH => ∃ op, tokens = [op] ∧ op.map toupper = ascii "HEALTH"
  | .GET => ∃ op, tokens = [op, req.filename] ∧ op.map toupper = ascii "GET"
  | .PUT => ∃ op digits, tokens = [op, req.filename, digits] ∧ op.map toupper = ascii "PUT" ∧
      digits.all isdigit = true ∧ digitsValue digits = req.totalBytes ∧ req.totalBytes < 2 ^ 64

theorem parseRequestHeader_words {header : Bytes} {fd : Fd} {req : Request}
    (h : parseRequestHeader header fd = .ok req) :
    req.HeaderWords (words isspace header) := by
  rw [← words_stripLine]
  unfold parseRequestHeader at h
  simp only at h
  split at h
  · cases h
  split at h
  · cases h
  rename_i op iss hop
  rw [extract_some hop]
  split at h
  · rename_i hhealth
    split at h
    · cases h
    · rename_i hnone
      cases h
      rw [extract_none hnone]
      exact ⟨op, rfl, hhealth⟩
  split at h
  · rename_i hget
    split at h
    · cases h
    rename_i filename iss' hname
    split at h
    · cases h
    rename_i hnone
    cases h
    rw [extract_some hname, extract_none hnone]
    exact ⟨op, rfl, hget⟩
  split at h
  · rename_i hput
    split at h
    · cases h
    rename_i filename iss' hname
    split at h
    · cases h
    rename_i digits iss'' hdigits
    split at h
    · cases h
    rename_i hnone
    split at h
    · cases h
    rename_i hall
    simp only [Bool.or_eq_true, Bool.not_eq_true', not_or, Bool.not_eq_false] at hall
    split at h
    · cases h
    rename_i bytes hvalue
    cases h
    unfold stoull at hvalue
    split at hvalue
    · rename_i hsmall
      cases hvalue
      rw [extract_some hname, extract_some hdigits, extract_none hnone]
      exact ⟨op, digits, rfl, hput, hall.2, rfl, hsmall⟩
    · cases hvalue
  · cases h

/-- A line of three words that asks for an upload. -/
theorem parseRequestHeader_put {header op name digits : Bytes} (fd : Fd)
    (hwords : words isspace header = [op, name, digits]) (hop : op.map toupper = ascii "PUT")
    (hdigits : digits.all isdigit = true) (hvalue : digitsValue digits < 2 ^ 64) :
    parseRequestHeader header fd = .ok
      { clientFd := fd
        op := .PUT
        filename := name
        totalBytes := digitsValue digits } := by
  rw [← words_stripLine] at hwords
  have hline : (stripLine header).isEmpty = false := by
    cases hs : stripLine header with
    | nil =>
        rw [hs] at hwords
        cases hwords
    | cons c line => rfl
  have hne : digits ≠ [] := by
    have : digits ∈ words isspace (stripLine header) := by
      rw [hwords]
      simp
    exact (mem_words this).1
  obtain ⟨iss, hextract, hwords⟩ := extract_of_words_cons hwords
  obtain ⟨iss', hextract', hwords⟩ := extract_of_words_cons hwords
  obtain ⟨iss'', hextract'', hwords⟩ := extract_of_words_cons hwords
  have hnone := extract_of_words_nil hwords
  have hhealth : ascii "PUT" ≠ ascii "HEALTH" := by decide
  have hget : ascii "PUT" ≠ ascii "GET" := by decide
  have hstoull : stoull digits = some (digitsValue digits) := if_pos hvalue
  unfold parseRequestHeader
  simp [hline, hextract, hop, hhealth, hget, hextract', hextract'', hnone, hne, hdigits, hstoull]

/-! ## The header the client sends -/

theorem putHeader_eq (name : Bytes) (n : ℕ) :
    putHeader name n = ascii "PUT" ++ 32 :: (name ++ 32 :: (decimal n ++ [newline])) := by
  have hput : ascii "PUT " = ascii "PUT" ++ [32] := by decide
  have hblank : ascii " " = [32] := by decide
  unfold putHeader
  simp [hput, hblank]

theorem putHeader_words (name : Bytes) (n : ℕ) :
    words isspace (putHeader name n) = ascii "PUT" :: words isspace name ++ [decimal n] := by
  have hdigits : words isspace (decimal n ++ [newline]) = [decimal n] := by
    rw [words_append_seps (by decide)]
    exact words_singleton (decimal_ne_nil n) fun c hc => isspace_of_isdigit (decimal_isdigit hc)
  rw [putHeader_eq, words_append_cons (by decide), words_append_cons (by decide), hdigits,
    words_singleton (by decide) (by decide)]
  rfl

/-- The server recovers the request from the header of a name without whitespace. -/
theorem parse_putHeader {name : Bytes} {n : ℕ} (fd : Fd) (hne : name ≠ [])
    (hspace : ∀ c ∈ name, isspace c = false) (hn : n < 2 ^ 64) :
    parseRequestHeader (putHeader name n) fd = .ok
      { clientFd := fd
        op := .PUT
        filename := name
        totalBytes := n } := by
  have hwords : words isspace (putHeader name n) = [ascii "PUT", name, decimal n] := by
    rw [putHeader_words, words_singleton hne hspace]
    rfl
  have hdigits : (decimal n).all isdigit = true :=
    List.all_eq_true.mpr fun c hc => decimal_isdigit hc
  have h := parseRequestHeader_put fd hwords (by decide) hdigits
    (by rwa [digitsValue_decimal])
  rwa [digitsValue_decimal] at h

end LinkScheduling
