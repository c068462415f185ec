import LinkScheduling.Metatheory.Header
import Mathlib.Data.List.Forall2
import Mathlib.Data.List.Induction
import Mathlib.Data.Nat.Digits.Defs

/-!
# The language of request lines

`parse_request_header` strips the line, extracts tokens from a stream, folds their case, filters
digits and converts them. The language it accepts is stated here without the stream: the tokens
of a request line are an operation, in any mixture of large and small letters, and its arguments.
-/

namespace LinkScheduling

open Framework

/-- `word` spells the capital `letters`, each of them large or small. -/
def Spells (word letters : Bytes) : Prop :=
  List.Forall₂ (fun c capital => c = capital ∨ c = capital + 32) word letters

/-- `digits` are ASCII digits, leading zeros included, of decimal value `n`. -/
def DecimalOf (digits : Bytes) (n : ℕ) : Prop :=
  digits ≠ [] ∧ (∀ c ∈ digits, 48 ≤ c.toNat ∧ c.toNat ≤ 57) ∧
    Nat.ofDigits 10 (digits.reverse.map fun c => c.toNat - 48) = n

/-- The tokens of a request line, with the operation, the name and the number it asks for. -/
inductive RequestLine : List Bytes → Operation → Bytes → ℕ → Prop
  | health {op : Bytes} : Spells op (ascii "HEALTH") → RequestLine [op] .HEALTH [] 0
  | get {op name : Bytes} : Spells op (ascii "GET") → RequestLine [op, name] .GET name 0
  | put {op name digits : Bytes} {n : ℕ} : Spells op (ascii "PUT") → DecimalOf digits n →
      n ≤ 2 ^ 64 - 1 → RequestLine [op, name, digits] .PUT name n

/-! ## Letters and digits -/

theorem toupper_eq_iff {c capital : UInt8} (h : 65 ≤ capital.toNat ∧ capital.toNat ≤ 90) :
    toupper c = capital ↔ c = capital ∨ c = capital + 32 := by
  have hc := c.toNat_lt
  rw [toupper]
  split
  · rename_i hsmall
    simp only [Bool.and_eq_true, decide_eq_true_eq, UInt8.le_iff_toNat_le] at hsmall
    have hbounds : 97 ≤ c.toNat ∧ c.toNat ≤ 122 := hsmall
    rw [← UInt8.toNat_inj, ← UInt8.toNat_inj, ← UInt8.toNat_inj, UInt8.toNat_sub,
      UInt8.toNat_add]
    change (2 ^ 8 - 32 + c.toNat) % 2 ^ 8 = _ ↔ _ ∨ c.toNat = (capital.toNat + 32) % 2 ^ 8
    omega
  · rename_i hother
    simp only [Bool.and_eq_true, decide_eq_true_eq, UInt8.le_iff_toNat_le] at hother
    have hbounds : ¬ (97 ≤ c.toNat ∧ c.toNat ≤ 122) := hother
    rw [← UInt8.toNat_inj, ← UInt8.toNat_inj, UInt8.toNat_add]
    change _ ↔ _ ∨ c.toNat = (capital.toNat + 32) % 2 ^ 8
    omega

theorem map_toupper_iff {word letters : Bytes}
    (h : ∀ c ∈ letters, 65 ≤ c.toNat ∧ c.toNat ≤ 90) :
    word.map toupper = letters ↔ Spells word letters := by
  induction letters generalizing word with
  | nil => rw [List.map_eq_nil_iff, Spells, List.forall₂_nil_right_iff]
  | cons capital letters ih =>
      cases word with
      | nil =>
          constructor
          · intro heq
            cases heq
          · intro hspells
            cases hspells
      | cons c word =>
          rw [List.forall_mem_cons] at h
          rw [List.map_cons, List.cons.injEq, toupper_eq_iff h.1, ih h.2, Spells, Spells,
            List.forall₂_cons]

theorem digitsValue_eq_ofDigits (digits : Bytes) :
    digitsValue digits = Nat.ofDigits 10 (digits.reverse.map fun c => c.toNat - 48) := by
  induction digits using List.reverseRecOn with
  | nil => rfl
  | append_singleton digits d ih =>
      rw [digitsValue] at ih
      rw [digitsValue, List.foldl_append, ih, List.reverse_append, List.reverse_singleton,
        List.singleton_append, List.map_cons, Nat.ofDigits_cons]
      simp only [List.foldl_cons, List.foldl_nil]
      rw [Nat.add_comm]

theorem decimalOf_iff {digits : Bytes} {n : ℕ} (hne : digits ≠ []) :
    DecimalOf digits n ↔ digits.all isdigit = true ∧ digitsValue digits = n := by
  rw [DecimalOf, List.all_eq_true, digitsValue_eq_ofDigits]
  simp only [isdigit_iff, ne_eq, hne, not_false_eq_true, true_and]

/-! ## Both directions -/

section Lines

variable {header : Bytes} {fd : Fd} {op : Operation} {name : Bytes} {n : ℕ}

theorem stripLine_ne_nil {token : Bytes} {tokens : List Bytes}
    (h : words isspace (stripLine header) = token :: tokens) :
    (stripLine header).isEmpty = false := by
  cases hline : stripLine header with
  | nil =>
      rw [hline] at h
      cases h
  | cons c line => rfl

/-- Every line of the language is accepted. -/
theorem RequestLine.parse (h : RequestLine (words isspace (stripLine header)) op name n) :
    parseRequestHeader header fd = .ok
      { clientFd := fd, op := op, filename := name, totalBytes := n } := by
  generalize htokens : words isspace (stripLine header) = tokens at h
  cases h with
  | health hop =>
      have hop := (map_toupper_iff (by decide)).mpr hop
      obtain ⟨iss, hextract, hwords⟩ := extract_of_words_cons htokens
      have hnone := extract_of_words_nil hwords
      simp [parseRequestHeader, stripLine_ne_nil htokens, hextract, hop, hnone]
  | get hop =>
      have hop := (map_toupper_iff (by decide)).mpr hop
      have hhealth : ascii "GET" ≠ ascii "HEALTH" := by decide
      obtain ⟨iss, hextract, hwords⟩ := extract_of_words_cons htokens
      obtain ⟨iss', hextract', hwords⟩ := extract_of_words_cons hwords
      have hnone := extract_of_words_nil hwords
      simp [parseRequestHeader, stripLine_ne_nil htokens, hextract, hop, hhealth, hextract', hnone]
  | put hop hdigits hn =>
      obtain ⟨hall, hvalue⟩ := (decimalOf_iff hdigits.1).mp hdigits
      rw [words_stripLine] at htokens
      rw [parseRequestHeader_put fd htokens ((map_toupper_iff (by decide)).mpr hop) hall
        (by rw [hvalue]; omega), hvalue]

/-- Every accepted line is of the language. -/
theorem requestLine_of_parse {req : Request} (h : parseRequestHeader header fd = .ok req) :
    ∃ op name n, RequestLine (words isspace (stripLine header)) op name n := by
  have hwords := parseRequestHeader_words h
  rw [← words_stripLine, Request.HeaderWords] at hwords
  split at hwords
  · obtain ⟨op, htokens, hop⟩ := hwords
    rw [htokens]
    exact ⟨_, _, _, .health ((map_toupper_iff (by decide)).mp hop)⟩
  · obtain ⟨op, htokens, hop⟩ := hwords
    rw [htokens]
    exact ⟨_, _, _, .get ((map_toupper_iff (by decide)).mp hop)⟩
  · obtain ⟨op, digits, htokens, hop, hall, hvalue, hsmall⟩ := hwords
    have hne : digits ≠ [] := by
      have hmem : digits ∈ words isspace (stripLine header) := by
        rw [htokens]
        simp
      exact (mem_words hmem).1
    rw [htokens]
    exact ⟨_, _, _, .put ((map_toupper_iff (by decide)).mp hop)
      ((decimalOf_iff hne).mpr ⟨hall, hvalue⟩) (by omega)⟩

end Lines

/-- **The accepted language.** A header is parsed to a request exactly when its tokens are a
request line, with the operation, the name and the value of the line; on every other header
`parse_request_header` throws. -/
theorem parse_request_header_language (header : Bytes) (fd : Fd) :
    (∀ req, parseRequestHeader header fd = .ok req ↔
      ∃ op name n, RequestLine (words isspace (stripLine header)) op name n ∧
        req = { clientFd := fd, op := op, filename := name, totalBytes := n }) ∧
    ((∃ what, parseRequestHeader header fd = .error what) ↔
      ∀ op name n, ¬ RequestLine (words isspace (stripLine header)) op name n) := by
  constructor
  · intro req
    constructor
    · intro h
      obtain ⟨op, name, n, hline⟩ := requestLine_of_parse h
      rw [hline.parse] at h
      exact ⟨op, name, n, hline, (Except.ok.inj h).symm⟩
    · rintro ⟨op, name, n, hline, rfl⟩
      exact hline.parse
  · constructor
    · rintro ⟨what, h⟩ op name n hline
      rw [hline.parse] at h
      cases h
    · intro hnone
      cases h : parseRequestHeader header fd with
      | error what => exact ⟨what, rfl⟩
      | ok req =>
          obtain ⟨op, name, n, hline⟩ := requestLine_of_parse h
          exact absurd hline (hnone op name n)

end LinkScheduling
