import Mathlib.Data.List.Basic
import Mathlib.Data.Nat.Digits.Defs

/-!
# Bytes, text and 64-bit counters

The program works on byte strings; text that it writes is ASCII. A
`std::uint64_t` is a natural number, wrapped by `u64` wherever the source adds
to one.
-/

namespace LinkScheduling

abbrev Bytes : Type := List UInt8

/-- A property of the bytes of a text is decided by reading the text, not by trying all
values of a byte. -/
instance (priority := high) decidableForallMem (p : UInt8 → Prop) [DecidablePred p] (b : Bytes) :
    Decidable (∀ c ∈ b, p c) :=
  List.decidableBAll p b

def newline : UInt8 := 10

def slash : UInt8 := 47

/-- An ASCII string literal of the source as bytes. -/
def ascii (s : String) : Bytes := s.toList.map (fun c => UInt8.ofNat c.toNat)

/-- `std::to_string` of an unsigned number. -/
def decimal (n : ℕ) : Bytes := (Nat.toDigits 10 n).map (fun c => UInt8.ofNat c.toNat)

/-- `std::to_string` of an `int`. -/
def decimalInt : ℤ → Bytes
  | .ofNat n => decimal n
  | .negSucc n => ascii "-" ++ decimal (n + 1)

/-- Wrap-around of `std::uint64_t` arithmetic. -/
def u64 (n : ℕ) : ℕ := n % 2 ^ 64

theorem u64_of_lt {n : ℕ} (h : n < 2 ^ 64) : u64 n = n := Nat.mod_eq_of_lt h

/-- Wrap-around of a 32-bit `std::atomic<int>`. -/
def int32 (z : ℤ) : ℤ := (z + 2 ^ 31) % 2 ^ 32 - 2 ^ 31

/-- The name the operating system sees when a `std::string` is passed through
`c_str()`: everything before the first NUL byte. -/
def cstr (b : Bytes) : Bytes := b.takeWhile (· ≠ 0)

theorem cstr_of_notMem {b : Bytes} (h : (0 : UInt8) ∉ b) : cstr b = b := by
  induction b with
  | nil => rfl
  | cons x b ih =>
      have hx : x ≠ 0 := fun e => h (e ▸ List.mem_cons_self)
      have hb := ih (fun hm => h (List.mem_cons_of_mem _ hm))
      simp only [cstr, ne_eq, hx, not_false_eq_true, decide_true,
        List.takeWhile_cons_of_pos] at hb ⊢
      rw [hb]

end LinkScheduling
