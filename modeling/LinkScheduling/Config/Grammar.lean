import LinkScheduling.Model.JsonParser

/-!
# The grammar of JSON texts

Every nonterminal relates a text to what follows it: `Derives s (.value v) rest` says
that `s` starts with a rendering of the value `v` and goes on with `rest`. The grammar is
stated for any set of whitespace characters, any set of digits behind `\u` and any
conversion of numbers that are not integers; RFC 8259 and what `Parser` accepts are two
instances of it.
-/

namespace LinkScheduling

namespace Json

/-- `s` starts with whitespace and goes on with `rest`. -/
inductive Ws (ws : UInt8 → Bool) : Bytes → Bytes → Prop
  | nil (s : Bytes) : Ws ws s s
  | cons {c : UInt8} {s rest : Bytes} : ws c = true → Ws ws s rest → Ws ws (c :: s) rest

/-- `s` starts with the characters of `str` and the closing quote. -/
inductive Chars (hex : UInt8 → Bool) : Bytes → Bytes → Bytes → Prop
  | quote (rest : Bytes) : Chars hex (34 :: rest) [] rest
  | plain {c : UInt8} {s str rest : Bytes} : 32 ≤ c → c ≠ 34 → c ≠ 92 →
      Chars hex s str rest → Chars hex (c :: s) (c :: str) rest
  | escape {esc d : UInt8} {s str rest : Bytes} : unescape esc = some d →
      Chars hex s str rest → Chars hex (92 :: esc :: s) (d :: str) rest
  | unicode {a b c d : UInt8} {s str rest : Bytes} : hex a = true → hex b = true →
      hex c = true → hex d = true → Chars hex s str rest →
      Chars hex (92 :: 117 :: a :: b :: c :: d :: s) (63 :: str) rest

/-! ## Numbers -/

def IsDigits (digits : Bytes) : Prop := digits ≠ [] ∧ ∀ c ∈ digits, isdigit c = true

/-- An integer without its sign: no leading zeros. -/
def IsNatural (digits : Bytes) : Prop := digits = [48] ∨ IsDigits digits ∧ digits.head? ≠ some 48

def IsInteger (token : Bytes) : Prop :=
  ∃ sign digits, token = sign ++ digits ∧ (sign = [] ∨ sign = [45]) ∧ IsNatural digits

def IsFraction (token : Bytes) : Prop := ∃ digits, token = 46 :: digits ∧ IsDigits digits

def IsExponent (token : Bytes) : Prop :=
  ∃ e sign digits, token = e :: (sign ++ digits) ∧ (e = 101 ∨ e = 69) ∧
    (sign = [] ∨ sign = [43] ∨ sign = [45]) ∧ IsDigits digits

/-! ## Values -/

/-- The object with the given members; of several with one key the first counts. -/
def ofMembers {D : Type} (members : List (Bytes × Json D)) : List (Bytes × Json D) :=
  members.foldl (fun object member => emplace member.1 member.2 object) []

/-- A value, and the members or elements up to and with the closing bracket. -/
inductive Symbol (D : Type) : Type where
  | value (v : Json D)
  | members (members : List (Bytes × Json D))
  | elements (elements : List (Json D))

inductive Derives {D : Type} (ws hex : UInt8 → Bool) (stod : Bytes → Option D) :
    Bytes → Symbol D → Bytes → Prop
  | litNull (rest : Bytes) : Derives ws hex stod (ascii "null" ++ rest) (.value .null) rest
  | litTrue (rest : Bytes) :
      Derives ws hex stod (ascii "true" ++ rest) (.value (.bool true)) rest
  | litFalse (rest : Bytes) :
      Derives ws hex stod (ascii "false" ++ rest) (.value (.bool false)) rest
  | integer {token : Bytes} {n : ℤ} (rest : Bytes) : IsInteger token → stoll token = some n →
      Derives ws hex stod (token ++ rest) (.value (.integer n)) rest
  | real {int frac exp : Bytes} {d : D} (rest : Bytes) : IsInteger int →
      (frac = [] ∨ IsFraction frac) → (exp = [] ∨ IsExponent exp) → frac ++ exp ≠ [] →
      stod (int ++ (frac ++ exp)) = some d →
      Derives ws hex stod (int ++ (frac ++ exp) ++ rest) (.value (.real d)) rest
  | string {s str rest : Bytes} : Chars hex s str rest →
      Derives ws hex stod (34 :: s) (.value (.string str)) rest
  | emptyObject {s rest : Bytes} : Ws ws s (125 :: rest) →
      Derives ws hex stod (123 :: s) (.value (.object [])) rest
  | object {s rest : Bytes} {members : List (Bytes × Json D)} :
      Derives ws hex stod s (.members members) rest →
      Derives ws hex stod (123 :: s) (.value (.object (ofMembers members))) rest
  | emptyArray {s rest : Bytes} : Ws ws s (93 :: rest) →
      Derives ws hex stod (91 :: s) (.value (.array [])) rest
  | array {s rest : Bytes} {elements : List (Json D)} :
      Derives ws hex stod s (.elements elements) rest →
      Derives ws hex stod (91 :: s) (.value (.array elements)) rest
  | lastMember {s s₁ s₂ s₃ s₄ s₅ key rest : Bytes} {v : Json D} : Ws ws s (34 :: s₁) →
      Chars hex s₁ key s₂ → Ws ws s₂ (58 :: s₃) → Ws ws s₃ s₄ →
      Derives ws hex stod s₄ (.value v) s₅ → Ws ws s₅ (125 :: rest) →
      Derives ws hex stod s (.members [(key, v)]) rest
  | member {s s₁ s₂ s₃ s₄ s₅ s₆ key rest : Bytes} {v : Json D}
      {members : List (Bytes × Json D)} : Ws ws s (34 :: s₁) →
      Chars hex s₁ key s₂ → Ws ws s₂ (58 :: s₃) → Ws ws s₃ s₄ →
      Derives ws hex stod s₄ (.value v) s₅ → Ws ws s₅ (44 :: s₆) →
      Derives ws hex stod s₆ (.members members) rest →
      Derives ws hex stod s (.members ((key, v) :: members)) rest
  | lastElement {s s₁ s₂ rest : Bytes} {v : Json D} : Ws ws s s₁ →
      Derives ws hex stod s₁ (.value v) s₂ → Ws ws s₂ (93 :: rest) →
      Derives ws hex stod s (.elements [v]) rest
  | element {s s₁ s₂ s₃ rest : Bytes} {v : Json D} {elements : List (Json D)} : Ws ws s s₁ →
      Derives ws hex stod s₁ (.value v) s₂ → Ws ws s₂ (44 :: s₃) →
      Derives ws hex stod s₃ (.elements elements) rest →
      Derives ws hex stod s (.elements (v :: elements)) rest

/-- A JSON text: a value with whitespace around it. -/
def IsText {D : Type} (ws hex : UInt8 → Bool) (stod : Bytes → Option D) (s : Bytes)
    (v : Json D) : Prop :=
  ∃ s₁ s₂, Ws ws s s₁ ∧ Derives ws hex stod s₁ (.value v) s₂ ∧ Ws ws s₂ []

/-- The whitespace of RFC 8259. -/
def isJsonSpace (c : UInt8) : Bool := c = 32 || c = 9 || c = 10 || c = 13

def isHexDigit (c : UInt8) : Bool :=
  isdigit c || (65 ≤ c && c ≤ 70) || (97 ≤ c && c ≤ 102)

/-- A larger set of whitespace and digits derives more. -/
theorem Ws.mono {ws ws' : UInt8 → Bool} {s rest : Bytes} (h : Ws ws s rest)
    (hws : ∀ c, ws c = true → ws' c = true) : Ws ws' s rest := by
  induction h with
  | nil s => exact .nil s
  | cons hc _ ih => exact .cons (hws _ hc) ih

theorem Chars.mono {hex hex' : UInt8 → Bool} {s str rest : Bytes} (h : Chars hex s str rest)
    (hhex : ∀ c, hex c = true → hex' c = true) : Chars hex' s str rest := by
  induction h with
  | quote rest => exact .quote rest
  | plain h1 h2 h3 _ ih => exact .plain h1 h2 h3 ih
  | escape he _ ih => exact .escape he ih
  | unicode ha hb hc hd _ ih => exact .unicode (hhex _ ha) (hhex _ hb) (hhex _ hc) (hhex _ hd) ih

theorem Ws.trans {ws : UInt8 → Bool} {s t rest : Bytes} (h : Ws ws s t) (h' : Ws ws t rest) :
    Ws ws s rest := by
  induction h with
  | nil s => exact h'
  | cons hc _ ih => exact .cons hc (ih h')

section Mono

variable {D : Type} {ws ws' hex hex' : UInt8 → Bool} {stod stod' : Bytes → Option D}

theorem Derives.mono {s rest : Bytes} {symbol : Symbol D}
    (h : Derives ws hex stod s symbol rest) (hws : ∀ c, ws c = true → ws' c = true)
    (hhex : ∀ c, hex c = true → hex' c = true)
    (hstod : ∀ token d, stod token = some d → stod' token = some d) :
    Derives ws' hex' stod' s symbol rest := by
  induction h with
  | litNull rest => exact .litNull rest
  | litTrue rest => exact .litTrue rest
  | litFalse rest => exact .litFalse rest
  | integer rest ht hn => exact .integer rest ht hn
  | real rest hi hf he hne hd => exact .real rest hi hf he hne (hstod _ _ hd)
  | string h => exact .string (h.mono hhex)
  | emptyObject h => exact .emptyObject (h.mono hws)
  | object _ ih => exact .object ih
  | emptyArray h => exact .emptyArray (h.mono hws)
  | array _ ih => exact .array ih
  | lastMember h1 h2 h3 h4 _ h6 ih =>
      exact .lastMember (h1.mono hws) (h2.mono hhex) (h3.mono hws) (h4.mono hws) ih
        (h6.mono hws)
  | member h1 h2 h3 h4 _ h6 _ ih ih' =>
      exact .member (h1.mono hws) (h2.mono hhex) (h3.mono hws) (h4.mono hws) ih (h6.mono hws) ih'
  | lastElement h1 _ h3 ih => exact .lastElement (h1.mono hws) ih (h3.mono hws)
  | element h1 _ h3 _ ih ih' => exact .element (h1.mono hws) ih (h3.mono hws) ih'

/-- Whitespace before the members of an object belongs to them. -/
theorem Derives.ws_members {s t rest : Bytes} {members : List (Bytes × Json D)}
    (h : Derives ws hex stod t (.members members) rest) (hs : Ws ws s t) :
    Derives ws hex stod s (.members members) rest := by
  cases h with
  | lastMember h1 h2 h3 h4 h5 h6 => exact .lastMember (hs.trans h1) h2 h3 h4 h5 h6
  | member h1 h2 h3 h4 h5 h6 h7 => exact .member (hs.trans h1) h2 h3 h4 h5 h6 h7

theorem Derives.ws_elements {s t rest : Bytes} {elements : List (Json D)}
    (h : Derives ws hex stod t (.elements elements) rest) (hs : Ws ws s t) :
    Derives ws hex stod s (.elements elements) rest := by
  cases h with
  | lastElement h1 h2 h3 => exact .lastElement (hs.trans h1) h2 h3
  | element h1 h2 h3 h4 => exact .element (hs.trans h1) h2 h3 h4

theorem IsText.mono {s : Bytes} {v : Json D} (h : IsText ws hex stod s v)
    (hws : ∀ c, ws c = true → ws' c = true) (hhex : ∀ c, hex c = true → hex' c = true)
    (hstod : ∀ token d, stod token = some d → stod' token = some d) :
    IsText ws' hex' stod' s v := by
  obtain ⟨s₁, s₂, h1, h2, h3⟩ := h
  exact ⟨s₁, s₂, h1.mono hws, h2.mono hws hhex hstod, h3.mono hws⟩

end Mono

end Json

end LinkScheduling
