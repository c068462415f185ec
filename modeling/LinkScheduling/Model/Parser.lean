import LinkScheduling.Framework.Interaction
import LinkScheduling.Model.JsonParser

/-!
# `config.cpp`: what the parser does to `text_` and `pos_`

`Parser` again, now as a program whose calls are its accesses: each read of `text_`, each
`compare` and `substr`, each assignment to `pos_`. The member functions also say when they
are entered and left, and the loops when a pass begins. The programs know the size of the
text and nothing else of it; what they read are answers. `exec` answers from a text.

The recursion and the loops run on fuel, and to be without it is a call of its own, so
that a program which never makes this call ends by itself.
-/

namespace LinkScheduling

open Framework

namespace Json.Parser

/-- The member functions with a recursion or a loop in or below them. -/
inductive Routine : Type where
  | skipWs
  | value
  | object
  | array
  | string
  | number
  | bool
  | null
deriving DecidableEq

inductive Access : Type where
  /-- `text_[pos]` -/
  | read (pos : ℕ)
  /-- `text_.compare(pos, len, literal) == 0` -/
  | compare (pos len : ℕ) (literal : Bytes)
  /-- `text_.substr(pos, len)` -/
  | substr (pos len : ℕ)
  /-- `pos_ = pos`, for `++pos_`, `pos_++` and `pos_ += n` -/
  | move (pos : ℕ)
  | enter (routine : Routine) (pos : ℕ)
  | leave (routine : Routine) (pos : ℕ)
  /-- A pass of the innermost loop begins with the cursor at `pos`. -/
  | iterate (pos : ℕ)
  /-- `throw std::runtime_error("error: malformed JSON")` -/
  | fail
  | outOfFuel

abbrev Answer : Access → Type
  | .read _ => UInt8
  | .compare _ _ _ => Bool
  | .substr _ _ => Bytes
  | .move _ | .enter _ _ | .leave _ _ | .iterate _ => Unit
  | .fail | .outOfFuel => Empty

abbrev Scan (α : Type) : Type := Prog Access Answer α

def read (pos : ℕ) : Scan UInt8 := Prog.perform (Access.read pos)

def compare (pos len : ℕ) (literal : Bytes) : Scan Bool := Prog.perform (Access.compare pos len literal)

def substr (pos len : ℕ) : Scan Bytes := Prog.perform (Access.substr pos len)

def move (pos : ℕ) : Scan Unit := Prog.perform (Access.move pos)

def enter (routine : Routine) (pos : ℕ) : Scan Unit := Prog.perform (Access.enter routine pos)

def leave (routine : Routine) (pos : ℕ) : Scan Unit := Prog.perform (Access.leave routine pos)

def iterate (pos : ℕ) : Scan Unit := Prog.perform (Access.iterate pos)

def fail {α : Type} : Scan α := .call .fail Empty.elim

def outOfFuel {α : Type} : Scan α := .call .outOfFuel Empty.elim

/-- A call of a member function that returns where it leaves the cursor. -/
def called {α : Type} (routine : Routine) (pos : ℕ) (body : Scan (α × ℕ)) : Scan (α × ℕ) := do
  enter routine pos
  let (result, pos) ← body
  leave routine pos
  return (result, pos)

section Parser

variable (size : ℕ)

/-! ## The cursor -/

/-- `pos_ < text_.size() && p(text_[pos_])`. -/
def test (p : UInt8 → Bool) (pos : ℕ) : Scan Bool := do
  if pos < size then
    let c ← read pos
    return p c
  else return false

/-- `while (pos_ < text_.size() && p(text_[pos_])) ++pos_`. -/
def skipLoop (p : UInt8 → Bool) : ℕ → ℕ → Scan ℕ
  | 0, _ => outOfFuel
  | fuel + 1, pos => do
      if ← test size p pos then
        iterate pos
        move (pos + 1)
        skipLoop p fuel (pos + 1)
      else return pos

def skipWhile (p : UInt8 → Bool) (pos : ℕ) : Scan ℕ := skipLoop size p (size - pos + 1) pos

def skipWs (pos : ℕ) : Scan ℕ := do
  enter .skipWs pos
  let pos ← skipWhile size isspace pos
  leave .skipWs pos
  return pos

def consume (c : UInt8) (pos : ℕ) : Scan (Bool × ℕ) := do
  let pos ← skipWs size pos
  if ← test size (· = c) pos then
    move (pos + 1)
    return (true, pos + 1)
  else return (false, pos)

def peek (pos : ℕ) : Scan (UInt8 × ℕ) := do
  let pos ← skipWs size pos
  if size ≤ pos then fail
  else
    let c ← read pos
    return (c, pos)

/-! ## Strings -/

/-- The loop of `parse_string`, and `fail()` behind it. -/
def stringLoop : ℕ → ℕ → Bytes → Scan (Bytes × ℕ)
  | 0, _, _ => outOfFuel
  | fuel + 1, pos, str =>
      if pos < size then do
        iterate pos
        let c ← read pos
        move (pos + 1)
        if c = 34 then return (str, pos + 1)
        else if c = 92 then
          if size ≤ pos + 1 then fail
          else do
            let esc ← read (pos + 1)
            move (pos + 2)
            if esc = 117 then
              if size < pos + 2 + 4 then fail
              else do
                move (pos + 2 + 4)
                stringLoop fuel (pos + 2 + 4) (str ++ [63])
            else match unescape esc with
            | some d => stringLoop fuel (pos + 2) (str ++ [d])
            | none => fail
        else if c < 32 then fail
        else stringLoop fuel (pos + 1) (str ++ [c])
      else fail

def parseString (pos : ℕ) : Scan (Bytes × ℕ) :=
  called .string pos do
    let pos ← skipWs size pos
    if ← test size (· = 34) pos then
      move (pos + 1)
      stringLoop size (size - (pos + 1) + 1) (pos + 1) []
    else fail

/-! ## Numbers -/

/-- `if (pos_ < text_.size() && p(text_[pos_])) ++pos_`. -/
def skipOne (p : UInt8 → Bool) (pos : ℕ) : Scan ℕ := do
  if ← test size p pos then
    move (pos + 1)
    return pos + 1
  else return pos

/-- The digits of the fraction and of the exponent. -/
def someDigits (pos : ℕ) : Scan ℕ := do
  if ← test size isdigit pos then skipWhile size isdigit pos else fail

/-- The integer part. The second look at the digit is `text_[pos_] == '0'` alone. -/
def integerPart (pos : ℕ) : Scan ℕ := do
  let pos ← skipOne size (· = 45) pos
  if ← test size isdigit pos then
    let c ← read pos
    if c = 48 then
      move (pos + 1)
      return pos + 1
    else skipWhile size isdigit pos
  else fail

/-- The fraction; `true` if there is none. -/
def fractionPart (pos : ℕ) : Scan (Bool × ℕ) := do
  if ← test size (· = 46) pos then
    move (pos + 1)
    let pos ← someDigits size (pos + 1)
    return (false, pos)
  else return (true, pos)

/-- The exponent; `true` if there is none. -/
def exponentPart (pos : ℕ) : Scan (Bool × ℕ) := do
  if ← test size (fun c => c = 101 || c = 69) pos then
    move (pos + 1)
    let pos ← skipOne size (fun c => c = 43 || c = 45) (pos + 1)
    let pos ← someDigits size pos
    return (false, pos)
  else return (true, pos)

variable {D : Type} (stod : Bytes → Option D)

/-- `std::stoll` or `std::stod` on the token; what they throw is caught and is `fail()`. -/
def numberOf (isInt : Bool) (token : Bytes) : Option (Json D) :=
  if isInt then (stoll token).map .integer else (stod token).map .real

def parseNumber (pos : ℕ) : Scan (Json D × ℕ) :=
  called .number pos do
    let start ← skipWs size pos
    let pos ← integerPart size start
    let (noFraction, pos) ← fractionPart size pos
    let (noExponent, pos) ← exponentPart size pos
    let token ← substr start (pos - start)
    match numberOf stod (noFraction && noExponent) token with
    | some number => return (number, pos)
    | none => fail

/-! ## Literals -/

def parseBool (pos : ℕ) : Scan (Json D × ℕ) :=
  called .bool pos do
    if ← compare pos 4 (ascii "true") then
      move (pos + 4)
      return (.bool true, pos + 4)
    else if ← compare pos 5 (ascii "false") then
      move (pos + 5)
      return (.bool false, pos + 5)
    else fail

def parseNull (pos : ℕ) : Scan (Json D × ℕ) :=
  called .null pos do
    if ← compare pos 4 (ascii "null") then
      move (pos + 4)
      return (.null, pos + 4)
    else fail

/-! ## Values -/

mutual

def parseValue : ℕ → ℕ → Scan (Json D × ℕ)
  | 0, _ => outOfFuel
  | fuel + 1, pos =>
      called .value pos do
        let (c, pos) ← peek size pos
        if c = 123 then parseObject fuel pos
        else if c = 91 then parseArray fuel pos
        else if c = 34 then do
          let (str, pos) ← parseString size pos
          return (.string str, pos)
        else if c = 116 ∨ c = 102 then parseBool pos
        else if c = 110 then parseNull pos
        else if c = 45 ∨ isdigit c = true then parseNumber size stod pos
        else fail
termination_by structural n _ => n

def parseObject : ℕ → ℕ → Scan (Json D × ℕ)
  | 0, _ => outOfFuel
  | fuel + 1, pos =>
      called .object pos do
        let (opened, pos) ← consume size 123 pos
        if opened then
          let pos ← skipWs size pos
          let (closed, pos) ← consume size 125 pos
          if closed then return (.object [], pos) else parseMembers fuel pos []
        else fail
termination_by structural n _ => n

/-- The loop of `parse_object`. -/
def parseMembers : ℕ → ℕ → List (Bytes × Json D) → Scan (Json D × ℕ)
  | 0, _, _ => outOfFuel
  | fuel + 1, pos, members => do
      iterate pos
      let pos ← skipWs size pos
      let (c, pos) ← peek size pos
      if c = 34 then
        let (key, pos) ← parseString size pos
        let (colon, pos) ← consume size 58 pos
        if colon then
          let (value, pos) ← parseValue fuel pos
          let (closed, pos) ← consume size 125 pos
          if closed then return (.object (emplace key value members), pos)
          else
            let (comma, pos) ← consume size 44 pos
            if comma then parseMembers fuel pos (emplace key value members) else fail
        else fail
      else fail
termination_by structural n _ _ => n

def parseArray : ℕ → ℕ → Scan (Json D × ℕ)
  | 0, _ => outOfFuel
  | fuel + 1, pos =>
      called .array pos do
        let (opened, pos) ← consume size 91 pos
        if opened then
          let pos ← skipWs size pos
          let (closed, pos) ← consume size 93 pos
          if closed then return (.array [], pos) else parseElements fuel pos []
        else fail
termination_by structural n _ => n

/-- The loop of `parse_array`. -/
def parseElements : ℕ → ℕ → List (Json D) → Scan (Json D × ℕ)
  | 0, _, _ => outOfFuel
  | fuel + 1, pos, elements => do
      iterate pos
      let (value, pos) ← parseValue fuel pos
      let (closed, pos) ← consume size 93 pos
      if closed then return (.array (elements ++ [value]), pos)
      else
        let (comma, pos) ← consume size 44 pos
        if comma then parseElements fuel pos (elements ++ [value]) else fail
termination_by structural n _ _ => n

end

/-- `Parser::parse`. -/
def parse : Scan (Json D) := do
  let pos ← skipWs size 0
  let (value, pos) ← parseValue size stod (3 * size + 3) pos
  let pos ← skipWs size pos
  if pos ≠ size then fail else return value

end Parser

/-! ## Running a program -/

/-- The program run on `text`. `compare` and `substr` throw behind its end; a read there
has no meaning and ends the run in the same way. -/
def exec {α : Type} (text : Bytes) : Scan α → Except Fault α
  | .ret a => .ok a
  | .call (.read pos) k =>
      match text[pos]? with
      | some c => exec text (k c)
      | none => .error .outOfRange
  | .call (.compare pos len literal) k => do
      let equal ← Json.compare text pos len literal
      exec text (k equal)
  | .call (.substr pos len) k => do
      let token ← Json.substr text pos len
      exec text (k token)
  | .call (.move _) k => exec text (k ())
  | .call (.enter _ _) k => exec text (k ())
  | .call (.leave _ _) k => exec text (k ())
  | .call (.iterate _) k => exec text (k ())
  | .call .fail _ => .error .malformed
  | .call .outOfFuel _ => .error .fuel

end Json.Parser

end LinkScheduling
