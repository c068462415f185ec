import LinkScheduling.Model.Config
import LinkScheduling.Model.Protocol

/-!
# `config.cpp`: the JSON parser

The functions of `Parser` get the text and the cursor `pos_` and return the cursor where
they leave it. A read `text_[pos_]` carries the proof that the cursor is inside the text;
`compare` and `substr` throw behind its end. The mutual recursion runs on fuel, and
`Fault.fuel` is how the model says that there was not enough of it.
-/

namespace LinkScheduling

namespace Json

/-- What ends the parser without a value: `fail()`, the `std::out_of_range` of the
standard library, or a model that was given too little fuel. -/
inductive Fault : Type where
  | malformed
  | outOfRange
  | fuel
deriving DecidableEq

/-! ## The cursor -/

/-- `pos_ < text_.size() && p(text_[pos_])`. -/
def isAt (p : UInt8 → Bool) (text : Bytes) (pos : ℕ) : Bool :=
  if h : pos < text.length then p text[pos] else false

/-- `while (pos_ < text_.size() && p(text_[pos_])) ++pos_`; a pass ends or moves the
cursor, so `text_.size() - pos_` passes are enough. -/
def skipLoop (p : UInt8 → Bool) (text : Bytes) : ℕ → ℕ → ℕ
  | 0, pos => pos
  | fuel + 1, pos => if isAt p text pos then skipLoop p text fuel (pos + 1) else pos

def skipWhile (p : UInt8 → Bool) (text : Bytes) (pos : ℕ) : ℕ :=
  skipLoop p text (text.length - pos) pos

def skipWs (text : Bytes) (pos : ℕ) : ℕ := skipWhile isspace text pos

def consume (c : UInt8) (text : Bytes) (pos : ℕ) : Bool × ℕ :=
  let pos := skipWs text pos
  if isAt (· = c) text pos then (true, pos + 1) else (false, pos)

def peek (text : Bytes) (pos : ℕ) : Except Fault (UInt8 × ℕ) :=
  let pos := skipWs text pos
  if h : pos < text.length then .ok (text[pos], pos) else .error .malformed

/-- `text_.compare(pos, len, literal) == 0`. -/
def compare (text : Bytes) (pos len : ℕ) (literal : Bytes) : Except Fault Bool :=
  if text.length < pos then .error .outOfRange else .ok ((text.drop pos).take len = literal)

/-- `text_.substr(pos, len)`. -/
def substr (text : Bytes) (pos len : ℕ) : Except Fault Bytes :=
  if text.length < pos then .error .outOfRange else .ok ((text.drop pos).take len)

/-! ## Strings -/

/-- The escapes of one character. -/
def unescape (esc : UInt8) : Option UInt8 :=
  if esc = 34 ∨ esc = 92 ∨ esc = 47 then some esc
  else if esc = 98 then some 8
  else if esc = 102 then some 12
  else if esc = 110 then some 10
  else if esc = 114 then some 13
  else if esc = 116 then some 9
  else none

/-- The loop of `parse_string`. Behind it stands `fail()`, which is also what is left
after `text_.size() - pos_` passes. -/
def stringLoop (text : Bytes) : ℕ → ℕ → Bytes → Except Fault (Bytes × ℕ)
  | 0, _, _ => .error .malformed
  | fuel + 1, pos, str =>
      if h : pos < text.length then
        let c := text[pos]
        if c = 34 then .ok (str, pos + 1)
        else if c = 92 then
          if h : pos + 1 < text.length then
            let esc := text[pos + 1]
            if esc = 117 then
              if pos + 2 + 4 > text.length then .error .malformed
              else stringLoop text fuel (pos + 2 + 4) (str ++ [63])
            else match unescape esc with
            | some d => stringLoop text fuel (pos + 2) (str ++ [d])
            | none => .error .malformed
          else .error .malformed
        else if c < 32 then .error .malformed
        else stringLoop text fuel (pos + 1) (str ++ [c])
      else .error .malformed

def parseString (text : Bytes) (pos : ℕ) : Except Fault (Bytes × ℕ) :=
  let pos := skipWs text pos
  if !isAt (· = 34) text pos then .error .malformed
  else stringLoop text (text.length - (pos + 1)) (pos + 1) []

/-! ## Numbers -/

/-- `std::stoll` on a string of digits with an optional minus sign, which throws outside
the range of `long long`. -/
def stoll (token : Bytes) : Option ℤ :=
  let value : ℤ := match token with
    | 45 :: digits => -digitsValue digits
    | digits => digitsValue digits
  if -2 ^ 63 ≤ value ∧ value < 2 ^ 63 then some value else none

/-- The integer part of a number. -/
def integerPart (text : Bytes) (pos : ℕ) : Except Fault ℕ :=
  let pos := if isAt (· = 45) text pos then pos + 1 else pos
  if !isAt isdigit text pos then .error .malformed
  else if isAt (· = 48) text pos then .ok (pos + 1)
  else .ok (skipWhile isdigit text pos)

/-- The fraction; `true` if there is none. -/
def fractionPart (text : Bytes) (pos : ℕ) : Except Fault (Bool × ℕ) :=
  if isAt (· = 46) text pos then
    if !isAt isdigit text (pos + 1) then .error .malformed
    else .ok (false, skipWhile isdigit text (pos + 1))
  else .ok (true, pos)

/-- The exponent; `true` if there is none. -/
def exponentPart (text : Bytes) (pos : ℕ) : Except Fault (Bool × ℕ) :=
  if isAt (fun c => c = 101 || c = 69) text pos then
    let pos := pos + 1
    let pos := if isAt (fun c => c = 43 || c = 45) text pos then pos + 1 else pos
    if !isAt isdigit text pos then .error .malformed
    else .ok (false, skipWhile isdigit text pos)
  else .ok (true, pos)

section Parser

variable {D : Type} (stod : Bytes → Option D) (text : Bytes)

/-- `parse_number`; `stod` is `std::stod` on the token of a number. -/
def parseNumber (pos : ℕ) : Except Fault (Json D × ℕ) := do
  let start := skipWs text pos
  let pos ← integerPart text start
  let (noFraction, pos) ← fractionPart text pos
  let (noExponent, pos) ← exponentPart text pos
  let token ← substr text start (pos - start)
  if noFraction && noExponent then
    match stoll token with
    | some n => .ok (.integer n, pos)
    | none => .error .malformed
  else
    match stod token with
    | some d => .ok (.real d, pos)
    | none => .error .malformed

def parseBool (pos : ℕ) : Except Fault (Json D × ℕ) := do
  if ← compare text pos 4 (ascii "true") then .ok (.bool true, pos + 4)
  else if ← compare text pos 5 (ascii "false") then .ok (.bool false, pos + 5)
  else .error .malformed

def parseNull (pos : ℕ) : Except Fault (Json D × ℕ) := do
  if ← compare text pos 4 (ascii "null") then .ok (.null, pos + 4)
  else .error .malformed

/-- `std::map::emplace`: a key that is there keeps its value. -/
def emplace (key : Bytes) (value : Json D) : List (Bytes × Json D) → List (Bytes × Json D)
  | [] => [(key, value)]
  | (k, v) :: rest =>
      if key = k then (k, v) :: rest
      else if key < k then (key, value) :: (k, v) :: rest
      else (k, v) :: emplace key value rest

/-! ## Values -/

mutual

def parseValue : ℕ → ℕ → Except Fault (Json D × ℕ)
  | 0, _ => .error .fuel
  | fuel + 1, pos => do
      let (c, pos) ← peek text pos
      if c = 123 then parseObject fuel pos
      else if c = 91 then parseArray fuel pos
      else if c = 34 then do
        let (str, pos) ← parseString text pos
        .ok (.string str, pos)
      else if c = 116 ∨ c = 102 then parseBool text pos
      else if c = 110 then parseNull text pos
      else if c = 45 ∨ isdigit c = true then parseNumber stod text pos
      else .error .malformed

def parseObject : ℕ → ℕ → Except Fault (Json D × ℕ)
  | 0, _ => .error .fuel
  | fuel + 1, pos =>
      let (opened, pos) := consume 123 text pos
      if !opened then .error .malformed
      else
        let (closed, pos) := consume 125 text (skipWs text pos)
        if closed then .ok (.object [], pos) else parseMembers fuel pos []

/-- The loop of `parse_object`. -/
def parseMembers : ℕ → ℕ → List (Bytes × Json D) → Except Fault (Json D × ℕ)
  | 0, _, _ => .error .fuel
  | fuel + 1, pos, members => do
      let (c, pos) ← peek text (skipWs text pos)
      if c ≠ 34 then .error .malformed
      else do
        let (key, pos) ← parseString text pos
        let (colon, pos) := consume 58 text pos
        if !colon then .error .malformed
        else do
          let (value, pos) ← parseValue fuel pos
          let members := emplace key value members
          let (closed, pos) := consume 125 text pos
          if closed then .ok (.object members, pos)
          else
            let (comma, pos) := consume 44 text pos
            if !comma then .error .malformed else parseMembers fuel pos members

def parseArray : ℕ → ℕ → Except Fault (Json D × ℕ)
  | 0, _ => .error .fuel
  | fuel + 1, pos =>
      let (opened, pos) := consume 91 text pos
      if !opened then .error .malformed
      else
        let (closed, pos) := consume 93 text (skipWs text pos)
        if closed then .ok (.array [], pos) else parseElements fuel pos []

/-- The loop of `parse_array`. -/
def parseElements : ℕ → ℕ → List (Json D) → Except Fault (Json D × ℕ)
  | 0, _, _ => .error .fuel
  | fuel + 1, pos, elements => do
      let (value, pos) ← parseValue fuel pos
      let elements := elements ++ [value]
      let (closed, pos) := consume 93 text pos
      if closed then .ok (.array elements, pos)
      else
        let (comma, pos) := consume 44 text pos
        if !comma then .error .malformed else parseElements fuel pos elements

end

/-- `Parser::parse`. Two calls deeper the cursor has moved, so this fuel is enough. -/
def parse : Except Fault (Json D) := do
  let (value, pos) ← parseValue stod text (3 * text.length + 3) (skipWs text 0)
  let pos := skipWs text pos
  if pos ≠ text.length then .error .malformed else .ok value

end Parser

end Json

end LinkScheduling
