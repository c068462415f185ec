import LinkScheduling.Model.Basic

/-!
# `scripts/analyze_metrics.py`: `load_rows`

`list(csv.DictReader(f))` over a file opened with `newline=""`: the bytes are decoded,
the text is cut into lines that keep their ends, and the reader of Python's `csv` module
runs over each line and then sees its end. The dialect is the default one (commas,
double quotes that are doubled inside a quoted field, not strict), and since Python 3.11 a
NUL is a character like any other.
-/

namespace LinkScheduling

/-- A Python `str`, by code points. -/
abbrev Str : Type := List ℕ

def str (s : String) : Str := s.toList.map Char.toNat

/-- The encoding of the locale that `open` decodes with: a superset of ASCII in which no
other byte makes an ASCII character. `none` is a `UnicodeDecodeError`. -/
structure Encoding where
  decode : Bytes → Option Str
  decode_nil : decode [] = some []
  decode_ascii : ∀ a (c : UInt8) b, c < 128 →
    decode (a ++ c :: b) = (do
      let x ← decode a
      let y ← decode b
      some (x ++ c.toNat :: y))
  decode_non_ascii : ∀ a x, (∀ c ∈ a, ¬ c < 128) → decode a = some x → ∀ n ∈ x, ¬ n < 128

namespace Csv

inductive State : Type where
  | startRecord
  | startField
  | inField
  | inQuotedField
  | quoteInQuotedField
  | eatCrnl
deriving DecidableEq

/-- A `csv.reader`: the field that is being read and the fields of the row before it. -/
structure Reader where
  state : State
  field : Str
  fields : List Str
deriving DecidableEq

/-- `parse_reset`. -/
def Reader.fresh : Reader := ⟨.startRecord, [], []⟩

/-- `csv.field_size_limit()`. -/
def fieldSizeLimit : ℕ := 131072

/-- `parse_add_char`; `none` is a `csv.Error`. -/
def Reader.addChar (r : Reader) (c : ℕ) (state : State) : Option Reader :=
  if r.field.length < fieldSizeLimit then some ⟨state, r.field ++ [c], r.fields⟩ else none

/-- `parse_save_field`. -/
def Reader.saveField (r : Reader) (state : State) : Reader := ⟨state, [], r.fields ++ [r.field]⟩

/-- The case `START_FIELD` of `parse_process_char`. -/
def Reader.startField (r : Reader) (c : Option ℕ) : Option Reader :=
  match c with
  | none => some (r.saveField .startRecord)
  | some c =>
      if c = 10 ∨ c = 13 then some (r.saveField .eatCrnl)
      else if c = 34 then some { r with state := .inQuotedField }
      else if c = 44 then some (r.saveField .startField)
      else r.addChar c .inField

/-- `parse_process_char`; `none` is the end of the line. -/
def Reader.process (r : Reader) (c : Option ℕ) : Option Reader :=
  match r.state with
  | .startRecord =>
      match c with
      | none => some r
      | some c =>
          if c = 10 ∨ c = 13 then some { r with state := .eatCrnl } else r.startField (some c)
  | .startField => r.startField c
  | .inField =>
      match c with
      | none => some (r.saveField .startRecord)
      | some c =>
          if c = 10 ∨ c = 13 then some (r.saveField .eatCrnl)
          else if c = 44 then some (r.saveField .startField)
          else r.addChar c .inField
  | .inQuotedField =>
      match c with
      | none => some r
      | some c =>
          if c = 34 then some { r with state := .quoteInQuotedField }
          else r.addChar c .inQuotedField
  | .quoteInQuotedField =>
      match c with
      | none => some (r.saveField .startRecord)
      | some c =>
          if c = 34 then r.addChar c .inQuotedField
          else if c = 44 then some (r.saveField .startField)
          else if c = 10 ∨ c = 13 then some (r.saveField .eatCrnl)
          else r.addChar c .inField
  | .eatCrnl =>
      match c with
      | none => some { r with state := .startRecord }
      | some c => if c = 10 ∨ c = 13 then some r else none

/-- The characters one after the other. -/
def Reader.feed (r : Reader) : Str → Option Reader
  | [] => some r
  | c :: s => do
      let r ← r.process (some c)
      r.feed s

/-- `Reader_iternext` over all the lines: a row goes on over the lines until the reader is
back at the start of a record. A field that is open at the end of the file is saved. -/
def readRows (r : Reader) : List Str → Option (List (List Str))
  | [] =>
      if r.field ≠ [] ∨ r.state = .inQuotedField then some [(r.saveField r.state).fields]
      else some []
  | line :: lines => do
      let r ← r.feed line
      let r ← r.process none
      if r.state = .startRecord then do
        let rows ← readRows .fresh lines
        some (r.fields :: rows)
      else readRows r lines

/-- The lines of a file that was opened with `newline=""`, each with its end. -/
def splitLines (line : Str) : Str → List Str
  | [] => if line = [] then [] else [line]
  | 10 :: s => (line ++ [10]) :: splitLines [] s
  | 13 :: 10 :: s => (line ++ [13, 10]) :: splitLines [] s
  | 13 :: s => (line ++ [13]) :: splitLines [] s
  | c :: s => splitLines (line ++ [c]) s

/-- A row of `csv.DictReader`: the values under the names of the columns, `None` where the
row is too short, and the values that are too many. -/
structure DictRow where
  values : List (Str × Option Str)
  rest : List Str
deriving DecidableEq

def DictRow.ofRow (fieldnames : List Str) (row : List Str) : DictRow where
  values := fieldnames.zipIdx.map fun (name, i) => (name, row[i]?)
  rest := row.drop fieldnames.length

/-- `row[name]`. -/
def DictRow.get (row : DictRow) (name : Str) : Option Str := (row.values.lookup name).join

/-- The first row names the columns, and empty rows are left out. -/
def dictReader : List (List Str) → List DictRow
  | [] => []
  | fieldnames :: rows => (rows.filter (· ≠ [])).map (DictRow.ofRow fieldnames)

end Csv

/-- `load_rows`; `none` is an exception. -/
def loadRows (enc : Encoding) (file : Bytes) : Option (List Csv.DictRow) := do
  let text ← enc.decode file
  let rows ← Csv.readRows .fresh (Csv.splitLines [] text)
  some (Csv.dictReader rows)

end LinkScheduling
