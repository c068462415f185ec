import LinkScheduling.Model.Analyser
import LinkScheduling.Model.Metrics
import LinkScheduling.Model.Percentile
import Mathlib.Data.List.Infix

/-!
# `Metrics::print_summary` and `analyze` of `scripts/analyze_metrics.py`

One field for each figure that is printed. Quotients are taken as exact rationals where the
programs divide floating-point numbers.
-/

namespace LinkScheduling

/-! ## `print_summary` -/

structure Summary where
  waitingP50Ns : ℕ
  waitingP99Ns : ℕ
  responseP50Ns : ℕ
  responseP99Ns : ℕ
  throughputRps : ℚ
  a14Events : ℕ
  forfeitedBytes : ℕ
deriving DecidableEq

/-- The variables of the loop over the rows. -/
structure Tally where
  waiting : List ℕ
  response : List ℕ
  minArrival : ℕ
  maxFinish : ℕ
  a14 : ℕ
  forfeited : ℕ

def Tally.start (front : RequestMetrics) : Tally where
  waiting := []
  response := []
  minArrival := front.arrivalNs
  maxFinish := front.finishNs
  a14 := 0
  forfeited := 0

def Tally.add (tally : Tally) (row : RequestMetrics) : Tally where
  waiting := tally.waiting ++
    [if row.startNs ≥ row.arrivalNs then row.startNs - row.arrivalNs else 0]
  response := tally.response ++
    [if row.finishNs ≥ row.arrivalNs then row.finishNs - row.arrivalNs else 0]
  minArrival := min tally.minArrival row.arrivalNs
  maxFinish := max tally.maxFinish row.finishNs
  a14 := u64 (tally.a14 + row.a14Events)
  forfeited := u64 (tally.forfeited + row.forfeitedBytes)

/-- `completed_requests` and, if there are any, the other figures. -/
def printSummary (rows : List RequestMetrics) : ℕ × Option Summary :=
  match rows with
  | [] => (0, none)
  | front :: _ =>
      let tally := rows.foldl Tally.add (.start front)
      let window : ℚ := (u64 (tally.maxFinish + 2 ^ 64 - tally.minArrival) : ℕ) / 10 ^ 9
      (rows.length, some
        { waitingP50Ns := nearestRank tally.waiting 50
          waitingP99Ns := nearestRank tally.waiting 99
          responseP50Ns := nearestRank tally.response 50
          responseP99Ns := nearestRank tally.response 99
          throughputRps := if window > 0 then rows.length / window else 0
          a14Events := tally.a14
          forfeitedBytes := tally.forfeited })

/-! ## `analyze` -/

/-- The two functions of Python's `str` that depend on its tables. `none` is a `ValueError`. -/
structure Python where
  int : Str → Option ℤ
  lower : Str → Str
  int_decimal : ∀ n < 2 ^ 64, int ((decimal n).map UInt8.toNat) = some (n : ℤ)

inductive SizeClass : Type where
  | small
  | medium
  | large
  | longline
deriving DecidableEq

def sizeClass (py : Python) (filename : Str) (nbytes : ℤ) : SizeClass :=
  let name := py.lower filename
  if str "small" <:+: name then .small
  else if str "medium" <:+: name then .medium
  else if str "large" <:+: name then .large
  else if str "long" <:+: name then .longline
  else if nbytes ≤ 2 * 1024 then .small
  else if nbytes ≤ 40 * 1024 then .medium
  else .large

structure ClassReport where
  klass : SizeClass
  n : ℕ
  median : ℚ
  p99 : ℚ
  forfeited : ℤ
deriving DecidableEq

structure Report where
  n : ℕ
  waitingP50Ns : ℤ
  waitingP99Ns : ℤ
  throughputRps : ℚ
  forfeitedBytesTotal : ℤ
  classes : List ClassReport
deriving DecidableEq

/-- The variables of the loop over the rows. -/
structure Figures where
  waiting : List ℤ := []
  arrivals : List ℤ := []
  finishes : List ℤ := []
  forfeited : ℤ := 0
  byClass : SizeClass → List ℚ := fun _ => []
  forfeitByClass : SizeClass → ℤ := fun _ => 0

/-- `int(row[name])`. -/
def Python.intField (py : Python) (row : Csv.DictRow) (name : String) : Option ℤ :=
  (row.get (str name)).bind py.int

/-- The figures of one more row. -/
def Figures.count (figures : Figures) (klass : SizeClass)
    (arrival start finish nbytes forfeited : ℤ) : Figures :=
  let wait := max 0 (start - arrival)
  let resp := max 0 (finish - arrival)
  let slowdown : ℚ := if nbytes ≠ 0 then resp / nbytes else 0
  { waiting := figures.waiting ++ [wait]
    arrivals := figures.arrivals ++ [arrival]
    finishes := figures.finishes ++ [finish]
    forfeited := figures.forfeited + forfeited
    byClass := Function.update figures.byClass klass (figures.byClass klass ++ [slowdown])
    forfeitByClass :=
      Function.update figures.forfeitByClass klass (figures.forfeitByClass klass + forfeited) }

/-- One pass of the loop; `none` is an exception. The `rounds` are looked at, for nothing, where
a GET forfeited nothing. -/
def Figures.add (py : Python) (figures : Figures) (row : Csv.DictRow) : Option Figures := do
  let arrival ← py.intField row "arrival_ns"
  let start ← py.intField row "start_ns"
  let finish ← py.intField row "finish_ns"
  let nbytes ← py.intField row "bytes"
  let forfeited ← py.intField row "forfeited_bytes"
  let filename ← row.get (str "filename")
  if forfeited = 0 ∧ row.get (str "op") = some (str "GET") then
    let _ ← py.intField row "rounds"
  some (figures.count (sizeClass py filename nbytes) arrival start finish nbytes forfeited)

/-- The line of a class that has rows. -/
def Figures.classReport (figures : Figures) (klass : SizeClass) : Option ClassReport :=
  let vals := figures.byClass klass
  if vals.isEmpty then none
  else some
    { klass := klass
      n := vals.length
      median := Analyser.nearestRank vals 50
      p99 := Analyser.nearestRank vals 99
      forfeited := figures.forfeitByClass klass }

def Figures.report (figures : Figures) (n : ℕ) : Report :=
  let window := (figures.finishes.max?).getD 0 - (figures.arrivals.min?).getD 0
  { n := n
    waitingP50Ns := Analyser.nearestRank figures.waiting 50
    waitingP99Ns := Analyser.nearestRank figures.waiting 99
    throughputRps := if window ≠ 0 then n / ((window : ℚ) / 10 ^ 9) else 0
    forfeitedBytesTotal := figures.forfeited
    classes := [SizeClass.small, .medium, .large, .longline].filterMap figures.classReport }

/-- `analyze`: `some none` is the line `no rows`, and `none` an exception. -/
def analyze (py : Python) (enc : Encoding) (file : Bytes) : Option (Option Report) := do
  let rows ← loadRows enc file
  if rows.isEmpty then some none
  else do
    let figures ← rows.foldlM (Figures.add py) {}
    some (some (figures.report rows.length))

end LinkScheduling
