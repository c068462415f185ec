import LinkScheduling.Model.Calls

/-!
# `metrics.h`, `Metrics::record` and `Metrics::write_csv`
-/

namespace LinkScheduling

structure RequestMetrics where
  requestId : ℤ
  op : Operation
  filename : Bytes
  totalBytes : ℕ
  arrivalNs : ℕ
  startNs : ℕ
  finishNs : ℕ
  rounds : ℕ
  forfeitedBytes : ℕ
  a14Events : ℕ
deriving DecidableEq

/-- The row `Metrics::record` appends for a request. -/
def RequestMetrics.ofRequest (request : Request) : RequestMetrics where
  requestId := request.requestId
  op := request.op
  filename := request.filename
  totalBytes := request.totalBytes
  arrivalNs := request.arrivalNs
  startNs := request.startNs
  finishNs := request.finishNs
  rounds := request.rounds
  forfeitedBytes := request.forfeitedBytes
  a14Events := request.a14Events

/-! ## `write_csv` -/

def csvHeader : Bytes :=
  ascii "request_id,op,filename,bytes,rounds," ++
    ascii "forfeited_bytes,arrival_ns,start_ns,finish_ns\n"

def opName : Operation → Bytes
  | .GET => ascii "GET"
  | .PUT => ascii "PUT"
  | .HEALTH => ascii "UNKNOWN"

/-- What is written between the commas of a row. -/
def csvFields (row : RequestMetrics) : List Bytes :=
  [decimalInt row.requestId, opName row.op, row.filename, decimal row.totalBytes,
    decimal row.rounds, decimal row.forfeitedBytes, decimal row.arrivalNs, decimal row.startNs,
    decimal row.finishNs]

def csvRow (row : RequestMetrics) : Bytes := [44].intercalate (csvFields row) ++ [10]

/-- `std::sort` by number; the order of rows of one number is not specified. -/
def sortRows (rows : List RequestMetrics) : List RequestMetrics :=
  rows.mergeSort fun a b => decide (a.requestId ≤ b.requestId)

/-- The bytes of the file when nothing fails. -/
def writeCsv (records : List RequestMetrics) : Bytes :=
  csvHeader ++ (sortRows records).flatMap csvRow

end LinkScheduling
