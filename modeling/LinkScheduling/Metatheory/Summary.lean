import Mathlib.Data.Nat.Cast.Order.Ring
import LinkScheduling.Metatheory.Export
import LinkScheduling.Metatheory.Numbers
import LinkScheduling.Metatheory.Percentile
import LinkScheduling.Model.Summary

/-!
# The summary of the server and the report of the analyser

Both are computed from the same rows, one from the records in the order in which they were
made, the other from the exported file in the order of the numbers. They print the same
figures.
-/

namespace LinkScheduling

open Framework

/-! ## Order statistics of both number types -/

theorem mergeSort_cast (values : List ℕ) :
    (values.map (Nat.cast : ℕ → ℤ)).mergeSort = values.mergeSort.map Nat.cast := by
  refine (List.map_mergeSort fun a _ b _ => ?_).symm
  simp

/-- Python's integers and the server's have the same percentiles. -/
theorem analyser_nearestRank_cast {values : List ℕ} {p : ℚ} (hne : values ≠ []) (hp : 0 < p)
    (hp' : p ≤ 100) :
    Analyser.nearestRank (values.map (Nat.cast : ℕ → ℤ)) p = (nearestRank values p : ℕ) := by
  have hne' : values.map (Nat.cast : ℕ → ℤ) ≠ [] := fun h => hne (List.map_eq_nil_iff.mp h)
  rw [analyser_nearestRank_eq hne' hp hp', nearestRank_eq hne hp hp', mergeSort_cast,
    List.length_map, ← Nat.cast_zero (R := ℤ), List.getD_map]

theorem max?_cast {values : List ℕ} {n : ℕ} (h : values.max? = some n) :
    (values.map (Nat.cast : ℕ → ℤ)).max? = some (n : ℤ) := by
  obtain ⟨hmem, hle⟩ := List.max?_eq_some_iff.mp h
  refine List.max?_eq_some_iff.mpr ⟨List.mem_map.mpr ⟨n, hmem, rfl⟩, fun b hb => ?_⟩
  obtain ⟨a, ha, rfl⟩ := List.mem_map.mp hb
  exact Int.ofNat_le.mpr (hle a ha)

theorem min?_cast {values : List ℕ} {n : ℕ} (h : values.min? = some n) :
    (values.map (Nat.cast : ℕ → ℤ)).min? = some (n : ℤ) := by
  obtain ⟨hmem, hle⟩ := List.min?_eq_some_iff.mp h
  refine List.min?_eq_some_iff.mpr ⟨List.mem_map.mpr ⟨n, hmem, rfl⟩, fun b hb => ?_⟩
  obtain ⟨a, ha, rfl⟩ := List.mem_map.mp hb
  exact Int.ofNat_le.mpr (hle a ha)

theorem max?_perm {values values' : List ℕ} (h : values'.Perm values) {n : ℕ}
    (hmax : values.max? = some n) : values'.max? = some n := by
  obtain ⟨hmem, hle⟩ := List.max?_eq_some_iff.mp hmax
  exact List.max?_eq_some_iff.mpr ⟨h.mem_iff.mpr hmem, fun b hb => hle b (h.mem_iff.mp hb)⟩

theorem min?_perm {values values' : List ℕ} (h : values'.Perm values) {n : ℕ}
    (hmin : values.min? = some n) : values'.min? = some n := by
  obtain ⟨hmem, hle⟩ := List.min?_eq_some_iff.mp hmin
  exact List.min?_eq_some_iff.mpr ⟨h.mem_iff.mpr hmem, fun b hb => hle b (h.mem_iff.mp hb)⟩

/-! ## The loop of the server -/

def RequestMetrics.wait (row : RequestMetrics) : ℕ := row.startNs - row.arrivalNs

theorem guarded_sub (a b : ℕ) : (if a ≥ b then a - b else 0) = a - b := by
  split
  · rfl
  · exact (Nat.sub_eq_zero_of_le (by omega)).symm

variable {rows : List RequestMetrics} {tally : Tally}

theorem tally_waiting (rows : List RequestMetrics) (tally : Tally) :
    (rows.foldl Tally.add tally).waiting = tally.waiting ++ rows.map (·.wait) := by
  induction rows generalizing tally with
  | nil => exact (List.append_nil _).symm
  | cons row rows ih =>
      rw [List.foldl_cons, ih]
      simp only [Tally.add, guarded_sub, List.append_assoc]
      rfl

theorem tally_minArrival (rows : List RequestMetrics) (tally : Tally) :
    (rows.foldl Tally.add tally).minArrival =
      (rows.map (·.arrivalNs)).foldl min tally.minArrival := by
  induction rows generalizing tally with
  | nil => rfl
  | cons row rows ih => exact ih (tally.add row)

theorem tally_maxFinish (rows : List RequestMetrics) (tally : Tally) :
    (rows.foldl Tally.add tally).maxFinish =
      (rows.map (·.finishNs)).foldl max tally.maxFinish := by
  induction rows generalizing tally with
  | nil => rfl
  | cons row rows ih => exact ih (tally.add row)

theorem tally_forfeited (rows : List RequestMetrics) (tally : Tally)
    (h : tally.forfeited < 2 ^ 64) :
    (rows.foldl Tally.add tally).forfeited =
      u64 (tally.forfeited + (rows.map (·.forfeitedBytes)).sum) := by
  induction rows generalizing tally with
  | nil => exact (u64_of_lt h).symm
  | cons row rows ih =>
      rw [List.foldl_cons, ih _ (Nat.mod_lt _ (by decide)), List.map_cons, List.sum_cons]
      simp only [Tally.add, u64]
      rw [Nat.mod_add_mod, Nat.add_assoc]

/-- What the loop has gathered at its end. -/
structure Tally.Of (tally : Tally) (rows : List RequestMetrics) : Prop where
  waiting : tally.waiting = rows.map (·.wait)
  minArrival : (rows.map (·.arrivalNs)).min? = some tally.minArrival
  maxFinish : (rows.map (·.finishNs)).max? = some tally.maxFinish
  forfeited : tally.forfeited = u64 (rows.map (·.forfeitedBytes)).sum

theorem tally_of (front : RequestMetrics) (rest : List RequestMetrics) :
    ((front :: rest).foldl Tally.add (.start front)).Of (front :: rest) where
  waiting := tally_waiting _ _
  minArrival := by
    rw [tally_minArrival, List.map_cons, List.min?_cons', List.foldl_cons]
    exact congrArg (fun n => some ((rest.map (·.arrivalNs)).foldl min n)) (min_self _).symm
  maxFinish := by
    rw [tally_maxFinish, List.map_cons, List.max?_cons', List.foldl_cons]
    exact congrArg (fun n => some ((rest.map (·.finishNs)).foldl max n)) (max_self _).symm
  forfeited := by
    have hstart : (Tally.start front).forfeited < 2 ^ 64 := Nat.two_pow_pos 64
    rw [tally_forfeited _ _ hstart]
    exact congrArg u64 (Nat.zero_add _)

/-! ## The loop of the analyser -/

/-- What the loop has gathered from the rows of `records`. -/
structure Figures.Of (figures : Figures) (records : List RequestMetrics) : Prop where
  waiting : figures.waiting = (records.map (·.wait)).map Nat.cast
  arrivals : figures.arrivals = (records.map (·.arrivalNs)).map Nat.cast
  finishes : figures.finishes = (records.map (·.finishNs)).map Nat.cast
  forfeited : figures.forfeited = ((records.map (·.forfeitedBytes)).sum : ℕ)
  counts : ((figures.byClass .small).length + (figures.byClass .medium).length +
    (figures.byClass .large).length + (figures.byClass .longline).length) = records.length
  forfeits : figures.forfeitByClass .small + figures.forfeitByClass .medium +
    figures.forfeitByClass .large + figures.forfeitByClass .longline = figures.forfeited
  empty : ∀ klass, figures.byClass klass = [] → figures.forfeitByClass klass = 0

theorem max_sub_cast (a b : ℕ) : max 0 ((a : ℤ) - b) = (a - b : ℕ) := by
  omega

theorem Figures.Of.count {figures : Figures} {records : List RequestMetrics}
    (h : figures.Of records) (klass : SizeClass) (record : RequestMetrics) :
    (figures.count klass record.arrivalNs record.startNs record.finishNs record.totalBytes
      record.forfeitedBytes).Of (records ++ [record]) where
  waiting := by
    simp only [Figures.count, h.waiting, max_sub_cast, List.map_append]
    rfl
  arrivals := by
    simp only [Figures.count, h.arrivals, List.map_append]
    rfl
  finishes := by
    simp only [Figures.count, h.finishes, List.map_append]
    rfl
  forfeited := by
    simp only [Figures.count, h.forfeited, List.map_append, List.sum_append, Nat.cast_add]
    simp
  counts := by
    have hcounts := h.counts
    rw [List.length_append, List.length_singleton]
    cases klass <;> simp [Figures.count, Function.update] <;> omega
  forfeits := by
    have hforfeits := h.forfeits
    cases klass <;> simp [Figures.count, Function.update] <;> omega
  empty klass' hnil := by
    by_cases hklass : klass' = klass
    · subst hklass
      simp [Figures.count] at hnil
    · simp only [Figures.count, Function.update_of_ne hklass] at hnil ⊢
      exact h.empty klass' hnil

/-- One more row. -/
theorem Figures.Of.add {py : Python} {enc : Encoding} {figures : Figures}
    {records : List RequestMetrics} {record : RequestMetrics} {row : Csv.DictRow}
    (h : figures.Of records) (hrecorded : record.Recorded) (hagrees : Agrees enc record row) :
    ∃ figures', figures.add py row = some figures' ∧ figures'.Of (records ++ [record]) := by
  have hint : ∀ {name : String} {n : ℕ}, n < 2 ^ 64 →
      row.get (str name) = some (asciiText (decimal n)) → py.intField row name = some (n : ℤ) := by
    intro name n hn hget
    rw [Python.intField, hget]
    exact py.int_decimal n hn
  obtain ⟨name, -, hname⟩ := hagrees.filename
  refine ⟨_, ?_, h.count (sizeClass py name record.totalBytes) record⟩
  simp only [Figures.add, hint hrecorded.arrivalNs hagrees.arrivalNs,
    hint hrecorded.startNs hagrees.startNs, hint hrecorded.finishNs hagrees.finishNs,
    hint hrecorded.totalBytes hagrees.totalBytes,
    hint hrecorded.forfeitedBytes hagrees.forfeitedBytes, hname,
    hint hrecorded.rounds hagrees.rounds, Option.bind_eq_bind, Option.bind_some]
  exact ite_self _

theorem figures_of_rows (py : Python) {enc : Encoding} {records : List RequestMetrics}
    {rows : List Csv.DictRow} (hagree : List.Forall₂ (Agrees enc) records rows)
    (hrecorded : ∀ record ∈ records, record.Recorded) {figures : Figures}
    {before : List RequestMetrics} (h : figures.Of before) :
    ∃ figures', rows.foldlM (Figures.add py) figures = some figures' ∧
      figures'.Of (before ++ records) := by
  induction hagree generalizing figures before with
  | nil => exact ⟨figures, rfl, by rwa [List.append_nil]⟩
  | @cons record row records rows hrow _ ih =>
      obtain ⟨next, hnext, hof⟩ := h.add (hrecorded record List.mem_cons_self) hrow
      obtain ⟨last, hlast, hof'⟩ :=
        ih (fun r hr => hrecorded r (List.mem_cons_of_mem record hr)) hof
      refine ⟨last, ?_, by rwa [List.append_assoc] at hof'⟩
      rw [List.foldlM_cons, hnext]
      exact hlast

theorem figures_start : Figures.Of {} [] where
  waiting := rfl
  arrivals := rfl
  finishes := rfl
  forfeited := rfl
  counts := rfl
  forfeits := rfl
  empty _ _ := rfl

/-- A class without rows has no line, and it would add nothing. -/
theorem classes_counts (figures : Figures) (classes : List SizeClass) :
    ((classes.filterMap figures.classReport).map (·.n)).sum =
      (classes.map fun klass => (figures.byClass klass).length).sum := by
  induction classes with
  | nil => rfl
  | cons klass classes ih =>
      rw [List.filterMap_cons, List.map_cons, List.sum_cons, ← ih, Figures.classReport]
      cases hvals : figures.byClass klass with
      | nil => exact (Nat.zero_add _).symm
      | cons _ _ => rfl

theorem classes_forfeits {figures : Figures}
    (hempty : ∀ klass, figures.byClass klass = [] → figures.forfeitByClass klass = 0)
    (classes : List SizeClass) :
    ((classes.filterMap figures.classReport).map (·.forfeited)).sum =
      (classes.map figures.forfeitByClass).sum := by
  induction classes with
  | nil => rfl
  | cons klass classes ih =>
      rw [List.filterMap_cons, List.map_cons, List.sum_cons, ← ih, Figures.classReport]
      cases hvals : figures.byClass klass with
      | nil =>
          rw [hempty klass hvals]
          exact (Int.zero_add _).symm
      | cons _ _ => rfl

/-! ## The same figures -/

/-- The report of the analyser has the figures of the server, and its classes add up. -/
structure Summary.Matches (summary : Summary) (n : ℕ) (report : Report) : Prop where
  n : report.n = n
  waitingP50Ns : report.waitingP50Ns = summary.waitingP50Ns
  waitingP99Ns : report.waitingP99Ns = summary.waitingP99Ns
  throughputRps : report.throughputRps = summary.throughputRps
  forfeitedBytes : ∃ total : ℕ, report.forfeitedBytesTotal = total ∧
    summary.forfeitedBytes = u64 total
  classes : (report.classes.map (·.n)).sum = report.n
  forfeits : (report.classes.map (·.forfeited)).sum = report.forfeitedBytesTotal

/-- The two programs on the same rows: nothing but the number of the rows if there are none, else
the same figures. -/
def SameFigures (printed : ℕ × Option Summary) (analysed : Option (Option Report)) : Prop :=
  match printed with
  | (_, none) => analysed = some none
  | (n, some summary) => ∃ report, analysed = some (some report) ∧ summary.Matches n report

/-- The window of the server, on 64 bits. -/
theorem window_eq {tally : Tally} (h : tally.Of rows)
    (hrecorded : ∀ row ∈ rows, row.Recorded) (hstamps : ∀ row ∈ rows, row.arrivalNs ≤ row.finishNs) :
    u64 (tally.maxFinish + 2 ^ 64 - tally.minArrival) = tally.maxFinish - tally.minArrival ∧
      tally.minArrival ≤ tally.maxFinish := by
  obtain ⟨hmin, hleast⟩ := List.min?_eq_some_iff.mp h.minArrival
  obtain ⟨hmax, hgreatest⟩ := List.max?_eq_some_iff.mp h.maxFinish
  obtain ⟨first, hfirst, harrival⟩ := List.mem_map.mp hmin
  obtain ⟨last, hlast, hfinish⟩ := List.mem_map.mp hmax
  have hsmall := (hrecorded last hlast).finishNs
  have hle : tally.minArrival ≤ tally.maxFinish := by
    have := hgreatest _ (List.mem_map.mpr ⟨first, hfirst, rfl⟩)
    have := hstamps first hfirst
    omega
  refine ⟨?_, hle⟩
  unfold u64
  omega

/-- Both programs leave out the division by an empty window. -/
theorem throughput_eq (n window : ℕ) :
    (if (window : ℤ) ≠ 0 then n / (((window : ℤ) : ℚ) / 10 ^ 9) else 0) =
      if (window : ℚ) / 10 ^ 9 > 0 then n / ((window : ℚ) / 10 ^ 9) else 0 := by
  have hiff : (window : ℤ) ≠ 0 ↔ (window : ℚ) / 10 ^ 9 > 0 := by
    rw [gt_iff_lt, div_pos_iff_of_pos_right (by norm_num), Nat.cast_pos]
    omega
  rw [Int.cast_natCast]
  exact if_congr hiff rfl rfl

theorem report_matches {front : RequestMetrics} {rest sorted : List RequestMetrics}
    {figures : Figures} (h : figures.Of sorted) (hperm : sorted.Perm (front :: rest))
    (hrecorded : ∀ record ∈ front :: rest, record.Recorded)
    (hstamps : ∀ record ∈ front :: rest, record.arrivalNs ≤ record.finishNs) :
    SameFigures (printSummary (front :: rest)) (some (some (figures.report sorted.length))) := by
  have htally := tally_of front rest
  have hlength := hperm.length_eq
  obtain ⟨hwindow, hle⟩ := window_eq htally hrecorded hstamps
  refine ⟨_, rfl, ?_⟩
  generalize (front :: rest).foldl Tally.add (.start front) = tally at *
  have hwaits := hperm.map (·.wait)
  have hne : (front :: rest).map (·.wait) ≠ [] := List.cons_ne_nil _ _
  have hne' : sorted.map (·.wait) ≠ [] := fun hnil => hne (List.nil_perm.mp (hnil ▸ hwaits))
  have hrank : ∀ p : ℚ, 0 < p → p ≤ 100 →
      Analyser.nearestRank figures.waiting p = (nearestRank tally.waiting p : ℕ) := by
    intro p hp hp'
    rw [h.waiting, htally.waiting, analyser_nearestRank_cast hne' hp hp',
      nearestRank_perm hwaits hne hp hp']
  have hmin := min?_cast (min?_perm (hperm.map (·.arrivalNs)) htally.minArrival)
  have hmax := max?_cast (max?_perm (hperm.map (·.finishNs)) htally.maxFinish)
  have hspan : (figures.finishes.max?).getD 0 - (figures.arrivals.min?).getD 0 =
      ((tally.maxFinish - tally.minArrival : ℕ) : ℤ) := by
    rw [h.finishes, h.arrivals, hmax, hmin, Option.getD_some, Option.getD_some,
      Nat.cast_sub hle]
  refine ⟨hlength, hrank 50 (by norm_num) (by norm_num), hrank 99 (by norm_num) (by norm_num),
    ?_, ?_, ?_, ?_⟩
  · simp only [Figures.report, hspan, hwindow, hlength]
    exact throughput_eq _ _
  · refine ⟨_, h.forfeited, ?_⟩
    rw [(hperm.map (·.forfeitedBytes)).sum_eq]
    exact htally.forfeited
  · rw [Figures.report, classes_counts]
    have hcounts := h.counts
    simp only [List.map_cons, List.map_nil, List.sum_cons, List.sum_nil]
    omega
  · rw [Figures.report, classes_forfeits h.empty]
    have hforfeits := h.forfeits
    simp only [List.map_cons, List.map_nil, List.sum_cons, List.sum_nil]
    omega

/-- On rows that come back from the file, both programs print the same figures. -/
theorem analyze_sameFigures {py : Python} {enc : Encoding} {records : List RequestMetrics}
    (hload : LoadsBack enc records) (hrecorded : ∀ record ∈ records, record.Recorded)
    (hstamps : ∀ record ∈ records, record.arrivalNs ≤ record.finishNs) :
    SameFigures (printSummary records) (analyze py enc (writeCsv records)) := by
  obtain ⟨sorted, rows, hperm, -, hrows, hagree⟩ := hload
  obtain ⟨figures, hfigures, hof⟩ := figures_of_rows py hagree
    (fun record hmem => hrecorded record (hperm.mem_iff.mp hmem)) figures_start
  have hlength := hagree.length_eq
  unfold analyze
  rw [hrows, Option.bind_eq_bind, Option.bind_some]
  cases records with
  | nil =>
      have hnil : rows = [] := by
        rw [List.perm_nil.mp hperm] at hagree
        exact List.forall₂_nil_left_iff.mp hagree
      rw [hnil]
      rfl
  | cons front rest =>
      have hne : rows.isEmpty = false := by
        have hcount := hperm.length_eq
        rw [hlength] at hcount
        cases rows with
        | nil => cases hcount
        | cons _ _ => rfl
      rw [hne, if_neg Bool.false_ne_true, hfigures, Option.bind_eq_bind, Option.bind_some,
        ← hlength]
      exact report_matches hof hperm hrecorded hstamps

/-! ## The rows of a run -/

/-- A name that was parsed is a word of the header. -/
theorem Admissible.no_space {cfg : Config} {request : Request} {log : List Call}
    (h : Admissible cfg request log) : ∀ c ∈ request.filename, isspace c = false := by
  obtain ⟨header, base, -, -, hparse, hop, hname, -⟩ := h.header
  have hwords := parseRequestHeader_words hparse
  have hword : request.filename ∈ words isspace header := by
    unfold Request.HeaderWords at hwords
    rw [hop, hname] at hwords
    rcases h.op with hget | hput
    · rw [hget] at hwords
      obtain ⟨op, hheader, -⟩ := hwords
      rw [hheader]
      exact List.mem_cons_of_mem _ List.mem_cons_self
    · rw [hput] at hwords
      obtain ⟨op, digits, hheader, -⟩ := hwords
      rw [hheader]
      exact List.mem_cons_of_mem _ List.mem_cons_self
  exact (mem_words hword).2

theorem Admissible.totalBytes_lt {cfg : Config} {request : Request} {log : List Call}
    (h : Admissible cfg request log) : request.totalBytes < 2 ^ 64 := by
  rcases h.op with hget | hput
  · obtain ⟨size, -, -, hsmall⟩ := h.size hget
    exact hsmall.trans (by decide)
  · obtain ⟨header, base, -, -, hparse, hop, -, htotal⟩ := h.header
    have hwords := parseRequestHeader_words hparse
    unfold Request.HeaderWords at hwords
    rw [hop, hput] at hwords
    obtain ⟨op, digits, -, -, -, -, hsmall⟩ := hwords
    exact htotal hput ▸ hsmall

namespace Sys

variable {P W : ℕ} {cfg : Config} {dir : Directory} {t : Sys P W} {A : Sys P W → Label P W → Prop}

theorem run_requestId (hrun : RunWhere cfg A (init P W dir) t) {request : Request}
    (hmem : request ∈ t.admitted) : -2 ^ 31 ≤ request.requestId ∧ request.requestId < 2 ^ 31 := by
  obtain ⟨order, horder⟩ := run_fetchOrder hrun
  obtain ⟨k, -, hnumber⟩ := horder.number _ _ (request_fetched hrun hmem)
  rw [hnumber]
  unfold int32
  omega

/-- What the server records, it can export. -/
theorem run_rowRecorded (hrun : RunWhere cfg A (init P W dir) t) (hclock : t.clock < 2 ^ 64)
    {row : RequestMetrics} (hrow : row ∈ t.records.map Prod.snd) :
    row.Recorded ∧ row.arrivalNs ≤ row.finishNs := by
  obtain ⟨⟨fd, row'⟩, hmem, rfl⟩ := List.mem_map.mp hrow
  obtain ⟨request, hadm, -, hrow⟩ := rowDescribed hrun hmem
  obtain ⟨before, -, -, hadmissible⟩ := (run_tracked hrun hadm).admitted
  have hstamps := hrow.started.trans hrow.finished
  have hfinish := lt_of_le_of_lt hrow.past hclock
  refine ⟨⟨?_, ?_, ?_, ?_, ?_, ?_, ?_, hfinish, ?_, hrow.forfeited⟩, hstamps⟩
  · exact hrow.op ▸ hadmissible.op
  · exact hrow.filename ▸ hadmissible.valid
  · exact hrow.filename ▸ hadmissible.no_space
  · exact hrow.requestId ▸ run_requestId hrun hadm
  · exact hrow.totalBytes ▸ hadmissible.totalBytes_lt
  · exact lt_of_le_of_lt hstamps hfinish
  · exact lt_of_le_of_lt hrow.finished hfinish
  · exact hrow.rounds ▸ Nat.mod_lt _ (Nat.two_pow_pos 64)

/-- **The two summaries agree.** At the end of every run that accepted at most `2 ^ 32`
connections, on a 64-bit clock, and whose requests have names that survive the export, the
analyser reads the exported metrics and prints the figures the server prints. -/
theorem summaries_agree (py : Python) (enc : Encoding)
    (hrun : RunWhere cfg A (init P W dir) t) (hfew : t.accepted.length ≤ 2 ^ 32)
    (hclock : t.clock < 2 ^ 64) (hnames : ∀ request ∈ t.admitted, Survives enc request.filename) :
    SameFigures (printSummary (t.records.map Prod.snd))
      (analyze py enc (writeCsv (t.records.map Prod.snd))) := by
  have hrecorded : ∀ row ∈ t.records.map Prod.snd, row.Recorded :=
    fun row hrow => (run_rowRecorded hrun hclock hrow).1
  refine analyze_sameFigures (loadsBack_of_survives ?_ hrecorded fun row hrow => ?_) hrecorded
    fun row hrow => (run_rowRecorded hrun hclock hrow).2
  · rw [List.map_map]
    exact rows_numbers_nodup hrun hfew
  · obtain ⟨⟨fd, row'⟩, hmem, rfl⟩ := List.mem_map.mp hrow
    obtain ⟨request, hadm, -, hdescribes⟩ := rowDescribed hrun hmem
    exact hdescribes.filename ▸ hnames request hadm

end Sys

/-- Python on ASCII texts. -/
def asciiPython : Python where
  int s := if s.all (fun c => 48 ≤ c && c ≤ 57) && !s.isEmpty
    then some ((s.foldl (fun n c => 10 * n + (c - 48)) 0 : ℕ) : ℤ) else none
  lower s := s.map fun c => if 65 ≤ c && c ≤ 90 then c + 32 else c
  int_decimal n _ := by
    have hdigits : ((decimal n).map UInt8.toNat).all (fun c => 48 ≤ c && c ≤ 57) = true := by
      simp only [List.all_eq_true, Bool.and_eq_true, decide_eq_true_eq]
      intro c hc
      obtain ⟨d, hd, rfl⟩ := List.mem_map.mp hc
      exact isdigit_iff.mp (decimal_isdigit hd)
    have hsome : ((decimal n).map UInt8.toNat).isEmpty = false := by
      rw [List.isEmpty_eq_false_iff, Ne, List.map_eq_nil_iff]
      exact decimal_ne_nil n
    rw [hdigits, hsome, if_pos (by rfl), List.foldl_map]
    exact congrArg (fun value : ℕ => some (value : ℤ)) (digitsValue_decimal n)

namespace Sys

/-- An upload of one byte. -/
theorem summaries_agree_upload : ∃ t : Sys 1 1, t.records ≠ [] ∧
    SameFigures (printSummary (t.records.map Prod.snd))
      (analyze asciiPython latin1 (writeCsv (t.records.map Prod.snd))) := by
  have htrue : ∀ (s : Sys 1 1) (l : Label 1 1), (fun _ _ => true) s l = true → True :=
    fun _ _ _ => trivial
  obtain ⟨t, hrun, hcheck⟩ := script_exists (arrive 7 (ascii "PUT a 1\nx") 3 ++ work 11)
    (fun t : Sys 1 1 => !t.records.isEmpty && decide (t.accepted.length = 1) &&
      decide (t.clock = 1) && t.admitted.all (·.filename = ascii "a")) htrue
    (show (script (step (plainConfig .FCFS 1 (by decide) (by decide))) (fun _ _ => true)
      (init 1 1 fun _ => none) (arrive 7 (ascii "PUT a 1\nx") 3 ++ work 11)).any _ = true by decide)
  simp only [Bool.and_eq_true, decide_eq_true_eq, List.all_eq_true] at hcheck
  obtain ⟨⟨⟨hrecords, haccepted⟩, hclock⟩, hnames⟩ := hcheck
  refine ⟨t, by simpa using hrecords, summaries_agree asciiPython latin1 hrun ?_ ?_ ?_⟩
  · rw [haccepted]
    decide
  · rw [hclock]
    decide
  · intro request hmem
    rw [hnames request hmem]
    exact ⟨_, rfl, by decide, by decide, by decide⟩

end Sys

end LinkScheduling
