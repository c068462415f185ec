import LinkScheduling.Get.Steady
import LinkScheduling.Get.Delivery

/-!
# Round robin packs the lines

Under RR a GET of an unchanging file sends, round by round, the greedy packing of the lines
of the file into groups of at most one quantum. The rounds are told apart by the requeues in
the log; the groups already sent and those to come carry the invariant.
-/

namespace LinkScheduling

open Framework

/-! ## The runs of a log -/

def Call.runStep (run : List Bytes × Bytes) (call : Call) : List Bytes × Bytes :=
  match call.eff with
  | .sendAll _ data => (run.1, run.2 ++ data)
  | .requeue _ => (run.1 ++ [run.2], [])
  | _ => run

/-- The bytes sent in each round that is over, and those of the current round. -/
def runs (log : List Call) : List Bytes × Bytes := log.foldl Call.runStep ([], [])

/-- Calls of one round add to its run. -/
theorem runs_append {log calls : List Call} (h : requeues calls = 0) :
    runs (log ++ calls) = ((runs log).1, (runs log).2 ++ (sends calls).flatten) := by
  induction calls generalizing log with
  | nil => simp
  | cons call calls ih =>
      simp only [requeues, List.map_cons, List.sum_cons, Nat.add_eq_zero_iff] at h
      rw [← List.singleton_append, ← List.append_assoc, ih h.2, sends_append, List.flatten_append,
        ← List.append_assoc]
      have hone : runs (log ++ [call]) = ((runs log).1, (runs log).2 ++ (sends [call]).flatten) := by
        rw [runs, List.foldl_append]
        rcases call with ⟨e, r⟩
        cases e with
        | requeue req => exact absurd h.1 Nat.one_ne_zero
        | _ => simp [Call.runStep, runs, Eff.sent]
      rw [hone]

theorem runs_requeue (log : List Call) (req : Request) :
    runs (log ++ [⟨.requeue req, true⟩]) = ((runs log).1 ++ [(runs log).2], []) := by
  rw [runs, List.foldl_append]
  rfl

/-! ## The rounds of a packing -/

/-- What the rounds send: the header in the first, then the lines of a group each. -/
def byteRuns (file : File) : List (List Bytes) → List Bytes
  | [] => []
  | group :: groups => (okLine file.size ++ group.flatten) :: groups.map List.flatten

/-- An empty file takes one round. -/
def roundGroups (groups : List (List Bytes)) : List (List Bytes) :=
  if groups = [] then [[]] else groups

/-- The header, if no round sent it yet. -/
def greetingAfter (file : File) (done : List (List Bytes)) : List Bytes :=
  if done = [] then [okLine file.size] else []

theorem byteRuns_append (file : File) (done : List (List Bytes)) (group : List Bytes)
    (todo : List (List Bytes)) :
    byteRuns file (done ++ group :: todo) =
      byteRuns file done ++ ((greetingAfter file done).flatten ++ group.flatten) ::
        todo.map List.flatten := by
  cases done <;> simp [byteRuns, greetingAfter]

/-- The number of lines longer than the quantum. -/
def longLines (quantum : ℕ) (ls : List Bytes) : ℕ := ls.countP fun line => quantum < line.length

/-- The rounds of the lines of `file` with quantum `quantum`. -/
abbrev LinePacks (quantum : ℕ) (file : File) (groups : List (List Bytes)) : Prop :=
  Packs List.length quantum (lines newline file.bytes) groups

/-- The record of a GET under RR that has sent the groups `done`. -/
structure Packed (quantum : ℕ) (file : File) (done todo : List (List Bytes)) (req : Request)
    (log : List Call) : Prop where
  packs : LinePacks quantum file (done ++ todo)
  rest : Packs List.length quantum (linesFrom file req.offset) todo
  unfinished : done = [] ∨ todo ≠ []
  sent : req.responseSent = !done.isEmpty
  runs : runs log = (byteRuns file done, [])
  rounds : req.rounds = done.length
  a14Events : req.a14Events = longLines quantum done.flatten
  forfeitedBytes : req.forfeitedBytes = (done.map fun group => quantum - lineBytes group).sum

/-- What the rounds of a log have sent so far is a beginning of the packing. -/
def PackedSoFar (quantum : ℕ) (file : File) (log : List Call) : Prop :=
  ∃ groups more later, LinePacks quantum file groups ∧
    byteRuns file (roundGroups groups) = (runs log).1 ++ ((runs log).2 ++ more) :: later

/-- What a completed GET has sent, and its row in the metrics. -/
structure PackedRow (quantum : ℕ) (file : File) (groups : List (List Bytes)) (log : List Call)
    (row : Request) : Prop where
  packs : LinePacks quantum file groups
  runs : (runs log).1 ++ [(runs log).2] = byteRuns file (roundGroups groups)
  rounds : row.rounds = (roundGroups groups).length
  a14Events : row.a14Events = longLines quantum (lines newline file.bytes)
  forfeitedBytes : row.forfeitedBytes = leftOver List.length quantum groups

section Packing

variable {quantum : ℕ} {file : File} {done todo groups : List (List Bytes)} {group : List Bytes}
  {req : Request} {log : List Call}

/-- The lines of a round under RR: the next group of the packing. -/
theorem roundLines_rr (hquantum : 0 < quantum) (off : ℕ) :
    roundLines file true (min (file.size - off) quantum) off =
      nextGroup List.length quantum (linesFrom file off) := by
  have htotal : lineBytes (linesFrom file off) = file.size - off := lineBytes_linesFrom
  unfold roundLines
  by_cases hzero : file.size - off = 0
  · rw [hzero, Nat.zero_min, if_pos rfl, linesFrom_of_le (Nat.sub_eq_zero_iff_le.mp hzero)]
    rfl
  · rw [if_neg (by omega)]
    split
    · rename_i hle
      exact (nextGroup_of_le (htotal.le.trans (by omega))).symm
    · rename_i hlt
      rw [if_pos rfl, Nat.min_eq_right (by omega)]

theorem longLines_append (quantum : ℕ) (a b : List Bytes) :
    longLines quantum (a ++ b) = longLines quantum a + longLines quantum b :=
  List.countP_append

theorem longLines_nextGroup (quantum : ℕ) (ls : List Bytes) :
    longLines quantum (nextGroup List.length quantum ls) =
      if quantum < lineBytes (nextGroup List.length quantum ls) then 1 else 0 :=
  countP_nextGroup ls

theorem packs_small (h : LinePacks quantum file groups) :
    groups.length < 2 ^ 63 ∧ longLines quantum (lines newline file.bytes) < 2 ^ 63 := by
  have hpos : ∀ line ∈ lines newline file.bytes, 0 < line.length :=
    fun line hline => List.length_pos_iff.mpr (lines_ne_nil hline)
  have hle := length_le_total hpos
  have htotal : total List.length (lines newline file.bytes) = file.bytes.length := by
    have := lineBytes_eq (lines newline file.bytes)
    rwa [lines_flatten] at this
  have hsize := file.size_lt
  have hgroups := h.length_le
  exact ⟨by omega, Nat.lt_of_le_of_lt List.countP_le_length (by omega)⟩

/-- The next round of a packing sends its next group. -/
theorem Packed.next_group (h : Packed quantum file done todo req log) :
    nextGroup List.length quantum (linesFrom file req.offset) = todo.headD [] := by
  by_cases hnil : linesFrom file req.offset = []
  · have hrest := h.rest
    rw [hnil] at hrest ⊢
    rw [hrest.eq_nil]
    rfl
  · obtain ⟨groups, hgroups, -⟩ := (packs_cons_iff hnil).mp h.rest
    rw [hgroups]
    rfl

theorem Packed.roundGroups_eq (h : Packed quantum file done todo req log) :
    roundGroups (done ++ todo) = done ++ todo.headD [] :: todo.tail := by
  cases todo with
  | nil =>
      rcases h.unfinished with rfl | hne
      · rfl
      · exact absurd rfl hne
  | cons group todo =>
      rw [roundGroups, if_neg (by simp)]
      rfl

/-- While the next round runs, it sends the next group. -/
theorem Packed.soFar (h : Packed quantum file done todo req log) {calls : List Call}
    (hcalls : requeues calls = 0) (hplan : (sends calls).flatten <+:
      (greetingAfter file done).flatten ++ (todo.headD []).flatten) :
    PackedSoFar quantum file (log ++ calls) := by
  obtain ⟨more, hmore⟩ := hplan
  refine ⟨_, more, todo.tail.map List.flatten, h.packs, ?_⟩
  rw [h.roundGroups_eq, byteRuns_append, runs_append hcalls, h.runs, List.nil_append, hmore]

/-- What the rounds so far forfeited is less than the size of the file. -/
theorem forfeited_small (h : LinePacks quantum file (done ++ todo)) (htodo : todo ≠ []) :
    (done.map fun group => quantum - lineBytes group).sum < 2 ^ 63 := by
  have hpos : ∀ line ∈ lines newline file.bytes, 0 < line.length :=
    fun line hline => List.length_pos_iff.mpr (lines_ne_nil hline)
  have hne : lines newline file.bytes ≠ [] := by
    intro hnil
    rw [LinePacks, hnil] at h
    exact htodo (List.append_eq_nil_iff.mp h.eq_nil).2
  have hlt := h.leftOver_lt hpos hne
  have htotal : total List.length (lines newline file.bytes) = file.bytes.length := by
    have := lineBytes_eq (lines newline file.bytes)
    rwa [lines_flatten] at this
  have hsize := file.size_lt
  rw [leftOver, List.dropLast_append_of_ne_nil htodo, List.map_append, List.sum_append] at hlt
  change _ + _ < _ at hlt
  have hle : (done.map fun group => quantum - lineBytes group).sum ≤
      total List.length (lines newline file.bytes) := Nat.le_trans (Nat.le_add_right _ _) hlt.le
  omega

/-- The record after a round that sent the group `group`, with more to come. -/
theorem Packed.requeued (h : Packed quantum file done (group :: todo) req log)
    (htodo : todo ≠ []) {calls : List Call} (hcalls : requeues calls = 0)
    (hsends : (sends calls).flatten = (greetingAfter file done).flatten ++ group.flatten)
    {later : Request} (hoffset : later.offset = req.offset + lineBytes group)
    (hsent : later.responseSent = true) (hrounds : later.rounds = u64 (req.rounds + 1))
    (ha14 : later.a14Events =
      if quantum < lineBytes group then u64 (req.a14Events + 1) else req.a14Events)
    (hforfeited : later.forfeitedBytes = if lineBytes group < quantum
      then u64 (req.forfeitedBytes + (quantum - lineBytes group)) else req.forfeitedBytes) :
    Packed quantum file (done ++ [group]) todo later
      (log ++ calls ++ [⟨.requeue later, true⟩]) := by
  have hpacks : LinePacks quantum file ((done ++ [group]) ++ todo) := by
    simpa using h.packs
  have hcount := longLines_nextGroup quantum (linesFrom file req.offset)
  rw [h.next_group, List.headD_cons] at hcount
  obtain ⟨hlen, hlong⟩ := packs_small hpacks
  refine ⟨hpacks, ?_, Or.inr htodo, ?_, ?_, ?_, ?_, ?_⟩
  · obtain ⟨rest, hrest, htail⟩ := h.rest.tail
    rwa [hoffset, linesFrom_append hrest]
  · rw [hsent]
    simp
  · rw [runs_requeue, runs_append hcalls, h.runs, List.nil_append, hsends, byteRuns_append]
    rfl
  · rw [hrounds, h.rounds, u64_of_lt, List.length_append, List.length_singleton]
    rw [List.length_append, List.length_append, List.length_singleton] at hlen
    omega
  · have hall : longLines quantum (done ++ [group]).flatten ≤
        longLines quantum (lines newline file.bytes) := by
      rw [← hpacks.flatten, @List.flatten_append _ _ todo, longLines_append]
      exact Nat.le_add_right _ _
    rw [List.flatten_append, List.flatten_singleton, longLines_append, hcount] at hall ⊢
    rw [ha14, h.a14Events]
    split at hall
    · rename_i hlt
      rw [if_pos hlt, if_pos hlt, u64_of_lt (by omega)]
    · rename_i hlt
      rw [if_neg hlt, if_neg hlt, Nat.add_zero]
  · have hsmall := forfeited_small hpacks htodo
    rw [List.map_append, List.sum_append, List.map_singleton, List.sum_singleton] at hsmall ⊢
    rw [hforfeited, h.forfeitedBytes]
    split
    · rw [u64_of_lt (by omega)]
    · rw [Nat.sub_eq_zero_of_le (by omega), Nat.add_zero]

/-- The row of a request whose last round sent the last group. -/
theorem Packed.completed (h : Packed quantum file done todo req log) (hlast : todo.tail = [])
    {calls : List Call} (hcalls : requeues calls = 0)
    (hsends : (sends calls).flatten = (greetingAfter file done).flatten ++ (todo.headD []).flatten)
    {row : Request} (hrounds : row.rounds = u64 (req.rounds + 1))
    (ha14 : row.a14Events =
      if quantum < lineBytes (todo.headD []) then u64 (req.a14Events + 1) else req.a14Events)
    (hforfeited : row.forfeitedBytes = req.forfeitedBytes) :
    PackedRow quantum file (done ++ todo) (log ++ calls) row := by
  have hcount := longLines_nextGroup quantum (linesFrom file req.offset)
  rw [h.next_group] at hcount
  have hflat : todo.flatten = todo.headD [] := by
    cases todo with
    | nil => rfl
    | cons group todo =>
        rw [List.tail_cons] at hlast
        rw [hlast]
        simp
  obtain ⟨hlen, hlong⟩ := packs_small h.packs
  refine ⟨h.packs, ?_, ?_, ?_, ?_⟩
  · rw [h.roundGroups_eq, byteRuns_append, runs_append hcalls, h.runs, List.nil_append, hsends,
      hlast]
    rfl
  · rw [h.roundGroups_eq, hlast, hrounds, h.rounds, u64_of_lt]
    · simp
    · rw [List.length_append] at hlen
      omega
  · rw [← h.packs.flatten, List.flatten_append, hflat, longLines_append, hcount] at hlong ⊢
    rw [ha14, h.a14Events]
    split at hlong
    · rename_i hlt
      rw [if_pos hlt, if_pos hlt, u64_of_lt (by omega)]
    · rename_i hlt
      rw [if_neg hlt, if_neg hlt, Nat.add_zero]
  · rw [hforfeited, h.forfeitedBytes, leftOver]
    cases todo with
    | nil =>
        rcases h.unfinished with rfl | hne
        · rfl
        · exact absurd rfl hne
    | cons group todo =>
        rw [List.tail_cons] at hlast
        rw [hlast, List.dropLast_concat]

end Packing

/-! ## The lifecycle -/

/-- The record of a GET of an unchanging file between two rounds. -/
structure SteadyWaiting (cfg : Config) (file : File) (req : Request) (log : List Call) : Prop where
  op : req.op = .GET
  total : req.totalBytes = file.size
  valid : isValidFilename req.filename = true
  staging : req.stagingFilename = []
  offset : req.offset ≤ file.size
  lines : ∃ first, lines newline file.bytes = first ++ linesFrom file req.offset
  packed : cfg.scheduler.policy = .RR →
    ∃ done todo, Packed cfg.scheduler.quantum file done todo req log

def steadyLife (cfg : Config) (request : Request) (file : File) : Lifecycle where
  allowed _ call := call.Steady file (filePath cfg.fileDir request.filename)
  always log := cfg.scheduler.policy = .RR → PackedSoFar cfg.scheduler.quantum file log
  queued := SteadyWaiting cfg file
  ended exit log := exit = .completed → cfg.scheduler.policy = .RR →
    ∃ groups row, PackedRow cfg.scheduler.quantum file groups log row ∧ ⟨.record row, ()⟩ ∈ log

section Life

variable {cfg : Config} {request req : Request} {file : File} {log : List Call}

/-- The header, if the request has not sent it yet. -/
def Request.greeting (req : Request) (file : File) : List Bytes :=
  if req.responseSent then [] else [okLine file.size]

theorem getBudget_rr {S : Scheduler} (hrr : S.policy = .RR) (req : Request) :
    (S.getBudget req).2 = min (req.totalBytes - req.offset) S.quantum := by
  unfold Scheduler.getBudget
  simp only [Request.remaining_eq, hrr]
  split
  · rename_i hzero
    rw [hzero, Nat.zero_min]
  · rfl

/-- The lines of the next round of a request. -/
def nextLines (cfg : Config) (file : File) (req : Request) : List Bytes :=
  roundLines file (cfg.scheduler.policy = .RR) (cfg.scheduler.getBudget req).2 req.offset

/-- The record after the next round has served its lines. -/
def servedRecord (cfg : Config) (file : File) (req : Request) (start : ℕ) : Request :=
  (cfg.scheduler.started req start).afterLines file (cfg.scheduler.policy = .RR)
    (cfg.scheduler.getBudget req).2

/-- Under RR a round sends the next group and counts it if it is a long line. -/
theorem Packed.round {done todo : List (List Bytes)}
    (h : Packed cfg.scheduler.quantum file done todo req log) (hrr : cfg.scheduler.policy = .RR)
    (htotal : req.totalBytes = file.size) (start : ℕ) :
    req.greeting file = greetingAfter file done ∧ nextLines cfg file req = todo.headD [] ∧
      (servedRecord cfg file req start).a14Events =
        if cfg.scheduler.quantum < lineBytes (todo.headD []) then u64 (req.a14Events + 1)
        else req.a14Events := by
  have hquantum := cfg.scheduler.quantum_pos (Or.inl hrr)
  have hlines : nextLines cfg file req = todo.headD [] := by
    rw [nextLines, getBudget_rr hrr, htotal, hrr]
    exact (roundLines_rr hquantum req.offset).trans h.next_group
  refine ⟨?_, hlines, ?_⟩
  · rw [Request.greeting, greetingAfter, h.sent]
    cases done <;> rfl
  · change (if (cfg.scheduler.getBudget req).2 < lineBytes (nextLines cfg file req) then _
      else _) = _
    have hle := lineBytes_roundLines_le file (cfg.scheduler.policy = .RR)
      (cfg.scheduler.getBudget req).2 req.offset
    change lineBytes (nextLines cfg file req) ≤ _ at hle
    rw [hlines] at hle ⊢
    rw [getBudget_rr hrr, htotal]
    refine if_congr ?_ rfl rfl
    omega

/-- What holds while a round sends what it has planned. -/
theorem SteadyWaiting.soFar (h : SteadyWaiting cfg file req log) {calls : List Call}
    (hcalls : requeues calls = 0) (hplan : (sends calls).flatten <+:
      (req.greeting file).flatten ++ (nextLines cfg file req).flatten) :
    (steadyLife cfg request file).always (log ++ calls) := by
  intro hrr
  obtain ⟨done, todo, hpacked⟩ := h.packed hrr
  obtain ⟨hgreet, hlines, -⟩ := hpacked.round hrr h.total 0
  rw [hgreet, hlines] at hplan
  exact hpacked.soFar hcalls hplan

theorem ending_quiet {first calls : List Call} (h : Ending calls) (hfirst : requeues first = 0) :
    requeues (first ++ calls) = 0 ∧ sends (first ++ calls) = sends first := by
  rw [requeues_append, h.requeues, hfirst, sends_append, h.sends, List.append_nil]
  exact ⟨rfl, rfl⟩

/-- What a round with its last group leaves of the packing. -/
theorem Packed.tail_eq_nil_iff {done todo : List (List Bytes)} {quantum : ℕ}
    (h : Packed quantum file done todo req log) :
    todo.tail = [] ↔ file.size - req.offset ≤ lineBytes (todo.headD []) := by
  rw [← lineBytes_linesFrom]
  cases todo with
  | nil =>
      have hnil := h.rest.flatten
      rw [← hnil]
      simp
  | cons group todo =>
      obtain ⟨rest, hrest, htail⟩ := h.rest.tail
      rw [hrest, lineBytes_append, List.tail_cons, List.headD_cons]
      constructor
      · rintro rfl
        have hnil : rest = [] := htail.flatten.symm
        simp [hnil]
      · intro hle
        have hnil : rest = [] := by
          by_contra hne
          have := lineBytes_pos (hrest ▸ List.subset_append_right _ rest) hne
          omega
        rw [hnil] at htail
        exact htail.eq_nil

/-- The record that goes back into the queue waits for the next round. -/
theorem SteadyWaiting.requeued {calls : List Call} {start : ℕ} {later : Request}
    (h : SteadyWaiting cfg file req log) (hcalls : requeues calls = 0)
    (hbytes : (sends calls).flatten =
      (req.greeting file).flatten ++ (nextLines cfg file req).flatten)
    (hmore : req.offset + lineBytes (nextLines cfg file req) < file.size)
    (hacc : Accounted cfg.scheduler (servedRecord cfg file req start)
      (lineBytes (nextLines cfg file req)) later)
    (hcounters : cfg.scheduler.policy = .RR →
      later.a14Events = (servedRecord cfg file req start).a14Events ∧
      later.forfeitedBytes =
        if lineBytes (nextLines cfg file req) < (cfg.scheduler.getBudget req).2 then
          u64 (req.forfeitedBytes +
            ((cfg.scheduler.getBudget req).2 - lineBytes (nextLines cfg file req)))
        else req.forfeitedBytes) :
    SteadyWaiting cfg file later (log ++ calls ++ [⟨.requeue later, true⟩]) := by
  have hoffset : later.offset = req.offset + lineBytes (nextLines cfg file req) := hacc.offset
  refine ⟨hacc.same.op.trans h.op, hacc.same.totalBytes.trans h.total, ?_,
    hacc.stagingFilename.trans h.staging, hoffset ▸ hmore.le, ?_, fun hrr => ?_⟩
  · rw [hacc.same.filename]
    exact h.valid
  · obtain ⟨first, hfirst⟩ := h.lines
    obtain ⟨rest, hrest⟩ := roundLines_initial file (cfg.scheduler.policy = .RR)
      (cfg.scheduler.getBudget req).2 req.offset
    change nextLines cfg file req ++ rest = _ at hrest
    refine ⟨first ++ nextLines cfg file req, ?_⟩
    rw [hoffset, linesFrom_append hrest.symm, hfirst, ← hrest, List.append_assoc]
  · obtain ⟨done, todo, hpacked⟩ := h.packed hrr
    obtain ⟨hgreet, hlines, ha14⟩ := hpacked.round hrr h.total start
    obtain ⟨hlater14, hforfeited⟩ := hcounters hrr
    rw [getBudget_rr hrr, h.total] at hforfeited
    rw [hlines] at hmore hforfeited hoffset hbytes
    rw [hgreet] at hbytes
    cases todo with
    | nil =>
        -- bytes are left, so a group is
        have htail := hpacked.tail_eq_nil_iff.mp rfl
        omega
    | cons group todo =>
        rw [List.headD_cons] at hmore hforfeited hoffset hbytes ha14
        have htodo : todo ≠ [] := by
          intro hnil
          have htail := hpacked.tail_eq_nil_iff.mp hnil
          rw [List.headD_cons] at htail
          omega
        -- the quantum was the budget
        have hpart : cfg.scheduler.quantum < file.size - req.offset := by
          by_contra hle
          have hall : nextGroup List.length cfg.scheduler.quantum (linesFrom file req.offset) =
              linesFrom file req.offset :=
            nextGroup_of_le (lineBytes_linesFrom.le.trans (Nat.not_lt.mp hle))
          rw [hpacked.next_group, List.headD_cons] at hall
          rw [hall, lineBytes_linesFrom] at hmore
          omega
        rw [Nat.min_eq_right hpart.le] at hforfeited
        exact ⟨_, _, hpacked.requeued htodo hcalls hbytes hoffset hacc.responseSent hacc.rounds
          (hlater14.trans ha14) hforfeited⟩

/-- What a successful round leaves: a waiting record, or a completed request. -/
theorem SteadyWaiting.settle {calls : List Call} (h : SteadyWaiting cfg file req log) (start : ℕ)
    (hcalls : requeues calls = 0)
    (hbytes : (sends calls).flatten =
      (req.greeting file).flatten ++ (nextLines cfg file req).flatten) :
    (settleRound cfg (cfg.scheduler.getBudget req).2 (servedRecord cfg file req start)
      (lineBytes (nextLines cfg file req))).wp (steadyLife cfg request file).contract
      (fun _ => (steadyLife cfg request file).always) (log ++ calls) := by
  have hsize : file.size < 2 ^ 63 := file.size_lt
  have hoffset := h.offset
  have htotal := h.total
  have hle : lineBytes (nextLines cfg file req) ≤ file.size - req.offset :=
    lineBytes_roundLines_le _ _ _ _
  have hserved : (servedRecord cfg file req start).totalBytes = file.size := h.total
  have hstart : (servedRecord cfg file req start).offset = req.offset := rfl
  have hacc : Accounted cfg.scheduler (servedRecord cfg file req start)
      (lineBytes (nextLines cfg file req)) _ :=
    cfg.scheduler.account_accounted (Nat.min_eq_left (by omega)) (by omega) (by omega)
  refine settleRound_get h.op (by omega) (by omega) (h.soFar hcalls (by rw [hbytes])) ?_ ?_
  · intro hmore
    have hwaiting := h.requeued hcalls hbytes (by omega)
      (Scheduler.settled_accounted hacc) (fun hrr => Scheduler.settled_counters _ _ _ (hacc.same.op.trans h.op) hrr)
    have hhere := @SteadyWaiting.soFar _ request _ _ _ hwaiting [] rfl List.nil_prefix
    rw [List.append_nil] at hhere
    exact ⟨hwaiting, hhere⟩
  · intro hall
    refine finishRequest_rule (fun ending hending => ?_) (fun ending hending _ hrr => ?_)
    · obtain ⟨hrequeues, hsame⟩ := ending_quiet hending hcalls
      rw [List.append_assoc]
      exact h.soFar hrequeues (by rw [hsame, hbytes])
    · obtain ⟨hquiet, finish, hrow⟩ := hending
      obtain ⟨hrequeues, hsame⟩ := ending_quiet hquiet hcalls
      obtain ⟨done, todo, hpacked⟩ := h.packed hrr
      obtain ⟨hgreet, hlines, ha14⟩ := hpacked.round hrr htotal start
      obtain ⟨hforfeited, hlater14⟩ := cfg.scheduler.account_counters
        (servedRecord cfg file req start) (lineBytes (nextLines cfg file req))
      rw [List.append_assoc]
      refine ⟨done ++ todo, _, ?_, List.mem_append_right _ (List.mem_append_right _ hrow)⟩
      refine hpacked.completed (hpacked.tail_eq_nil_iff.mpr ?_) hrequeues ?_ hacc.rounds
        (hlater14.trans ha14) hforfeited
      · rw [← hlines]
        omega
      · rw [hsame, hbytes, hgreet, hlines]

/-- **One round of a GET of an unchanging file.** -/
theorem steadyRound (h : SteadyWaiting cfg file req log)
    (hname : req.filename = request.filename) :
    (workerRound cfg (cfg.scheduler.decision req)).wp (steadyLife cfg request file).contract
      (fun _ => (steadyLife cfg request file).always) log := by
  have hhere := @SteadyWaiting.soFar _ request _ _ _ h [] rfl List.nil_prefix
  rw [List.append_nil] at hhere
  refine workerRound_rule hhere fun start now hnow => ?_
  obtain ⟨hsilent, hquiet⟩ := now_quiet hnow
  unfold dispatchRound
  rw [Prog.wp_bind, serveRound_get (show (cfg.scheduler.started req start).op = .GET from h.op)]
  have hserve := @serveGet_steady file cfg.fileDir (cfg.scheduler.policy = .RR)
    (cfg.scheduler.getBudget req).2 _ (cfg.scheduler.started req start) cfg.packetization_pos
    h.valid h.total (req.greeting file) rfl
  have hround := @steady_rule (steadyLife cfg request file) _ _ _ _ _ _ (log ++ now) []
    (fun _ call hcall => (show call.Steady file (filePath cfg.fileDir req.filename) from
      hname ▸ hcall)) (fun calls hcalls hplan => ?_) rfl hserve
  · rw [List.append_nil] at hround
    refine Prog.wp_mono hround ?_
    rintro res _ ⟨calls, rfl, hcalls, hend⟩
    rw [List.append_assoc]
    have hall : requeues (now ++ calls) = 0 := by
      rw [requeues_append, hquiet, hcalls]
    have hsame : sends (now ++ calls) = sends calls := by
      rw [sends_append, hsilent, List.nil_append]
    cases hend with
    | served packets hcut hsends =>
        refine h.settle start hall ?_
        rw [hsame, hsends, List.flatten_append, ← List.flatten_flatten, hcut.flatten]
        rfl
    | lost hfail hstaging hpre hfailed =>
        simp only [hfail, Bool.false_eq_true, ↓reduceIte]
        refine abandonRequest_rule (hstaging.trans h.staging) (fun ending hending => ?_)
          (fun _ _ hexit => by cases hexit)
        obtain ⟨hrequeues, hsends⟩ := ending_quiet hending hall
        rw [List.append_assoc]
        exact h.soFar hrequeues (by rw [hsends, hsame]; exact hpre)
  · rw [List.append_assoc]
    refine h.soFar ?_ ?_
    · rw [requeues_append, hquiet, hcalls]
    · rw [sends_append, hsilent, List.nil_append]
      exact hplan

theorem steadyLife_soundFor (hget : request.op = .GET) (htotal : request.totalBytes = file.size) :
    (steadyLife cfg request file).SoundFor cfg request where
  enter log hadm _ := by
    have hfresh := hadm.fresh
    have hwaiting : SteadyWaiting cfg file request (log ++ [⟨.push request, true⟩]) := by
      refine ⟨hget, htotal, hadm.valid, hfresh.stagingFilename, ?_, ⟨[], ?_⟩, fun _ => ?_⟩
      · rw [hfresh.offset]
        exact Nat.zero_le _
      · rw [hfresh.offset]
        rfl
      · obtain ⟨groups, hgroups⟩ := packs_exists List.length cfg.scheduler.quantum
          (lines newline file.bytes)
        refine ⟨[], groups, hgroups, ?_, Or.inl rfl, hfresh.responseSent, ?_, hfresh.rounds,
          hfresh.a14Events, hfresh.forfeitedBytes⟩
        · rw [hfresh.offset]
          exact hgroups
        · have hruns : runs ([] ++ (log ++ [⟨.push request, true⟩])) = _ :=
            runs_append (by rw [requeues_append, hadm.requeues]; rfl)
          rw [sends_append, hadm.sends] at hruns
          exact hruns
    have hhere := @SteadyWaiting.soFar _ request _ _ _ hwaiting [] rfl List.nil_prefix
    rw [List.append_nil] at hhere
    exact ⟨hhere, hwaiting⟩
  round req log hsame hwaiting := steadyRound hwaiting hsame.filename
  close exit log hover hexit hrr := by
    obtain ⟨groups, row, hrow, hmem⟩ := hover hexit hrr
    refine ⟨groups, row, ⟨hrow.packs, ?_, hrow.rounds, hrow.a14Events, hrow.forfeitedBytes⟩,
      List.mem_append_left _ hmem⟩
    rw [runs_append rfl]
    simpa [Eff.sent] using hrow.runs

end Life

namespace Sys

variable {P W : ℕ} {cfg : Config} {dir : Directory} {s t : Sys P W} {request : Request}
  {file : File}

/-- Every call for connection `fd` finds `file` under `path`. -/
def Unchanging (path : Bytes) (file : File) (fd : Fd) (s : Sys P W) (l : Label P W) : Prop :=
  ∀ call, s.callOf l = some (fd, call) → s.dir (cstr path) = some file

theorem unchanging_permits {l : Label P W}
    (h : Unchanging (filePath cfg.fileDir request.filename) file request.clientFd s l) :
    (steadyLife cfg request file).Permits request.clientFd s l := by
  intro call hcall
  have hfile := h call hcall
  obtain ⟨c, hres⟩ := callOf_answer hcall
  rcases call with ⟨e, r⟩
  simp only at hres
  cases e with
  | stat p =>
      rintro rfl
      rw [hres, answer, hfile]
      rfl
  | openRead p =>
      rintro rfl
      rw [hres, answer, hfile]
  | _ => trivial

theorem unchanging_size (hget : request.op = .GET)
    (hrun : RunWhere cfg (Unchanging (filePath cfg.fileDir request.filename) file
      request.clientFd) (init P W dir) t) (hmem : request ∈ t.admitted) :
    request.totalBytes = file.size := by
  obtain ⟨u, l, hm, -, htotal⟩ := run_size hrun hmem hget
  rw [hm.allowed _ hm.call] at htotal
  exact htotal

/-- At every moment a GET of an unchanging file is within its packing. -/
theorem run_steady (hget : request.op = .GET)
    (hrun : RunWhere cfg (Unchanging (filePath cfg.fileDir request.filename) file
      request.clientFd) (init P W dir) t) (hmem : request ∈ t.admitted) :
    (steadyLife cfg request file).HoldsFor request t :=
  Lifecycle.run_holdsFor (steadyLife_soundFor hget (unchanging_size hget hrun hmem))
    (hrun.mono fun _ _ h => unchanging_permits h) hmem

/-- **Round robin sends the greedy packing of the lines.** While the file does not change,
the rounds of a GET under RR send, one after the other, the groups of the packing of its
lines. A completed GET has sent them all, and its one row in the metrics has the number of
rounds, of long lines, and of bytes that the rounds before the last left of the quantum. -/
theorem get_packs_lines (hrr : cfg.scheduler.policy = .RR) (hget : request.op = .GET)
    (hrun : RunWhere cfg (Unchanging (filePath cfg.fileDir request.filename) file
      request.clientFd) (init P W dir) t) (hmem : request ∈ t.admitted) :
    PackedSoFar cfg.scheduler.quantum file (t.log request.clientFd) ∧
    ((request.clientFd, .completed) ∈ t.finished → ∃ groups row,
      PackedRow cfg.scheduler.quantum file groups (t.log request.clientFd) row ∧
      t.records.filter (fun entry => entry.1 = request.clientFd) =
        [(request.clientFd, .ofRequest row)]) := by
  have hlife := run_steady hget hrun hmem
  refine ⟨hlife.always hrr, fun hfin => ?_⟩
  obtain ⟨groups, row, hrow, hrecord⟩ := hlife.finished _ hfin rfl hrr
  exact ⟨groups, row, hrow, run_row hrun hfin hrecord⟩

theorem unchanging_of_calm {path : Bytes} (fd : Fd) (l : Label P W)
    (h : calm path file s l = true) : Unchanging path file fd s l :=
  fun call hcall => (undisturbed_of_calm fd l h call hcall).1

/-- A line longer than the quantum, a line, and a last line without its newline. -/
def longFirst : File := ⟨ascii "abc\nd\ne", by decide⟩

/-- A GET of three lines in three rounds. -/
def longFirstRounds : List (Label 1 1) :=
  arrive 7 (ascii "GET a\n") 5 ++ work 8 ++ work 6 ++ work 9

/-- The GET of the three lines under RR, to its end. -/
theorem longFirstRounds_run : ∃ (t : Sys 1 1) (request : Request), request ∈ t.admitted ∧
    request.op = .GET ∧ (request.clientFd, .completed) ∈ t.finished ∧
    RunWhere (plainConfig .RR 2 (by decide) (by decide)) (Unchanging (filePath (ascii "d")
      request.filename) longFirst request.clientFd)
      (init 1 1 (oneFile (ascii "d/a") longFirst)) t := by
  have hok : ∀ (s : Sys 1 1) (l : Label 1 1), calm (ascii "d/a") longFirst s l = true →
      Unchanging (ascii "d/a") longFirst 7 s l := fun _ l => unchanging_of_calm 7 l
  obtain ⟨t, hrun, hcheck⟩ := script_exists longFirstRounds
    (fun t => t.admitted.any (fun r => r.op = .GET ∧ r.clientFd = 7 ∧
      r.filename = ascii "a") && (7, .completed) ∈ t.finished) hok
    (show (script (step (plainConfig .RR 2 (by decide) (by decide)))
      (calm (ascii "d/a") longFirst) (init 1 1 (oneFile (ascii "d/a") longFirst))
      longFirstRounds).any _ = true by decide)
  simp only [Bool.and_eq_true, decide_eq_true_eq, List.any_eq_true] at hcheck
  obtain ⟨⟨request, hmem, hget, hfd, hname⟩, hdone⟩ := hcheck
  have hpath : filePath (ascii "d") request.filename = ascii "d/a" := by
    rw [hname]
    decide
  rw [← hfd] at hdone
  refine ⟨t, request, hmem, hget, hdone, ?_⟩
  rw [hpath, hfd]
  exact hrun

theorem get_packs_lines_three : ∃ (t : Sys 1 1) (request : Request),
    (request.clientFd, .completed) ∈ t.finished ∧
    PackedSoFar 2 longFirst (t.log request.clientFd) ∧
    ∃ groups row, PackedRow 2 longFirst groups (t.log request.clientFd) row ∧
      t.records.filter (fun entry => entry.1 = request.clientFd) =
        [(request.clientFd, .ofRequest row)] := by
  obtain ⟨t, request, hmem, hget, hdone, hrun⟩ := longFirstRounds_run
  obtain ⟨hsofar, hrow⟩ := get_packs_lines rfl hget hrun hmem
  exact ⟨t, request, hdone, hsofar, hrow hdone⟩

end Sys

end LinkScheduling
