import LinkScheduling.Model.Config
import LinkScheduling.Model.Download
import LinkScheduling.Model.JsonParser
import LinkScheduling.Model.Threads

/-!
# `main` of the server, up to the listening socket

The loop over `argv`, the checks after it and the configuration file. `Except.error` carries
the text on `stderr` with which `main` returns `1`.
-/

namespace LinkScheduling

/-- A word of `argv`: a C string holds no NUL byte. -/
abbrev Arg : Type := { b : Bytes // (0 : UInt8) ∉ b }

inductive Flag : Type where
  | config
  | sched
  | file
  | quantum
  | p
  | metricsOut
deriving DecidableEq

def Flag.text : Flag → Bytes
  | .config => ascii "--config"
  | .sched => ascii "--sched"
  | .file => ascii "--file"
  | .quantum => ascii "--quantum"
  | .p => ascii "--p"
  | .metricsOut => ascii "--metrics-out"

/-- The comparisons of `argv[i]`, in their order. -/
def Flag.find (arg : Bytes) : Option Flag :=
  [Flag.config, .sched, .file, .quantum, .p, .metricsOut].find? fun flag => arg = flag.text

/-- `std::stoi`: white space, a sign, then the digits that are there. -/
def stoi (text : Bytes) : Option ℤ :=
  let text := text.dropWhile isspace
  let negative := text.head? = some 45
  let text := if text.head? = some 45 ∨ text.head? = some 43 then text.tail else text
  let digits := text.takeWhile isdigit
  let value : ℤ := if negative then -digitsValue digits else digitsValue digits
  if digits.isEmpty then none
  else if -2 ^ 31 ≤ value ∧ value < 2 ^ 31 then some value else none

theorem stoullText_lt {text : Bytes} {n : ℕ} (h : stoullText text = some n) : n < 2 ^ 64 := by
  unfold stoullText at h
  simp only [Option.ite_none_left_eq_some, Option.map_eq_some_iff] at h
  obtain ⟨-, value, hvalue, rfl⟩ := h
  split
  · exact Nat.mod_lt _ (by norm_num)
  · obtain ⟨hlt, heq⟩ := Option.ite_none_right_eq_some.mp hvalue
    exact Option.some.inj heq ▸ hlt

/-- The variables that the loop over `argv` sets. -/
structure Options where
  configPath : Arg := ⟨ascii "config.json", by decide⟩
  schedPolicy : Arg := ⟨[], by decide⟩
  fileDir : Arg := ⟨[], by decide⟩
  metricsOut : Arg := ⟨ascii "metrics.csv", by decide⟩
  quantum : ℕ := 0
  packetization : ℤ := 1
  quantumSet : Bool := false
  quantum_lt : quantum < 2 ^ 64 := by decide

/-- The branch of `--quantum`. -/
def Options.setQuantum (o : Options) (value : Arg) : Except Bytes Options :=
  match h : stoullText value.1 with
  | none => .error (ascii "error: invalid --quantum")
  | some quantum =>
      .ok { o with
        quantum := quantum
        quantumSet := true
        quantum_lt := stoullText_lt h }

/-- The branch of one flag, with the value after it. -/
def Options.set (o : Options) (flag : Flag) (value : Arg) : Except Bytes Options :=
  match flag with
  | .config => .ok { o with configPath := value }
  | .sched => .ok { o with schedPolicy := value }
  | .file => .ok { o with fileDir := value }
  | .quantum => o.setQuantum value
  | .p =>
      match stoi value.1 with
      | none => .error (ascii "error: invalid --p")
      | some packetization => .ok { o with packetization := packetization }
  | .metricsOut => .ok { o with metricsOut := value }

def missingValue (flag : Flag) : Bytes := ascii "error: missing value for " ++ flag.text

def unknownArgument (arg : Bytes) : Bytes :=
  ascii "error: unknown or incomplete argument: " ++ arg

/-- The loop over `argv`. -/
def parseArgs (o : Options) : List Arg → Except Bytes Options
  | [] => .ok o
  | [arg] =>
      match Flag.find arg.1 with
      | none => .error (unknownArgument arg.1)
      | some flag => .error (missingValue flag)
  | arg :: value :: rest =>
      match Flag.find arg.1 with
      | none => .error (unknownArgument arg.1)
      | some flag =>
          match o.set flag value with
          | .error text => .error text
          | .ok o => parseArgs o rest

def SchedulingPolicy.text : SchedulingPolicy → Bytes
  | .FCFS => ascii "fcfs"
  | .SJF => ascii "sjf"
  | .RR => ascii "rr"
  | .DRR => ascii "drr"

def parseSchedulingPolicy (policy : Bytes) : Except Bytes SchedulingPolicy :=
  if policy = ascii "fcfs" then .ok .FCFS
  else if policy = ascii "sjf" then .ok .SJF
  else if policy = ascii "rr" then .ok .RR
  else if policy = ascii "drr" then .ok .DRR
  else .error (ascii "invalid scheduling policy: " ++ policy)

theorem parseSchedulingPolicy_eq_ok {text : Bytes} {policy : SchedulingPolicy} :
    parseSchedulingPolicy text = .ok policy ↔ text = policy.text := by
  constructor
  · intro h
    unfold parseSchedulingPolicy at h
    split at h
    · cases h
      assumption
    · split at h
      · cases h
        assumption
      · split at h
        · cases h
          assumption
        · split at h
          · cases h
            assumption
          · cases h
  · rintro rfl
    cases policy <;> rfl

/-- The checks after the loop, and what they let through. -/
def Options.check (o : Options) : Except Bytes Config :=
  if o.schedPolicy.1.isEmpty then .error (ascii "error: missing required flag '--sched'")
  else if o.fileDir.1.isEmpty then .error (ascii "error: missing required flag '--file'")
  else if hpos : o.packetization ≤ 0 then
    .error (ascii "error: --p must be a positive integer")
  else match hpolicy : parseSchedulingPolicy o.schedPolicy.1 with
  | .error text => .error (ascii "error: " ++ text)
  | .ok policy =>
      if hquantum : (o.schedPolicy.1 = ascii "rr" ∨ o.schedPolicy.1 = ascii "drr") ∧
          (o.quantumSet = false ∨ o.quantum = 0) then
        .error (ascii "error: --quantum required for " ++ o.schedPolicy.1)
      else if (o.schedPolicy.1 = ascii "fcfs" ∨ o.schedPolicy.1 = ascii "sjf") ∧
          o.quantumSet = true then
        .error (ascii "error: --quantum not allowed for " ++ o.schedPolicy.1)
      else .ok
        { scheduler :=
            { policy := policy
              quantum := o.quantum
              quantum_lt := o.quantum_lt
              quantum_pos := by
                have htext := parseSchedulingPolicy_eq_ok.mp hpolicy
                rintro (rfl | rfl)
                · exact Nat.pos_of_ne_zero fun h => hquantum ⟨Or.inl htext, Or.inr h⟩
                · exact Nat.pos_of_ne_zero fun h => hquantum ⟨Or.inr htext, Or.inr h⟩ }
          fileDir := o.fileDir.1
          packetization := o.packetization
          fileDir_cstr := o.fileDir.2
          packetization_pos := Int.not_le.mp hpos }

/-- What `main` finds around it: the files, `std::stod`, and the text of a
`std::out_of_range`. -/
structure Host (D : Type) where
  files : Bytes → Option Bytes
  stod : Bytes → Option D
  outOfRange : Bytes

/-- `load_config` from the path on. -/
def loadConfigFile {D : Type} (host : Host D) (path : Bytes) : Except Bytes FileConfig :=
  match host.files path with
  | none => .error (ascii "error: could not open config file '" ++ path ++ ascii "'")
  | some text =>
      match Json.parse host.stod text with
      | .error .malformed => .error (ascii "error: malformed JSON")
      | .error _ => .error host.outOfRange
      | .ok root => loadConfig root false

/-- What `main` starts the server with. -/
structure Launch where
  cfg : Config
  file : FileConfig
  metricsOut : Arg

/-- The number of workers. -/
def Launch.workers (launch : Launch) : ℤ := launch.file.server.serverThreads

/-- `parser_count`. -/
def Launch.parsers (launch : Launch) : ℤ := max 8 launch.file.server.clientThreads

/-- `main` before `create_listening_socket`; `argv` is without the name of the program. -/
def launch {D : Type} (host : Host D) (argv : List Arg) : Except Bytes Launch := do
  let o ← parseArgs {} argv
  let cfg ← o.check
  let file ← loadConfigFile host o.configPath.1
  .ok { cfg := cfg, file := file, metricsOut := o.metricsOut }

end LinkScheduling
