import LinkScheduling.Config.Loading
import LinkScheduling.Metatheory.Header
import LinkScheduling.Metatheory.Names
import LinkScheduling.Model.CommandLine

/-!
# The command line of the server

The words of `argv` are settings, a flag and its value each, in any order and any number; the
last value of a flag counts. `main` starts the server exactly for the settings that `Starts`
describes, and otherwise names the first word that is wrong. What it starts the server with is
every `Config` of the model whose numbers an `int` and the policy allow.
-/

namespace LinkScheduling

/-! ## Settings -/

abbrev Setting : Type := Flag × Arg

def Flag.word (flag : Flag) : Arg := ⟨flag.text, by cases flag <;> decide⟩

/-- The words of `argv` that make these settings. -/
def commandLine (settings : List Setting) : List Arg :=
  settings.flatMap fun setting => [setting.1.word, setting.2]

/-- The last value given for a flag. -/
def lastValue (flag : Flag) : List Setting → Option Arg
  | [] => none
  | setting :: rest =>
      (lastValue flag rest).or (if setting.1 = flag then some setting.2 else none)

/-- A flag that takes a number has one. -/
def Readable (setting : Setting) : Prop :=
  match setting.1 with
  | .quantum => (stoullText setting.2.1).isSome
  | .p => (stoi setting.2.1).isSome
  | _ => True

/-- The words from the first wrong one on, with what `main` says about them. -/
inductive Complaint : List Arg → Bytes → Prop
  | missing (flag : Flag) : Complaint [flag.word] (missingValue flag)
  | unknown (arg : Arg) (rest : List Arg) (h : ∀ flag : Flag, arg.1 ≠ flag.text) :
      Complaint (arg :: rest) (unknownArgument arg.1)
  | unreadable (flag : Flag) (value : Arg) (rest : List Arg) (h : ¬ Readable (flag, value)) :
      Complaint (flag.word :: value :: rest) (ascii "error: invalid " ++ flag.text)

/-- The variables after the settings. -/
structure SetBy (o : Options) (settings : List Setting) (o' : Options) : Prop where
  configPath : o'.configPath = (lastValue .config settings).getD o.configPath
  schedPolicy : o'.schedPolicy = (lastValue .sched settings).getD o.schedPolicy
  fileDir : o'.fileDir = (lastValue .file settings).getD o.fileDir
  metricsOut : o'.metricsOut = (lastValue .metricsOut settings).getD o.metricsOut
  quantum : o'.quantum =
    ((lastValue .quantum settings).bind fun value => stoullText value.1).getD o.quantum
  packetization : o'.packetization =
    ((lastValue .p settings).bind fun value => stoi value.1).getD o.packetization
  quantumSet : o'.quantumSet = (o.quantumSet || (lastValue .quantum settings).isSome)

/-- The settings start the server with `l`. -/
structure Starts {D : Type} (host : Host D) (settings : List Setting) (l : Launch) : Prop where
  readable : ∀ setting ∈ settings, Readable setting
  sched : ∃ value, lastValue .sched settings = some value ∧
    value.1 = l.cfg.scheduler.policy.text
  file : ∃ value, lastValue .file settings = some value ∧ value.1 ≠ [] ∧
    value.1 = l.cfg.fileDir
  quantumSet : (lastValue .quantum settings).isSome ↔
    l.cfg.scheduler.policy = .RR ∨ l.cfg.scheduler.policy = .DRR
  quantum : l.cfg.scheduler.quantum =
    ((lastValue .quantum settings).bind fun value => stoullText value.1).getD 0
  packetization : l.cfg.packetization =
    ((lastValue .p settings).bind fun value => stoi value.1).getD 1
  metricsOut : l.metricsOut =
    (lastValue .metricsOut settings).getD ⟨ascii "metrics.csv", by decide⟩
  config : loadConfigFile host
    ((lastValue .config settings).getD ⟨ascii "config.json", by decide⟩).1 = .ok l.file

/-! ## The loop -/

section Loop

variable {o o' : Options} {flag : Flag} {value : Arg} {settings : List Setting} {argv : List Arg}
  {text : Bytes}

@[simp] theorem commandLine_cons (setting : Setting) (settings : List Setting) :
    commandLine (setting :: settings) = setting.1.word :: setting.2 :: commandLine settings := rfl

theorem find_text (flag : Flag) : Flag.find flag.text = some flag := by
  cases flag <;> decide

theorem find_eq_some {arg : Bytes} (h : Flag.find arg = some flag) : arg = flag.text := by
  simpa using List.find?_some h

theorem find_eq_none {arg : Bytes} (h : Flag.find arg = none) (flag : Flag) :
    arg ≠ flag.text := by
  rintro rfl
  rw [find_text] at h
  cases h

theorem lastValue_mem (h : lastValue flag settings = some value) : (flag, value) ∈ settings := by
  induction settings with
  | nil => cases h
  | cons setting rest ih =>
      rw [lastValue, Option.or_eq_some_iff] at h
      rcases h with h | ⟨-, h⟩
      · exact List.mem_cons_of_mem _ (ih h)
      · split at h
        · rename_i hflag
          cases h
          subst hflag
          exact List.mem_cons_self
        · cases h

/-- What one flag does, when its value is readable. -/
theorem set_readable (h : Readable (flag, value)) :
    ∃ o', o.set flag value = .ok o' ∧ SetBy o [(flag, value)] o' := by
  cases flag with
  | quantum =>
      obtain ⟨n, hn⟩ := Option.isSome_iff_exists.mp h
      have hn : stoullText value.1 = some n := hn
      refine ⟨{ o with quantum := n, quantumSet := true, quantum_lt := stoullText_lt hn }, ?_,
        by constructor <;> simp [lastValue, hn]⟩
      change o.setQuantum value = _
      unfold Options.setQuantum
      split
      · rename_i hnone
        rw [hn] at hnone
        cases hnone
      · rename_i m hm
        cases hn.symm.trans hm
        rfl
  | p =>
      obtain ⟨n, hn⟩ := Option.isSome_iff_exists.mp h
      have hn : stoi value.1 = some n := hn
      refine ⟨{ o with packetization := n }, ?_, by constructor <;> simp [lastValue, hn]⟩
      simp only [Options.set, hn]
  | _ => exact ⟨_, rfl, by constructor <;> simp [lastValue]⟩

theorem set_unreadable (h : ¬ Readable (flag, value)) :
    o.set flag value = .error (ascii "error: invalid " ++ flag.text) := by
  cases flag with
  | quantum =>
      have hnone : stoullText value.1 = none := by simpa [Readable] using h
      change o.setQuantum value = _
      unfold Options.setQuantum
      split
      · rfl
      · rename_i hsome
        rw [hnone] at hsome
        cases hsome
  | p =>
      have hnone : stoi value.1 = none := by simpa [Readable] using h
      simp only [Options.set, hnone]
      rfl
  | _ => exact absurd trivial h

/-- Settings one after the other: of two values of a flag the later one counts. -/
theorem SetBy.trans {o₁ : Options} {setting : Setting} (h : SetBy o [setting] o₁)
    (h' : SetBy o₁ settings o') (hread : ∀ setting ∈ settings, Readable setting) :
    SetBy o (setting :: settings) o' := by
  have hor : ∀ (flag : Flag) (d : Arg), (lastValue flag settings).getD
      ((lastValue flag [setting]).getD d) = (lastValue flag (setting :: settings)).getD d := by
    intro flag d
    simp only [lastValue, Option.none_or]
    cases lastValue flag settings <;> rfl
  have hnumber : ∀ {α : Type} (flag : Flag) (f : Arg → Option α) (d : α),
      (∀ value, (flag, value) ∈ settings → (f value).isSome) →
      ((lastValue flag settings).bind f).getD (((lastValue flag [setting]).bind f).getD d) =
        ((lastValue flag (setting :: settings)).bind f).getD d := by
    intro α flag f d hf
    simp only [lastValue, Option.none_or]
    cases hlast : lastValue flag settings with
    | none => rfl
    | some value =>
        obtain ⟨a, ha⟩ := Option.isSome_iff_exists.mp (hf value (lastValue_mem hlast))
        simp [ha]
  refine ⟨?_, ?_, ?_, ?_, ?_, ?_, ?_⟩
  · rw [h'.configPath, h.configPath, hor]
  · rw [h'.schedPolicy, h.schedPolicy, hor]
  · rw [h'.fileDir, h.fileDir, hor]
  · rw [h'.metricsOut, h.metricsOut, hor]
  · rw [h'.quantum, h.quantum]
    exact hnumber .quantum (fun value => stoullText value.1) _ fun value => hread (.quantum, value)
  · rw [h'.packetization, h.packetization]
    exact hnumber .p (fun value => stoi value.1) _ fun value => hread (.p, value)
  · rw [h'.quantumSet, h.quantumSet, Bool.or_assoc]
    simp only [lastValue, Option.none_or]
    cases lastValue .quantum settings <;> simp

/-- The loop takes readable settings one by one. -/
theorem parseArgs_commandLine (hread : ∀ setting ∈ settings, Readable setting) (rest : List Arg) :
    ∃ o', parseArgs o (commandLine settings ++ rest) = parseArgs o' rest ∧ SetBy o settings o' := by
  induction settings generalizing o with
  | nil => exact ⟨o, rfl, by constructor <;> simp [lastValue]⟩
  | cons setting settings ih =>
      obtain ⟨flag, value⟩ := setting
      have hrest := fun setting hmem => hread setting (List.mem_cons_of_mem _ hmem)
      obtain ⟨o₁, hset, hby⟩ := set_readable (o := o) (hread (flag, value) List.mem_cons_self)
      obtain ⟨o', hparse, hby'⟩ := ih (o := o₁) hrest
      refine ⟨o', ?_, hby.trans hby' hrest⟩
      rw [← hparse, commandLine_cons, List.cons_append, List.cons_append, parseArgs]
      have hfind : Flag.find flag.word.1 = some flag := find_text flag
      simp only [hfind, hset]

theorem parseArgs_complaint (h : Complaint argv text) : parseArgs o argv = .error text := by
  cases h with
  | missing flag =>
      have hfind : Flag.find flag.word.1 = some flag := find_text flag
      simp only [parseArgs, hfind]
  | unknown arg rest hunknown =>
      have hfind : Flag.find arg.1 = none := by
        by_contra hne
        obtain ⟨flag, hflag⟩ := Option.ne_none_iff_exists'.mp hne
        exact hunknown flag (find_eq_some hflag)
      cases rest <;> simp only [parseArgs, hfind]
  | unreadable flag value rest hvalue =>
      have hfind : Flag.find flag.word.1 = some flag := find_text flag
      simp only [parseArgs, hfind, set_unreadable hvalue]

/-- Every command line is readable settings up to its end or up to the first wrong word. -/
theorem commandLine_or_complaint (argv : List Arg) :
    ∃ settings rest, argv = commandLine settings ++ rest ∧
      (∀ setting ∈ settings, Readable setting) ∧ (rest = [] ∨ ∃ text, Complaint rest text) := by
  have hunknown : ∀ (arg : Arg) (rest : List Arg), Flag.find arg.1 = none →
      ∃ text, Complaint (arg :: rest) text :=
    fun arg rest hfind => ⟨_, .unknown arg rest (find_eq_none hfind)⟩
  have hword : ∀ {arg : Arg} {flag : Flag}, Flag.find arg.1 = some flag → arg = flag.word :=
    fun hfind => Subtype.ext (find_eq_some hfind)
  match argv with
  | [] => exact ⟨[], [], rfl, by simp, Or.inl rfl⟩
  | [arg] =>
      refine ⟨[], [arg], rfl, by simp, Or.inr ?_⟩
      cases hfind : Flag.find arg.1 with
      | none => exact hunknown arg [] hfind
      | some flag =>
          rw [hword hfind]
          exact ⟨_, .missing flag⟩
  | arg :: value :: rest =>
      cases hfind : Flag.find arg.1 with
      | none => exact ⟨[], _, rfl, by simp, Or.inr (hunknown arg _ hfind)⟩
      | some flag =>
          rw [hword hfind]
          by_cases hvalue : Readable (flag, value)
          · obtain ⟨settings, rest', hrest, hread, hend⟩ := commandLine_or_complaint rest
            refine ⟨(flag, value) :: settings, rest', ?_, ?_, hend⟩
            · rw [hrest, commandLine_cons, List.cons_append, List.cons_append]
            · intro setting hmem
              rcases List.mem_cons.mp hmem with rfl | hmem
              · exact hvalue
              · exact hread setting hmem
          · exact ⟨[], _, rfl, by simp, Or.inr ⟨_, .unreadable flag value rest hvalue⟩⟩

/-- The loop ends well exactly on readable settings. -/
theorem parseArgs_eq_ok (h : parseArgs o argv = .ok o') :
    ∃ settings, argv = commandLine settings ∧ (∀ setting ∈ settings, Readable setting) ∧
      SetBy o settings o' := by
  obtain ⟨settings, rest, rfl, hread, hrest⟩ := commandLine_or_complaint argv
  obtain ⟨o₁, hparse, hby⟩ := parseArgs_commandLine (o := o) hread rest
  rw [hparse] at h
  rcases hrest with rfl | ⟨text, hcomplaint⟩
  · cases h
    exact ⟨settings, List.append_nil _, hread, hby⟩
  · rw [parseArgs_complaint hcomplaint] at h
    cases h

/-- The loop fails exactly at the first wrong word, and says what is wrong with it. -/
theorem parseArgs_eq_error :
    parseArgs o argv = .error text ↔
      ∃ settings rest, argv = commandLine settings ++ rest ∧
        (∀ setting ∈ settings, Readable setting) ∧ Complaint rest text := by
  constructor
  · intro h
    obtain ⟨settings, rest, rfl, hread, hrest⟩ := commandLine_or_complaint argv
    obtain ⟨o₁, hparse, -⟩ := parseArgs_commandLine (o := o) hread rest
    rw [hparse] at h
    rcases hrest with rfl | ⟨text', hcomplaint⟩
    · cases h
    · rw [parseArgs_complaint hcomplaint] at h
      cases h
      exact ⟨settings, rest, rfl, hread, hcomplaint⟩
  · rintro ⟨settings, rest, rfl, hread, hcomplaint⟩
    obtain ⟨o₁, hparse, -⟩ := parseArgs_commandLine (o := o) hread rest
    rw [hparse, parseArgs_complaint hcomplaint]

end Loop

/-! ## The start -/

section Start

variable {D : Type} {host : Host D} {o : Options} {cfg : Config} {l : Launch} {argv : List Arg}
  {settings : List Setting}

/-- RR and DRR, and only they, go by the tests of the source for a quantum. -/
theorem text_quantum (policy : SchedulingPolicy) :
    (policy.text = ascii "rr" ∨ policy.text = ascii "drr" ↔ policy = .RR ∨ policy = .DRR) ∧
    (policy.text = ascii "fcfs" ∨ policy.text = ascii "sjf" ↔
      ¬ (policy = .RR ∨ policy = .DRR)) := by
  cases policy <;> decide

/-- What the checks let through. -/
theorem check_eq_ok :
    o.check = .ok cfg ↔
      o.schedPolicy.1 = cfg.scheduler.policy.text ∧ (o.fileDir.1 ≠ [] ∧ o.fileDir.1 = cfg.fileDir) ∧
      (o.quantumSet = true ↔ cfg.scheduler.policy = .RR ∨ cfg.scheduler.policy = .DRR) ∧
      cfg.scheduler.quantum = o.quantum ∧ cfg.packetization = o.packetization := by
  constructor
  · intro h
    unfold Options.check at h
    split at h
    · cases h
    · split at h
      · cases h
      · rename_i hdir
        split at h
        · cases h
        · split at h
          · cases h
          · rename_i policy hpolicy
            have htext := parseSchedulingPolicy_eq_ok.mp hpolicy
            split at h
            · cases h
            · rename_i hrequired
              split at h
              · cases h
              · rename_i hallowed
                cases h
                refine ⟨htext, ⟨by simpa using hdir, rfl⟩, ?_, rfl, rfl⟩
                rw [htext, (text_quantum policy).1] at hrequired
                rw [htext, (text_quantum policy).2] at hallowed
                constructor
                · intro hset
                  by_contra hno
                  exact hallowed ⟨hno, hset⟩
                · intro htakes
                  by_contra hunset
                  exact hrequired ⟨htakes, Or.inl (Bool.eq_false_iff.mpr hunset)⟩
  · rintro ⟨htext, ⟨hdir, hfile⟩, hset, hquantum, hpacket⟩
    obtain ⟨⟨policy, quantum, hlt, hpos⟩, fileDir, packetization, hcstr, hppos⟩ := cfg
    simp only at htext hfile hset hquantum hpacket hpos hppos
    subst hquantum hpacket hfile
    have hpolicy : parseSchedulingPolicy o.schedPolicy.1 = .ok policy :=
      parseSchedulingPolicy_eq_ok.mpr htext
    have hname : o.schedPolicy.1.isEmpty = false := by
      rw [htext]
      cases policy <;> rfl
    unfold Options.check
    rw [if_neg (by simp [hname]), if_neg (by simpa using hdir), dif_neg (Int.not_le.mpr hppos)]
    split
    · rename_i hother
      rw [hpolicy] at hother
      cases hother
    · rename_i policy' hother
      cases hpolicy.symm.trans hother
      split
      · rename_i hrequired
        rw [htext, (text_quantum policy).1] at hrequired
        obtain ⟨htakes, hunset | hzero⟩ := hrequired
        · exact absurd (hset.mpr htakes) (by simp [hunset])
        · exact absurd hzero (hpos htakes).ne'
      · split
        · rename_i hallowed
          rw [htext, (text_quantum policy).2] at hallowed
          exact absurd (hset.mp hallowed.2) hallowed.1
        · rfl

theorem launch_starts (h : launch host argv = .ok l) :
    ∃ settings, argv = commandLine settings ∧ Starts host settings l := by
  unfold launch at h
  obtain ⟨o, hparse, h⟩ := Framework.except_bind_eq_ok.mp h
  obtain ⟨cfg, hcheck, h⟩ := Framework.except_bind_eq_ok.mp h
  obtain ⟨file, hload, h⟩ := Framework.except_bind_eq_ok.mp h
  cases h
  obtain ⟨settings, hargv, hread, hby⟩ := parseArgs_eq_ok hparse
  obtain ⟨hsched, ⟨hdir, hfile⟩, hset, hquantum, hpacket⟩ := check_eq_ok.mp hcheck
  refine ⟨settings, hargv, hread, ?_, ?_, ?_, ?_, ?_, hby.metricsOut, ?_⟩
  · rw [hby.schedPolicy] at hsched
    cases hlast : lastValue .sched settings with
    | none =>
        rw [hlast] at hsched
        exact absurd hsched (by cases cfg.scheduler.policy <;> decide)
    | some value =>
        rw [hlast] at hsched
        exact ⟨value, rfl, hsched⟩
  · rw [hby.fileDir] at hdir hfile
    cases hlast : lastValue .file settings with
    | none =>
        rw [hlast] at hdir
        exact absurd rfl hdir
    | some value =>
        rw [hlast] at hdir hfile
        exact ⟨value, rfl, hdir, hfile⟩
  · rw [← hset, hby.quantumSet]
    simp
  · rw [hquantum, hby.quantum]
  · rw [hpacket, hby.packetization]
  · rw [← hload, hby.configPath]

theorem Starts.launch (h : Starts host settings l) :
    launch host (commandLine settings) = .ok l := by
  obtain ⟨o, hparse, hby⟩ := parseArgs_commandLine (o := {}) h.readable []
  obtain ⟨policy, hpolicy, hsched⟩ := h.sched
  obtain ⟨dir, hdir, hne, hfile⟩ := h.file
  have hcheck : o.check = .ok l.cfg := by
    refine check_eq_ok.mpr ⟨?_, ⟨?_, ?_⟩, ?_, ?_, ?_⟩
    · rw [hby.schedPolicy, hpolicy]
      exact hsched
    · rw [hby.fileDir, hdir]
      exact hne
    · rw [hby.fileDir, hdir]
      exact hfile
    · rw [← h.quantumSet, hby.quantumSet]
      simp
    · rw [h.quantum, hby.quantum]
    · rw [h.packetization, hby.packetization]
  have hload : loadConfigFile host o.configPath.1 = .ok l.file := by
    rw [hby.configPath]
    exact h.config
  rw [List.append_nil] at hparse
  refine Framework.except_bind_eq_ok.mpr ⟨o, hparse, ?_⟩
  refine Framework.except_bind_eq_ok.mpr ⟨l.cfg, hcheck, ?_⟩
  refine Framework.except_bind_eq_ok.mpr ⟨l.file, hload, ?_⟩
  rw [hby.metricsOut, ← h.metricsOut]

/-- **The command line.** `main` starts the server exactly on settings that describe the
start: readable, with a policy, a directory, a quantum for RR and DRR only, a positive packet
size and a configuration file that loads. Of two values of a flag the later one counts. The
loop over `argv` fails exactly at the first wrong word, and says what is wrong with it. -/
theorem command_line :
    (launch host argv = .ok l ↔
      ∃ settings, argv = commandLine settings ∧ Starts host settings l) ∧
    ∀ text, parseArgs {} argv = .error text ↔
      ∃ settings rest, argv = commandLine settings ++ rest ∧
        (∀ setting ∈ settings, Readable setting) ∧ Complaint rest text := by
  refine ⟨⟨launch_starts, ?_⟩, fun text => parseArgs_eq_error⟩
  rintro ⟨settings, rfl, h⟩
  exact h.launch

/-! ## What can be started -/

/-- A decimal number is read back by the two functions of the standard library. -/
theorem decimal_scans (n : ℕ) : (decimal n).dropWhile isspace = decimal n ∧
    (decimal n).head? ≠ some 45 ∧ (decimal n).head? ≠ some 43 ∧
    (decimal n).takeWhile isdigit = decimal n := by
  obtain ⟨d, digits, hdigits⟩ := List.exists_cons_of_ne_nil (decimal_ne_nil n)
  have hd : isdigit d = true := decimal_isdigit (by rw [hdigits]; exact List.mem_cons_self)
  refine ⟨?_, ?_, ?_, List.takeWhile_eq_self_iff.mpr fun c hc => decimal_isdigit hc⟩
  · rw [hdigits, List.dropWhile_cons_of_neg]
    rw [isspace_of_isdigit hd]
    decide
  · rw [hdigits, List.head?_cons]
    rintro h
    cases h
    exact absurd hd (by decide)
  · rw [hdigits, List.head?_cons]
    rintro h
    cases h
    exact absurd hd (by decide)

theorem stoullText_number {n : ℕ} (hn : n < 2 ^ 64) : stoullText (decimal n) = some n := by
  obtain ⟨hspace, hminus, hplus, htake⟩ := decimal_scans n
  have hvalue : stoull (decimal n) = some n := by rw [stoull, digitsValue_decimal, if_pos hn]
  simp [stoullText, hspace, hminus, hplus, htake, decimal_ne_nil, hvalue]

theorem stoi_number {n : ℕ} (hn : n < 2 ^ 31) : stoi (decimal n) = some (n : ℤ) := by
  obtain ⟨hspace, hminus, hplus, htake⟩ := decimal_scans n
  have hdigits : (decimal n).isEmpty = false := by simp [decimal_ne_nil]
  simp only [stoi, hspace, hminus, hplus, htake, hdigits, digitsValue_decimal, or_self,
    Bool.false_eq_true, ↓reduceIte]
  exact if_pos (by omega)

theorem stoi_lt {text : Bytes} {z : ℤ} (h : stoi text = some z) : z < 2 ^ 31 := by
  unfold stoi at h
  simp only [Option.ite_none_left_eq_some, Option.ite_none_right_eq_some] at h
  obtain ⟨-, ⟨-, hlt⟩, heq⟩ := h
  exact Option.some.inj heq ▸ hlt

def numberArg (n : ℕ) : Arg := ⟨decimal n, decimal_notMem (by decide)⟩

def policyArg (policy : SchedulingPolicy) : Arg :=
  ⟨policy.text, by cases policy <;> decide⟩

/-- Settings for a start, with the configuration file at `path`. -/
def settingsOf (l : Launch) (path : Arg) : List Setting :=
  (if l.cfg.scheduler.policy = .RR ∨ l.cfg.scheduler.policy = .DRR then
    [(.quantum, numberArg l.cfg.scheduler.quantum)] else []) ++
  [(.config, path), (.sched, policyArg l.cfg.scheduler.policy),
    (.file, ⟨l.cfg.fileDir, l.cfg.fileDir_cstr⟩), (.p, numberArg l.cfg.packetization.toNat),
    (.metricsOut, l.metricsOut)]

theorem starts_settingsOf {path : Arg} (hdir : l.cfg.fileDir ≠ [])
    (hpacket : l.cfg.packetization < 2 ^ 31)
    (hquantum : ¬ (l.cfg.scheduler.policy = .RR ∨ l.cfg.scheduler.policy = .DRR) →
      l.cfg.scheduler.quantum = 0)
    (hload : loadConfigFile host path.1 = .ok l.file) : Starts host (settingsOf l path) l := by
  have hread : stoullText (numberArg l.cfg.scheduler.quantum).1 = some l.cfg.scheduler.quantum :=
    stoullText_number l.cfg.scheduler.quantum_lt
  have hp : stoi (numberArg l.cfg.packetization.toNat).1 = some l.cfg.packetization := by
    have hpos := l.cfg.packetization_pos
    have hsize : ((l.cfg.packetization.toNat : ℕ) : ℤ) = l.cfg.packetization := by omega
    rw [← hsize]
    exact stoi_number (by omega)
  unfold settingsOf
  by_cases htakes : l.cfg.scheduler.policy = .RR ∨ l.cfg.scheduler.policy = .DRR
  · rw [if_pos htakes]
    refine ⟨?_, ⟨policyArg _, rfl, rfl⟩, ⟨_, rfl, hdir, rfl⟩, ?_, ?_, ?_, rfl, hload⟩
    · simp [Readable, hread, hp]
    · simpa [lastValue] using htakes
    · simp [lastValue, hread]
    · simp [lastValue, hp]
  · rw [if_neg htakes]
    refine ⟨?_, ⟨policyArg _, rfl, rfl⟩, ⟨_, rfl, hdir, rfl⟩, ?_, ?_, ?_, rfl, hload⟩
    · simp [Readable, hp]
    · simpa [lastValue] using htakes
    · simp [lastValue, hquantum htakes]
    · simp [lastValue, hp]

theorem loadConfigFile_crew {path : Bytes} (h : loadConfigFile host path = .ok l.file) :
    1 ≤ l.workers ∧ 8 ≤ l.parsers := by
  unfold loadConfigFile at h
  split at h
  · cases h
  · split at h
    · cases h
    · cases h
    · obtain ⟨⟨server, -, -, hserver⟩, -⟩ := loadConfig_eq_ok.mp h
      exact ⟨hserver.isServerThreads.1, le_max_left _ _⟩

theorem Starts.bounds (h : Starts host settings l) :
    l.cfg.fileDir ≠ [] ∧ l.cfg.packetization < 2 ^ 31 ∧
      (¬ (l.cfg.scheduler.policy = .RR ∨ l.cfg.scheduler.policy = .DRR) →
        l.cfg.scheduler.quantum = 0) := by
  obtain ⟨dir, -, hne, hdir⟩ := h.file
  refine ⟨hdir ▸ hne, ?_, fun hno => ?_⟩
  · rw [h.packetization]
    cases hlast : lastValue .p settings with
    | none => decide
    | some value =>
        obtain ⟨z, hz⟩ := Option.isSome_iff_exists.mp (h.readable _ (lastValue_mem hlast))
        have hz : stoi value.1 = some z := hz
        simpa [hz] using stoi_lt hz
  · rw [← h.quantumSet, Option.not_isSome_iff_eq_none] at hno
    rw [h.quantum, hno]
    rfl

/-- **What can be started.** Command lines start the server with every `Config` of the model
that has a directory, an `int` for the packet size, and no quantum unless the policy is RR or
DRR; then there is at least one worker, and there are at least eight parsers. -/
theorem launch_range :
    (∃ argv, launch host argv = .ok l) ↔
      (l.cfg.fileDir ≠ [] ∧ l.cfg.packetization < 2 ^ 31 ∧
        (¬ (l.cfg.scheduler.policy = .RR ∨ l.cfg.scheduler.policy = .DRR) →
          l.cfg.scheduler.quantum = 0)) ∧
      (∃ path : Arg, loadConfigFile host path.1 = .ok l.file) ∧
      1 ≤ l.workers ∧ 8 ≤ l.parsers := by
  constructor
  · rintro ⟨argv, h⟩
    obtain ⟨settings, -, hstarts⟩ := launch_starts h
    exact ⟨hstarts.bounds, ⟨_, hstarts.config⟩, loadConfigFile_crew hstarts.config⟩
  · rintro ⟨⟨hdir, hpacket, hquantum⟩, ⟨path, hload⟩, -⟩
    exact ⟨_, (starts_settingsOf hdir hpacket hquantum hload).launch⟩

end Start

end LinkScheduling
