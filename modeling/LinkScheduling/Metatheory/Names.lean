import LinkScheduling.Metatheory.Header
import LinkScheduling.Model.Threads

/-!
# Names, staging names and the paths the system sees

File names are counted byte strings, while the system calls take C strings. Without a
NUL byte in the name the two agree; with one, the path ends inside the name and the
suffix of the staging name is lost.
-/

namespace LinkScheduling

open Framework

/-- The staging path and the final path of a request. -/
def stagingPath (cfg : Config) (request : Request) : Bytes :=
  filePath cfg.fileDir (stagingName request)

def finalPath (cfg : Config) (request : Request) : Bytes :=
  filePath cfg.fileDir request.filename

theorem cstr_append_of_notMem {a : Bytes} (h : (0 : UInt8) ∉ a) (b : Bytes) :
    cstr (a ++ b) = a ++ cstr b := by
  induction a with
  | nil => rfl
  | cons x a ih =>
      have hx : x ≠ 0 := fun e => h (e ▸ List.mem_cons_self)
      have ha := ih (fun hm => h (List.mem_cons_of_mem _ hm))
      unfold cstr at ha ⊢
      rw [List.cons_append, List.takeWhile_cons_of_pos (by simpa using hx), ha, List.cons_append]

/-- What follows a NUL byte is not part of the C string. -/
theorem cstr_append_of_mem {a : Bytes} (h : (0 : UInt8) ∈ a) (b : Bytes) :
    cstr (a ++ b) = cstr a := by
  induction a with
  | nil => cases h
  | cons x a ih =>
      unfold cstr at ih ⊢
      by_cases hx : x = 0
      · rw [List.cons_append, List.takeWhile_cons_of_neg (by simpa using hx),
          List.takeWhile_cons_of_neg (by simpa using hx)]
      · have ha := ih ((List.mem_cons.mp h).resolve_left (Ne.symm hx))
        rw [List.cons_append, List.takeWhile_cons_of_pos (by simpa using hx), ha,
          List.takeWhile_cons_of_pos (by simpa using hx)]

theorem cstr_filePath {cfg : Config} (name : Bytes) :
    cstr (filePath cfg.fileDir name) = filePath cfg.fileDir (cstr name) := by
  unfold filePath
  rw [cstr_append_of_notMem cfg.fileDir_cstr]
  rfl

theorem filePath_inj {fileDir a b : Bytes} : filePath fileDir a = filePath fileDir b ↔ a = b := by
  unfold filePath
  simp

/-! ## Staging names -/

theorem decimal_notMem {n : ℕ} {c : UInt8} (h : isdigit c = false) : c ∉ decimal n := by
  intro hc
  rw [decimal_isdigit hc] at h
  cases h

theorem decimalInt_notMem {z : ℤ} {c : UInt8} (h : isdigit c = false) (hc : c ≠ 45) :
    c ∉ decimalInt z := by
  cases z with
  | ofNat n => exact decimal_notMem h
  | negSucc n =>
      unfold decimalInt
      have hminus : ascii "-" = [45] := by decide
      rw [hminus, List.mem_append, List.mem_singleton]
      exact fun hm => hm.elim hc (decimal_notMem h)

/-- The suffix that makes a staging name of a name. -/
def stagingSuffix (id : ℤ) : Bytes := ascii ".upload." ++ decimalInt id

theorem stagingName_eq (req : Request) :
    stagingName req = req.filename ++ stagingSuffix req.requestId := by
  unfold stagingName stagingSuffix
  rw [List.append_assoc]

theorem stagingSuffix_notMem (id : ℤ) : (0 : UInt8) ∉ stagingSuffix id := by
  unfold stagingSuffix
  rw [List.mem_append]
  exact fun h => h.elim (by decide) (decimalInt_notMem (by decide) (by decide))

theorem stagingSuffix_length_pos (id : ℤ) : 0 < (stagingSuffix id).length := by
  unfold stagingSuffix
  rw [List.length_append]
  exact Nat.lt_of_lt_of_le (by decide) (Nat.le_add_right _ _)

/-- The C string of a staging name. -/
theorem cstr_stagingName (req : Request) :
    cstr (stagingName req) =
      if (0 : UInt8) ∈ req.filename then cstr req.filename else stagingName req := by
  rw [stagingName_eq]
  split
  · rename_i h
    exact cstr_append_of_mem h _
  · rename_i h
    rw [cstr_append_of_notMem h, cstr_of_notMem (stagingSuffix_notMem _)]

/-- The staging path is another path than the final one exactly when the name holds no
NUL byte. -/
theorem stagingPath_ne_finalPath {cfg : Config} {req : Request} :
    cstr (stagingPath cfg req) ≠ cstr (finalPath cfg req) ↔ (0 : UInt8) ∉ req.filename := by
  unfold stagingPath finalPath
  rw [cstr_filePath, cstr_filePath, Ne, filePath_inj, cstr_stagingName]
  split
  · rename_i h
    simp [h]
  · rename_i h
    rw [cstr_of_notMem h, stagingName_eq]
    have hpos := stagingSuffix_length_pos req.requestId
    refine ⟨fun _ => h, fun _ heq => ?_⟩
    have hlen := congrArg List.length heq
    rw [List.length_append] at hlen
    omega

theorem decimal_inj {a b : ℕ} (h : decimal a = decimal b) : a = b := by
  have := congrArg digitsValue h
  rwa [digitsValue_decimal, digitsValue_decimal] at this

theorem decimalInt_inj : ∀ {a b : ℤ}, decimalInt a = decimalInt b → a = b
  | .ofNat a, .ofNat b, h => congrArg Int.ofNat (decimal_inj h)
  | .negSucc a, .negSucc b, h => by
      unfold decimalInt at h
      have := decimal_inj (List.append_cancel_left h)
      rw [Nat.succ.inj this]
  | .ofNat a, .negSucc b, h => by
      have hmem : (45 : UInt8) ∈ decimal a := by
        have : (45 : UInt8) ∈ decimalInt (.negSucc b) := by
          unfold decimalInt
          exact List.mem_append_left _ (by decide)
        rwa [← h] at this
      exact absurd hmem (decimal_notMem (by decide))
  | .negSucc a, .ofNat b, h => by
      have hmem : (45 : UInt8) ∈ decimal b := by
        have : (45 : UInt8) ∈ decimalInt (.negSucc a) := by
          unfold decimalInt
          exact List.mem_append_left _ (by decide)
        rwa [h] at this
      exact absurd hmem (decimal_notMem (by decide))

/-- Staging names of different requests differ. -/
theorem requestId_eq_of_stagingName {a b : Request} (h : stagingName a = stagingName b) :
    a.requestId = b.requestId := by
  have hdot : ascii ".upload." = ascii ".upload" ++ [46] := by decide
  have hno : ∀ id : ℤ, (46 : UInt8) ∉ decimalInt id := fun id =>
    decimalInt_notMem (by decide) (by decide)
  unfold stagingName at h
  rw [hdot, ← List.append_assoc, ← List.append_assoc, List.append_assoc,
    List.append_assoc (b.filename ++ _)] at h
  exact decimalInt_inj (append_cons_inj_right (hno _) (hno _) h)

/-! ## Containment -/

/-- The server takes `header` as a GET or a PUT of a valid name; the number of the
request is given later. -/
def Accepted (header : Bytes) (request : Request) : Prop :=
  ∃ fd base, parseRequestHeader header fd = .ok base ∧ (base.op = .GET ∨ base.op = .PUT) ∧
    isValidFilename base.filename = true ∧ request = { base with requestId := request.requestId }

/-- A directory entry that is neither the directory itself nor its parent. -/
structure Component (name : Bytes) : Prop where
  ne_nil : name ≠ []
  ne_dot : name ≠ ascii "."
  ne_dotdot : name ≠ ascii ".."
  slash_notMem : slash ∉ name

/-- The paths the system sees for a request: both name an entry of the served directory,
and they are different. -/
structure Contained (cfg : Config) (request : Request) : Prop where
  final : ∃ name, Component name ∧ cstr (finalPath cfg request) = filePath cfg.fileDir name
  staging : ∃ name, Component name ∧ cstr (stagingPath cfg request) = filePath cfg.fileDir name
  apart : cstr (stagingPath cfg request) ≠ cstr (finalPath cfg request)

theorem isValidFilename_iff {name : Bytes} : isValidFilename name = true ↔ Component name := by
  unfold isValidFilename
  constructor
  · intro h
    simp only [Bool.and_eq_true, Bool.not_eq_true', List.isEmpty_eq_false_iff, bne_iff_ne,
      List.contains_eq_mem, decide_eq_false_iff_not] at h
    exact ⟨h.1.1.1, h.1.1.2, h.1.2, h.2⟩
  · rintro ⟨h1, h2, h3, h4⟩
    simp [h1, h2, h3, h4]

theorem Accepted.component {header : Bytes} {request : Request} (h : Accepted header request) :
    Component request.filename := by
  obtain ⟨fd, base, -, -, hvalid, heq⟩ := h
  rw [heq]
  exact isValidFilename_iff.mp hvalid

/-- A staging name is too long to be `.` or `..`. -/
theorem stagingName_component {request : Request} (h : Component request.filename) :
    Component (stagingName request) := by
  have hlong : 8 ≤ (stagingName request).length := by
    have hsuffix : (ascii ".upload.").length = 8 := by decide
    unfold stagingName
    simp only [List.length_append, hsuffix]
    omega
  refine ⟨?_, ?_, ?_, ?_⟩
  · exact List.ne_nil_of_length_pos (by omega)
  · exact fun heq => absurd (heq ▸ hlong) (by decide)
  · exact fun heq => absurd (heq ▸ hlong) (by decide)
  · unfold stagingName
    simp only [List.mem_append, not_or]
    exact ⟨⟨h.slash_notMem, by decide⟩, decimalInt_notMem (by decide) (by decide)⟩

theorem cstr_finalPath_of_notMem {cfg : Config} {request : Request}
    (h : (0 : UInt8) ∉ request.filename) :
    cstr (finalPath cfg request) = filePath cfg.fileDir request.filename := by
  unfold finalPath
  rw [cstr_filePath, cstr_of_notMem h]

theorem cstr_stagingPath_of_notMem {cfg : Config} {request : Request}
    (h : (0 : UInt8) ∉ request.filename) :
    cstr (stagingPath cfg request) = filePath cfg.fileDir (stagingName request) := by
  unfold stagingPath
  rw [cstr_filePath, cstr_stagingName, if_neg h]

theorem contained_of_notMem {cfg : Config} {request : Request} (h : Component request.filename)
    (hnul : (0 : UInt8) ∉ request.filename) : Contained cfg request where
  final := ⟨request.filename, h, cstr_finalPath_of_notMem hnul⟩
  staging := ⟨stagingName request, stagingName_component h, cstr_stagingPath_of_notMem hnul⟩
  apart := stagingPath_ne_finalPath.mpr hnul

theorem filename_eq_of_stagingName {a b : Request} (h : stagingName a = stagingName b) :
    a.filename = b.filename := by
  have hid := requestId_eq_of_stagingName h
  rw [stagingName_eq, stagingName_eq, hid] at h
  exact List.append_cancel_right h

/-- **Containment.** Two accepted requests stay inside the served directory, have staging
paths apart from their final paths, and share no path if their names differ, exactly when
neither name holds a NUL byte. -/
theorem accepted_paths (cfg : Config) {header header' : Bytes} {a b : Request}
    (ha : Accepted header a) (hb : Accepted header' b) :
    (Contained cfg a ∧ Contained cfg b ∧
      (a.filename ≠ b.filename → cstr (finalPath cfg a) ≠ cstr (finalPath cfg b) ∧
        cstr (stagingPath cfg a) ≠ cstr (stagingPath cfg b))) ↔
    (0 : UInt8) ∉ a.filename ∧ (0 : UInt8) ∉ b.filename := by
  constructor
  · rintro ⟨hca, hcb, -⟩
    exact ⟨stagingPath_ne_finalPath.mp hca.apart, stagingPath_ne_finalPath.mp hcb.apart⟩
  · rintro ⟨hna, hnb⟩
    refine ⟨contained_of_notMem ha.component hna, contained_of_notMem hb.component hnb, ?_⟩
    intro hne
    rw [cstr_finalPath_of_notMem hna, cstr_finalPath_of_notMem hnb,
      cstr_stagingPath_of_notMem hna, cstr_stagingPath_of_notMem hnb]
    refine ⟨fun heq => hne (filePath_inj.mp heq), fun heq => hne ?_⟩
    exact filename_eq_of_stagingName (filePath_inj.mp heq)

/-- `GET a` and `PUT b 0` are accepted and have different paths. -/
theorem accepted_paths_get_put :
    ∃ a b, Accepted (ascii "GET a\n") a ∧ Accepted (ascii "PUT b 0\n") b ∧
      ∀ cfg : Config, cstr (finalPath cfg a) ≠ cstr (finalPath cfg b) := by
  have ha : Accepted (ascii "GET a\n") { op := .GET, filename := ascii "a" } :=
    ⟨0, { op := .GET, filename := ascii "a" }, rfl, Or.inl rfl, by decide, rfl⟩
  have hb : Accepted (ascii "PUT b 0\n") { op := .PUT, filename := ascii "b" } :=
    ⟨0, { op := .PUT, filename := ascii "b" }, rfl, Or.inr rfl, by decide, rfl⟩
  refine ⟨_, _, ha, hb, fun cfg => ?_⟩
  exact (((accepted_paths cfg ha hb).mpr ⟨by decide, by decide⟩).2.2 (by decide)).1

/-- A name that goes on after `..` and a NUL byte is accepted, and the system gets the
parent of the served directory. -/
theorem accepted_paths_dotdot :
    ∃ request, Accepted (ascii "GET .." ++ 0 :: ascii "x\n") request ∧
      ∀ cfg : Config, cstr (finalPath cfg request) = filePath cfg.fileDir (ascii "..") := by
  refine ⟨{ op := .GET, filename := ascii ".." ++ 0 :: ascii "x" },
    ⟨0, { op := .GET, filename := ascii ".." ++ 0 :: ascii "x" }, rfl, Or.inl rfl, by decide, rfl⟩,
    fun cfg => ?_⟩
  unfold finalPath
  rw [cstr_filePath]
  rfl

end LinkScheduling
