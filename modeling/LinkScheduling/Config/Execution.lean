import LinkScheduling.Model.Parser
import LinkScheduling.Config.Cursor

/-!
# The programs of the parser compute its functions

Run on a text, each program of `Json.Parser` returns what the function of the same name
returns, and fails where it fails. The loops have one unit of fuel more than the functions
have passes; it is for the test that ends them.
-/

namespace LinkScheduling

open Framework

namespace Json.Parser

variable {α β : Type} {text : Bytes}

/-! ## Runs of composed programs -/

@[simp] theorem exec_pure (a : α) : exec text (pure a : Scan α) = .ok a := rfl

@[simp] theorem exec_fail : exec text (fail : Scan α) = .error .malformed := rfl

@[simp] theorem exec_outOfFuel : exec text (outOfFuel : Scan α) = .error .fuel := rfl

@[simp] theorem exec_move (pos : ℕ) : exec text (move pos) = .ok () := rfl

@[simp] theorem exec_enter (r : Routine) (pos : ℕ) : exec text (enter r pos) = .ok () := rfl

@[simp] theorem exec_leave (r : Routine) (pos : ℕ) : exec text (leave r pos) = .ok () := rfl

@[simp] theorem exec_iterate (pos : ℕ) : exec text (iterate pos) = .ok () := rfl

theorem exec_read {pos : ℕ} (h : pos < text.length) : exec text (read pos) = .ok text[pos] := by
  simp only [read, Prog.perform, exec, List.getElem?_eq_getElem h]

@[simp] theorem exec_compare (pos len : ℕ) (literal : Bytes) :
    exec text (compare pos len literal) = Json.compare text pos len literal := by
  change Json.compare text pos len literal >>= (fun equal => Except.ok equal) = _
  cases Json.compare text pos len literal with
  | error _ => rfl
  | ok _ => rfl

@[simp] theorem exec_substr (pos len : ℕ) :
    exec text (substr pos len) = Json.substr text pos len := by
  change Json.substr text pos len >>= (fun token => Except.ok token) = _
  cases Json.substr text pos len with
  | error _ => rfl
  | ok _ => rfl

@[simp] theorem exec_bind (p : Scan α) (f : α → Scan β) :
    exec text (p >>= f) = exec text p >>= fun a => exec text (f a) := by
  change exec text (p.bind f) = _
  induction p with
  | ret a => rfl
  | call e k ih =>
      cases e with
      | read pos =>
          simp only [Prog.bind, exec]
          cases text[pos]? with
          | none => rfl
          | some c => exact ih c
      | compare pos len literal =>
          simp only [Prog.bind, exec]
          cases Json.compare text pos len literal with
          | error _ => rfl
          | ok equal => exact ih equal
      | substr pos len =>
          simp only [Prog.bind, exec]
          cases Json.substr text pos len with
          | error _ => rfl
          | ok token => exact ih token
      | move _ => exact ih ()
      | enter _ _ => exact ih ()
      | leave _ _ => exact ih ()
      | iterate _ => exact ih ()
      | fail => rfl
      | outOfFuel => rfl

theorem exec_ite {c : Prop} [Decidable c] (p q : Scan α) :
    exec text (if c then p else q) = if c then exec text p else exec text q := by
  split
  · rfl
  · rfl

@[simp] theorem exec_called (r : Routine) (pos : ℕ) (body : Scan (α × ℕ)) :
    exec text (called r pos body) = exec text body := by
  simp only [called, exec_bind, exec_enter, exec_leave, exec_pure]
  cases exec text body with
  | error _ => rfl
  | ok _ => rfl

/-! ## The cursor -/

@[simp] theorem exec_test (p : UInt8 → Bool) (pos : ℕ) :
    exec text (test text.length p pos) = .ok (isAt p text pos) := by
  unfold test isAt
  by_cases h : pos < text.length
  · simp only [h, ↓reduceIte, ↓reduceDIte, exec_bind, exec_read h]
    rfl
  · simp only [h, ↓reduceIte, ↓reduceDIte, exec_pure]

theorem exec_skipLoop (p : UInt8 → Bool) : ∀ fuel pos : ℕ, text.length - pos ≤ fuel →
    exec text (skipLoop text.length p (fuel + 1) pos) = .ok (Json.skipLoop p text fuel pos) := by
  intro fuel
  induction fuel with
  | zero =>
      intro pos hfuel
      have hend : isAt p text pos = false := dif_neg (by omega)
      rw [skipLoop, exec_bind, exec_test, hend]
      rfl
  | succ fuel ih =>
      intro pos hfuel
      rw [skipLoop, exec_bind, exec_test, Json.skipLoop]
      cases isAt p text pos with
      | false => rfl
      | true => exact ih (pos + 1) (by omega)

@[simp] theorem exec_skipWhile (p : UInt8 → Bool) (pos : ℕ) :
    exec text (skipWhile text.length p pos) = .ok (Json.skipWhile p text pos) :=
  exec_skipLoop p _ pos le_rfl

@[simp] theorem exec_skipWs (pos : ℕ) :
    exec text (skipWs text.length pos) = .ok (Json.skipWs text pos) := by
  simp only [skipWs, exec_bind, exec_enter, exec_skipWhile]
  rfl

@[simp] theorem exec_consume (c : UInt8) (pos : ℕ) :
    exec text (consume text.length c pos) = .ok (Json.consume c text pos) := by
  simp only [consume, Json.consume, exec_bind, exec_skipWs]
  change exec text (test text.length _ _) >>= _ = _
  rw [exec_test]
  cases isAt (· = c) text (Json.skipWs text pos) with
  | false => rfl
  | true => rfl

@[simp] theorem exec_peek (pos : ℕ) :
    exec text (peek text.length pos) = Json.peek text pos := by
  simp only [peek, Json.peek, exec_bind, exec_skipWs]
  change exec text (if text.length ≤ Json.skipWs text pos then _ else _) = _
  by_cases h : Json.skipWs text pos < text.length
  · rw [if_neg (by omega), dif_pos h, exec_bind, exec_read h]
    rfl
  · rw [if_pos (by omega), dif_neg h]
    rfl

/-! ## Strings -/

theorem exec_stringLoop : ∀ (fuel pos : ℕ) (str : Bytes), text.length - pos ≤ fuel →
    exec text (stringLoop text.length (fuel + 1) pos str) = Json.stringLoop text fuel pos str := by
  intro fuel
  induction fuel with
  | zero =>
      intro pos str hfuel
      rw [stringLoop, if_neg (by omega)]
      rfl
  | succ fuel ih =>
      intro pos str hfuel
      rw [stringLoop, Json.stringLoop]
      by_cases hpos : pos < text.length
      · simp only [hpos, ↓reduceIte, ↓reduceDIte, exec_bind, exec_iterate, exec_read hpos, exec_move,
          except_ok_bind, exec_ite, exec_pure, exec_fail]
        by_cases hquote : text[pos] = 34
        · rw [if_pos hquote, if_pos hquote]
        rw [if_neg hquote, if_neg hquote]
        by_cases hback : text[pos] = 92
        · rw [if_pos hback, if_pos hback]
          by_cases hesc : pos + 1 < text.length
          · simp only [hesc, ↓reduceDIte, Nat.not_le.mpr hesc, ↓reduceIte, exec_read hesc,
              except_ok_bind]
            by_cases hu : text[pos + 1] = 117
            · rw [if_pos hu, if_pos hu]
              by_cases hfour : text.length < pos + 2 + 4
              · rw [if_pos hfour, if_pos hfour]
              · rw [if_neg hfour, if_neg hfour]
                exact ih _ _ (by omega)
            · rw [if_neg hu, if_neg hu]
              cases unescape text[pos + 1] with
              | none => rfl
              | some d => exact ih _ _ (by omega)
          · rw [if_pos (by omega), dif_neg hesc]
        · rw [if_neg hback, if_neg hback, ih _ _ (by omega)]
      · rw [if_neg hpos, dif_neg hpos]
        rfl

@[simp] theorem exec_parseString (pos : ℕ) :
    exec text (parseString text.length pos) = Json.parseString text pos := by
  simp only [parseString, exec_called, exec_bind, exec_skipWs, exec_test, except_ok_bind, exec_ite,
    exec_move, exec_fail, Json.parseString]
  cases isAt (· = 34) text (Json.skipWs text pos) with
  | false => rfl
  | true => exact exec_stringLoop _ _ _ le_rfl

/-! ## Numbers -/

theorem exec_skipOne (p : UInt8 → Bool) (pos : ℕ) :
    exec text (skipOne text.length p pos) = .ok (if isAt p text pos then pos + 1 else pos) := by
  simp only [skipOne, exec_bind, exec_test, except_ok_bind]
  cases isAt p text pos with
  | false => rfl
  | true => rfl

theorem exec_someDigits (pos : ℕ) :
    exec text (someDigits text.length pos) =
      if isAt isdigit text pos then .ok (Json.skipWhile isdigit text pos)
      else .error .malformed := by
  simp only [someDigits, exec_bind, exec_test, except_ok_bind, exec_ite, exec_skipWhile, exec_fail]

theorem exec_integerPart (pos : ℕ) :
    exec text (integerPart text.length pos) = Json.integerPart text pos := by
  simp only [integerPart, Json.integerPart, exec_bind, exec_skipOne, exec_test, except_ok_bind]
  generalize (if isAt (· = 45) text pos then pos + 1 else pos) = pos
  by_cases hpos : pos < text.length
  · simp only [exec_ite, exec_bind, exec_read hpos, exec_move, except_ok_bind, exec_pure,
      exec_skipWhile, exec_fail, isAt, hpos, ↓reduceDIte]
    cases isdigit text[pos] with
    | false => rfl
    | true => simp
  · simp only [isAt, hpos, ↓reduceDIte]
    rfl

theorem exec_fractionPart (pos : ℕ) :
    exec text (fractionPart text.length pos) = Json.fractionPart text pos := by
  simp only [fractionPart, Json.fractionPart, exec_bind, exec_test, except_ok_bind]
  cases isAt (· = 46) text pos with
  | false => rfl
  | true =>
      simp only [↓reduceIte, exec_bind, exec_move, except_ok_bind, exec_someDigits, exec_pure]
      cases isAt isdigit text (pos + 1) with
      | false => rfl
      | true => rfl

theorem exec_exponentPart (pos : ℕ) :
    exec text (exponentPart text.length pos) = Json.exponentPart text pos := by
  simp only [exponentPart, Json.exponentPart, exec_bind, exec_test, except_ok_bind]
  cases isAt (fun c => c = 101 || c = 69) text pos with
  | false => rfl
  | true =>
      simp only [↓reduceIte, exec_bind, exec_move, except_ok_bind, exec_skipOne, exec_someDigits,
        exec_pure]
      generalize (if isAt (fun c => c = 43 || c = 45) text (pos + 1) then pos + 1 + 1
        else pos + 1) = pos
      cases isAt isdigit text pos with
      | false => rfl
      | true => rfl

section Values

variable {D : Type} (stod : Bytes → Option D)

@[simp] theorem exec_parseNumber (pos : ℕ) :
    exec text (parseNumber text.length stod pos) = Json.parseNumber stod text pos := by
  simp only [parseNumber, exec_called, exec_bind, exec_skipWs, except_ok_bind, exec_integerPart,
    exec_fractionPart, exec_exponentPart, exec_substr, Json.parseNumber]
  refine bind_congr fun pos₁ => ?_
  refine bind_congr fun fraction => ?_
  refine bind_congr fun exponent => ?_
  refine bind_congr fun token => ?_
  unfold numberOf
  cases fraction.1 && exponent.1 with
  | false => cases stod token with
      | none => rfl
      | some d => rfl
  | true => cases stoll token with
      | none => rfl
      | some n => rfl

/-! ## Literals -/

@[simp] theorem exec_parseBool (pos : ℕ) :
    exec text (parseBool pos : Scan (Json D × ℕ)) = Json.parseBool text pos := by
  simp only [parseBool, exec_called, exec_bind, exec_compare, exec_ite, exec_move, except_ok_bind,
    exec_pure, exec_fail, Json.parseBool]

@[simp] theorem exec_parseNull (pos : ℕ) :
    exec text (parseNull pos : Scan (Json D × ℕ)) = Json.parseNull text pos := by
  simp only [parseNull, exec_called, exec_bind, exec_compare, exec_ite, exec_move, except_ok_bind,
    exec_pure, exec_fail, Json.parseNull]

/-! ## Values -/

theorem ite_bnot (b : Bool) (x y : α) : (if !b then x else y) = if b then y else x := by
  cases b with
  | false => rfl
  | true => rfl

/-- With this fuel the programs on values compute the functions on values. -/
structure Computes (stod : Bytes → Option D) (text : Bytes) (fuel : ℕ) : Prop where
  value : ∀ pos, exec text (parseValue text.length stod fuel pos) =
    Json.parseValue stod text fuel pos
  object : ∀ pos, exec text (parseObject text.length stod fuel pos) =
    Json.parseObject stod text fuel pos
  members : ∀ pos members, exec text (parseMembers text.length stod fuel pos members) =
    Json.parseMembers stod text fuel pos members
  array : ∀ pos, exec text (parseArray text.length stod fuel pos) =
    Json.parseArray stod text fuel pos
  elements : ∀ pos elements, exec text (parseElements text.length stod fuel pos elements) =
    Json.parseElements stod text fuel pos elements

variable {stod} {fuel : ℕ}

theorem exec_parseValue (ih : Computes stod text fuel) (pos : ℕ) :
    exec text (parseValue text.length stod (fuel + 1) pos) =
      Json.parseValue stod text (fuel + 1) pos := by
  simp only [parseValue, exec_called, exec_bind, exec_peek, exec_ite, ih.object, ih.array,
    exec_parseString, exec_pure, exec_parseBool, exec_parseNull, exec_parseNumber, exec_fail,
    Json.parseValue]

theorem exec_parseObject (ih : Computes stod text fuel) (pos : ℕ) :
    exec text (parseObject text.length stod (fuel + 1) pos) =
      Json.parseObject stod text (fuel + 1) pos := by
  simp only [parseObject, exec_called, exec_bind, exec_consume, exec_skipWs, except_ok_bind,
    exec_ite, exec_pure, ih.members, exec_fail, Json.parseObject, ite_bnot]

theorem exec_parseArray (ih : Computes stod text fuel) (pos : ℕ) :
    exec text (parseArray text.length stod (fuel + 1) pos) =
      Json.parseArray stod text (fuel + 1) pos := by
  simp only [parseArray, exec_called, exec_bind, exec_consume, exec_skipWs, except_ok_bind,
    exec_ite, exec_pure, ih.elements, exec_fail, Json.parseArray, ite_bnot]

theorem exec_parseMembers (ih : Computes stod text fuel) (pos : ℕ)
    (members : List (Bytes × Json D)) :
    exec text (parseMembers text.length stod (fuel + 1) pos members) =
      Json.parseMembers stod text (fuel + 1) pos members := by
  simp only [parseMembers, exec_bind, exec_iterate, except_ok_bind, exec_skipWs, exec_peek, exec_ite,
    exec_parseString, exec_consume, ih.value, ih.members, exec_pure, exec_fail, Json.parseMembers,
    ite_bnot, ne_eq, ite_not]

theorem exec_parseElements (ih : Computes stod text fuel) (pos : ℕ) (elements : List (Json D)) :
    exec text (parseElements text.length stod (fuel + 1) pos elements) =
      Json.parseElements stod text (fuel + 1) pos elements := by
  simp only [parseElements, exec_bind, exec_iterate, except_ok_bind, ih.value, exec_consume,
    exec_ite, exec_pure, ih.elements, exec_fail, Json.parseElements, ite_bnot]

theorem computes (stod : Bytes → Option D) (text : Bytes) (fuel : ℕ) :
    Computes stod text fuel := by
  induction fuel with
  | zero =>
      constructor
      · intro pos
        simp only [parseValue, Json.parseValue, exec_outOfFuel]
      · intro pos
        simp only [parseObject, Json.parseObject, exec_outOfFuel]
      · intro pos members
        simp only [parseMembers, Json.parseMembers, exec_outOfFuel]
      · intro pos
        simp only [parseArray, Json.parseArray, exec_outOfFuel]
      · intro pos elements
        simp only [parseElements, Json.parseElements, exec_outOfFuel]
  | succ fuel ih =>
      exact ⟨exec_parseValue ih, exec_parseObject ih, exec_parseMembers ih, exec_parseArray ih,
        exec_parseElements ih⟩

/-- The program of `Parser::parse` run on a text is the function. -/
theorem exec_parse (stod : Bytes → Option D) (text : Bytes) :
    exec text (parse text.length stod) = Json.parse stod text := by
  simp only [parse, exec_bind, exec_skipWs, except_ok_bind, (computes stod text _).value,
    exec_ite, exec_fail, exec_pure, Json.parse]

end Values

end Json.Parser

end LinkScheduling
