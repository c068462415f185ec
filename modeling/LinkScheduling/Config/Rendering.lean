import LinkScheduling.Config.Language

/-!
# Renderings of a value

`Renders` writes a value the way the grammar of JSON allows it: any whitespace between
the tokens, the members of an object in any order, every character of a string as itself
or by its short escape. The parser reads each of these texts back to the one value.
-/

namespace LinkScheduling

namespace Json

variable {D : Type}

/-! ## Objects -/

/-- The members as `std::map` keeps them. -/
def Ascending (members : List (Bytes × Json D)) : Prop :=
  members.Pairwise fun a b => a.1 < b.1

theorem key_total {k k' : Bytes} (hne : k ≠ k') (hlt : ¬ k < k') : k' < k :=
  Std.lt_of_le_of_ne (Std.not_lt.mp hlt) hne.symm

theorem emplace_perm {key : Bytes} (value : Json D) :
    ∀ {object : List (Bytes × Json D)}, key ∉ object.map Prod.fst →
      (emplace key value object).Perm ((key, value) :: object)
  | [], _ => .refl _
  | (k, v) :: rest, h => by
      have hne : key ≠ k := fun heq => h (heq ▸ List.mem_cons_self)
      rw [emplace, if_neg hne]
      split
      · exact .refl _
      · have ih := emplace_perm value (fun hmem => h (List.mem_cons_of_mem k hmem))
        exact (ih.cons (k, v)).trans (.swap _ _ _)

theorem emplace_ascending {key : Bytes} {value : Json D} :
    ∀ {object : List (Bytes × Json D)}, Ascending object → key ∉ object.map Prod.fst →
      Ascending (emplace key value object)
  | [], _, _ => List.pairwise_singleton _ _
  | (k, v) :: rest, h, hkey => by
      have hne : key ≠ k := fun heq => hkey (heq ▸ List.mem_cons_self)
      have hrest : key ∉ rest.map Prod.fst := fun hmem => hkey (List.mem_cons_of_mem k hmem)
      obtain ⟨hall, htail⟩ := List.pairwise_cons.mp h
      rw [emplace, if_neg hne]
      split
      · rename_i hlt
        refine List.pairwise_cons.mpr ⟨fun member hmem => ?_, h⟩
        rcases List.mem_cons.mp hmem with rfl | hmem
        · exact hlt
        · exact List.lt_trans hlt (hall member hmem)
      · rename_i hlt
        refine List.pairwise_cons.mpr ⟨fun member hmem => ?_, emplace_ascending htail hrest⟩
        rcases List.mem_cons.mp ((emplace_perm value hrest).mem_iff.mp hmem) with rfl | hmem
        · exact key_total hne hlt
        · exact hall member hmem

/-- Members with distinct keys all get into the object. -/
theorem foldl_emplace {members : List (Bytes × Json D)} :
    ∀ (object : List (Bytes × Json D)), Ascending object →
      ((members ++ object).map Prod.fst).Nodup →
      (members.foldl (fun object member => emplace member.1 member.2 object) object).Perm
        (members ++ object) ∧
      Ascending (members.foldl (fun object member => emplace member.1 member.2 object) object) := by
  induction members with
  | nil => exact fun _ h _ => ⟨.refl _, h⟩
  | cons member members ih =>
      intro object h hnodup
      have hkey : member.1 ∉ object.map Prod.fst := by
        intro hmem
        rw [List.cons_append, List.map_cons, List.map_append] at hnodup
        exact (List.nodup_cons.mp hnodup).1 (List.mem_append_right _ hmem)
      have hperm := emplace_perm member.2 hkey
      -- the rest goes on from the object with the member in it
      have hmid : (members ++ emplace member.1 member.2 object).Perm
          (member :: members ++ object) :=
        (hperm.append_left members).trans List.perm_middle
      obtain ⟨hres, hasc⟩ := ih _ (emplace_ascending h hkey)
        ((hmid.map Prod.fst).nodup_iff.mpr hnodup)
      exact ⟨hres.trans hmid, hasc⟩

theorem Ascending.nodup {object : List (Bytes × Json D)} (h : Ascending object) :
    (object.map Prod.fst).Nodup := by
  refine List.pairwise_map.mpr (h.imp fun hlt heq => ?_)
  rw [heq] at hlt
  exact List.lt_irrefl _ hlt

/-- Whatever the order of its members, an object is read as the same map. -/
theorem ofMembers_eq {members object : List (Bytes × Json D)} (hperm : members.Perm object)
    (h : Ascending object) : ofMembers members = object := by
  have hnodup : ((members ++ []).map Prod.fst).Nodup := by
    rw [List.append_nil]
    exact (hperm.map Prod.fst).nodup_iff.mpr h.nodup
  obtain ⟨hres, hasc⟩ := foldl_emplace [] List.Pairwise.nil hnodup
  rw [List.append_nil] at hres
  refine List.Perm.eq_of_pairwise (fun a b _ _ hab hba => ?_) hasc h (hres.trans hperm)
  exact absurd (List.lt_trans hab hba) (List.lt_irrefl _)

/-! ## Texts of a value -/

/-- Whitespace between two tokens. -/
def IsWs (w : Bytes) : Prop := ∀ c ∈ w, isJsonSpace c = true

instance (w : Bytes) : Decidable (IsWs w) := inferInstanceAs (Decidable (∀ c ∈ w, _))

/-- The characters between the quotes: a byte from 32 on that is neither a quote nor a
backslash stands for itself, and any byte that has a short escape may be written so. -/
inductive Spells : Bytes → Bytes → Prop
  | nil : Spells [] []
  | plain {c : UInt8} {str chars : Bytes} : 32 ≤ c → c ≠ 34 → c ≠ 92 →
      Spells str chars → Spells (c :: str) (c :: chars)
  | escape {esc c : UInt8} {str chars : Bytes} : unescape esc = some c →
      Spells str chars → Spells (c :: str) (92 :: esc :: chars)

/-- The text of a value, or of the members or elements between the brackets. -/
inductive Renders : Symbol D → Bytes → Prop
  | null : Renders (.value .null) (ascii "null")
  | litTrue : Renders (.value (.bool true)) (ascii "true")
  | litFalse : Renders (.value (.bool false)) (ascii "false")
  | natural {digits : Bytes} : IsNatural digits → digitsValue digits < 2 ^ 63 →
      Renders (.value (.integer (digitsValue digits))) digits
  | negative {digits : Bytes} : IsNatural digits → digitsValue digits ≤ 2 ^ 63 →
      Renders (.value (.integer (-digitsValue digits))) (45 :: digits)
  | string {str chars : Bytes} : Spells str chars →
      Renders (.value (.string str)) (34 :: (chars ++ [34]))
  | emptyObject {w : Bytes} : IsWs w → Renders (.value (.object [])) (123 :: (w ++ [125]))
  | object {members object : List (Bytes × Json D)} {body : Bytes} : Ascending object →
      members.Perm object → Renders (.members members) body →
      Renders (.value (.object object)) (123 :: (body ++ [125]))
  | emptyArray {w : Bytes} : IsWs w → Renders (.value (.array [])) (91 :: (w ++ [93]))
  | array {elements : List (Json D)} {body : Bytes} : Renders (.elements elements) body →
      Renders (.value (.array elements)) (91 :: (body ++ [93]))
  | lastMember {key chars w₁ w₂ w₃ w₄ text : Bytes} {v : Json D} : IsWs w₁ → IsWs w₂ → IsWs w₃ →
      IsWs w₄ → Spells key chars → Renders (.value v) text →
      Renders (.members [(key, v)])
        (w₁ ++ 34 :: (chars ++ 34 :: (w₂ ++ 58 :: (w₃ ++ (text ++ w₄)))))
  | member {key chars w₁ w₂ w₃ w₄ text body : Bytes} {v : Json D}
      {members : List (Bytes × Json D)} : IsWs w₁ → IsWs w₂ → IsWs w₃ → IsWs w₄ →
      Spells key chars → Renders (.value v) text → Renders (.members members) body →
      Renders (.members ((key, v) :: members))
        (w₁ ++ 34 :: (chars ++ 34 :: (w₂ ++ 58 :: (w₃ ++ (text ++ (w₄ ++ 44 :: body))))))
  | lastElement {w₁ w₂ text : Bytes} {v : Json D} : IsWs w₁ → IsWs w₂ → Renders (.value v) text →
      Renders (.elements [v]) (w₁ ++ (text ++ w₂))
  | element {w₁ w₂ text body : Bytes} {v : Json D} {elements : List (Json D)} : IsWs w₁ →
      IsWs w₂ → Renders (.value v) text → Renders (.elements elements) body →
      Renders (.elements (v :: elements)) (w₁ ++ (text ++ (w₂ ++ 44 :: body)))

/-! ## Renderings are texts of the grammar -/

theorem IsWs.ws {w : Bytes} (h : IsWs w) (rest : Bytes) : Ws isJsonSpace (w ++ rest) rest := by
  induction w with
  | nil => exact .nil rest
  | cons c w ih =>
      exact .cons (h c List.mem_cons_self) (ih fun d hd => h d (List.mem_cons_of_mem c hd))

theorem Spells.chars {str chars : Bytes} (h : Spells str chars) (rest : Bytes) :
    Chars isHexDigit (chars ++ 34 :: rest) str rest := by
  induction h with
  | nil => exact .quote rest
  | plain h1 h2 h3 _ ih => exact .plain h1 h2 h3 ih
  | escape he _ ih => exact .escape he ih

theorem stoll_natural {digits : Bytes} (h : IsNatural digits)
    (hlt : digitsValue digits < 2 ^ 63) : stoll digits = some (digitsValue digits : ℤ) := by
  have hhead : ∀ ds, digits ≠ 45 :: ds := by
    rintro ds rfl
    rcases h with h | ⟨h, -⟩
    · cases h
    · exact absurd (h.2 45 List.mem_cons_self) (by decide)
  unfold stoll
  split
  · rename_i ds
    exact absurd rfl (hhead ds)
  · rw [if_pos ⟨by omega, by omega⟩]

theorem stoll_negative {digits : Bytes} (hle : digitsValue digits ≤ 2 ^ 63) :
    stoll (45 :: digits) = some (-digitsValue digits : ℤ) := by
  show (if -2 ^ 63 ≤ (-digitsValue digits : ℤ) ∧ (-digitsValue digits : ℤ) < 2 ^ 63 then
    some (-digitsValue digits : ℤ) else none) = _
  rw [if_pos ⟨by omega, by omega⟩]

/-- What follows the text of a symbol in the grammar: the members and elements go on with
their closing bracket. -/
def Rendered (stod : Bytes → Option D) (text : Bytes) (symbol : Symbol D) : Prop :=
  match symbol with
  | .value v => ∀ rest, Strict stod (text ++ rest) (.value v) rest
  | .members members => ∀ rest, Strict stod (text ++ 125 :: rest) (.members members) rest
  | .elements elements => ∀ rest, Strict stod (text ++ 93 :: rest) (.elements elements) rest

theorem IsNatural.isInteger {digits : Bytes} (h : IsNatural digits) : IsInteger digits :=
  ⟨[], digits, rfl, Or.inl rfl, h⟩

theorem IsNatural.isInteger_neg {digits : Bytes} (h : IsNatural digits) :
    IsInteger (45 :: digits) :=
  ⟨[45], digits, rfl, Or.inr rfl, h⟩

theorem Renders.rendered {symbol : Symbol D} {text : Bytes} (stod : Bytes → Option D)
    (h : Renders symbol text) : Rendered stod text symbol := by
  induction h with
  | null => exact fun rest => .litNull rest
  | litTrue => exact fun rest => .litTrue rest
  | litFalse => exact fun rest => .litFalse rest
  | natural h hlt => exact fun rest => .integer rest h.isInteger (stoll_natural h hlt)
  | negative h hle => exact fun rest => .integer rest h.isInteger_neg (stoll_negative hle)
  | string h =>
      intro rest
      have := h.chars rest
      simpa using Derives.string this
  | @emptyObject w h =>
      intro rest
      simpa using Derives.emptyObject (h.ws (125 :: rest))
  | @object members object body hasc hperm _ ih =>
      intro rest
      rw [← ofMembers_eq hperm hasc]
      simpa using Derives.object (ih rest)
  | @emptyArray w h =>
      intro rest
      simpa using Derives.emptyArray (h.ws (93 :: rest))
  | array _ ih =>
      intro rest
      simpa using Derives.array (ih rest)
  | lastMember h1 h2 h3 h4 hkey _ ih =>
      intro rest
      simp only [List.append_assoc, List.cons_append]
      exact .lastMember (h1.ws _) (hkey.chars _) (h2.ws _) (h3.ws _) (ih _) (h4.ws _)
  | member h1 h2 h3 h4 hkey _ _ ih ih' =>
      intro rest
      simp only [List.append_assoc, List.cons_append]
      exact .member (h1.ws _) (hkey.chars _) (h2.ws _) (h3.ws _) (ih _) (h4.ws _) (ih' rest)
  | lastElement h1 h2 _ ih =>
      intro rest
      simp only [List.append_assoc]
      exact .lastElement (h1.ws _) (ih _) (h2.ws _)
  | element h1 h2 _ _ ih ih' =>
      intro rest
      simp only [List.append_assoc, List.cons_append]
      exact .element (h1.ws _) (ih _) (h2.ws _) (ih' rest)

/-- **Round trip.** Every rendering of a value, with whitespace around it, is parsed back
to the value. -/
theorem parse_rendering (stod : Bytes → Option D) {v : Json D} {text w w' : Bytes}
    (hw : IsWs w) (hw' : IsWs w') (h : Renders (.value v) text) :
    parse stod (w ++ (text ++ w')) = .ok v := by
  have htext : IsText isJsonSpace isHexDigit stod (w ++ (text ++ w')) v := by
    refine ⟨text ++ w', w', hw.ws _, h.rendered stod w', ?_⟩
    have hend := hw'.ws []
    rwa [List.append_nil] at hend
  exact parse_eq_ok_iff.mpr htext.accepted

/-- `{"b": -7,"a\n":[]}`, with the members in the other order than the map keeps them. -/
theorem parse_rendering_two_members :
    parse (fun _ => (none : Option ℚ))
      ([10] ++ (123 :: ((34 :: ([98] ++ 34 :: ([] ++ 58 :: ([32] ++ ([45, 55] ++ ([] ++
        44 :: (34 :: ([97, 92, 110] ++ 34 :: ([] ++ 58 :: ([] ++ (91 :: ([] ++ [93]) ++
        []))))))))))) ++ [125]) ++ [])) =
      .ok (.object [([97, 10], .array []), ([98], .integer (-7))]) := by
  have hnil : IsWs [] := by decide
  have hb : Spells [98] [98] := .plain (by decide) (by decide) (by decide) .nil
  have ha : Spells [97, 10] [97, 92, 110] :=
    .plain (by decide) (by decide) (by decide) (.escape (by decide) .nil)
  refine parse_rendering _ (by decide) hnil (.object ?_ ?_ (.member hnil hnil (by decide) hnil hb
    (.negative ?_ (by decide)) (.lastMember hnil hnil hnil hnil ha (.emptyArray hnil))))
  · exact List.pairwise_pair.mpr (by decide)
  · exact .swap _ _ _
  · exact Or.inr ⟨⟨by decide, by decide⟩, by decide⟩

end Json

end LinkScheduling
