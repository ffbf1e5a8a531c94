import Bergshamra.Proof.TopLevel

/-!
# What the parser does with a spelled expression

The equations of `parse_xpath_bool_expr` without its fuel, one for each way it
goes on, and what it makes of the atoms.
-/

namespace Bergshamra

/-! ## The parser without fuel -/

/-- **The parser calls itself on parts of the text.** -/
theorem parseXPathBoolExpr_eq (expr : List Char) (scope : Node) :
    parseXPathBoolExpr expr scope
      = if Text.trim expr = [] then none
        else
          match parseF64Nonzero? (Text.trim expr) with
          | some nonzero => some (if nonzero then .true else .not .true)
          | none =>
              match splitTopLevel (Text.trim expr) " and ".toList with
              | some (left, right) => do
                  let l ← parseXPathBoolExpr left scope
                  let r ← parseXPathBoolExpr right scope
                  some (.and l r)
              | none =>
                  match splitTopLevel (Text.trim expr) " or ".toList with
                  | some (left, right) => do
                      let l ← parseXPathBoolExpr left scope
                      let r ← parseXPathBoolExpr right scope
                      some (.or l r)
                  | none =>
                      match stripNot (Text.trim expr) with
                      | some inner => (parseXPathBoolExpr inner scope).map .not
                      | none =>
                          match Text.stripPrefix? ['('] (Text.trim expr) with
                          | some rest =>
                              match Text.stripSuffix? [')'] rest with
                              | some inner => parseXPathBoolExpr inner scope
                              | none => parseStep scope (Text.trim expr)
                          | none => parseStep scope (Text.trim expr) := by
  have htrim := trim_length_le expr
  -- the parts are shorter, so their own fuel is as good as what is left
  have hpart : ∀ part : List Char, part.length < (Text.trim expr).length →
      parseWithFuel scope expr.length part = parseXPathBoolExpr part scope := by
    intro part hp
    exact parseWithFuel_eq scope (by omega) (by omega)
  conv_lhs => rw [parseXPathBoolExpr, parseWithFuel]
  by_cases hnil : Text.trim expr = []
  · simp only [hnil, ↓reduceIte]
  cases hf : parseF64Nonzero? (Text.trim expr) with
  | some nonzero => simp only [hnil, ↓reduceIte]
  | none =>
      cases hand : splitTopLevel (Text.trim expr) " and ".toList with
      | some parts =>
          have := splitTopLevel_length (by decide) hand
          simp only [hnil, ↓reduceIte, hpart _ this.1, hpart _ this.2]
      | none =>
          cases hor : splitTopLevel (Text.trim expr) " or ".toList with
          | some parts =>
              have := splitTopLevel_length (by decide) hor
              simp only [hnil, ↓reduceIte, hpart _ this.1, hpart _ this.2]
          | none =>
              cases hnot : stripNot (Text.trim expr) with
              | some inner =>
                  simp only [hnil, ↓reduceIte, hpart _ (stripNot_length hnot)]
              | none =>
                  cases hopen : Text.stripPrefix? ['('] (Text.trim expr) with
                  | none => simp only [hnil, ↓reduceIte]
                  | some rest =>
                      cases hclose : Text.stripSuffix? [')'] rest with
                      | none => simp only [hnil, ↓reduceIte, hclose]
                      | some inner =>
                          have h1 := stripPrefix?_length hopen
                          have h2 := stripSuffix?_length hclose
                          have hlen : inner.length < (Text.trim expr).length := by
                            rw [h1, List.length_singleton]
                            omega
                          simp only [hnil, ↓reduceIte, hclose, hpart _ hlen]

section

variable {s l r inner : List Char} {scope : Node} {x : XPathBoolExpr}

theorem parse_number (hs : Text.Solid s) {nonzero : Bool}
    (hf : parseF64Nonzero? s = some nonzero) :
    parseXPathBoolExpr s scope = some (if nonzero then .true else .not .true) := by
  rw [parseXPathBoolExpr_eq, hs.trim_eq, if_neg hs.ne_nil, hf]

theorem parse_and (hs : Text.Solid s) (hf : parseF64Nonzero? s = none)
    (hand : splitTopLevel s " and ".toList = some (l, r)) :
    parseXPathBoolExpr s scope = some x
      ↔ ∃ y z, parseXPathBoolExpr l scope = some y ∧ parseXPathBoolExpr r scope = some z
        ∧ x = .and y z := by
  rw [parseXPathBoolExpr_eq, hs.trim_eq, if_neg hs.ne_nil, hf, hand]
  simp only [Option.bind_eq_bind, Option.bind_eq_some_iff, Option.some.injEq, exists_and_left,
    eq_comm (a := x)]

theorem parse_or (hs : Text.Solid s) (hf : parseF64Nonzero? s = none)
    (hand : splitTopLevel s " and ".toList = none)
    (hor : splitTopLevel s " or ".toList = some (l, r)) :
    parseXPathBoolExpr s scope = some x
      ↔ ∃ y z, parseXPathBoolExpr l scope = some y ∧ parseXPathBoolExpr r scope = some z
        ∧ x = .or y z := by
  rw [parseXPathBoolExpr_eq, hs.trim_eq, if_neg hs.ne_nil, hf, hand, hor]
  simp only [Option.bind_eq_bind, Option.bind_eq_some_iff, Option.some.injEq, exists_and_left,
    eq_comm (a := x)]

theorem parse_not (hs : Text.Solid s) (hf : parseF64Nonzero? s = none)
    (hand : splitTopLevel s " and ".toList = none) (hor : splitTopLevel s " or ".toList = none)
    (hnot : stripNot s = some inner) :
    parseXPathBoolExpr s scope = (parseXPathBoolExpr inner scope).map .not := by
  rw [parseXPathBoolExpr_eq, hs.trim_eq, if_neg hs.ne_nil, hf, hand, hor, hnot]

theorem parse_paren (hs : Text.Solid ('(' :: inner ++ [')']))
    (hf : parseF64Nonzero? ('(' :: inner ++ [')']) = none)
    (hand : splitTopLevel ('(' :: inner ++ [')']) " and ".toList = none)
    (hor : splitTopLevel ('(' :: inner ++ [')']) " or ".toList = none)
    (hnot : stripNot ('(' :: inner ++ [')']) = none) :
    parseXPathBoolExpr ('(' :: inner ++ [')']) scope = parseXPathBoolExpr inner scope := by
  have hopen : Text.stripPrefix? ['('] ('(' :: inner ++ [')']) = some (inner ++ [')']) :=
    Text.stripPrefix?_append ['('] (inner ++ [')'])
  rw [parseXPathBoolExpr_eq, hs.trim_eq, if_neg hs.ne_nil, hf, hand, hor, hnot, hopen]
  dsimp only
  rw [Text.stripSuffix?_append]

theorem parse_step (hs : Text.Solid s) (hf : parseF64Nonzero? s = none)
    (hand : splitTopLevel s " and ".toList = none) (hor : splitTopLevel s " or ".toList = none)
    (hnot : stripNot s = none)
    (hparen : (Text.stripPrefix? ['('] s).bind (Text.stripSuffix? [')']) = none) :
    parseXPathBoolExpr s scope = parseStep scope s := by
  rw [parseXPathBoolExpr_eq, hs.trim_eq, if_neg hs.ne_nil, hf, hand, hor, hnot]
  cases hp : Text.stripPrefix? ['('] s with
  | none => rfl
  | some rest =>
      rw [hp, Option.bind_some] at hparen
      dsimp only
      rw [hparen]

/-- White space around a text does not matter. -/
theorem parse_padded {w w' : List Char} (hw : Text.IsBlank w) (hs : Text.Solid s)
    (hw' : Text.IsBlank w') :
    parseXPathBoolExpr (w ++ s ++ w') scope = parseXPathBoolExpr s scope := by
  rw [parseXPathBoolExpr_eq, parseXPathBoolExpr_eq s, Text.trim_padded hw hs hw', hs.trim_eq]

end

/-! ## Numbers -/

/-- The characters that a number may be written with. -/
def isNumberChar (c : Char) : Bool :=
  c.isDigit || c.isAlpha || c == '.' || c == '+' || c == '-'

theorem isNumberChar_of_toLower {c : Char} (h : c.toLower.isAlpha = true) :
    isNumberChar c = true := by
  by_cases hu : c.isUpper = true
  · have halpha : c.isAlpha = (c.isUpper || c.isLower) := rfl
    simp [isNumberChar, halpha, hu]
  · have hsame : c.toLower = c := by
      unfold Char.toLower
      rw [dif_neg]
      exact fun h => hu (decide_eq_true h)
    rw [hsame] at h
    simp [isNumberChar, h]

theorem isNumberChar_of_digit {c : Char} (h : c.isDigit = true) : isNumberChar c = true := by
  simp [isNumberChar, h]

/-- A number without its sign. -/
def dropSign (s : List Char) : List Char :=
  match s with
  | '+' :: rest => rest
  | '-' :: rest => rest
  | _ => s

/-- The part of `parse::<f64>()` after the exponent's letter. -/
def exponentNonzero? (mantissa : Nat) (places : Nat) (rest : List Char) : Option Bool :=
  let (sign, rest) : Int × List Char :=
    match rest with
    | '+' :: rest => (1, rest)
    | '-' :: rest => (-1, rest)
    | _ => (1, rest)
  if rest = [] ∨ !rest.all Char.isDigit then none
  else some (roundsToNonzero mantissa (sign * natOfDigits rest - places))

/-- The part of `parse::<f64>()` after the digits. -/
def scaledNonzero? (whole fraction rest : List Char) : Option Bool :=
  if whole ++ fraction = [] then none
  else
    match rest with
    | [] => some (roundsToNonzero (natOfDigits (whole ++ fraction)) (-fraction.length))
    | e :: rest =>
        if e ≠ 'e' ∧ e ≠ 'E' then none
        else exponentNonzero? (natOfDigits (whole ++ fraction)) fraction.length rest

/-- The digits after a point, if there is one. -/
def fractionDigits (rest : List Char) : List Char × List Char :=
  match rest with
  | '.' :: rest => digits rest
  | _ => ([], rest)

theorem parseF64Nonzero?_eq (s : List Char) :
    parseF64Nonzero? s
      = if (dropSign s).map Char.toLower = "inf".toList
            ∨ (dropSign s).map Char.toLower = "infinity".toList
            ∨ (dropSign s).map Char.toLower = "nan".toList then some true
        else
          scaledNonzero? (digits (dropSign s)).1 (fractionDigits (digits (dropSign s)).2).1
            (fractionDigits (digits (dropSign s)).2).2 := rfl

theorem mem_dropSign {s : List Char} {c : Char} (hc : c ∈ s) :
    isNumberChar c = true ∨ c ∈ dropSign s := by
  unfold dropSign
  split
  · rcases List.mem_cons.mp hc with rfl | hc
    · exact Or.inl (by decide)
    · exact Or.inr hc
  · rcases List.mem_cons.mp hc with rfl | hc
    · exact Or.inl (by decide)
    · exact Or.inr hc
  · exact Or.inr hc

theorem mem_digits {s : List Char} {c : Char} (hc : c ∈ s) :
    isNumberChar c = true ∨ c ∈ (digits s).2 := by
  have hsplit : (digits s).1 ++ (digits s).2 = s := List.takeWhile_append_dropWhile
  rw [← hsplit] at hc
  rcases List.mem_append.mp hc with hc | hc
  · exact Or.inl (isNumberChar_of_digit (List.all_eq_true.mp List.all_takeWhile c hc))
  · exact Or.inr hc

theorem mem_fractionDigits {s : List Char} {c : Char} (hc : c ∈ s) :
    isNumberChar c = true ∨ c ∈ (fractionDigits s).2 := by
  unfold fractionDigits
  split
  · rcases List.mem_cons.mp hc with rfl | hc
    · exact Or.inl (by decide)
    · exact mem_digits hc
  · exact Or.inr hc

theorem scaledNonzero?_chars {whole fraction rest : List Char} {b : Bool}
    (h : scaledNonzero? whole fraction rest = some b) {c : Char} (hc : c ∈ rest) :
    isNumberChar c = true := by
  unfold scaledNonzero? at h
  split at h
  · cases h
  split at h
  · cases hc
  rename_i e rest
  split at h
  · cases h
  rename_i he
  rcases List.mem_cons.mp hc with rfl | hc
  · by_cases hlow : c = 'e'
    · rw [hlow]
      decide
    · have hup : c = 'E' := by
        by_contra hup
        exact he ⟨hlow, hup⟩
      rw [hup]
      decide
  · -- the sign of the exponent, then digits to the end
    have hdigits : ∀ {t : List Char}, ¬ (t = [] ∨ (!t.all Char.isDigit) = true) → c ∈ t →
        isNumberChar c = true := by
      intro t ht hct
      rw [not_or] at ht
      have hall : t.all Char.isDigit = true := by simpa using ht.2
      exact isNumberChar_of_digit (List.all_eq_true.mp hall c hct)
    unfold exponentNonzero? at h
    split at h
    rename_i sign t hpair
    split at h
    · cases h
    rename_i hvalid
    split at hpair
    · obtain ⟨-, rfl⟩ := Prod.mk.inj hpair
      rcases List.mem_cons.mp hc with rfl | hc
      · decide
      · exact hdigits hvalid hc
    · obtain ⟨-, rfl⟩ := Prod.mk.inj hpair
      rcases List.mem_cons.mp hc with rfl | hc
      · decide
      · exact hdigits hvalid hc
    · obtain ⟨-, rfl⟩ := Prod.mk.inj hpair
      exact hdigits hvalid hc

/-- What reads as a number has no other characters. -/
theorem parseF64Nonzero?_chars {s : List Char} {b : Bool} (h : parseF64Nonzero? s = some b)
    {c : Char} (hc : c ∈ s) : isNumberChar c = true := by
  rw [parseF64Nonzero?_eq] at h
  rcases mem_dropSign hc with hc | hc
  · exact hc
  split at h
  · rename_i hword
    have hlower : c.toLower ∈ (dropSign s).map Char.toLower := List.mem_map_of_mem hc
    have halpha : ∀ word : List Char, word.all Char.isAlpha = true → c.toLower ∈ word →
        isNumberChar c = true := fun word hall hmem =>
      isNumberChar_of_toLower (List.all_eq_true.mp hall _ hmem)
    rcases hword with hword | hword | hword
    · exact halpha "inf".toList (by decide) (hword ▸ hlower)
    · exact halpha "infinity".toList (by decide) (hword ▸ hlower)
    · exact halpha "nan".toList (by decide) (hword ▸ hlower)
  · rcases mem_digits hc with hc | hc
    · exact hc
    rcases mem_fractionDigits hc with hc | hc
    · exact hc
    · exact scaledNonzero?_chars h hc

theorem parseF64Nonzero?_eq_none {s : List Char} {c : Char} (hc : c ∈ s)
    (hn : isNumberChar c = false) : parseF64Nonzero? s = none := by
  cases h : parseF64Nonzero? s with
  | none => rfl
  | some b =>
      have := parseF64Nonzero?_chars h hc
      rw [hn] at this
      cases this

theorem digits_append {w rest : List Char} (hw : ∀ c ∈ w, c.isDigit = true)
    (hrest : ∀ c ∈ rest.head?, c.isDigit = false) : digits (w ++ rest) = (w, rest) := by
  have htake : rest.takeWhile Char.isDigit = [] ∧ rest.dropWhile Char.isDigit = rest := by
    cases rest with
    | nil => exact ⟨rfl, rfl⟩
    | cons c rest =>
        have hc : c.isDigit = false := hrest c rfl
        exact ⟨List.takeWhile_cons_of_neg (by simp [hc]),
          List.dropWhile_cons_of_neg (by simp [hc])⟩
  rw [digits, List.takeWhile_append_of_pos hw, List.dropWhile_append_of_pos hw, htake.1, htake.2,
    List.append_nil]

theorem dropSign_of_ne {c : Char} (h : '+' ≠ c) (h' : '-' ≠ c) (s : List Char) :
    dropSign (c :: s) = c :: s := by
  unfold dropSign
  split
  · rename_i heq
    exact absurd (List.cons.inj heq).1.symm h
  · rename_i heq
    exact absurd (List.cons.inj heq).1.symm h'
  · rfl

/-- What a number begins with is not a letter, nor is it in lower case. -/
theorem toLower_not_alpha {c : Char} (hc : c.isDigit = true ∨ c = '.') :
    c.toLower.isAlpha = false := by
  rcases hc with hc | rfl
  · simp only [Char.isDigit, Bool.and_eq_true, decide_eq_true_eq, UInt32.le_iff_toNat_le,
      ge_iff_le] at hc
    have hA : 'A'.val.toNat = 65 := rfl
    have ha : 'a'.val.toNat = 97 := rfl
    have h9 : '9'.val.toNat = 57 := rfl
    have hsame : c.toLower = c := by
      unfold Char.toLower
      rw [dif_neg]
      rw [ge_iff_le, UInt32.le_iff_toNat_le, UInt32.le_iff_toNat_le]
      omega
    have halpha : c.isAlpha = (decide (c.val ≥ 'A'.val ∧ c.val ≤ 'Z'.val)
        || (decide (c.val ≥ 'a'.val) && decide (c.val ≤ 'z'.val))) := rfl
    rw [hsame, halpha]
    simp only [ge_iff_le, UInt32.le_iff_toNat_le, Bool.or_eq_false_iff, Bool.and_eq_false_iff,
      decide_eq_false_iff_not]
    omega
  · decide

namespace XPath

/-- A number begins with a digit or with the point. -/
theorem Number.exists_head (v : Number) :
    ∃ c t, v.text = c :: t ∧ (c.isDigit = true ∨ c = '.') := by
  unfold Number.text
  cases hw : v.whole with
  | cons c w =>
      have hc : c.isDigit = true := v.digits c (by rw [hw]; simp)
      cases v.fraction with
      | none => exact ⟨c, w, rfl, Or.inl hc⟩
      | some f => exact ⟨c, w ++ '.' :: f, rfl, Or.inl hc⟩
  | nil =>
      cases hf : v.fraction with
      | none => exact absurd (by rw [hw, hf]; rfl) v.ne_nil
      | some f => exact ⟨'.', f, rfl, Or.inr rfl⟩

/-- **The parser reads a number as XPath does.** -/
theorem Number.parseF64Nonzero?_text (v : Number) : parseF64Nonzero? v.text = some v.truth := by
  obtain ⟨c, t, htext, hc⟩ := v.exists_head
  -- a number begins with a digit or a point, so it has no sign and is none of the words
  have hsign : dropSign v.text = v.text := by
    rw [htext]
    refine dropSign_of_ne ?_ ?_ t
    · rintro rfl
      rcases hc with hc | hc
      · revert hc; decide
      · revert hc; decide
    · rintro rfl
      rcases hc with hc | hc
      · revert hc; decide
      · revert hc; decide
  have hword : ∀ {d : Char} {word : List Char}, d.isAlpha = true →
      v.text.map Char.toLower ≠ d :: word := by
    intro d word hd heq
    rw [htext, List.map_cons] at heq
    rw [← (List.cons.inj heq).1, toLower_not_alpha hc] at hd
    cases hd
  have hnone : ¬ (v.text.map Char.toLower = "inf".toList
      ∨ v.text.map Char.toLower = "infinity".toList ∨ v.text.map Char.toLower = "nan".toList) := by
    rw [not_or, not_or]
    exact ⟨hword (d := 'i') (by decide), hword (d := 'i') (by decide), hword (d := 'n') (by decide)⟩
  rw [parseF64Nonzero?_eq, hsign, if_neg hnone]
  have hdigits := v.digits
  have hne := v.ne_nil
  have hend : ∀ c ∈ ([] : List Char).head?, c.isDigit = false := by
    intro c hc
    cases hc
  unfold Number.text Number.truth
  cases hf : v.fraction with
  | none =>
      rw [hf, Option.getD_none, List.append_nil] at hdigits hne
      have hwhole := digits_append hdigits hend
      have hnil : fractionDigits [] = ([], []) := rfl
      rw [List.append_nil] at hwhole
      dsimp only
      rw [hwhole, hnil, Option.getD_none, List.append_nil, scaledNonzero?.eq_def]
      dsimp only
      rw [List.append_nil, if_neg hne]
  | some f =>
      rw [hf, Option.getD_some] at hdigits hne
      have hpoint : ∀ c ∈ ('.' :: f).head?, c.isDigit = false := by
        intro c hc
        cases hc
        decide
      have hwhole := digits_append (fun c hc => hdigits c (List.mem_append_left _ hc)) hpoint
      have hfraction := digits_append (fun c hc => hdigits c (List.mem_append_right _ hc)) hend
      have hdot : fractionDigits ('.' :: f) = Bergshamra.digits f := rfl
      rw [List.append_nil] at hfraction
      dsimp only
      rw [hwhole, hdot, hfraction, Option.getD_some, scaledNonzero?.eq_def]
      dsimp only
      rw [if_neg hne]

end XPath

end Bergshamra
