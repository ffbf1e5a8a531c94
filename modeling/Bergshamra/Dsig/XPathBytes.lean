import Bergshamra.Lib.Bytes
import Bergshamra.Keys.X509
import Bergshamra.Dsig.XPathFilter

/-!
# The XPath transform, cut by cut

The pattern matchers and the parser of the XPath transform take their expression
apart at byte positions. Here they are with every cut they make, where a cut that
is out of order, past an end or inside a character is a panic. The definitions
elsewhere work on the parts: each function here is shown to be the one there.
-/

namespace Bergshamra

namespace Bytes

/-- The loop of `split_top_level`, at byte `i` of the expression, with the bytes from there. -/
def splitTopLevelFrom (expr sep : List Char) (depth : Int) (i : Nat) :
    List UInt8 → Except Error (Option (List Char × List Char))
  | [] => .ok none
  | b :: bytes =>
      let depth := if b = '('.val.toUInt8 then depth + 1 else depth
      let depth := if b = ')'.val.toUInt8 then depth - 1 else depth
      if depth = 0 ∧ i + Text.byteLength sep ≤ Text.byteLength expr
          ∧ (b :: bytes).take (Text.byteLength sep) = Text.bytes sep then do
        let left ← byteSlice expr 0 i
        let right ← byteSlice expr (i + Text.byteLength sep) (Text.byteLength expr)
        if Text.trim left ≠ [] ∧ Text.trim right ≠ [] then
          .ok (some (Text.trim left, Text.trim right))
        else splitTopLevelFrom expr sep depth (i + 1) bytes
      else splitTopLevelFrom expr sep depth (i + 1) bytes

/-- `split_top_level`. -/
def splitTopLevel (expr sep : List Char) : Except Error (Option (List Char × List Char)) :=
  splitTopLevelFrom expr sep 0 0 (Text.bytes expr)

/-- `strip_not`. -/
def stripNot (expr : List Char) : Except Error (Option (List Char)) :=
  let expr := Text.trim expr
  let prefixLen? :=
    if Text.startsWith "not(".toList expr then some 4
    else if Text.startsWith "not (".toList expr then some 5
    else none
  match prefixLen? with
  | none => .ok none
  | some prefixLen =>
      if !Text.endsWith [')'] expr then .ok none
      else do
        let inner ← byteSlice expr prefixLen (Text.byteLength expr - 1)
        .ok (if balancedFrom 0 inner then some (Text.trim inner) else none)

/-- `parse_xpath_bool_expr`, at most `fuel` calls deep. -/
def parseWithFuel (xpathNode : Node) : Nat → List Char → Except Error (Option XPathBoolExpr)
  | 0, _ => .ok none
  | fuel + 1, expr =>
      let expr := Text.trim expr
      if expr = [] then .ok none
      else
        match parseF64Nonzero? expr with
        | some nonzero => .ok (some (if nonzero then .true else .not .true))
        | none => do
            match ← splitTopLevel expr " and ".toList with
            | some (left, right) =>
                match ← parseWithFuel xpathNode fuel left with
                | none => .ok none
                | some l => .ok ((← parseWithFuel xpathNode fuel right).map (.and l))
            | none =>
                match ← splitTopLevel expr " or ".toList with
                | some (left, right) =>
                    match ← parseWithFuel xpathNode fuel left with
                    | none => .ok none
                    | some l => .ok ((← parseWithFuel xpathNode fuel right).map (.or l))
                | none =>
                    match ← stripNot expr with
                    | some inner => .ok ((← parseWithFuel xpathNode fuel inner).map .not)
                    | none =>
                        if Text.startsWith ['('] expr && Text.endsWith [')'] expr then do
                          let inner ← byteSlice expr 1 (Text.byteLength expr - 1)
                          parseWithFuel xpathNode fuel inner
                        else .ok (parseStep xpathNode expr)

/-- `parse_xpath_bool_expr`. -/
def parseXPathBoolExpr (expr : List Char) (xpathNode : Node) : Except Error (Option XPathBoolExpr) :=
  parseWithFuel xpathNode (expr.length + 1) expr

/-- `is_enveloped_xpath`. -/
def isEnvelopedXPath (expr : List Char) (xpathNode : Node) : Except Error Bool :=
  let expr := Text.trim expr
  let front := "not(ancestor-or-self::".toList
  let back := ":Signature)".toList
  if !Text.startsWith front expr || !Text.endsWith back expr then .ok false
  else do
    let inner ← byteSlice expr (Text.byteLength front) (Text.byteLength expr - Text.byteLength back)
    .ok (declaresDsig xpathNode inner)

/-- `is_enveloped_xpath_here`. -/
def isEnvelopedXPathHere (expr : List Char) (xpathNode : Node) : Except Error Bool :=
  let norm := Text.normalizeSpace expr
  let front := "count(ancestor-or-self::".toList
  let marker := ":Signature | here()/ancestor::".toList
  if !Text.startsWith front norm then .ok false
  else do
    let rest ← byteSlice norm (Text.byteLength front) (Text.byteLength norm)
    match Text.find? marker rest with
    | none => .ok false
    | some pos =>
        let pfx ← byteSlice rest 0 pos
        let after ← byteSlice rest (pos + Text.byteLength marker) (Text.byteLength rest)
        if after = pfx ++ ":Signature[1]) > count(ancestor-or-self::".toList ++ pfx
            ++ ":Signature)".toList then
          .ok (declaresDsig xpathNode pfx)
        else .ok false

/-- `parse_here_exclude_pattern`. -/
def parseHereExcludePattern (expr : List Char) (xpathNode : Node) :
    Except Error (Option (String × String)) :=
  let front := "count(ancestor-or-self::".toList
  let marker := " | here()/ancestor::".toList
  if !Text.startsWith front expr then .ok none
  else do
    let rest ← byteSlice expr (Text.byteLength front) (Text.byteLength expr)
    match Text.find? marker rest with
    | none => .ok none
    | some pos =>
        let name ← byteSlice rest 0 pos
        let after ← byteSlice rest (pos + Text.byteLength marker) (Text.byteLength rest)
        if after = name ++ "[1]) > count(ancestor-or-self::".toList ++ name ++ [')'] then
          .ok (resolvePrefixedName name xpathNode)
        else .ok none

/-- The part of `try_compound_xpath_filter` that matches the expression. -/
def parseCompound (expr : List Char) (xpathNode : Node) : Except Error (Option CompoundFilter) :=
  let orMarker := " or count(ancestor-or-self::node() | id(".toList ++ [apostrophe]
  let idSuffix := apostrophe :: ")) = count(ancestor-or-self::node())".toList
  let ancestorPrefix := "ancestor-or-self::".toList
  match Text.find? orMarker expr with
  | none => .ok none
  | some orPos => do
      let leftPart ← byteSlice expr 0 orPos
      let rightPart ← byteSlice expr (orPos + Text.byteLength orMarker) (Text.byteLength expr)
      if !Text.endsWith idSuffix rightPart then .ok none
      else
        let idValue ←
          byteSlice rightPart 0 (Text.byteLength rightPart - Text.byteLength idSuffix)
        match Text.splitOnce " and ".toList leftPart with
        | none => .ok none
        | some (a, b) =>
            let partA := Text.trim a
            if !Text.startsWith ancestorPrefix partA then .ok none
            else
              let aName ← byteSlice partA (Text.byteLength ancestorPrefix) (Text.byteLength partA)
              match resolvePrefixedName aName xpathNode with
              | none => .ok none
              | some a =>
                  .ok ((← parseHereExcludePattern (Text.trim b) xpathNode).map
                    (fun b => ⟨a, b, String.ofList idValue⟩))

/-- The choice `apply_xpath_transform` makes. -/
def classifyXPath (expr : List Char) (xpathNode : Node) : Except Error XPathFilter := do
  if ← isEnvelopedXPath expr xpathNode then .ok .enveloped
  else if ← isEnvelopedXPathHere expr xpathNode then .ok .enveloped
  else
    match ← parseXPathBoolExpr expr xpathNode with
    | some parsed => .ok (.parsed parsed)
    | none =>
        match ← parseCompound expr xpathNode with
        | some c => .ok (.compound c)
        | none => .error (.unsupportedAlgorithm
            ("XPath expression not supported: " ++ String.ofList expr))

/-- `apply_xpath_transform`. -/
def applyXPathTransform (lib : TransformLibs) (data : TransformData) (transformNode : Node)
    (sigNode : NodeId) : Except Error TransformData :=
  match xpathChild? transformNode with
  | none => .error (.missingElement "XPath expression element")
  | some xpathNode => do
      let filter ← classifyXPath (xpathExprOf xpathNode) xpathNode
      applyXPathFilter lib data filter xpathNode sigNode

/-! ## The cuts are at the parts -/

theorem byteSlice_of_slice? {s t : List Char} {start stop : Nat}
    (h : Text.slice? s start stop = some t) : byteSlice s start stop = .ok t := by
  unfold Text.slice? at h
  split at h
  · simp at h
  · rename_i hle
    obtain ⟨p, hp, hmap⟩ := Option.bind_eq_some_iff.mp h
    rw [Option.map_eq_some_iff] at hmap
    obtain ⟨q, hq, rfl⟩ := hmap
    unfold byteSlice
    rw [hp]
    dsimp only
    rw [hq]
    exact if_pos (by omega)

/-- Where the end comes before the start there is a panic. -/
theorem byteSlice_of_lt {s : List Char} {start stop : Nat} (h : stop < start) :
    byteSlice s start stop = .error .panics := by
  unfold byteSlice
  split
  · rfl
  · split
    · exact if_neg (by omega)
    · rfl

theorem byteSlice_stripPrefix {pat s rest : List Char} (h : Text.stripPrefix? pat s = some rest) :
    byteSlice s (Text.byteLength pat) (Text.byteLength s) = .ok rest := by
  rw [Text.stripPrefix?_eq_some.mp h]
  exact byteSlice_of_slice? (Text.slice?_after pat rest)

theorem byteSlice_before {s before marker after : List Char} (h : s = before ++ marker ++ after) :
    byteSlice s 0 (Text.byteLength before) = .ok before := by
  rw [h, List.append_assoc]
  exact byteSlice_of_slice? (Text.slice?_before _ _)

theorem byteSlice_after {s before marker after : List Char} (h : s = before ++ marker ++ after) :
    byteSlice s (Text.byteLength before + Text.byteLength marker) (Text.byteLength s)
      = .ok after := by
  rw [h, ← Text.byteLength_append]
  exact byteSlice_of_slice? (Text.slice?_after _ _)

theorem stripSuffix?_eq_some {pat s before : List Char} :
    Text.stripSuffix? pat s = some before ↔ s = before ++ pat := by
  rw [Text.stripSuffix?, Option.map_eq_some_iff]
  constructor
  · rintro ⟨r, hr, rfl⟩
    have h := congrArg List.reverse (Text.stripPrefix?_eq_some.mp hr)
    rwa [List.reverse_reverse, List.reverse_append, List.reverse_reverse] at h
  · rintro rfl
    refine ⟨before.reverse, ?_, List.reverse_reverse _⟩
    rw [Text.stripPrefix?_eq_some, List.reverse_append]

theorem byteSlice_stripSuffix {pat s before : List Char}
    (h : Text.stripSuffix? pat s = some before) :
    byteSlice s 0 (Text.byteLength s - Text.byteLength pat) = .ok before := by
  rw [stripSuffix?_eq_some.mp h, Text.byteLength_append, Nat.add_sub_cancel]
  exact byteSlice_of_slice? (Text.slice?_before _ _)

/-- A character cut off the end comes from the last part, if the part before ends otherwise. -/
theorem stripSuffix?_append_left {d : Char} {front rest : List Char}
    (h : Text.stripSuffix? [d] front = none) :
    Text.stripSuffix? [d] (front ++ rest)
      = (Text.stripSuffix? [d] rest).map (fun inner => front ++ inner) := by
  rcases List.eq_nil_or_concat' rest with rfl | ⟨inner, x, rfl⟩
  · rw [List.append_nil, h]
    rfl
  · by_cases hx : x = d
    · subst hx
      rw [← List.append_assoc, stripSuffix?_eq_some.mpr rfl, stripSuffix?_eq_some.mpr rfl]
      rfl
    · have hnone : ∀ l : List Char, Text.stripSuffix? [d] (l ++ [x]) = none := by
        intro l
        rw [Option.eq_none_iff_forall_ne_some]
        intro b hb
        have := List.append_inj_right' (stripSuffix?_eq_some.mp hb) rfl
        exact hx (List.cons.inj this).1
      rw [← List.append_assoc, hnone, hnone]
      rfl

/-! ## The loop over bytes -/

section

variable {expr sep : List Char}

/-- The bytes of a character that is not ASCII are passed over. -/
theorem splitTopLevelFrom_high (hsep : ∃ p pat, sep = p :: pat ∧ p.toNat < 0x80) {depth : Int}
    {high : List UInt8} (hhigh : ∀ b ∈ high, 0x80 ≤ b.toNat) (i : Nat) (bytes : List UInt8) :
    splitTopLevelFrom expr sep depth i (high ++ bytes)
      = splitTopLevelFrom expr sep depth (i + high.length) bytes := by
  induction high generalizing i with
  | nil => rfl
  | cons b high ih =>
      have hb : 0x80 ≤ b.toNat := hhigh b List.mem_cons_self
      have hne : ∀ c : Char, c.toNat < 0x80 → b ≠ c.val.toUInt8 := by
        intro c hc he
        rw [he, UInt32.toNat_toUInt8] at hb
        have hc' : c.val.toNat < 0x80 := hc
        omega
      have hsepne : ¬ ((b :: (high ++ bytes)).take (Text.byteLength sep) = Text.bytes sep) := by
        obtain ⟨p, pat, rfl, hp⟩ := hsep
        rw [Text.byteLength, Text.bytes_cons, Text.utf8EncodeChar_ascii hp]
        intro he
        simp only [List.singleton_append, List.length_cons, List.take_succ_cons,
          List.cons.injEq] at he
        exact hne p hp he.1
      rw [List.cons_append, splitTopLevelFrom, if_neg (hne '(' (by decide)),
        if_neg (hne ')' (by decide)), if_neg (fun h => hsepne h.2.2),
        ih (fun b hb => hhigh b (List.mem_cons_of_mem _ hb)), List.length_cons]
      congr 1
      omega

/-- **Over the bytes as over the characters**: at the first byte of a character the loop is the
loop there. -/
theorem splitTopLevelFrom_bytes (hsep : sep ≠ []) (hascii : ∀ c ∈ sep, c.toNat < 0x80)
    {depth : Int} {before s : List Char} (hexpr : expr = before.reverse ++ s) :
    splitTopLevelFrom expr sep depth (Text.byteLength before.reverse) (Text.bytes s)
      = .ok (Bergshamra.splitTopLevelFrom sep depth before s) := by
  induction s generalizing depth before with
  | nil => rfl
  | cons c s ih =>
      have hexpr' : expr = (c :: before).reverse ++ s := by
        rw [hexpr, List.reverse_cons, List.append_assoc]
        rfl
      have hpos : Text.byteLength (c :: before).reverse
          = Text.byteLength before.reverse + c.utf8Size := by
        rw [List.reverse_cons, Text.byteLength_append, Text.byteLength_cons, Text.byteLength_nil,
          Nat.add_zero]
      rw [Bergshamra.splitTopLevelFrom, Text.bytes_cons]
      -- a character of several bytes is passed over byte by byte
      by_cases hc : c.toNat < 0x80
      · have hone : c.utf8Size = 1 := by
          rw [← String.length_utf8EncodeChar, Text.utf8EncodeChar_ascii hc]
          rfl
        have hdepth : (if c.val.toUInt8 = ')'.val.toUInt8
            then (if c.val.toUInt8 = '('.val.toUInt8 then depth + 1 else depth) - 1
            else if c.val.toUInt8 = '('.val.toUInt8 then depth + 1 else depth)
            = parenDepth depth c := by
          simp only [Text.byte_eq_iff hc (show '('.toNat < 0x80 by decide),
            Text.byte_eq_iff hc (show ')'.toNat < 0x80 by decide)]
          unfold parenDepth
          by_cases ho : c = '('
          · subst ho
            simp
          · by_cases hcl : c = ')' <;> simp [ho, hcl]
        have hmarker : (c.val.toUInt8 :: Text.bytes s).take (Text.byteLength sep) = Text.bytes sep
            ↔ (Text.stripPrefix? sep (c :: s)).isSome = true := by
          rw [← Text.bytes_prefix_iff hascii, List.prefix_iff_eq_take, Text.bytes_cons,
            Text.utf8EncodeChar_ascii hc, Text.byteLength]
          exact eq_comm
        rw [Text.utf8EncodeChar_ascii hc, List.singleton_append, splitTopLevelFrom, hdepth]
        simp only [hmarker]
        have hnext : splitTopLevelFrom expr sep (parenDepth depth c)
            (Text.byteLength (c :: before).reverse) (Text.bytes s)
            = .ok (Bergshamra.splitTopLevelFrom sep (parenDepth depth c) (c :: before) s) :=
          ih hexpr'
        rw [hpos, hone] at hnext
        cases hs : Text.stripPrefix? sep (c :: s) with
        | none =>
            rw [if_neg (by simp), hnext]
        | some right =>
            have hcut : expr = before.reverse ++ sep ++ right := by
              rw [hexpr, Text.stripPrefix?_eq_some.mp hs, List.append_assoc]
            have hle : Text.byteLength before.reverse + Text.byteLength sep
                ≤ Text.byteLength expr := by
              rw [hcut, Text.byteLength_append, Text.byteLength_append]
              omega
            -- both cuts are at character boundaries
            rw [byteSlice_before hcut, byteSlice_after hcut]
            by_cases hd : parenDepth depth c = 0
            · rw [if_pos ⟨hd, hle, rfl⟩]
              simp only [bind, Except.bind, hd, true_and]
              rw [hd] at hnext
              split
              · rfl
              · rw [hnext]
            · rw [if_neg (fun h => hd h.1)]
              dsimp only
              rw [if_neg (fun h => hd h.1), hnext]
      · have hopen : '(' ≠ c := by
          rintro rfl
          exact hc (by decide)
        have hclose : ')' ≠ c := by
          rintro rfl
          exact hc (by decide)
        have hdepth : parenDepth depth c = depth := by
          rw [parenDepth, if_neg hopen.symm, if_neg hclose.symm]
        have hhead : ∃ p pat, sep = p :: pat ∧ p.toNat < 0x80 := by
          obtain ⟨p, pat, rfl⟩ := List.exists_cons_of_ne_nil hsep
          exact ⟨p, pat, rfl, hascii p List.mem_cons_self⟩
        have hnone : Text.stripPrefix? sep (c :: s) = none := by
          obtain ⟨p, pat, rfl, hp⟩ := hhead
          have hne : ¬ p = c := fun h => hc (h ▸ hp)
          rw [Text.stripPrefix?, if_neg hne]
        rw [splitTopLevelFrom_high hhead (Text.utf8EncodeChar_high (Nat.le_of_not_lt hc)),
          String.length_utf8EncodeChar, ← hpos, ih hexpr', hnone, hdepth]

theorem splitTopLevel_eq (hsep : sep ≠ []) (hascii : ∀ c ∈ sep, c.toNat < 0x80) :
    splitTopLevel expr sep = .ok (Bergshamra.splitTopLevel expr sep) := by
  have hexpr : expr = ([] : List Char).reverse ++ expr := rfl
  exact splitTopLevelFrom_bytes hsep hascii hexpr

end

/-! ## The parser -/

/-- What is between a beginning that does not end in `)` and a `)` at the end. -/
theorem byteSlice_between {expr front rest : List Char}
    (hfront : Text.stripSuffix? [')'] front = none)
    (hexpr : Text.stripPrefix? front expr = some rest) :
    (Text.endsWith [')'] expr = (Text.stripSuffix? [')'] rest).isSome)
      ∧ ∀ inner, Text.stripSuffix? [')'] rest = some inner →
        byteSlice expr (Text.byteLength front) (Text.byteLength expr - 1) = .ok inner := by
  rw [Text.stripPrefix?_eq_some] at hexpr
  subst hexpr
  refine ⟨?_, ?_⟩
  · rw [Text.endsWith, stripSuffix?_append_left hfront, Option.isSome_map]
  · intro inner hinner
    have hlen : Text.byteLength [')'] = 1 := by decide
    rw [stripSuffix?_eq_some.mp hinner, ← hlen]
    exact byteSlice_of_slice? (Text.slice?_dropEnd _ _ _)

theorem stripNot_eq (expr : List Char) : stripNot expr = .ok (Bergshamra.stripNot expr) := by
  have hopen : ∀ front : List Char, front.getLast? = some '(' →
      Text.stripSuffix? [')'] front = none := by
    intro front hf
    rw [Option.eq_none_iff_forall_ne_some]
    intro b hb
    rw [stripSuffix?_eq_some.mp hb, List.getLast?_append] at hf
    simp at hf
  -- one beginning, of a length that is given
  have hcut : ∀ (front rest : List Char) (n : Nat), front.getLast? = some '(' →
      Text.byteLength front = n → Text.stripPrefix? front (Text.trim expr) = some rest →
      (if !Text.endsWith [')'] (Text.trim expr) then .ok none
        else do
          let inner ← byteSlice (Text.trim expr) n (Text.byteLength (Text.trim expr) - 1)
          .ok (if balancedFrom 0 inner then some (Text.trim inner) else none))
        = (.ok (match Text.stripSuffix? [')'] rest with
            | some inner => if balancedFrom 0 inner then some (Text.trim inner) else none
            | none => none) : Except Error (Option (List Char))) := by
    intro front rest n hlast hn hs
    obtain ⟨hends, hslice⟩ := byteSlice_between (hopen front hlast) hs
    rw [hends]
    cases hr : Text.stripSuffix? [')'] rest with
    | none => rfl
    | some inner =>
        rw [← hn, hslice inner hr]
        rfl
  unfold stripNot Bergshamra.stripNot Text.startsWith
  dsimp only
  cases h4 : Text.stripPrefix? "not(".toList (Text.trim expr) with
  | some rest => exact hcut _ rest 4 (by decide) (by decide) h4
  | none =>
      cases h5 : Text.stripPrefix? "not (".toList (Text.trim expr) with
      | some rest => exact hcut _ rest 5 (by decide) (by decide) h5
      | none => rfl

theorem ascii_and : ∀ c ∈ " and ".toList, c.toNat < 0x80 := by simp

theorem ascii_or : ∀ c ∈ " or ".toList, c.toNat < 0x80 := by simp

/-- **The parser makes no wrong cut.** -/
theorem parseWithFuel_eq (xpathNode : Node) (fuel : Nat) (expr : List Char) :
    parseWithFuel xpathNode fuel expr = .ok (Bergshamra.parseWithFuel xpathNode fuel expr) := by
  induction fuel generalizing expr with
  | zero => rfl
  | succ fuel ih =>
      have hand : splitTopLevel (Text.trim expr) " and ".toList
          = .ok (Bergshamra.splitTopLevel (Text.trim expr) " and ".toList) :=
        splitTopLevel_eq (by decide) ascii_and
      have hor : splitTopLevel (Text.trim expr) " or ".toList
          = .ok (Bergshamra.splitTopLevel (Text.trim expr) " or ".toList) :=
        splitTopLevel_eq (by decide) ascii_or
      rw [parseWithFuel, Bergshamra.parseWithFuel]
      by_cases hempty : Text.trim expr = []
      · rw [if_pos hempty, if_pos hempty]
      rw [if_neg hempty, if_neg hempty]
      cases parseF64Nonzero? (Text.trim expr) with
      | some nonzero => rfl
      | none =>
          simp only [hand, hor, stripNot_eq, ih, bind, Except.bind]
          cases Bergshamra.splitTopLevel (Text.trim expr) " and ".toList with
          | some parts =>
              obtain ⟨left, right⟩ := parts
              dsimp only
              cases Bergshamra.parseWithFuel xpathNode fuel left <;>
                cases Bergshamra.parseWithFuel xpathNode fuel right <;> rfl
          | none =>
              cases Bergshamra.splitTopLevel (Text.trim expr) " or ".toList with
              | some parts =>
                  obtain ⟨left, right⟩ := parts
                  dsimp only
                  cases Bergshamra.parseWithFuel xpathNode fuel left <;>
                    cases Bergshamra.parseWithFuel xpathNode fuel right <;> rfl
              | none =>
                  cases Bergshamra.stripNot (Text.trim expr) with
                  | some inner => rfl
                  | none =>
                      cases hopen : Text.stripPrefix? ['('] (Text.trim expr) with
                      | none => simp [Text.startsWith, hopen]
                      | some rest =>
                          obtain ⟨hends, hslice⟩ := byteSlice_between (by decide) hopen
                          -- the slice leaves the brackets out, which are one byte each
                          have hone : Text.byteLength ['('] = 1 := by decide
                          cases hclose : Text.stripSuffix? [')'] rest with
                          | none => simp [Text.startsWith, hopen, hends, hclose]
                          | some inner =>
                              have hcut := hslice inner hclose
                              rw [hone] at hcut
                              simp [Text.startsWith, hopen, hends, hclose, hcut]

theorem parseXPathBoolExpr_eq (expr : List Char) (xpathNode : Node) :
    parseXPathBoolExpr expr xpathNode = .ok (Bergshamra.parseXPathBoolExpr expr xpathNode) :=
  parseWithFuel_eq xpathNode _ expr

/-! ## The patterns -/

/-- A beginning and an end that are both there leave a middle, or they overlap. -/
theorem middle_or_overlap {front back expr : List Char} {rest before : List Char}
    (hf : Text.stripPrefix? front expr = some rest)
    (hb : Text.stripSuffix? back expr = some before) :
    (∃ middle, expr = front ++ (middle ++ back))
      ∨ ∃ shared, shared ≠ [] ∧ front = before ++ shared ∧ back = shared ++ rest := by
  rw [Text.stripPrefix?_eq_some] at hf
  rw [stripSuffix?_eq_some] at hb
  rw [hf] at hb
  rcases List.append_eq_append_iff.mp hb with ⟨middle, rfl, hrest⟩ | ⟨shared, rfl, hback⟩
  · exact Or.inl ⟨middle, by rw [hf, hrest]⟩
  · cases shared with
    | nil =>
        refine Or.inl ⟨[], ?_⟩
        rw [hf, hback]
        simp
    | cons c shared => exact Or.inr ⟨c :: shared, by simp, rfl, hback⟩

theorem isEnvelopedXPath_eq (expr : List Char) (xpathNode : Node) :
    isEnvelopedXPath expr xpathNode = Bergshamra.isEnvelopedXPath expr xpathNode := by
  unfold isEnvelopedXPath Bergshamra.isEnvelopedXPath
  generalize Text.trim expr = expr
  generalize "not(ancestor-or-self::".toList = front
  generalize ":Signature)".toList = back
  dsimp only
  by_cases hends : (!Text.startsWith front expr || !Text.endsWith back expr) = true
  · rw [if_pos hends, if_pos hends]
  rw [if_neg hends, if_neg hends]
  simp only [Text.startsWith, Text.endsWith, Bool.or_eq_true, Bool.not_eq_true', not_or,
    Bool.not_eq_false, Option.isSome_iff_exists] at hends
  obtain ⟨⟨rest, hf⟩, before, hb⟩ := hends
  rcases middle_or_overlap hf hb with ⟨middle, rfl⟩ | ⟨shared, hne, rfl, rfl⟩
  · have hlen : ¬ (front ++ (middle ++ back)).length < front.length + back.length := by
      simp only [List.length_append]
      omega
    have htake : (front ++ (middle ++ back)).length - front.length - back.length
        = middle.length := by
      simp only [List.length_append]
      omega
    rw [if_neg hlen, htake, List.drop_left, List.take_left,
      byteSlice_of_slice? (Text.slice?_dropEnd front middle back)]
    rfl
  · -- the end of the slice is the beginning of what is shared
    rw [stripSuffix?_eq_some] at hb
    subst hb
    have hpos := Text.byteLength_pos hne
    have hpos' := List.length_pos_of_ne_nil hne
    rw [byteSlice_of_lt (by simp only [Text.byteLength_append]; omega),
      if_pos (by simp only [List.length_append]; omega)]
    rfl

theorem find?_eq_none {pat s : List Char} (h : Text.splitOnce pat s = none) :
    Text.find? pat s = none := by rw [Text.find?, h]; rfl

theorem find?_eq_some {pat s : List Char} {r : List Char × List Char}
    (h : Text.splitOnce pat s = some r) : Text.find? pat s = some (Text.byteLength r.1) := by
  rw [Text.find?, h]
  rfl

theorem isEnvelopedXPathHere_eq (expr : List Char) (xpathNode : Node) :
    isEnvelopedXPathHere expr xpathNode = .ok (Bergshamra.isEnvelopedXPathHere expr xpathNode) := by
  unfold isEnvelopedXPathHere Bergshamra.isEnvelopedXPathHere Text.startsWith
  generalize Text.normalizeSpace expr = norm
  generalize "count(ancestor-or-self::".toList = front
  generalize ":Signature | here()/ancestor::".toList = marker
  generalize ":Signature[1]) > count(ancestor-or-self::".toList = tail
  generalize ":Signature)".toList = back
  dsimp only
  cases hf : Text.stripPrefix? front norm with
  | none => rfl
  | some rest =>
      simp only [Option.isSome_some, Bool.not_true, Bool.false_eq_true, if_false,
        byteSlice_stripPrefix hf, bind, Except.bind]
      cases hs : Text.splitOnce marker rest with
      | none => rw [find?_eq_none hs]
      | some r =>
          obtain ⟨pfx, after⟩ := r
          have hcut := Text.splitOnce_eq_some hs
          rw [find?_eq_some hs]
          dsimp only
          rw [byteSlice_before hcut, byteSlice_after hcut]
          dsimp only
          split <;> rfl

theorem parseHereExcludePattern_eq (expr : List Char) (xpathNode : Node) :
    parseHereExcludePattern expr xpathNode
      = .ok (Bergshamra.parseHereExcludePattern expr xpathNode) := by
  unfold parseHereExcludePattern Bergshamra.parseHereExcludePattern Text.startsWith
  generalize "count(ancestor-or-self::".toList = front
  generalize " | here()/ancestor::".toList = marker
  generalize "[1]) > count(ancestor-or-self::".toList = tail
  dsimp only
  cases hf : Text.stripPrefix? front expr with
  | none => rfl
  | some rest =>
      simp only [Option.isSome_some, Bool.not_true, Bool.false_eq_true, if_false,
        byteSlice_stripPrefix hf, bind, Except.bind]
      cases hs : Text.splitOnce marker rest with
      | none => rw [find?_eq_none hs]
      | some r =>
          obtain ⟨name, after⟩ := r
          have hcut := Text.splitOnce_eq_some hs
          rw [find?_eq_some hs]
          dsimp only
          rw [byteSlice_before hcut, byteSlice_after hcut]
          dsimp only
          split <;> rfl

theorem parseCompound_eq (expr : List Char) (xpathNode : Node) :
    parseCompound expr xpathNode = .ok (Bergshamra.parseCompound expr xpathNode) := by
  unfold parseCompound Bergshamra.parseCompound Text.startsWith Text.endsWith
  generalize " or count(ancestor-or-self::node() | id(".toList ++ [apostrophe] = orMarker
  generalize apostrophe :: ")) = count(ancestor-or-self::node())".toList = idSuffix
  generalize "ancestor-or-self::".toList = front
  generalize " and ".toList = sep
  dsimp only
  cases hs : Text.splitOnce orMarker expr with
  | none => rw [find?_eq_none hs]; rfl
  | some r =>
      obtain ⟨leftPart, rightPart⟩ := r
      have hcut := Text.splitOnce_eq_some hs
      rw [find?_eq_some hs]
      simp only [bind, Except.bind, Option.bind, byteSlice_before hcut, byteSlice_after hcut,
        parseHereExcludePattern_eq]
      cases hb : Text.stripSuffix? idSuffix rightPart with
      | none => rfl
      | some idValue =>
          simp only [Option.isSome_some, Bool.not_true, Bool.false_eq_true, if_false,
            byteSlice_stripSuffix hb]
          cases Text.splitOnce sep leftPart with
          | none => rfl
          | some parts =>
              obtain ⟨a, b⟩ := parts
              dsimp only
              cases hf : Text.stripPrefix? front (Text.trim a) with
              | none => rfl
              | some aName =>
                  simp only [Option.isSome_some, Bool.not_true, Bool.false_eq_true, if_false,
                    byteSlice_stripPrefix hf]
                  cases resolvePrefixedName aName xpathNode with
                  | none => rfl
                  | some a =>
                      cases Bergshamra.parseHereExcludePattern (Text.trim b) xpathNode <;> rfl

/-! ## The transform -/

theorem classifyXPath_eq (expr : List Char) (xpathNode : Node) :
    classifyXPath expr xpathNode = Bergshamra.classifyXPath expr xpathNode := by
  unfold classifyXPath Bergshamra.classifyXPath
  simp only [isEnvelopedXPath_eq, isEnvelopedXPathHere_eq, parseXPathBoolExpr_eq, parseCompound_eq,
    bind, Except.bind]
  cases Bergshamra.isEnvelopedXPath expr xpathNode with
  | error e => rfl
  | ok enveloped =>
      cases enveloped with
      | true => rfl
      | false =>
          cases Bergshamra.isEnvelopedXPathHere expr xpathNode with
          | true => rfl
          | false =>
              cases Bergshamra.parseXPathBoolExpr expr xpathNode with
              | some parsed => rfl
              | none =>
                  cases Bergshamra.parseCompound expr xpathNode with
                  | some c => rfl
                  | none => rfl

/-- **The transform, cut by cut, is the transform**: but for the pattern of
`is_enveloped_xpath`, whose panic is there in both, every cut is at a part. -/
theorem applyXPathTransform_eq (lib : TransformLibs) (data : TransformData) (transformNode : Node)
    (sigNode : NodeId) :
    applyXPathTransform lib data transformNode sigNode
      = Bergshamra.applyXPathTransform lib data transformNode sigNode := by
  unfold applyXPathTransform Bergshamra.applyXPathTransform
  cases xpathChild? transformNode with
  | none => rfl
  | some xpathNode =>
      dsimp only
      rw [classifyXPath_eq]

end Bytes

end Bergshamra
