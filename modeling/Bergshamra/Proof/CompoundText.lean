import Bergshamra.Spec.XPath

/-!
# The text of the compound expression

The pattern matcher searches for fixed pieces of the expression. None of them
starts in a name, so in an expression of the shape it is made for it finds the
two names and the literal that are there.
-/

namespace Bergshamra

/-! ## The expression -/

/-- `count(ancestor-or-self::B | here()/ancestor::B[1]) > count(ancestor-or-self::B)`. -/
def hereText (name : List Char) : List Char :=
  "count(ancestor-or-self::".toList ++ (name ++ (" | here()/ancestor::".toList
    ++ (name ++ "[1]) > count(ancestor-or-self::".toList ++ name ++ [')'])))

/-- The compound expression, with the names `A` and `B` and the literal in `id('X')`. -/
structure CompoundText where
  a : NameTest
  b : NameTest
  idValue : List Char
  isLiteral : apostrophe ∉ idValue

/-- How it is written. -/
def CompoundText.text (e : CompoundText) : List Char :=
  ("ancestor-or-self::".toList ++ e.a.text) ++ (" and ".toList ++ hereText e.b.text)
    ++ (" or count(ancestor-or-self::node() | id(".toList ++ [apostrophe])
    ++ (e.idValue ++ (apostrophe :: ")) = count(ancestor-or-self::node())".toList))

section

variable {marker pat : List Char} {second : Char}

/-- A word and a blank that does not start the marker are passed over. -/
theorem splitOnce_word (hm : marker = ' ' :: second :: pat) {w s : List Char} (hw : ' ' ∉ w)
    (hs : s.head? ≠ some second) :
    Text.splitOnce marker (w ++ ' ' :: s)
      = (Text.splitOnce marker s).map (fun r => (w ++ ' ' :: r.1, r.2)) := by
  subst hm
  have hstrip : Text.stripPrefix? (' ' :: second :: pat) (' ' :: s) = none := by
    cases s with
    | nil => rfl
    | cons c s =>
        have hne : ¬ second = c := fun h => hs (by rw [h]; rfl)
        simp [Text.stripPrefix?, hne]
  rw [Text.splitOnce_append hw, Text.splitOnce_cons hstrip, Option.map_map]
  rfl

theorem splitOnce_last (hm : marker = ' ' :: second :: pat) {w s : List Char} (hw : ' ' ∉ w) :
    Text.splitOnce marker (w ++ (marker ++ s)) = some (w, s) := by
  subst hm
  rw [Text.splitOnce_append hw, Text.splitOnce_marker]
  simp

end

theorem NameTest.blank_not_mem (t : NameTest) : ' ' ∉ t.text := by
  intro h
  have := t.not_whitespace h
  revert this
  decide

/-- The pattern reads the name back. -/
theorem parseHereExcludePattern_hereText (t : NameTest) (scope : Node) :
    parseHereExcludePattern (hereText t.text) scope = resolvePrefixedName t.text scope := by
  have hm : " | here()/ancestor::".toList = ' ' :: '|' :: " here()/ancestor::".toList := rfl
  unfold parseHereExcludePattern hereText
  generalize "count(ancestor-or-self::".toList = count
  generalize "[1]) > count(ancestor-or-self::".toList = first
  generalize " | here()/ancestor::".toList = marker at hm ⊢
  generalize " here()/ancestor::".toList = pat at hm
  rw [Text.stripPrefix?_append]
  dsimp only
  rw [splitOnce_last hm t.blank_not_mem]
  dsimp only
  rw [if_pos rfl]

/-- The words of what stands before the `or`: no blank but the five between them. -/
theorem splitOnce_or {marker pat a b : List Char} (hm : marker = ' ' :: 'o' :: pat)
    (ha : ' ' ∉ a) (hb : ' ' ∉ b) (rest : List Char) :
    Text.splitOnce marker (("ancestor-or-self::".toList ++ a) ++ (" and ".toList ++ hereText b)
        ++ (marker ++ rest))
      = some (("ancestor-or-self::".toList ++ a) ++ (" and ".toList ++ hereText b), rest) := by
  have hand : " and ".toList = ' ' :: ("and".toList ++ [' ']) := rfl
  have hbar : " | here()/ancestor::".toList
      = ' ' :: (['|'] ++ ' ' :: "here()/ancestor::".toList) := rfl
  have hfirst : "[1]) > count(ancestor-or-self::".toList
      = "[1])".toList ++ ' ' :: (['>'] ++ ' ' :: "count(ancestor-or-self::".toList) := rfl
  have hcount : ' ' ∉ "count(ancestor-or-self::".toList := by decide
  have hcount' : ∀ s, ("count(ancestor-or-self::".toList ++ s).head? ≠ some 'o' := by simp
  have hhere : ' ' ∉ "here()/ancestor::".toList := by decide
  have hhere' : ∀ s, ("here()/ancestor::".toList ++ s).head? ≠ some 'o' := by simp
  have hone : ' ' ∉ "[1])".toList := by decide
  have hself : ' ' ∉ "ancestor-or-self::".toList := by decide
  have hword : ' ' ∉ "and".toList := by decide
  have hword' : ∀ s, ("and".toList ++ s).head? ≠ some 'o' := by simp
  unfold hereText
  generalize " and ".toList = sep at *
  generalize " | here()/ancestor::".toList = bar at *
  generalize "[1]) > count(ancestor-or-self::".toList = first at *
  generalize "count(ancestor-or-self::".toList = count at *
  generalize "here()/ancestor::".toList = here at *
  generalize "[1])".toList = one at *
  generalize "ancestor-or-self::".toList = self at *
  generalize "and".toList = word at *
  subst hand hbar hfirst
  -- the words of the text, blank by blank
  have hleft : (self ++ a) ++ (' ' :: (word ++ [' ']) ++ (count ++ (b ++ (' ' :: (['|'] ++ ' ' :: here)
        ++ (b ++ (one ++ ' ' :: (['>'] ++ ' ' :: count)) ++ b ++ [')'])))))
      = (self ++ a) ++ ' ' :: (word ++ ' ' :: ((count ++ b) ++ ' ' :: (['|'] ++ ' ' ::
          ((here ++ b ++ one) ++ ' ' :: (['>'] ++ ' ' :: (count ++ b ++ [')'])))))) := by
    simp
  rw [hleft]
  have h₇ : Text.splitOnce marker ((count ++ b ++ [')']) ++ (marker ++ rest))
      = some (count ++ b ++ [')'], rest) :=
    splitOnce_last hm (by simp [hcount, hb])
  have happ : ∀ w s : List Char,
      w ++ ' ' :: s ++ (marker ++ rest) = w ++ ' ' :: (s ++ (marker ++ rest)) := by simp
  rw [happ, happ, happ, happ, happ, happ]
  -- no word before the marker begins with the letter after its blank
  rw [splitOnce_word hm (by simp [hself, ha]), splitOnce_word hm hword,
    splitOnce_word hm (by simp [hcount, hb]), splitOnce_word hm (by simp),
    splitOnce_word hm (by simp [hhere, hone, hb]), splitOnce_word hm (by simp), h₇]
  · rfl
  · rw [List.append_assoc, List.append_assoc]
    exact hcount' _
  · simp
  · rw [List.append_assoc, List.append_assoc, List.append_assoc]
    exact hhere' _
  · simp
  · rw [List.append_assoc, List.append_assoc]
    exact hcount' _
  · exact hword' _

theorem trim_append_name {s : List Char} (t : NameTest) {c : Char} {rest : List Char}
    (hs : s = c :: rest) (hc : Text.isWhitespace c = false) :
    Text.trim (s ++ t.text) = s ++ t.text := by
  subst hs
  refine Text.trim_of_ends ?_ ?_
  · intro d hd
    rw [List.cons_append, List.head?_cons, Option.mem_some_iff] at hd
    exact hd ▸ hc
  · intro d hd
    rw [List.getLast?_append_of_ne_nil _ t.text_ne_nil] at hd
    exact t.not_whitespace (List.mem_of_getLast? hd)

theorem trim_hereText (name : List Char) : Text.trim (hereText name) = hereText name := by
  have hcount : "count(ancestor-or-self::".toList = 'c' :: "ount(ancestor-or-self::".toList := rfl
  unfold hereText
  generalize "count(ancestor-or-self::".toList = count at *
  generalize "[1]) > count(ancestor-or-self::".toList = first at *
  generalize " | here()/ancestor::".toList = bar at *
  subst hcount
  refine Text.trim_of_ends ?_ ?_
  · intro d hd
    rw [List.cons_append, List.head?_cons, Option.mem_some_iff] at hd
    subst hd
    decide
  · intro d hd
    simp only [← List.append_assoc, List.getLast?_append, List.getLast?_singleton,
      Option.some_or, Option.mem_some_iff] at hd
    subst hd
    decide

/-- The expression with its names resolved. -/
def CompoundText.resolve (e : CompoundText) (scope : Node) : Option CompoundFilter := do
  let a ← e.a.uri? scope
  let b ← e.b.uri? scope
  some ⟨(a, String.ofList e.a.localName), (b, String.ofList e.b.localName), String.ofList e.idValue⟩

/-- **The code takes the expression apart as it is meant.** -/
theorem parseCompound_text (e : CompoundText) (scope : Node) :
    parseCompound e.text scope = e.resolve scope := by
  have hm : " or count(ancestor-or-self::node() | id(".toList ++ [apostrophe]
      = ' ' :: 'o' :: ("r count(ancestor-or-self::node() | id(".toList ++ [apostrophe]) := rfl
  have hand : " and ".toList = ' ' :: 'a' :: "nd ".toList := rfl
  have hself : "ancestor-or-self::".toList = 'a' :: "ncestor-or-self::".toList := rfl
  have hblank : ' ' ∉ "ancestor-or-self::".toList := by decide
  have hor := splitOnce_or hm e.a.blank_not_mem e.b.blank_not_mem
  have htrim := trim_append_name e.a hself (by decide)
  have hparse := parseHereExcludePattern_hereText e.b scope
  have htrim' := trim_hereText e.b.text
  unfold parseCompound CompoundText.text CompoundText.resolve
  generalize hereText e.b.text = partB at *
  generalize "ancestor-or-self::".toList = self at *
  generalize " and ".toList = sep at *
  generalize " or count(ancestor-or-self::node() | id(".toList ++ [apostrophe] = marker at *
  generalize apostrophe :: ")) = count(ancestor-or-self::node())".toList = suffix
  have hsplit : Text.splitOnce sep (self ++ e.a.text ++ (sep ++ partB))
      = some (self ++ e.a.text, partB) :=
    splitOnce_last hand (by simp [hblank, e.a.blank_not_mem])
  rw [List.append_assoc (_ ++ _) marker, hor]
  simp only [Option.bind_eq_bind, Option.bind_some, Text.stripSuffix?_append, hsplit, htrim, htrim',
    Text.stripPrefix?_append, hparse, resolvePrefixedName_text]
  cases e.a.uri? scope <;> cases e.b.uri? scope <;> rfl

end Bergshamra
