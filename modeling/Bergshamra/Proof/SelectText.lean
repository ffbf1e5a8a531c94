import Bergshamra.Dsig.Filter2
import Bergshamra.Spec.SelectExpr

/-!
# Recognizing a selection

What the recognizer of XPath Filter 2.0 makes of the text of a selection: the
parts of a union, the steps of a path, the name test and the predicate of a
step, and the truth of a predicate. The recognizer counts brackets and
parentheses without looking at quotes, so a literal has to have them matched
(`Literal.Matched`).
-/

namespace Bergshamra

/-! ## Depth -/

/-- The depth of brackets and the depth of parentheses that the recognizer keeps. -/
abbrev bracketsFrom (d : Int) (s : List Char) : Int := Text.depthFrom '[' ']' d s

abbrev parensFrom (d : Int) (s : List Char) : Int := Text.depthFrom '(' ')' d s

theorem bracketsFrom_cons (d : Int) (c : Char) (s : List Char) :
    bracketsFrom d (c :: s) = bracketsFrom (bracketDepth d c) s := by
  unfold bracketsFrom Text.depthFrom bracketDepth
  rw [List.count_cons, List.count_cons]
  by_cases ho : c = '['
  · subst ho
    simp
    omega
  · by_cases hc : c = ']'
    · subst hc
      simp
      omega
    · simp [ho, hc]

theorem parensFrom_cons (d : Int) (c : Char) (s : List Char) :
    parensFrom d (c :: s) = parensFrom (parenDepth d c) s := by
  unfold parensFrom Text.depthFrom parenDepth
  rw [List.count_cons, List.count_cons]
  by_cases ho : c = '('
  · subst ho
    simp
    omega
  · by_cases hc : c = ')'
    · subst hc
      simp
      omega
    · simp [ho, hc]

/-! ## The loops pass over what is guarded -/

theorem guarded_cons {mark c : Char} {d : Int} {s : List Char}
    (h : Text.Guarded '[' ']' mark d (c :: s)) :
    (c = mark → d ≠ 0) ∧ Text.Guarded '[' ']' mark (bracketDepth d c) s := by
  constructor
  · rintro rfl
    have := h [] s rfl
    simpa [Text.depthFrom] using this
  · intro u v huv
    have := h (c :: u) v (by rw [huv, List.cons_append])
    rwa [← bracketsFrom, bracketsFrom_cons] at this

theorem splitXPathUnionFrom_pass {s : List Char} {b p : Int} {before : List Char}
    (h : Text.Guarded '[' ']' '|' b s) (rest : List Char) :
    splitXPathUnionFrom b p before (s ++ rest)
      = splitXPathUnionFrom (bracketsFrom b s) (parensFrom p s) (s.reverse ++ before) rest := by
  induction s generalizing b p before with
  | nil => simp [bracketsFrom, parensFrom, Text.depthFrom]
  | cons c s ih =>
      obtain ⟨hc, hs⟩ := guarded_cons h
      have hne : ¬(c = '|' ∧ b = 0 ∧ p = 0 ∧ Text.trim before.reverse ≠ []
          ∧ Text.trim (s ++ rest) ≠ []) := fun hm => hc hm.1 hm.2.1
      rw [List.cons_append, splitXPathUnionFrom, if_neg hne, ih hs, bracketsFrom_cons,
        parensFrom_cons, List.reverse_cons, List.append_assoc, List.singleton_append]

theorem splitStepsFrom_pass {s : List Char} {b : Int} {step : List Char}
    (h : Text.Guarded '[' ']' '/' b s) (rest : List Char) :
    splitStepsFrom b step (s ++ rest)
      = splitStepsFrom (bracketsFrom b s) (s.reverse ++ step) rest := by
  induction s generalizing b step with
  | nil => simp [bracketsFrom, Text.depthFrom]
  | cons c s ih =>
      obtain ⟨hc, hs⟩ := guarded_cons h
      have hne : ¬(c = '/' ∧ b = 0) := fun hm => hc hm.1 hm.2
      rw [List.cons_append, splitStepsFrom, if_neg hne, ih hs, bracketsFrom_cons,
        List.reverse_cons, List.append_assoc, List.singleton_append]

/-! ## Parts -/

namespace XPath

/-- Brackets and parentheses match in the literal, and no quote stands at its ends. -/
structure Literal.Matched (l : Literal) : Prop where
  brackets : Text.Nested '[' ']' l.content
  parens : Text.Nested '(' ')' l.content
  head : ∀ c ∈ l.content.head?, c ≠ '"' ∧ c ≠ apostrophe
  last : ∀ c ∈ l.content.getLast?, c ≠ '"' ∧ c ≠ apostrophe

/-- A text whose brackets and parentheses match. -/
structure Matched (s : List Char) : Prop where
  brackets : Text.Nested '[' ']' s
  parens : Text.Nested '(' ')' s

theorem Matched.append {s t : List Char} (hs : Matched s) (ht : Matched t) : Matched (s ++ t) :=
  ⟨hs.brackets.append ht.brackets, hs.parens.append ht.parens⟩

theorem Matched.of_not_mem {s : List Char} (h : ∀ c ∈ "[]()".toList, c ∉ s) : Matched s :=
  ⟨.of_not_mem (h _ (by decide)) (h _ (by decide)), .of_not_mem (h _ (by decide)) (h _ (by decide))⟩

theorem Matched.bracketsFrom_eq {s : List Char} (h : Matched s) (d : Int) : bracketsFrom d s = d :=
  h.brackets.depthFrom_eq d

theorem Matched.parensFrom_eq {s : List Char} (h : Matched s) (d : Int) : parensFrom d s = d :=
  h.parens.depthFrom_eq d

theorem matched_name {s : List Char} (h : IsXPathName s) : Matched s :=
  .of_not_mem (fun c hc => h.ne_of_delimiter (by revert c; decide))

theorem matched_blank {w : List Char} (h : Text.IsBlank w) : Matched w := by
  refine .of_not_mem fun c hc hm => ?_
  have hb : Text.isWhitespace c = true := h c hm
  have hn : ∀ c ∈ "[]()".toList, Text.isWhitespace c = false := by decide
  rw [hn c hc] at hb
  exact Bool.noConfusion hb

theorem matched_nameTest (t : NameTest) : Matched t.text := by
  unfold NameTest.text
  cases hp : t.pfx with
  | none => exact matched_name t.isXPathName_localName
  | some p =>
      have hpn : IsXPathName p := t.isXPathName_pfx p (by rw [hp]; rfl)
      exact (matched_name hpn).append
        (Matched.append (s := [':']) (.of_not_mem (by decide))
          (matched_name t.isXPathName_localName))

theorem Literal.Matched.text {l : Literal} (h : l.Matched) : XPath.Matched l.text := by
  have hq : XPath.Matched [l.quote] := by
    rcases l.isQuote with hq | hq <;> rw [hq] <;> exact .of_not_mem (by decide)
  exact (hq.append ⟨h.brackets, h.parens⟩).append hq

theorem AttrTest.matched {a : AttrTest} (h : a.literal.Matched) : Matched a.text := by
  have hat : Matched ['@'] := .of_not_mem (by decide)
  have heq : Matched ['='] := .of_not_mem (by decide)
  exact (hat.append (matched_name a.isXPathName_name)).append (heq.append h.text)

theorem AttrTest.SpellsAny.matched {as : List AttrTest} {s : List Char} (h : SpellsAny as s)
    (ha : ∀ a ∈ as, a.literal.Matched) : Matched s := by
  induction h with
  | one a => exact AttrTest.matched (ha a List.mem_cons_self)
  | or a hw hw' _ ih =>
      have hor : Matched " or ".toList := .of_not_mem (by decide)
      exact ((AttrTest.matched (ha a List.mem_cons_self)).append
        (((matched_blank hw).append hor).append (matched_blank hw'))).append
          (ih fun b hb => ha b (List.mem_cons_of_mem _ hb))

theorem Predicate.Spells.matched {p : Predicate} {s : List Char} (h : p.Spells s)
    (ha : ∀ a ∈ p.attrTests, a.literal.Matched) : Matched s := by
  cases h with
  | any h => exact h.matched ha
  | @absent name hn w w' hw hw' =>
      have hnot : Matched "not".toList := .of_not_mem (by decide)
      have hat : Matched ['@'] := .of_not_mem (by decide)
      have hin : Matched (w ++ '@' :: name ++ w') :=
        ((matched_blank hw).append (hat.append (matched_name hn))).append (matched_blank hw')
      have hwrap : Matched ('(' :: (w ++ '@' :: name ++ w') ++ [')']) := by
        refine ⟨?_, hin.parens.wrap (by decide)⟩
        exact (Text.Nested.of_not_mem (s := ['(']) (by decide) (by decide)).append hin.brackets
          |>.append (.of_not_mem (by decide) (by decide))
      exact hnot.append hwrap

end XPath

/-! ## Splitting a disjunction -/

/-- The separator begins with a space that an `o` follows. -/
theorem stripPrefix?_or_none {c : Char} {s : List Char} (h : c = ' ' → 'o' ∉ s.head?) :
    Text.stripPrefix? " or ".toList (c :: s) = none := by
  show Text.stripPrefix? [' ', 'o', 'r', ' '] (c :: s) = none
  rw [Text.stripPrefix?]
  by_cases hc : ' ' = c
  · rw [if_pos hc]
    cases s with
    | nil => rfl
    | cons d s =>
        have hd : 'o' ≠ d := fun hd => h hc.symm (by rw [hd]; rfl)
        rw [Text.stripPrefix?, if_neg hd]
  · rw [if_neg hc]

/-- Outside quotes a character that begins no separator goes to the part. -/
theorem splitPredicateOrFrom_cons {c : Char} {s part : List Char} (hq : ¬(c = '"' ∨ c = apostrophe))
    (h : c = ' ' → 'o' ∉ s.head?) (skip : Nat) :
    splitPredicateOrFrom none skip part (c :: s)
      = splitPredicateOrFrom none (skip - 1) (if skip = 0 then c :: part else part) s := by
  rw [splitPredicateOrFrom, if_neg hq, stripPrefix?_or_none h, Option.isSome_none,
    if_neg Bool.false_ne_true]

theorem splitPredicateOrFrom_word {w : List Char}
    (hw : ∀ c ∈ w, Text.isWhitespace c = false ∧ ¬(c = '"' ∨ c = apostrophe))
    (part rest : List Char) :
    splitPredicateOrFrom none 0 part (w ++ rest)
      = splitPredicateOrFrom none 0 (w.reverse ++ part) rest := by
  induction w generalizing part with
  | nil => rfl
  | cons c w ih =>
      obtain ⟨hc, hq⟩ := hw c List.mem_cons_self
      have hspace : c = ' ' → 'o' ∉ (w ++ rest).head? := by
        rintro rfl
        exact absurd hc (by decide)
      rw [List.cons_append, splitPredicateOrFrom_cons hq hspace, if_pos rfl,
        ih (fun d hd => hw d (List.mem_cons_of_mem _ hd)), List.reverse_cons, List.append_assoc,
        List.singleton_append]

theorem splitPredicateOrFrom_blank {w : List Char} (hw : Text.IsBlank w) {rest : List Char}
    (hrest : 'o' ∉ rest.head?) (part : List Char) :
    splitPredicateOrFrom none 0 part (w ++ rest)
      = splitPredicateOrFrom none 0 (w.reverse ++ part) rest := by
  induction w generalizing part with
  | nil => rfl
  | cons c w ih =>
      have hc : Text.isWhitespace c = true := hw c List.mem_cons_self
      have hw' : Text.IsBlank w := fun d hd => hw d (List.mem_cons_of_mem _ hd)
      have hq : ¬(c = '"' ∨ c = apostrophe) := by
        rintro (rfl | rfl) <;> exact absurd hc (by decide)
      have hnext : 'o' ∉ (w ++ rest).head? := by
        cases w with
        | nil => exact hrest
        | cons d w =>
            intro hd
            have hd : d = 'o' := by simpa using hd
            have := hw' d List.mem_cons_self
            rw [hd] at this
            exact absurd this (by decide)
      rw [List.cons_append, splitPredicateOrFrom_cons hq (fun _ => hnext), if_pos rfl, ih hw',
        List.reverse_cons, List.append_assoc, List.singleton_append]

/-- Between the quotes everything goes to the part. -/
theorem splitPredicateOrFrom_quoted {q : Char} {s : List Char} (hq : q ∉ s)
    (part rest : List Char) :
    splitPredicateOrFrom (some q) 0 part (s ++ q :: rest)
      = splitPredicateOrFrom none 0 (q :: s.reverse ++ part) rest := by
  induction s generalizing part with
  | nil =>
      rw [List.nil_append, splitPredicateOrFrom]
      simp
  | cons c s ih =>
      rw [List.mem_cons, not_or] at hq
      rw [List.cons_append, splitPredicateOrFrom, if_neg (Ne.symm hq.1), if_pos rfl, ih hq.2]
      simp

namespace XPath

theorem splitPredicateOrFrom_literal (l : Literal) (part rest : List Char) :
    splitPredicateOrFrom none 0 part (l.text ++ rest)
      = splitPredicateOrFrom none 0 (l.text.reverse ++ part) rest := by
  have hopen : splitPredicateOrFrom none 0 part (l.quote :: (l.content ++ l.quote :: rest))
      = splitPredicateOrFrom (some l.quote) 0 (l.quote :: part) (l.content ++ l.quote :: rest) := by
    rw [splitPredicateOrFrom, if_pos l.isQuote, if_pos rfl]
  have htext : l.text ++ rest = l.quote :: (l.content ++ l.quote :: rest) := by
    simp [Literal.text]
  rw [htext, hopen, splitPredicateOrFrom_quoted l.not_mem]
  simp [Literal.text]

/-- The part of an attribute test in front of its literal. -/
theorem AttrTest.front (a : AttrTest) : ∀ c ∈ '@' :: a.name ++ ['='],
    Text.isWhitespace c = false ∧ ¬(c = '"' ∨ c = apostrophe) := by
  intro c hc
  rw [List.cons_append, List.mem_cons, List.mem_append, List.mem_singleton] at hc
  rcases hc with rfl | hc | rfl
  · decide
  · have hn := a.isXPathName_name
    refine ⟨hn.not_whitespace hc, ?_⟩
    rintro (rfl | rfl)
    · exact hn.ne_of_delimiter (by decide) hc
    · exact hn.ne_of_delimiter (by decide) hc
  · decide

theorem AttrTest.text_eq (a : AttrTest) : a.text = ('@' :: a.name ++ ['=']) ++ a.literal.text := by
  simp [AttrTest.text]

theorem splitPredicateOrFrom_attrTest (a : AttrTest) (part rest : List Char) :
    splitPredicateOrFrom none 0 part (a.text ++ rest)
      = splitPredicateOrFrom none 0 (a.text.reverse ++ part) rest := by
  rw [a.text_eq, List.append_assoc, splitPredicateOrFrom_word a.front,
    splitPredicateOrFrom_literal, ← List.append_assoc, ← List.reverse_append]

/-- An attribute test has no white space at its ends. -/
theorem AttrTest.solid (a : AttrTest) : Text.Solid a.text := by
  have hq : Text.isWhitespace a.literal.quote = false := by
    rcases a.literal.isQuote with hq | hq <;> rw [hq] <;> decide
  refine ⟨by simp [AttrTest.text], ?_, ?_⟩
  · intro c hc
    have hc : '@' = c := by simpa [AttrTest.text] using hc
    rw [← hc]
    decide
  · intro c hc
    have hlast : a.text.getLast? = some a.literal.quote := by
      rw [a.text_eq, Literal.text, ← List.append_assoc, List.getLast?_append]
      rfl
    rw [hlast] at hc
    rwa [← Option.some.inj hc]

theorem AttrTest.SpellsAny.head_eq {as : List AttrTest} {s : List Char} (h : SpellsAny as s) :
    s.head? = some '@' := by
  cases h <;> rfl

theorem AttrTest.SpellsAny.no_o {as : List AttrTest} {s w : List Char} (h : SpellsAny as s)
    (hw : Text.IsBlank w) : 'o' ∉ (w ++ s).head? := by
  intro ho
  cases w with
  | nil =>
      rw [List.nil_append, h.head_eq] at ho
      exact absurd (Option.some.inj ho) (by decide)
  | cons c w =>
      have hc : c = 'o' := Option.some.inj ho
      have := hw c List.mem_cons_self
      rw [hc] at this
      exact absurd this (by decide)

/-- What stands before the first test of the rest is white space; trimmed, the parts are the
tests. -/
theorem AttrTest.SpellsAny.split {as : List AttrTest} {s : List Char} (h : SpellsAny as s)
    {before : List Char} (hb : Text.IsBlank before) :
    ∃ parts, splitPredicateOrFrom none 0 before.reverse s = .ok parts
      ∧ parts.map Text.trim = as.map AttrTest.text := by
  induction h generalizing before with
  | one a =>
      refine ⟨[before ++ a.text], ?_, ?_⟩
      · have := splitPredicateOrFrom_attrTest a before.reverse []
        rw [List.append_nil] at this
        rw [this, splitPredicateOrFrom]
        simp
      · rw [List.map_singleton, List.map_singleton, Text.trim_padded_left hb a.solid]
  | @or a as s w w' hw hw' hs ih =>
      obtain ⟨parts, hparts, htrim⟩ := ih hw'
      refine ⟨(before ++ a.text ++ w) :: parts, ?_, ?_⟩
      · have hor : splitPredicateOrFrom none 0 (w.reverse ++ (a.text.reverse ++ before.reverse))
            (" or ".toList ++ (w' ++ s)) = .ok ((before ++ a.text ++ w) :: parts) := by
          have hrest : splitPredicateOrFrom none 3 [] ('o' :: 'r' :: ' ' :: (w' ++ s))
              = .ok parts := by
            rw [splitPredicateOrFrom_cons (by decide) (fun h => absurd h (by decide)),
              splitPredicateOrFrom_cons (by decide) (fun h => absurd h (by decide)),
              splitPredicateOrFrom_cons (by decide) (fun _ => hs.no_o hw')]
            exact (splitPredicateOrFrom_blank hw' (hs.no_o (w := []) (by decide)) []).trans
              (by rw [List.append_nil]; exact hparts)
          show splitPredicateOrFrom none 0 _ (' ' :: 'o' :: 'r' :: ' ' :: (w' ++ s)) = _
          have hsep : Text.stripPrefix? " or ".toList (' ' :: 'o' :: 'r' :: ' ' :: (w' ++ s))
              = some (w' ++ s) := Text.stripPrefix?_append " or ".toList (w' ++ s)
          rw [splitPredicateOrFrom, if_neg (by decide), hsep, hrest]
          simp [bind, Except.bind]
        have hspace : 'o' ∉ (" or ".toList ++ (w' ++ s)).head? := by
          intro h
          exact absurd (Option.some.inj h) (by decide)
        rw [List.append_assoc, splitPredicateOrFrom_attrTest, List.append_assoc, List.append_assoc,
          splitPredicateOrFrom_blank hw hspace, hor]
      · rw [List.map_cons, List.map_cons, Text.trim_padded hb a.solid hw, htrim]

/-! ## Predicates -/

theorem dropWhile_quote {q : Char} (hq : q = '"' ∨ q = apostrophe) {s : List Char}
    (h : ∀ c ∈ s.head?, c ≠ '"' ∧ c ≠ apostrophe) :
    (q :: s).dropWhile (fun c => c == '"' || c == apostrophe) = s := by
  have hstop : s.dropWhile (fun c => c == '"' || c == apostrophe) = s := by
    cases s with
    | nil => rfl
    | cons c s =>
        obtain ⟨h1, h2⟩ := h c rfl
        exact List.dropWhile_cons_of_neg (by simp [h1, h2])
  have hopen : (q == '"' || q == apostrophe) = true := by
    rw [Bool.or_eq_true, beq_iff_eq, beq_iff_eq]
    exact hq
  exact (List.dropWhile_cons_of_pos (p := fun c => c == '"' || c == apostrophe) hopen).trans hstop

/-- Trimming the quotes of a literal leaves what they enclose. -/
theorem Literal.Matched.trimQuotes_eq {l : Literal} (h : l.Matched) :
    trimQuotes l.text = l.content := by
  unfold trimQuotes Literal.text
  dsimp only
  by_cases hne : l.content = []
  · rw [hne]
    rcases l.isQuote with hq | hq <;> rw [hq] <;> decide
  · have hfront : ∀ c ∈ (l.content ++ [l.quote]).head?, c ≠ '"' ∧ c ≠ apostrophe := by
      rw [List.head?_append_of_ne_nil _ hne]
      exact h.head
    have hback : ∀ c ∈ l.content.reverse.head?, c ≠ '"' ∧ c ≠ apostrophe := by
      rw [List.head?_reverse]
      exact h.last
    rw [List.cons_append, dropWhile_quote l.isQuote hfront, List.reverse_append,
      List.reverse_singleton, List.singleton_append, dropWhile_quote l.isQuote hback,
      List.reverse_reverse]

/-- **An attribute test is evaluated to its truth.** -/
theorem evaluateAttrEq_text (up : Uppsala) (e : Element) {a : AttrTest} (h : a.literal.Matched) :
    evaluateAttrEq up e a.text = a.truth up e := by
  have hname : '=' ∉ a.name := a.isXPathName_name.ne_of_delimiter (by decide)
  have hat : Text.stripPrefix? ['@'] a.text = some (a.name ++ '=' :: a.literal.text) :=
    Text.stripPrefix?_append ['@'] _
  have hsplit : Text.splitOnce ['='] (a.name ++ '=' :: a.literal.text)
      = some (a.name, a.literal.text) := by
    have hmark := Text.splitOnce_marker '=' [] a.literal.text
    rw [List.cons_append, List.nil_append] at hmark
    rw [Text.splitOnce_append hname, hmark, Option.map_some, List.append_nil]
  unfold evaluateAttrEq
  rw [a.solid.trim_eq, hat]
  dsimp only
  rw [hsplit]
  dsimp only
  rw [h.trimQuotes_eq]
  rfl

theorem isAttrEqPredicate_text (a : AttrTest) : isAttrEqPredicate a.text = true := by
  have hfront : '=' ∉ '@' :: a.name := by
    rw [List.mem_cons, not_or]
    exact ⟨by decide, a.isXPathName_name.ne_of_delimiter (by decide)⟩
  have hcontains : ∀ q, q = a.literal.quote → Text.containsSub ['=', q] a.text = true := by
    rintro q rfl
    have htext : a.text
        = ('@' :: a.name) ++ (['=', a.literal.quote] ++ (a.literal.content ++ [a.literal.quote])) := by
      simp [AttrTest.text, Literal.text]
    rw [Text.containsSub, htext, Text.splitOnce_append hfront, Text.splitOnce_marker]
    rfl
  have hat : Text.startsWith ['@'] a.text = true := rfl
  unfold isAttrEqPredicate
  rw [hat, Bool.true_and, Bool.or_eq_true]
  rcases a.literal.isQuote with hq | hq
  · exact Or.inl (hcontains _ hq.symm)
  · exact Or.inr (hcontains _ hq.symm)

theorem AttrTest.SpellsAny.evaluate {as : List AttrTest} {s : List Char} (h : SpellsAny as s)
    (ha : ∀ a ∈ as, a.literal.Matched) (up : Uppsala) (e : Element) :
    evaluatePredicateParts up e s = .ok (as.any (AttrTest.truth up e)) := by
  obtain ⟨parts, hparts, htrim⟩ := h.split (show Text.IsBlank [] by decide)
  have hall : parts.all (fun p => isAttrEqPredicate (Text.trim p)) = true := by
    have : parts.all (fun p => isAttrEqPredicate (Text.trim p))
        = (parts.map Text.trim).all isAttrEqPredicate := by rw [List.all_map]; rfl
    rw [this, htrim, List.all_map, List.all_eq_true]
    exact fun a _ => isAttrEqPredicate_text a
  have hany : parts.any (fun p => evaluateAttrEq up e (Text.trim p))
      = as.any (AttrTest.truth up e) := by
    have : parts.any (fun p => evaluateAttrEq up e (Text.trim p))
        = (parts.map Text.trim).any (evaluateAttrEq up e) := by rw [List.any_map]; rfl
    rw [this, htrim, List.any_map]
    rw [Bool.eq_iff_iff, List.any_eq_true, List.any_eq_true]
    refine exists_congr fun a => and_congr_right fun hm => ?_
    rw [Function.comp_apply, evaluateAttrEq_text up e (ha a hm)]
  unfold evaluatePredicateParts splitPredicateOr
  rw [List.reverse_nil] at hparts
  rw [hparts]
  show (if _ then _ else _) = _
  rw [if_pos hall, hany]

theorem AttrTest.SpellsAny.solid {as : List AttrTest} {s : List Char} (h : SpellsAny as s) :
    Text.Solid s := by
  induction h with
  | one a => exact a.solid
  | or a _ _ _ ih => exact a.solid.append ih _

theorem solid_absent {name : List Char} (w w' : List Char) :
    Text.Solid ("not(".toList ++ (w ++ '@' :: name ++ w') ++ [')']) :=
  Text.Solid.append (.of_word (by decide) (by decide)) (.of_word (by decide) (by decide)) _

/-- **A predicate is evaluated to its truth.** -/
theorem Predicate.Spells.evaluate {p : Predicate} {s : List Char} (h : p.Spells s)
    (ha : ∀ a ∈ p.attrTests, a.literal.Matched) {w w' : List Char} (hw : Text.IsBlank w)
    (hw' : Text.IsBlank w') (up : Uppsala) (e : Element) :
    evaluateXPathPredicate up e (w ++ s ++ w') = .ok (p.truth up e) := by
  cases h with
  | any h =>
      have hnot : Text.stripPrefix? "not(".toList s = none := by
        cases h <;> rfl
      unfold evaluateXPathPredicate
      dsimp only
      rw [Text.trim_padded hw h.solid hw', hnot, Option.bind_none]
      exact h.evaluate ha up e
  | @absent name hn v v' hv hv' =>
      have hinner : (Text.stripPrefix? "not(".toList
          ("not(".toList ++ (v ++ '@' :: name ++ v') ++ [')'])).bind (Text.stripSuffix? [')'])
            = some (v ++ '@' :: name ++ v') := by
        rw [List.append_assoc, Text.stripPrefix?_append, Option.bind_some, Text.stripSuffix?_append]
      have hsolid : Text.Solid ('@' :: name) := by
        refine .of_word (by simp) fun c hc => ?_
        rcases List.mem_cons.mp hc with rfl | hc
        · decide
        · exact hn.not_whitespace hc
      have hat : Text.stripPrefix? ['@'] ('@' :: name) = some name :=
        Text.stripPrefix?_append ['@'] name
      unfold evaluateXPathPredicate
      dsimp only
      rw [Text.trim_padded hw (solid_absent v v') hw', hinner]
      dsimp only
      rw [Text.trim_padded hv hsolid hv', hat]
      rfl

/-! ## Steps -/

/-- A node test has no delimiter of steps and predicates in it. -/
theorem ElementTest.not_mem (t : ElementTest) {d : Char} (hd : d ∈ "[]()|/".toList) :
    d ∉ t.text := by
  cases t with
  | any =>
      intro h
      rw [ElementTest.text, List.mem_singleton] at h
      subst h
      exact absurd hd (by decide)
  | named t =>
      have hdel : d ∈ nameDelimiters ∧ d ≠ ':' := by
        revert hd
        revert d
        decide
      exact t.not_mem hdel.1 hdel.2

theorem ElementTest.text_ne_nil (t : ElementTest) : t.text ≠ [] := by
  cases t with
  | any => exact List.cons_ne_nil _ _
  | named t => exact t.text_ne_nil

theorem ElementTest.not_whitespace (t : ElementTest) {c : Char} (hc : c ∈ t.text) :
    Text.isWhitespace c = false := by
  cases t with
  | any =>
      rw [ElementTest.text, List.mem_singleton] at hc
      subst hc
      decide
  | named t => exact t.not_whitespace hc

/-- What the recognizer has to know about the text of a step. -/
structure StepText (s : List Char) : Prop where
  solid : Text.Solid s
  matched : Matched s
  guarded : ∀ mark, mark = '/' ∨ mark = '|' → Text.Guarded '[' ']' mark 0 s

theorem Step.Spells.text {st : Step} {s : List Char} (h : st.Spells s)
    (ha : ∀ a ∈ st.attrTests, a.literal.Matched) : StepText s := by
  have htest : ∀ test : ElementTest, Matched test.text :=
    fun test => .of_not_mem fun c hc => test.not_mem (by revert hc; revert c; decide)
  have hword : ∀ test : ElementTest, Text.Solid test.text :=
    fun test => .of_word test.text_ne_nil (fun c hc => test.not_whitespace hc)
  have hfree : ∀ (test : ElementTest) (mark : Char), mark = '/' ∨ mark = '|' → mark ∉ test.text := by
    rintro test mark (rfl | rfl)
    · exact test.not_mem (by decide)
    · exact test.not_mem (by decide)
  cases h with
  | bare test =>
      exact ⟨hword test, htest test, fun mark hm => .of_not_mem (hfree test mark hm) 0⟩
  | @filtered test p t w w' hw hw' hp =>
      have hin : Matched (w ++ t ++ w') :=
        ((matched_blank hw).append (hp.matched ha)).append (matched_blank hw')
      have hwrap : Matched ('[' :: (w ++ t ++ w') ++ [']']) := by
        refine ⟨hin.brackets.wrap (by decide), ?_⟩
        exact (Text.Nested.of_not_mem (s := ['[']) (by decide) (by decide)).append hin.parens
          |>.append (.of_not_mem (by decide) (by decide))
      refine ⟨?_, ?_, fun mark hm => ?_⟩
      · have := (hword test).append (.of_word (s := [']']) (by decide) (by decide))
          ('[' :: (w ++ t ++ w'))
        exact this
      · rw [List.append_assoc]
        exact (htest test).append hwrap
      · -- a mark after the name is inside the predicate
        have hopen : mark ∉ ['['] := by rcases hm with rfl | rfl <;> decide
        have hclose : mark ∉ [']'] := by rcases hm with rfl | rfl <;> decide
        have hone : Text.depthFrom '[' ']' 0 (test.text ++ ['[']) = 1 := by
          rw [Text.depthFrom_append, (htest test).brackets.depthFrom_eq]
          decide
        have hsplit : test.text ++ '[' :: (w ++ t ++ w') ++ [']']
            = (test.text ++ ['[']) ++ (w ++ t ++ w') ++ [']'] := by simp
        rw [hsplit]
        refine ((Text.Guarded.of_not_mem (hfree test mark hm) 0).append
          (.of_not_mem hopen _)).append ?_ |>.append (.of_not_mem hclose _)
        rw [hone]
        exact hin.brackets.guarded (by decide)

/-- The step that a node test is parsed to, with a predicate. -/
def ElementTest.pathStep (predicate : Option (List Char)) : ElementTest → PathStep
  | .any => ⟨['*'], none, predicate⟩
  | .named t => ⟨t.localName, t.pfx, predicate⟩

/-- What a step is parsed to. -/
structure Step.ReadAs (st : Step) (ps : PathStep) : Prop where
  test : ps = st.test.pathStep ps.predicate
  predicate : match st.predicate with
    | none => ps.predicate = none
    | some p => ∃ w s w', Text.IsBlank w ∧ Text.IsBlank w' ∧ p.Spells s
        ∧ ps.predicate = some (w ++ s ++ w')

theorem pathStepOf_named (t : NameTest) (predicate : Option (List Char)) :
    pathStepOf t.text predicate = ⟨t.localName, t.pfx, predicate⟩ := by
  have hne : t.text ≠ ['*'] := by
    intro h
    exact t.not_mem (d := '*') (by decide) (by decide) (by rw [h]; exact List.mem_cons_self)
  rw [pathStepOf, if_neg hne, t.splitOnce_text]
  unfold NameTest.text
  cases t.pfx <;> rfl

theorem pathStepOf_text (test : ElementTest) (predicate : Option (List Char)) :
    pathStepOf test.text predicate = test.pathStep predicate := by
  cases test with
  | any => rfl
  | named t => exact pathStepOf_named t predicate

theorem ElementTest.predicate_pathStep (test : ElementTest) (predicate : Option (List Char)) :
    (test.pathStep predicate).predicate = predicate := by
  cases test <;> rfl

theorem Step.Spells.parse {st : Step} {s : List Char} (h : st.Spells s) :
    ∃ ps, parsePathStep s = .ok ps ∧ st.ReadAs ps := by
  cases h with
  | bare test =>
      have hnone : Text.splitOnce ['['] test.text = none :=
        Text.splitOnce_eq_none (test.not_mem (by decide))
      refine ⟨test.pathStep none, ?_, ?_, ?_⟩
      · unfold parsePathStep
        rw [hnone]
        exact congrArg Except.ok (pathStepOf_text test none)
      · rw [ElementTest.predicate_pathStep]
      · exact ElementTest.predicate_pathStep test none
  | @filtered test p t w w' hw hw' hp =>
      have hsplit : Text.splitOnce ['['] (test.text ++ '[' :: (w ++ t ++ w') ++ [']'])
          = some (test.text, w ++ t ++ w' ++ [']']) := by
        have hmark := Text.splitOnce_marker '[' [] (w ++ t ++ w' ++ [']'])
        rw [List.cons_append, List.nil_append] at hmark
        rw [List.append_assoc, List.cons_append, Text.splitOnce_append (test.not_mem (by decide)),
          hmark, Option.map_some, List.append_nil]
      refine ⟨test.pathStep (some (w ++ t ++ w')), ?_, ?_, w, t, w', hw, hw', hp, ?_⟩
      · unfold parsePathStep
        rw [hsplit]
        dsimp only
        rw [Text.stripSuffix?_append]
        exact congrArg Except.ok (pathStepOf_text test _)
      · rw [ElementTest.predicate_pathStep]
      · exact ElementTest.predicate_pathStep test _

/-! ## Paths -/

/-- **Slashes between steps split a path.** -/
theorem Step.SpellsPath.split {sts : List Step} {s : List Char} (h : SpellsPath sts s)
    (ha : ∀ st ∈ sts, ∀ a ∈ st.attrTests, a.literal.Matched) :
    ∃ pss, parseXPathPathSteps s = .ok pss ∧ List.Forall₂ Step.ReadAs sts pss := by
  unfold parseXPathPathSteps
  induction h with
  | @one st s h =>
      have ht := h.text (ha st List.mem_cons_self)
      obtain ⟨ps, hps, hread⟩ := h.parse
      have hpass := @splitStepsFrom_pass _ _ [] (ht.guarded '/' (Or.inl rfl)) []
      have hsplit : splitStepsFrom 0 [] s = [s] := by
        rw [List.append_nil, List.append_nil] at hpass
        rw [hpass, splitStepsFrom, if_neg (by simpa using ht.solid.ne_nil), List.reverse_reverse]
      refine ⟨[ps], ?_, .cons hread .nil⟩
      rw [hsplit, List.mapM_cons, hps]
      rfl
  | @cons st sts s t h _ ih =>
      have ht := h.text (ha st List.mem_cons_self)
      obtain ⟨ps, hps, hread⟩ := h.parse
      obtain ⟨pss, hpss, hreads⟩ := ih fun st hst => ha st (List.mem_cons_of_mem _ hst)
      have hsplit : splitStepsFrom 0 [] (s ++ '/' :: t) = s :: splitStepsFrom 0 [] t := by
        rw [splitStepsFrom_pass (ht.guarded '/' (Or.inl rfl)), ht.matched.bracketsFrom_eq,
          splitStepsFrom, if_pos ⟨rfl, rfl⟩, List.append_nil, List.reverse_reverse]
      refine ⟨ps :: pss, ?_, .cons hread hreads⟩
      rw [hsplit, List.mapM_cons, hps]
      show (do let ys ← (splitStepsFrom 0 [] t).mapM parsePathStep; _) = _
      rw [hpss]
      rfl

theorem Step.SpellsPath.text {sts : List Step} {s : List Char} (h : SpellsPath sts s)
    (ha : ∀ st ∈ sts, ∀ a ∈ st.attrTests, a.literal.Matched) :
    Text.Solid s ∧ Matched s ∧ Text.Guarded '[' ']' '|' 0 s := by
  induction h with
  | @one st s h =>
      have ht := h.text (ha st List.mem_cons_self)
      exact ⟨ht.solid, ht.matched, ht.guarded '|' (Or.inr rfl)⟩
  | @cons st sts s t h _ ih =>
      have ht := h.text (ha st List.mem_cons_self)
      obtain ⟨hsolid, hm, hg⟩ := ih fun st hst => ha st (List.mem_cons_of_mem _ hst)
      have hslash : Matched ['/'] := .of_not_mem (by decide)
      refine ⟨?_, ht.matched.append (hslash.append hm), ?_⟩
      · have := ht.solid.append hsolid ['/']
        rwa [List.append_assoc] at this
      · refine (ht.guarded '|' (Or.inr rfl)).append ?_
        rw [ht.matched.brackets.depthFrom_eq]
        exact (Text.Guarded.of_not_mem (s := ['/']) (by decide) 0).append hg

/-- What the search for the bar of a union has to know about the text of a path. -/
theorem Path.Spells.text {p : Path} {s : List Char} (h : p.Spells s)
    (ha : ∀ a ∈ p.attrTests, a.literal.Matched) :
    Text.Solid s ∧ Matched s ∧ Text.Guarded '[' ']' '|' 0 s := by
  cases h with
  | root => exact ⟨.of_word (by decide) (by decide), .of_not_mem (by decide), .of_not_mem (by decide) 0⟩
  | anywhere t =>
      have hm : Matched "//".toList := .of_not_mem (by decide)
      have hbar : '|' ∉ t.text := (ElementTest.named t).not_mem (by decide)
      refine ⟨.of_word (by simp) ?_, hm.append (matched_nameTest t), .of_not_mem ?_ 0⟩
      · intro c hc
        rcases List.mem_append.mp hc with hc | hc
        · have hslash : ∀ c ∈ "//".toList, Text.isWhitespace c = false := by decide
          exact hslash c hc
        · exact t.not_whitespace hc
      · intro hc
        rcases List.mem_append.mp hc with hc | hc
        · exact absurd hc (by decide)
        · exact hbar hc
  | @steps sts s h =>
      obtain ⟨hsolid, hm, hg⟩ := h.text fun st hst a hmem =>
        ha a (List.mem_flatMap.mpr ⟨st, hst, hmem⟩)
      have hslash : Matched ['/'] := .of_not_mem (by simp)
      have hone : Text.Solid ['/'] := .of_word (by decide) (List.forall_mem_singleton.mpr (by decide))
      refine ⟨?_, hslash.append hm, (Text.Guarded.of_not_mem (s := ['/']) (by decide) 0).append hg⟩
      have := hone.append hsolid []
      rwa [List.append_nil] at this

end XPath

end Bergshamra
