import Bergshamra.Proof.BoolParse

/-!
# The atoms of boolean expressions

What the scanner needs to know of a spelled atom, and what the parser and the
evaluator make of it. `Atom.Plain` keeps out the literals that the parser does
not read back, `Atom.ReadAt` the nodes at which the evaluator gives an atom
another value than XPath does.
-/

namespace Bergshamra

namespace XPath

/-! ## Operators -/

/-- The first letter of a connective. -/
def Connective.head : Connective → Char
  | .and => 'a'
  | .or => 'o'

/-- The rest of it, with the space after it. -/
def Connective.tail : Connective → List Char
  | .and => "nd ".toList
  | .or => "r ".toList

theorem Connective.text_eq (op : Connective) : op.text = ' ' :: op.head :: op.tail := by
  cases op with
  | and => rfl
  | or => rfl

theorem Connective.head_not_whitespace (op : Connective) : Text.isWhitespace op.head = false := by
  cases op with
  | and => decide
  | or => decide

/-- No connective begins a text. -/
def Starts (s : List Char) : Prop :=
  ∀ (op : Connective) (rest : List Char),
    Text.stripPrefix? (op.head :: op.tail) (s ++ rest) = none

theorem Starts.append {s : List Char} (h : Starts s) (t : List Char) : Starts (s ++ t) := by
  intro op rest
  rw [List.append_assoc]
  exact h op (t ++ rest)

theorem Starts.of_head {c : Char} (ha : 'a' ≠ c) (ho : 'o' ≠ c) (s : List Char) :
    Starts (c :: s) := by
  intro op rest
  rw [List.cons_append]
  cases op with
  | and => exact stripPrefix?_of_ne ha ..
  | or => exact stripPrefix?_of_ne ho ..

/-- White space is passed over where an operand follows. -/
theorem passes_blank (op : Connective) {w s : List Char} (hw : Text.IsBlank w) (hs : Starts s)
    (d : Int) (rest : List Char) : Passes op.text d w (s ++ rest) := by
  rw [op.text_eq]
  exact Passes.of_blank op.head_not_whitespace hw (hs op rest) d

theorem passes_word (op : Connective) {s : List Char} (h : ' ' ∉ s) (d : Int) (rest : List Char) :
    Passes op.text d s rest := by
  rw [op.text_eq]
  exact Passes.of_not_mem h d rest

/-- What the scanner needs to know of an operand. -/
structure Operand (s : List Char) : Prop where
  solid : Text.Solid s
  closed : Closed s
  starts : Starts s
  passes : ∀ (op : Connective) (rest : List Char), Passes op.text 0 s rest

theorem Operand.of_word {c : Char} {s : List Char} (ha : 'a' ≠ c) (ho : 'o' ≠ c)
    (hword : ∀ d ∈ c :: s, Text.isWhitespace d = false) (hclosed : Closed (c :: s)) :
    Operand (c :: s) where
  solid := Text.Solid.of_word (by simp) hword
  closed := hclosed
  starts := Starts.of_head ha ho s
  passes op rest := by
    refine passes_word op (fun hc => ?_) 0 rest
    have hspace := hword _ hc
    revert hspace
    decide

/-! ## Literals -/

/-- The parser reads the literal back: its white space is single spaces, it has no parentheses
and no operator, and no quotes of the other kind at its ends. -/
structure Literal.Plain (l : Literal) : Prop where
  spaced : Text.normalizeSpace l.text = l.text
  noParens : NoParens l.content
  noOperator : ∀ op : Connective, Text.splitOnce op.text l.text = none
  unquoted : l.quote = '"' → apostrophe ∉ l.content.head? ∧ apostrophe ∉ l.content.getLast?

namespace Literal

theorem solid (l : Literal) : Text.Solid l.text := by
  have hquote : Text.isWhitespace l.quote = false := by
    rcases l.isQuote with h | h
    · rw [h]; decide
    · rw [h]; decide
  refine ⟨by simp [text], ?_, ?_⟩
  · intro c hc
    have hcq : l.quote = c := by simpa [text] using hc
    rw [← hcq]
    exact hquote
  · intro c hc
    have hcq : l.quote = c := by
      rw [text, List.getLast?_append_of_ne_nil _ (by simp)] at hc
      simpa using hc
    rw [← hcq]
    exact hquote

theorem Plain.closed {l : Literal} (h : l.Plain) : Closed l.text := by
  have hopen : '(' ≠ l.quote := by
    rcases l.isQuote with hq | hq
    · rw [hq]; decide
    · rw [hq]; decide
  have hclose : ')' ≠ l.quote := by
    rcases l.isQuote with hq | hq
    · rw [hq]; decide
    · rw [hq]; decide
  refine NoParens.closed ⟨?_, ?_⟩
  · simp [text, hopen, h.noParens.1]
  · simp [text, hclose, h.noParens.2]

/-- **The parser reads a plain literal back.** -/
theorem Plain.unquote_eq {l : Literal} (h : l.Plain) {w : List Char} (hw : Text.IsBlank w) :
    unquote (w ++ l.text) = l.value := by
  rw [unquote, Text.trim_padded_left hw l.solid, value]
  congr 1
  have hback : Text.trimMatches l.quote l.text = l.content := Text.trimMatches_quoted l.not_mem
  by_cases hq : l.quote = '"'
  · rw [← hq, hback]
    obtain ⟨hhead, hlast⟩ := h.unquoted hq
    exact Text.trimMatches_of_ends hhead hlast
  · -- the outer trimming looks for the other quote
    have hapos : l.quote = apostrophe := by
      rcases l.isQuote with hd | ha
      · exact absurd hd hq
      · exact ha
    have hhead : '"' ∉ l.text.head? := by
      intro hc
      have hcq : l.quote = '"' := by simpa [text] using hc
      exact hq hcq
    have hlast : '"' ∉ l.text.getLast? := by
      intro hc
      rw [text, List.getLast?_append_of_ne_nil _ (by simp)] at hc
      have hcq : l.quote = '"' := by simpa using hc
      exact hq hcq
    rw [Text.trimMatches_of_ends hhead hlast, ← hback, hapos]
    rfl

end Literal

/-! ## Atoms are operands -/

/-- What the parser reads back. -/
def Atom.Plain : Atom → Prop
  | .compare _ _ literal => literal.Plain
  | _ => True

theorem Literal.Plain.passes {l : Literal} (h : l.Plain) (op : Connective) (d : Int)
    (rest : List Char) : Passes op.text d l.text rest := by
  have hquote : l.quote ∉ op.text := by
    rcases l.isQuote with hq | hq
    · rw [hq]; cases op <;> decide
    · rw [hq]; cases op <;> decide
  exact Passes.of_no_sub hquote (h.noOperator op) d rest

theorem Literal.starts (l : Literal) : Starts l.text := by
  rcases l.isQuote with hq | hq
  · rw [Literal.text, hq]
    exact Starts.of_head (by decide) (by decide) _
  · rw [Literal.text, hq]
    exact Starts.of_head (by decide) (by decide) _

theorem Comparison.starts (cmp : Comparison) : Starts cmp.text := by
  cases cmp with
  | eq => exact Starts.of_head (by decide) (by decide) []
  | neq => exact Starts.of_head (c := '!') (by decide) (by decide) ['=']

theorem Number.operand (v : Number) : Operand v.text := by
  obtain ⟨c, t, htext, hc⟩ := v.exists_head
  have hall : ∀ d ∈ v.text, d.isDigit = true ∨ d = '.' := by
    intro d hd
    have hdigits := v.digits
    unfold Number.text at hd
    cases hf : v.fraction with
    | none =>
        rw [hf] at hd hdigits
        exact Or.inl (hdigits d (List.mem_append_left _ hd))
    | some f =>
        rw [hf] at hd hdigits
        rcases List.mem_append.mp hd with hd | hd
        · exact Or.inl (hdigits d (List.mem_append_left _ hd))
        · rcases List.mem_cons.mp hd with rfl | hd
          · exact Or.inr rfl
          · exact Or.inl (hdigits d (List.mem_append_right _ hd))
  have hne : ∀ {d e : Char}, d ∈ v.text → e.isDigit = false → '.' ≠ e → e ≠ d := by
    rintro d e hd he hdot rfl
    rcases hall _ hd with hdigit | hpoint
    · rw [he] at hdigit
      cases hdigit
    · exact hdot hpoint.symm
  have hword : ∀ d ∈ v.text, Text.isWhitespace d = false := by
    intro d hd
    rcases hall d hd with hdigit | rfl
    · simp only [Char.isDigit, Bool.and_eq_true, decide_eq_true_eq, UInt32.le_iff_toNat_le,
        ge_iff_le] at hdigit
      have h0 : '0'.val.toNat = 48 := rfl
      have h9 : '9'.val.toNat = 57 := rfl
      have hn : d.toNat = d.val.toNat := rfl
      simp only [Text.isWhitespace, Bool.or_eq_false_iff, Bool.and_eq_false_iff,
        decide_eq_false_iff_not, beq_eq_false_iff_ne]
      omega
    · decide
  have hmem : c ∈ v.text := by rw [htext]; exact List.mem_cons_self
  have hclosed : Closed v.text := by
    refine NoParens.closed ⟨fun h => ?_, fun h => ?_⟩
    · exact hne h (by decide) (by decide) rfl
    · exact hne h (by decide) (by decide) rfl
  have ha := hne hmem (e := 'a') (by decide) (by decide)
  have ho := hne hmem (e := 'o') (by decide) (by decide)
  rw [htext] at hword hclosed ⊢
  exact Operand.of_word ha ho hword hclosed

/-- A delimiter other than the colon is not in a name test. -/
theorem NameTest.not_mem_text (t : NameTest) {d : Char} (hd : d ∈ nameDelimiters) (hne : d ≠ ':') :
    d ∉ t.text := by
  intro hmem
  unfold NameTest.text at hmem
  cases hp : t.pfx with
  | none =>
      rw [hp] at hmem
      exact t.isXPathName_localName.ne_of_delimiter hd hmem
  | some p =>
      rw [hp] at hmem
      rcases List.mem_append.mp hmem with hmem | hmem
      · exact (t.isXPathName_pfx p (by rw [hp]; rfl)).ne_of_delimiter hd hmem
      · rcases List.mem_cons.mp hmem with hcolon | hmem
        · exact hne hcolon
        · exact t.isXPathName_localName.ne_of_delimiter hd hmem

theorem nameTest_operand (axis : Axis) (t : NameTest) : Operand (axis.text ++ t.text) := by
  have hword : ∀ c ∈ axis.text ++ t.text, Text.isWhitespace c = false := by
    intro c hc
    have haxis : ∀ c ∈ axis.text, Text.isWhitespace c = false := by cases axis <;> decide
    rcases List.mem_append.mp hc with hc | hc
    · exact haxis c hc
    · exact t.not_whitespace hc
  have hclosed : Closed (axis.text ++ t.text) := by
    have haxis : Closed axis.text := by cases axis <;> rfl
    have htest : NoParens t.text :=
      ⟨NameTest.not_mem_text t (by decide) (by decide),
        NameTest.not_mem_text t (by decide) (by decide)⟩
    exact haxis.append htest.closed
  have hne : axis.text ++ t.text ≠ [] := by
    intro hnil
    exact t.text_ne_nil (List.append_eq_nil_iff.mp hnil).2
  refine ⟨Text.Solid.of_word hne hword, hclosed, ?_, ?_⟩
  · refine Starts.append ?_ t.text
    cases axis with
    | self => exact Starts.of_head (c := 's') (by decide) (by decide) "elf::".toList
    | parent => exact Starts.of_head (c := 'p') (by decide) (by decide) "arent::".toList
    | ancestorOrSelf =>
        -- it begins like `and`, but for one letter
        intro op rest
        cases op with
        | and => rfl
        | or => rfl
  · intro op rest
    refine passes_word op (fun hc => ?_) 0 rest
    have hspace := hword _ hc
    revert hspace
    decide

theorem compare_operand (fn : NameFunction) (cmp : Comparison) {l : Literal} (hl : l.Plain)
    {w w' : List Char} (hw : Text.IsBlank w) (hw' : Text.IsBlank w') :
    Operand (fn.text ++ w ++ (cmp.text ++ w' ++ l.text)) := by
  have hfnSolid : Text.Solid fn.text := by
    cases fn
    · exact Text.Solid.of_word (by decide) (by decide)
    · exact Text.Solid.of_word (by decide) (by decide)
  have hfnClosed : Closed fn.text := by cases fn <;> rfl
  have hcmpClosed : Closed cmp.text := by cases cmp <;> rfl
  have hwClosed := (NoParens.of_blank hw).closed
  have hw'Closed := (NoParens.of_blank hw').closed
  refine ⟨?_, ?_, ?_, ?_⟩
  · have hsolid := hfnSolid.append l.solid (w ++ cmp.text ++ w')
    simpa only [List.append_assoc] using hsolid
  · exact (hfnClosed.append hwClosed).append ((hcmpClosed.append hw'Closed).append hl.closed)
  · rw [List.append_assoc]
    refine Starts.append ?_ _
    cases fn with
    | name => exact Starts.of_head (c := 'n') (by decide) (by decide) "ame()".toList
    | namespaceUri => exact Starts.of_head (c := 'n') (by decide) (by decide) "amespace-uri()".toList
  · intro op rest
    have hfn : ∀ r, Passes op.text 0 fn.text r := fun r =>
      passes_word op (by cases fn <;> decide) 0 r
    have hcmp : ∀ r, Passes op.text 0 cmp.text r := fun r =>
      passes_word op (by cases cmp <;> decide) 0 r
    refine Passes.append (Passes.append (hfn _) ?_) ?_
    · rw [hfnClosed.depthAfter_eq, List.append_assoc, List.append_assoc]
      exact passes_blank op hw cmp.starts 0 _
    · rw [(hfnClosed.append hwClosed).depthAfter_eq]
      refine Passes.append (Passes.append (hcmp _) ?_) ?_
      · rw [hcmpClosed.depthAfter_eq]
        exact passes_blank op hw' l.starts 0 _
      · rw [(hcmpClosed.append hw'Closed).depthAfter_eq]
        exact hl.passes op 0 rest

/-- What is in parentheses is passed over. -/
theorem passes_paren (op : Connective) {inner : List Char} (h : Closed inner) (rest : List Char) :
    Passes op.text 0 ('(' :: inner ++ [')']) rest := by
  have hopen : parenDepth 0 '(' = 1 := rfl
  have hclose : Passes op.text 1 [')'] rest := passes_word op (by decide) 1 rest
  rw [List.cons_append]
  refine Passes.cons (Or.inl (by rw [hopen]; omega)) ?_
  rw [hopen]
  refine Passes.append (Passes.of_closed h (by omega) _) ?_
  rw [h.depthAfter_eq]
  exact hclose

theorem depthOdd_operand {w₁ w₂ w₃ w₄ : List Char} (h₁ : Text.IsBlank w₁) (h₂ : Text.IsBlank w₂)
    (h₃ : Text.IsBlank w₃) (h₄ : Text.IsBlank w₄) :
    Operand ("(count(ancestor-or-self::node())".toList ++ w₁
      ++ ("mod".toList ++ w₂ ++ ("2)".toList ++ w₃ ++ (['='] ++ w₄ ++ ['1'])))) := by
  -- what is in the brackets, and what follows them
  have hparts : "(count(ancestor-or-self::node())".toList ++ w₁
      ++ ("mod".toList ++ w₂ ++ ("2)".toList ++ w₃ ++ (['='] ++ w₄ ++ ['1'])))
      = ('(' :: ("count(ancestor-or-self::node())".toList ++ w₁ ++ ("mod".toList ++ w₂ ++ ['2']))
          ++ [')']) ++ (w₃ ++ (['='] ++ w₄ ++ ['1'])) := by
    have hfront : "(count(ancestor-or-self::node())".toList
        = '(' :: "count(ancestor-or-self::node())".toList := rfl
    have htwo : "2)".toList = ['2', ')'] := rfl
    rw [hfront, htwo]
    simp only [List.append_assoc, List.cons_append, List.nil_append]
  have hcount : Closed "count(ancestor-or-self::node())".toList := rfl
  have hinner : Closed ("count(ancestor-or-self::node())".toList ++ w₁
      ++ ("mod".toList ++ w₂ ++ ['2'])) :=
    (hcount.append (NoParens.of_blank h₁).closed).append
      (Closed.append (Closed.append rfl (NoParens.of_blank h₂).closed) rfl)
  have hw₃ := (NoParens.of_blank h₃).closed
  have hw₄ := (NoParens.of_blank h₄).closed
  have hequals : Starts ['='] := Starts.of_head (by decide) (by decide) []
  have hone : Starts ['1'] := Starts.of_head (by decide) (by decide) []
  rw [hparts]
  refine ⟨?_, ?_, ?_, ?_⟩
  · have hparen : Text.Solid ['('] := Text.Solid.of_word (by simp) (by decide)
    have hdigit : Text.Solid ['1'] := Text.Solid.of_word (by simp) (by decide)
    have hsolid := hparen.append hdigit (("count(ancestor-or-self::node())".toList ++ w₁
      ++ ("mod".toList ++ w₂ ++ ['2'])) ++ [')'] ++ (w₃ ++ (['='] ++ w₄)))
    simpa only [List.append_assoc, List.cons_append, List.nil_append] using hsolid
  · exact hinner.paren.append (hw₃.append (Closed.append (Closed.append rfl hw₄) rfl))
  · exact Starts.of_head (by decide) (by decide) _
  · intro op rest
    have heq : ∀ r, Passes op.text 0 ['='] r := fun r => passes_word op (by decide) 0 r
    have hdigit : ∀ r, Passes op.text 0 ['1'] r := fun r => passes_word op (by decide) 0 r
    refine Passes.append (passes_paren op hinner _) ?_
    rw [hinner.paren.depthAfter_eq]
    refine Passes.append ?_ ?_
    · rw [List.append_assoc, List.append_assoc]
      exact passes_blank op h₃ hequals 0 _
    · rw [hw₃.depthAfter_eq]
      refine Passes.append (Passes.append (heq _) ?_) ?_
      · exact passes_blank op h₄ hone 0 _
      · have hdepth : depthAfter 0 (['='] ++ w₄) = 0 :=
          (Closed.append (s := ['=']) rfl hw₄).depthAfter_eq 0
        rw [hdepth]
        exact hdigit rest

/-- **A spelled atom is an operand.** -/
theorem Atom.Spells.operand {a : Atom} {s : List Char} (h : a.Spells s) (hp : a.Plain) :
    Operand s := by
  cases h with
  | number v => exact v.operand
  | nameTest axis test => exact nameTest_operand axis test
  | selfText =>
      exact Operand.of_word (c := 's') (s := "elf::text()".toList) (by decide) (by decide)
        (by decide) rfl
  | hasAttributes =>
      exact Operand.of_word (c := '@') (s := ['*']) (by decide) (by decide) (by decide) rfl
  | compare fn cmp literal hw hw' => exact compare_operand fn cmp hp hw hw'
  | depthOdd h₁ h₂ h₃ h₄ => exact depthOdd_operand h₁.1 h₂.1 h₃.1 h₄.1

/-! ## What the parser makes of an atom -/

/-- A text that begins otherwise than a word. -/
theorem ne_word {a c : Char} {word : List Char} (hw : word.head? = some a) (h : a ≠ c)
    (s : List Char) : c :: s ≠ word := by
  rintro rfl
  exact h (Option.some.inj hw).symm

theorem stripPrefix?_word {a c : Char} {word : List Char} (hw : word.head? = some a) (h : a ≠ c)
    (s : List Char) : Text.stripPrefix? word (c :: s) = none := by
  cases word with
  | nil => cases hw
  | cons b word =>
      obtain rfl := Option.some.inj hw
      exact stripPrefix?_of_ne h ..

/-- Past the arms for axes. -/
theorem parseStep_of_head {c : Char} (hs : 's' ≠ c) (ha : 'a' ≠ c) (hp : 'p' ≠ c) (hat : '@' ≠ c)
    (scope : Node) (s : List Char) : parseStep scope (c :: s) = parseTests (c :: s) := by
  have htext : c :: s ≠ "self::text()".toList := ne_word rfl hs s
  have hattr : c :: s ≠ "@*".toList := ne_word rfl hat s
  have hself : Text.stripPrefix? "self::".toList (c :: s) = none := stripPrefix?_word rfl hs s
  have hanc : Text.stripPrefix? "ancestor-or-self::".toList (c :: s) = none :=
    stripPrefix?_word rfl ha s
  have hpar : Text.stripPrefix? "parent::".toList (c :: s) = none := stripPrefix?_word rfl hp s
  rw [parseStep, if_neg htext, if_neg hattr, hself]
  dsimp only
  rw [hanc]
  dsimp only
  rw [parseParent, hpar]

/-- The test of an axis for a resolved name. -/
def Axis.parsed (nsUri localName : String) : Axis → XPathBoolExpr
  | .self => .selfElement nsUri localName
  | .parent => .parentIs nsUri localName
  | .ancestorOrSelf => .ancestorOrSelf nsUri localName

/-- A name has no parentheses, so it is none of the node tests. -/
theorem text_ne_call (t : NameTest) {word : List Char} (hw : '(' ∈ word) : t.text ≠ word := by
  rintro rfl
  exact NameTest.not_mem_text t (by decide) (by decide) hw

theorem resolve_parsed (t : NameTest) (scope : Node) (f : String → String → XPathBoolExpr) :
    (resolvePrefixedName t.text scope).map (fun r => f r.1 r.2)
      = (t.uri? scope).map (fun uri => f uri (String.ofList t.localName)) := by
  rw [resolvePrefixedName_text, Option.map_map]
  rfl

theorem parseStep_self (t : NameTest) (scope : Node) :
    parseStep scope ("self::".toList ++ t.text)
      = (t.uri? scope).map (fun uri => .selfElement uri (String.ofList t.localName)) := by
  have htext : "self::".toList ++ t.text ≠ "self::text()".toList := by
    have hsplit : "self::text()".toList = "self::".toList ++ "text()".toList := rfl
    rw [hsplit]
    exact fun heq => text_ne_call t (by decide) (List.append_cancel_left heq)
  have hattr : "self::".toList ++ t.text ≠ "@*".toList := ne_word rfl (by decide) _
  have hstrip : Text.stripPrefix? "self::".toList ("self::".toList ++ t.text) = some t.text :=
    Text.stripPrefix?_append _ _
  have hcalls : t.text ≠ "text()".toList ∧ t.text ≠ "node()".toList :=
    ⟨text_ne_call t (by decide), text_ne_call t (by decide)⟩
  rw [parseStep, if_neg htext, if_neg hattr, hstrip]
  dsimp only
  rw [if_pos hcalls]
  exact resolve_parsed t scope .selfElement

theorem parseStep_parent (t : NameTest) (scope : Node) :
    parseStep scope ("parent::".toList ++ t.text)
      = (t.uri? scope).map (fun uri => .parentIs uri (String.ofList t.localName)) := by
  have htext : "parent::".toList ++ t.text ≠ "self::text()".toList := ne_word rfl (by decide) _
  have hattr : "parent::".toList ++ t.text ≠ "@*".toList := ne_word rfl (by decide) _
  have hself : Text.stripPrefix? "self::".toList ("parent::".toList ++ t.text) = none :=
    stripPrefix?_word rfl (by decide) _
  have hanc : Text.stripPrefix? "ancestor-or-self::".toList ("parent::".toList ++ t.text) = none :=
    stripPrefix?_word rfl (by decide) _
  have hstrip : Text.stripPrefix? "parent::".toList ("parent::".toList ++ t.text) = some t.text :=
    Text.stripPrefix?_append _ _
  have hcall : t.text ≠ "node()".toList := text_ne_call t (by decide)
  rw [parseStep, if_neg htext, if_neg hattr, hself]
  dsimp only
  rw [hanc]
  dsimp only
  rw [parseParent, hstrip]
  dsimp only
  rw [if_pos hcall]
  exact resolve_parsed t scope .parentIs

theorem parseStep_ancestorOrSelf (t : NameTest) (scope : Node) :
    parseStep scope ("ancestor-or-self::".toList ++ t.text)
      = (t.uri? scope).map (fun uri => .ancestorOrSelf uri (String.ofList t.localName)) := by
  have htext : "ancestor-or-self::".toList ++ t.text ≠ "self::text()".toList :=
    ne_word rfl (by decide) _
  have hattr : "ancestor-or-self::".toList ++ t.text ≠ "@*".toList := ne_word rfl (by decide) _
  have hself : Text.stripPrefix? "self::".toList ("ancestor-or-self::".toList ++ t.text) = none :=
    stripPrefix?_word rfl (by decide) _
  have hstrip : Text.stripPrefix? "ancestor-or-self::".toList
      ("ancestor-or-self::".toList ++ t.text) = some t.text := Text.stripPrefix?_append _ _
  rw [parseStep, if_neg htext, if_neg hattr, hself]
  dsimp only
  rw [hstrip]
  exact resolve_parsed t scope .ancestorOrSelf

theorem parseStep_nameTest (axis : Axis) (t : NameTest) (scope : Node) :
    parseStep scope (axis.text ++ t.text)
      = (t.uri? scope).map (fun uri => axis.parsed uri (String.ofList t.localName)) := by
  cases axis with
  | self => exact parseStep_self t scope
  | parent => exact parseStep_parent t scope
  | ancestorOrSelf => exact parseStep_ancestorOrSelf t scope

/-- One of two, by the comparison. -/
def Comparison.pick {α : Type} (eq neq : α) : Comparison → α
  | .eq => eq
  | .neq => neq

/-- The parsed form of a comparison. -/
def NameFunction.parsed (value : String) (cmp : Comparison) : NameFunction → XPathBoolExpr
  | .name => cmp.pick (.nameEq value) (.nameNeq value)
  | .namespaceUri => cmp.pick (.namespaceUriEq value) (.namespaceUriNeq value)

theorem NameFunction.word (fn : NameFunction) :
    fn.text ≠ [] ∧ ∀ c ∈ fn.text, Text.isWhitespace c = false := by
  cases fn <;> decide

theorem Comparison.word (cmp : Comparison) :
    cmp.text ≠ [] ∧ ∀ c ∈ cmp.text, Text.isWhitespace c = false := by
  cases cmp <;> decide

/-- A comparison with its white space normalized. -/
theorem normalizeSpace_compare (fn : NameFunction) (cmp : Comparison) {l : Literal} (hl : l.Plain)
    {w w' : List Char} (hw : Text.IsBlank w) (hw' : Text.IsBlank w') :
    Text.normalizeSpace (fn.text ++ w ++ (cmp.text ++ w' ++ l.text))
      = fn.text ++ (Text.gap w ++ (cmp.text ++ (Text.gap w' ++ l.text))) := by
  have hcmp : ∀ c ∈ (cmp.text ++ w' ++ l.text).head?, Text.isWhitespace c = false := by
    intro c hc
    rw [List.append_assoc, List.head?_append_of_ne_nil _ cmp.word.1] at hc
    exact cmp.word.2 c (List.mem_of_mem_head? hc)
  have hne : cmp.text ++ w' ++ l.text ≠ [] := by simp [cmp.word.1]
  rw [Text.normalizeSpace_append fn.word.2 fn.word.1 hw hcmp hne,
    Text.normalizeSpace_append cmp.word.2 cmp.word.1 hw' l.solid.head l.solid.ne_nil, hl.spaced,
    List.append_assoc, List.append_assoc]

/-- What `parse_xpath_bool_expr` makes of the comparison with a function. -/
theorem parseComparison_compare (fn : NameFunction) (cmp : Comparison) {l : Literal}
    (hl : l.Plain) {w w' : List Char} (hw : Text.IsBlank w) (hw' : Text.IsBlank w')
    (neq eq : String → XPathBoolExpr) :
    parseComparison fn.text neq eq (fn.text ++ w ++ (cmp.text ++ w' ++ l.text))
      = some (cmp.pick (eq l.value) (neq l.value)) := by
  have hcmpSolid : Text.Solid cmp.text := Text.Solid.of_word cmp.word.1 cmp.word.2
  have htrim : Text.trim (Text.gap w ++ (cmp.text ++ (Text.gap w' ++ l.text)))
      = cmp.text ++ (Text.gap w' ++ l.text) := by
    have hsolid := hcmpSolid.append l.solid (Text.gap w')
    rw [List.append_assoc] at hsolid
    exact Text.trim_padded_left (Text.gap_blank w) hsolid
  have hvalue := hl.unquote_eq (Text.gap_blank w')
  have hfn : Text.stripPrefix? fn.text
      (fn.text ++ (Text.gap w ++ (cmp.text ++ (Text.gap w' ++ l.text))))
      = some (Text.gap w ++ (cmp.text ++ (Text.gap w' ++ l.text))) := Text.stripPrefix?_append _ _
  rw [parseComparison, normalizeSpace_compare fn cmp hl hw hw', hfn]
  dsimp only
  rw [htrim]
  cases cmp with
  | neq =>
      have hstrip : Text.stripPrefix? "!=".toList
          (Comparison.neq.text ++ (Text.gap w' ++ l.text)) = some (Text.gap w' ++ l.text) :=
        Text.stripPrefix?_append _ _
      rw [hstrip]
      dsimp only
      rw [hvalue, Comparison.pick]
  | eq =>
      have hbang : Text.stripPrefix? "!=".toList
          (Comparison.eq.text ++ (Text.gap w' ++ l.text)) = none :=
        stripPrefix?_word rfl (by decide) _
      have hstrip : Text.stripPrefix? ['=']
          (Comparison.eq.text ++ (Text.gap w' ++ l.text)) = some (Text.gap w' ++ l.text) :=
        Text.stripPrefix?_append _ _
      rw [hbang]
      dsimp only
      rw [hstrip, Option.map_some, hvalue, Comparison.pick]

/-- The name function is not looked for in vain: the other one begins differently. -/
theorem parseComparison_other (cmp : Comparison) {l : Literal} (hl : l.Plain) {w w' : List Char}
    (hw : Text.IsBlank w) (hw' : Text.IsBlank w') (neq eq : String → XPathBoolExpr) :
    parseComparison "name()".toList neq eq
      (NameFunction.namespaceUri.text ++ w ++ (cmp.text ++ w' ++ l.text)) = none := by
  have hname : "name()".toList = ['n', 'a', 'm', 'e', '(', ')'] := by decide
  have huri : "namespace-uri()".toList
      = 'n' :: 'a' :: 'm' :: 'e' :: 's' :: "pace-uri()".toList := by decide
  have hstrip : ∀ s : List Char, Text.stripPrefix? "name()".toList
      ("namespace-uri()".toList ++ s) = none := by
    intro s
    generalize "pace-uri()".toList = tail at huri
    rw [hname, huri, List.cons_append, List.cons_append, List.cons_append, List.cons_append,
      stripPrefix?_of_eq, stripPrefix?_of_eq, stripPrefix?_of_eq, stripPrefix?_of_eq]
    exact stripPrefix?_of_ne (by decide) _ _
  have hfn : NameFunction.namespaceUri.text = "namespace-uri()".toList := rfl
  rw [parseComparison, normalizeSpace_compare .namespaceUri cmp hl hw hw', hfn, hstrip]

theorem parseStep_compare (fn : NameFunction) (cmp : Comparison) {l : Literal} (hl : l.Plain)
    {w w' : List Char} (hw : Text.IsBlank w) (hw' : Text.IsBlank w') (scope : Node) :
    parseStep scope (fn.text ++ w ++ (cmp.text ++ w' ++ l.text))
      = some (fn.parsed l.value cmp) := by
  cases fn with
  | name =>
      have hstep : parseStep scope (NameFunction.name.text ++ w ++ (cmp.text ++ w' ++ l.text))
          = parseTests (NameFunction.name.text ++ w ++ (cmp.text ++ w' ++ l.text)) :=
        parseStep_of_head (by decide) (by decide) (by decide) (by decide) scope _
      have hname : parseComparison "name()".toList .nameNeq .nameEq
          (NameFunction.name.text ++ w ++ (cmp.text ++ w' ++ l.text))
          = some (cmp.pick (.nameEq l.value) (.nameNeq l.value)) :=
        parseComparison_compare .name cmp hl hw hw' .nameNeq .nameEq
      rw [hstep, parseTests, hname]
      rfl
  | namespaceUri =>
      have hstep : parseStep scope
            (NameFunction.namespaceUri.text ++ w ++ (cmp.text ++ w' ++ l.text))
          = parseTests (NameFunction.namespaceUri.text ++ w ++ (cmp.text ++ w' ++ l.text)) :=
        parseStep_of_head (by decide) (by decide) (by decide) (by decide) scope _
      have huri : parseComparison "namespace-uri()".toList .namespaceUriNeq .namespaceUriEq
          (NameFunction.namespaceUri.text ++ w ++ (cmp.text ++ w' ++ l.text))
          = some (cmp.pick (.namespaceUriEq l.value) (.namespaceUriNeq l.value)) :=
        parseComparison_compare .namespaceUri cmp hl hw hw' .namespaceUriNeq .namespaceUriEq
      rw [hstep, parseTests, parseComparison_other cmp hl hw hw']
      dsimp only
      rw [huri]
      rfl

theorem gap_of_ne {w : List Char} (h : w ≠ []) : Text.gap w = [' '] := by
  rw [Text.gap, if_neg h]

theorem parseStep_depthOdd {w₁ w₂ w₃ w₄ : List Char} (h₁ : Text.IsBlank w₁ ∧ w₁ ≠ [])
    (h₂ : Text.IsBlank w₂ ∧ w₂ ≠ []) (h₃ : Text.IsBlank w₃ ∧ w₃ ≠ [])
    (h₄ : Text.IsBlank w₄ ∧ w₄ ≠ []) (scope : Node) :
    parseStep scope ("(count(ancestor-or-self::node())".toList ++ w₁
      ++ ("mod".toList ++ w₂ ++ ("2)".toList ++ w₃ ++ (['='] ++ w₄ ++ ['1'])))) = some .depthOdd := by
  have hfour : Text.normalizeSpace (['='] ++ w₄ ++ ['1']) = "= 1".toList := by
    have hone : ∀ c ∈ ['1'].head?, Text.isWhitespace c = false := by
      intro c hc
      cases hc
      decide
    rw [Text.normalizeSpace_append (by decide) (by decide) h₄.1 hone (by decide), gap_of_ne h₄.2]
    rfl
  have hthree : Text.normalizeSpace ("2)".toList ++ w₃ ++ (['='] ++ w₄ ++ ['1']))
      = "2) = 1".toList := by
    rw [Text.normalizeSpace_append (by decide) (by decide) h₃.1 (by intro c hc; cases hc; decide)
      (by simp), gap_of_ne h₃.2, hfour]
    rfl
  have htwo : Text.normalizeSpace ("mod".toList ++ w₂ ++ ("2)".toList ++ w₃
      ++ (['='] ++ w₄ ++ ['1']))) = "mod 2) = 1".toList := by
    rw [Text.normalizeSpace_append (by decide) (by decide) h₂.1 (by intro c hc; cases hc; decide)
      (by simp), gap_of_ne h₂.2, hthree]
    rfl
  have hnorm : Text.normalizeSpace ("(count(ancestor-or-self::node())".toList ++ w₁
      ++ ("mod".toList ++ w₂ ++ ("2)".toList ++ w₃ ++ (['='] ++ w₄ ++ ['1']))))
      = "(count(ancestor-or-self::node()) mod 2) = 1".toList := by
    rw [Text.normalizeSpace_append (by decide) (by decide) h₁.1 (by intro c hc; cases hc; decide)
      (by simp), gap_of_ne h₁.2, htwo]
    rfl
  have hstep : parseStep scope ("(count(ancestor-or-self::node())".toList ++ w₁
      ++ ("mod".toList ++ w₂ ++ ("2)".toList ++ w₃ ++ (['='] ++ w₄ ++ ['1']))))
      = parseTests ("(count(ancestor-or-self::node())".toList ++ w₁
      ++ ("mod".toList ++ w₂ ++ ("2)".toList ++ w₃ ++ (['='] ++ w₄ ++ ['1'])))) :=
    parseStep_of_head (by decide) (by decide) (by decide) (by decide) scope _
  rw [hstep, parseTests, parseComparison, parseComparison, parseFixed, hnorm]
  rfl

/-- The parsed form of an atom; a name with an unbound prefix has none. -/
def Atom.parsed? (scope : Node) : Atom → Option XPathBoolExpr
  | .number v => some (if v.truth then .true else .not .true)
  | .nameTest axis t =>
      (t.uri? scope).map (fun uri => axis.parsed uri (String.ofList t.localName))
  | .selfText => some .selfText
  | .hasAttributes => some .hasAttributes
  | .compare fn cmp l => some (fn.parsed l.value cmp)
  | .depthOdd => some .depthOdd

theorem stripNot_eq_none {s : List Char} (hs : Text.Solid s)
    (h : Text.stripPrefix? "not(".toList s = none)
    (h' : Text.stripPrefix? "not (".toList s = none) : stripNot s = none := by
  unfold stripNot
  rw [hs.trim_eq]
  simp only [h, h']

theorem stripNot_of_head {c : Char} (hn : 'n' ≠ c) {s : List Char} (hs : Text.Solid (c :: s)) :
    stripNot (c :: s) = none :=
  stripNot_eq_none hs (stripPrefix?_word rfl hn s) (stripPrefix?_word rfl hn s)

/-- The parser comes to the arms for atoms. -/
theorem parse_of_operand {s : List Char} (hs : Operand s) (hf : parseF64Nonzero? s = none)
    (hnot : stripNot s = none)
    (hparen : (Text.stripPrefix? ['('] s).bind (Text.stripSuffix? [')']) = none) (scope : Node) :
    parseXPathBoolExpr s scope = parseStep scope s :=
  parse_step hs.solid hf (splitTopLevel_of_passes (hs.passes .and []))
    (splitTopLevel_of_passes (hs.passes .or [])) hnot hparen

/-- The parser comes to the arms for atoms from a text that begins otherwise than `not` or a
parenthesis. -/
theorem parse_of_head {c : Char} {s : List Char} (hs : Operand (c :: s)) (hn : 'n' ≠ c)
    (hp : '(' ≠ c) (hf : parseF64Nonzero? (c :: s) = none) (scope : Node) :
    parseXPathBoolExpr (c :: s) scope = parseStep scope (c :: s) := by
  refine parse_of_operand hs hf (stripNot_of_head hn hs.solid) ?_ scope
  rw [stripPrefix?_of_ne hp]
  rfl

/-- **What the parser makes of a spelled atom.** -/
theorem Atom.Spells.parse_eq {a : Atom} {s : List Char} (h : a.Spells s) (hp : a.Plain)
    (scope : Node) : parseXPathBoolExpr s scope = a.parsed? scope := by
  have hoperand := h.operand hp
  cases h with
  | number v => exact parse_number hoperand.solid v.parseF64Nonzero?_text
  | nameTest axis t =>
      have hcolon : ':' ∈ axis.text ++ t.text :=
        List.mem_append_left _ (by cases axis <;> decide)
      have hf := parseF64Nonzero?_eq_none hcolon (by decide)
      refine Eq.trans ?_ (parseStep_nameTest axis t scope)
      cases axis with
      | self => exact parse_of_head hoperand (by decide) (by decide) hf scope
      | parent => exact parse_of_head hoperand (by decide) (by decide) hf scope
      | ancestorOrSelf => exact parse_of_head hoperand (by decide) (by decide) hf scope
  | selfText =>
      have hf : parseF64Nonzero? "self::text()".toList = none :=
        parseF64Nonzero?_eq_none (c := ':') (by decide) (by decide)
      have hstep : parseXPathBoolExpr "self::text()".toList scope
          = parseStep scope "self::text()".toList :=
        parse_of_head hoperand (by decide) (by decide) hf scope
      rw [hstep, parseStep, if_pos rfl]
      rfl
  | hasAttributes =>
      have hf : parseF64Nonzero? "@*".toList = none :=
        parseF64Nonzero?_eq_none (c := '@') (by decide) (by decide)
      have hstep : parseXPathBoolExpr "@*".toList scope = parseStep scope "@*".toList :=
        parse_of_head hoperand (by decide) (by decide) hf scope
      have hne : "@*".toList ≠ "self::text()".toList := ne_word rfl (by decide) _
      rw [hstep, parseStep, if_neg hne, if_pos rfl]
      rfl
  | @compare fn cmp l w w' hw hw' =>
      have hcall : '(' ∈ fn.text := by cases fn <;> decide
      have hf : parseF64Nonzero? (fn.text ++ w ++ (cmp.text ++ w' ++ l.text)) = none :=
        parseF64Nonzero?_eq_none (List.mem_append_left _ (List.mem_append_left _ hcall)) (by decide)
      have hfront : ∀ r, Text.stripPrefix? "not(".toList (fn.text ++ r) = none := by
        intro r
        cases fn with
        | name => rfl
        | namespaceUri => rfl
      have hfront' : ∀ r, Text.stripPrefix? "not (".toList (fn.text ++ r) = none := by
        intro r
        cases fn with
        | name => rfl
        | namespaceUri => rfl
      have hparen : ∀ r, Text.stripPrefix? ['('] (fn.text ++ r) = none := by
        intro r
        cases fn with
        | name => rfl
        | namespaceUri => rfl
      have hnot := stripNot_eq_none hoperand.solid
        (by rw [List.append_assoc]; exact hfront _) (by rw [List.append_assoc]; exact hfront' _)
      have hstep := parse_of_operand hoperand hf hnot
        (by rw [List.append_assoc, hparen]; rfl) scope
      rw [hstep, parseStep_compare fn cmp hp hw hw']
      rfl
  | @depthOdd w₁ w₂ w₃ w₄ h₁ h₂ h₃ h₄ =>
      have hf : parseF64Nonzero? ("(count(ancestor-or-self::node())".toList ++ w₁
          ++ ("mod".toList ++ w₂ ++ ("2)".toList ++ w₃ ++ (['='] ++ w₄ ++ ['1'])))) = none :=
        parseF64Nonzero?_eq_none (c := '(')
          (List.mem_append_left _ (List.mem_append_left _ (by decide))) (by decide)
      -- it opens with a parenthesis but does not close with one
      have hparen : (Text.stripPrefix? ['('] ("(count(ancestor-or-self::node())".toList ++ w₁
          ++ ("mod".toList ++ w₂ ++ ("2)".toList ++ w₃ ++ (['='] ++ w₄ ++ ['1']))))).bind
          (Text.stripSuffix? [')']) = none := by
        have hsplit : "(count(ancestor-or-self::node())".toList
            = ['('] ++ "count(ancestor-or-self::node())".toList := rfl
        rw [hsplit, List.append_assoc, List.append_assoc, Text.stripPrefix?_append,
          Option.bind_some, Text.stripSuffix?]
        simp only [List.reverse_append, List.reverse_cons, List.reverse_nil, List.nil_append,
          List.append_assoc, List.cons_append]
        rw [stripPrefix?_of_ne (by decide)]
        rfl
      have hnot := stripNot_of_head (by decide) hoperand.solid
      have hstep := parse_of_operand hoperand hf hnot hparen scope
      rw [hstep, parseStep_depthOdd h₁ h₂ h₃ h₄]
      rfl

/-! ## What the evaluator makes of an atom -/

/-- The evaluator gives the atom its value at a node: `self::text()` is not asked of a character
data section, nor `name()` compared with the name of a node that is neither element nor text. -/
def Atom.ReadAt (n : Node) : Atom → Prop
  | .selfText => ∀ t, n.leaf? ≠ some (.cdata t)
  | .compare .name _ l =>
      n.element?.isSome = true ∨ n.leaf?.any LeafKind.isText = true
        ∨ NameFunction.name.value n ≠ l.value
  | _ => True

theorem any_toList {α : Type} (o : Option α) (p : α → Bool) : o.toList.any p = o.any p := by
  cases o <;> simp

theorem anyNamespace_eq {t : NameTest} {scope : Node} {uri : String}
    (h : t.uri? scope = some uri) :
    anyNamespace t scope = matchesName uri (String.ofList t.localName) := by
  funext e
  rw [anyNamespace, h, Option.any_some, matchesName]

theorem Axis.eval_parsed (axis : Axis) {t : NameTest} {scope : Node} {uri : String}
    (h : t.uri? scope = some uri) (n : Node) :
    evalXPathBool n (axis.parsed uri (String.ofList t.localName))
      = (axis.elements n).any (anyNamespace t scope) := by
  rw [anyNamespace_eq h]
  cases axis with
  | self => rw [Axis.elements, any_toList]; rfl
  | parent =>
      rw [Axis.elements, any_toList, Option.any_map]
      rfl
  | ancestorOrSelf =>
      rw [Axis.elements, List.any_map]
      rfl

theorem eval_name {n : Node} {cmp : Comparison} {l : Literal}
    (hread : Atom.ReadAt n (.compare .name cmp l)) :
    evalXPathBool n (NameFunction.name.parsed l.value cmp)
      = cmp.truth (NameFunction.name.value n) l.value := by
  have hempty : l.value.isEmpty = ("" == l.value) := by
    rw [Bool.eq_iff_iff, String.isEmpty_iff, beq_iff_eq]
    exact eq_comm
  have hother : ∀ {a : String}, a ≠ l.value →
      evalXPathBool n (NameFunction.name.parsed l.value cmp) = cmp.pick false true →
      evalXPathBool n (NameFunction.name.parsed l.value cmp) = cmp.truth a l.value := by
    intro a ha heval
    rw [heval]
    cases cmp with
    | eq => exact (beq_false_of_ne ha).symm
    | neq => exact (bne_iff_ne.mpr ha).symm
  obtain ⟨key, path, item⟩ := n
  cases item with
  | node e kids => cases cmp <;> rfl
  | leaf k =>
      cases k with
      | text t =>
          cases cmp with
          | eq => exact hempty
          | neq => exact congrArg Bool.not hempty
      | cdata t =>
          rcases hread with h | h | h
          · cases h
          · cases h
          · exact hother h (by cases cmp <;> rfl)
      | comment t =>
          rcases hread with h | h | h
          · cases h
          · cases h
          · exact hother h (by cases cmp <;> rfl)
      | pi target data =>
          rcases hread with h | h | h
          · cases h
          · cases h
          · exact hother h (by cases cmp <;> rfl)

theorem eval_namespaceUri (n : Node) (cmp : Comparison) (l : Literal) :
    evalXPathBool n (NameFunction.namespaceUri.parsed l.value cmp)
      = cmp.truth (NameFunction.namespaceUri.value n) l.value := by
  have hempty : l.value.isEmpty = ("" == l.value) := by
    rw [Bool.eq_iff_iff, String.isEmpty_iff, beq_iff_eq]
    exact eq_comm
  obtain ⟨key, path, item⟩ := n
  cases item with
  | node e kids => cases cmp <;> rfl
  | leaf k =>
      cases cmp with
      | eq => exact hempty
      | neq => exact congrArg Bool.not hempty

/-- **The evaluator gives a parsed atom its truth.** -/
theorem Atom.eval_parsed {a : Atom} {scope n : Node} {x : XPathBoolExpr}
    (h : a.parsed? scope = some x) (hread : a.ReadAt n) :
    evalXPathBool n x = a.truth anyNamespace scope n := by
  cases a with
  | number v =>
      obtain rfl := Option.some.inj h
      cases hv : v.truth with
      | false => simp [evalXPathBool, Atom.truth, hv]
      | true => simp [evalXPathBool, Atom.truth, hv]
  | nameTest axis t =>
      obtain ⟨uri, huri, rfl⟩ := Option.map_eq_some_iff.mp h
      exact axis.eval_parsed huri n
  | selfText =>
      obtain rfl := Option.some.inj h
      rw [evalXPathBool, Atom.truth]
      cases hk : n.leaf? with
      | none => rfl
      | some k =>
          cases k with
          | cdata t => exact absurd hk (hread t)
          | _ => rfl
  | hasAttributes =>
      obtain rfl := Option.some.inj h
      rfl
  | compare fn cmp l =>
      obtain rfl := Option.some.inj h
      cases fn with
      | name => exact eval_name hread
      | namespaceUri => exact eval_namespaceUri n cmp l
  | depthOdd =>
      obtain rfl := Option.some.inj h
      rfl

end XPath

end Bergshamra
