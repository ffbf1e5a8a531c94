import Bergshamra.Proof.BoolAtoms

/-!
# Boolean expressions are read as XPath reads them

`eval_of_spelled`: an expression in which an `and` under an `or` stands in
parentheses is given its truth in XPath 1.0 at every node, but for names without
a prefix, which the code reads as names in any namespace.

The parser splits at the first `and` of the top level before it looks for an
`or`. In a chain of one operator that cuts off the first operand, and grouping to
the right instead of to the left does not matter; the induction is on the length
of the spelling, since what is left of the chain is not part of the expression.
-/

namespace Bergshamra

namespace XPath

namespace Expr

/-- No `and` is an operand of an `or`. -/
def AndsInParens : Expr → Prop
  | atom _ => True
  | paren e => e.AndsInParens
  | not e => e.AndsInParens
  | binary op l r =>
      l.AndsInParens ∧ r.AndsInParens ∧ (op = .or → l.rank ≠ 1 ∧ r.rank ≠ 1)

/-- Every literal is read back. -/
def Plain (e : Expr) : Prop := ∀ a ∈ e.atoms, a.Plain

/-- The evaluator gives every atom its value at the node. -/
def ReadAt (n : Node) (e : Expr) : Prop := ∀ a ∈ e.atoms, a.ReadAt n

/-! ## Spellings -/

theorem Spells.solid {e : Expr} {s : List Char} (h : e.Spells s) (hp : e.Plain) :
    Text.Solid s := by
  have hparens : ∀ (c : Char) (m : List Char), Text.isWhitespace c = false →
      Text.Solid ([c] ++ m ++ [')']) := by
    intro c m hc
    have hfront : Text.Solid [c] := Text.Solid.of_word (by simp) (by simpa using hc)
    have hclose : Text.Solid [')'] := Text.Solid.of_word (by simp) (by decide)
    exact hfront.append hclose m
  induction h with
  | atom h => exact (h.operand (hp _ List.mem_cons_self)).solid
  | paren h hw hw' ih => exact hparens '(' _ (by decide)
  | not space h hw hw' ih =>
      cases space with
      | false => exact hparens 'n' ("ot(".toList ++ _) (by decide)
      | true => exact hparens 'n' ("ot (".toList ++ _) (by decide)
  | binary op hl hr h h' hw hw' ih ih' =>
      have hsl := ih fun a ha => hp a (List.mem_append_left _ ha)
      have hsr := ih' fun a ha => hp a (List.mem_append_right _ ha)
      exact hsl.append hsr _

theorem closed_connective (op : Connective) : Closed op.text := by cases op <;> rfl

theorem Spells.closed {e : Expr} {s : List Char} (h : e.Spells s) (hp : e.Plain) : Closed s := by
  induction h with
  | atom h => exact (h.operand (hp _ List.mem_cons_self)).closed
  | paren h hw hw' ih =>
      exact (((NoParens.of_blank hw).closed.append (ih hp)).append
        (NoParens.of_blank hw').closed).paren
  | not space h hw hw' ih =>
      have hparen := (((NoParens.of_blank hw).closed.append (ih hp)).append
        (NoParens.of_blank hw').closed).paren
      have hnot : Closed "not".toList := rfl
      have hnot' : Closed "not ".toList := rfl
      cases space with
      | false => exact hnot.append hparen
      | true => exact hnot'.append hparen
  | binary op hl hr h h' hw hw' ih ih' =>
      have hcl := ih fun a ha => hp a (List.mem_append_left _ ha)
      have hcr := ih' fun a ha => hp a (List.mem_append_right _ ha)
      exact (hcl.append (((NoParens.of_blank hw).closed.append (closed_connective op)).append
        (NoParens.of_blank hw').closed)).append hcr

theorem Spells.starts {e : Expr} {s : List Char} (h : e.Spells s) (hp : e.Plain) : Starts s := by
  induction h with
  | atom h => exact (h.operand (hp _ List.mem_cons_self)).starts
  | paren h hw hw' ih => exact Starts.of_head (by decide) (by decide) _
  | not space h hw hw' ih =>
      cases space with
      | false => exact Starts.of_head (c := 'n') (by decide) (by decide) ("ot(".toList ++ _ ++ _)
      | true => exact Starts.of_head (c := 'n') (by decide) (by decide) ("ot (".toList ++ _ ++ _)
  | binary op hl hr h h' hw hw' ih ih' =>
      have hsl := ih fun a ha => hp a (List.mem_append_left _ ha)
      exact (hsl.append _).append _

/-- An expression in brackets, or an atom, is an operand. -/
theorem Spells.operand {e : Expr} {s : List Char} (h : e.Spells s) (hp : e.Plain)
    (hr : e.rank = 2) : Operand s := by
  refine ⟨h.solid hp, h.closed hp, h.starts hp, ?_⟩
  cases h with
  | atom h => exact (h.operand (hp _ List.mem_cons_self)).passes
  | paren h hw hw' =>
      intro op rest
      exact passes_paren op (((NoParens.of_blank hw).closed.append (h.closed hp)).append
        (NoParens.of_blank hw').closed) rest
  | @not e s w w' space h hw hw' =>
      intro op rest
      have hbody : Closed (w ++ s ++ w') := ((NoParens.of_blank hw).closed.append
        (h.closed hp)).append (NoParens.of_blank hw').closed
      have hparen := passes_paren op hbody rest
      have hword : ∀ r, Passes op.text 0 "not".toList r := fun r =>
        passes_word op (by decide) 0 r
      have hdepth : depthAfter 0 "not".toList = 0 := rfl
      cases space with
      | false =>
          show Passes op.text 0 ("not".toList ++ ('(' :: (w ++ s ++ w') ++ [')'])) rest
          refine Passes.append (hword _) ?_
          rw [hdepth]
          exact hparen
      | true =>
          have hblank : Text.IsBlank [' '] := by decide
          have hstarts : Starts ('(' :: (w ++ s ++ w') ++ [')']) :=
            Starts.of_head (by decide) (by decide) _
          show Passes op.text 0 ("not".toList ++ ([' '] ++ ('(' :: (w ++ s ++ w') ++ [')']))) rest
          refine Passes.append (hword _) ?_
          rw [hdepth]
          exact Passes.append (s := [' ']) (passes_blank op hblank hstarts 0 rest) hparen
  | binary op hl hr' h h' hw hw' =>
      cases op with
      | and => cases hr
      | or => cases hr

/-- In a chain of `or` no `and` is found. -/
theorem Spells.passes_and {e : Expr} {s : List Char} (h : e.Spells s) (hp : e.Plain)
    (hin : e.AndsInParens) (hr : e.rank ≠ 1) (rest : List Char) :
    Passes Connective.and.text 0 s rest := by
  induction h generalizing rest with
  | atom h => exact ((Spells.atom h).operand hp rfl).passes .and rest
  | paren h hw hw' ih => exact ((Spells.paren h hw hw').operand hp rfl).passes .and rest
  | not space h hw hw' ih => exact ((Spells.not space h hw hw').operand hp rfl).passes .and rest
  | @binary op l r s t w w' hl hr' h h' hw hw' ih ih' =>
      obtain ⟨hinl, hinr, hranks⟩ := hin
      cases op with
      | and => exact absurd rfl hr
      | or =>
          obtain ⟨hnel, hner⟩ := hranks rfl
          have hpl : l.Plain := fun a ha => hp a (List.mem_append_left _ ha)
          have hpr : r.Plain := fun a ha => hp a (List.mem_append_right _ ha)
          have hclosed := h.closed hpl
          have hcw := (NoParens.of_blank hw).closed
          have hcw' := (NoParens.of_blank hw').closed
          have hconn := closed_connective .or
          have hspace : Text.IsBlank [' '] := by decide
          have hblank : Text.IsBlank ([' '] ++ w') := by
            intro c hc
            rcases List.mem_append.mp hc with hc | hc
            · exact hspace c hc
            · exact hw' c hc
          have hor : Connective.or.text ++ w' = [' '] ++ ("or".toList ++ ([' '] ++ w')) := rfl
          have hword : ∀ r, Passes Connective.and.text 0 "or".toList r := fun r =>
            passes_word .and (by decide) 0 r
          -- before the word, white space that no `and` follows; after it, some before the operand
          have hmiddle : Passes Connective.and.text 0 (Connective.or.text ++ w') (t ++ rest) := by
            rw [hor]
            refine Passes.append (Passes.of_blank (by decide) hspace rfl 0) ?_
            have hdepth : depthAfter 0 [' '] = 0 := rfl
            rw [hdepth]
            refine Passes.append (hword _) ?_
            have hdepth' : depthAfter 0 "or".toList = 0 := rfl
            rw [hdepth']
            exact passes_blank .and hblank (h'.starts hpr) 0 rest
          have hstart : Starts (Connective.or.text ++ w') :=
            Starts.of_head (c := ' ') (by decide) (by decide) ("or ".toList ++ w')
          have hall : Passes Connective.and.text 0 (w ++ (Connective.or.text ++ w')) (t ++ rest) := by
            refine Passes.append (passes_blank .and hw hstart 0 (t ++ rest)) ?_
            rw [hcw.depthAfter_eq]
            exact hmiddle
          rw [List.append_assoc w]
          refine Passes.append (Passes.append (ih hpl hinl hnel _) ?_) ?_
          · rw [hclosed.depthAfter_eq]
            exact hall
          · rw [(hclosed.append (hcw.append (hconn.append hcw'))).depthAfter_eq]
            exact ih' hpr hinr hner rest

/-! ## Chains -/

theorem truth_assoc (op : Connective) (a b c : Bool) :
    op.truth (op.truth a b) c = op.truth a (op.truth b c) := by
  cases op with
  | and => exact Bool.and_assoc a b c
  | or => exact Bool.or_assoc a b c

theorem rank_injective {op op' : Connective} (h : op.rank = op'.rank) : op = op' := by
  cases op <;> cases op' <;> first | rfl | cases h

theorem rank_lt (op : Connective) : op.rank < 2 := by
  cases op with
  | and => decide
  | or => decide

/-- A chain cut after its first operand. -/
structure Cut (op : Connective) (e : Expr) (s : List Char) where
  first : Expr
  others : Expr
  p : List Char
  q : List Char
  w : List Char
  w' : List Char
  text_eq : s = p ++ (w ++ op.text ++ w') ++ q
  spells_first : first.Spells p
  spells_others : others.Spells q
  rank_first : op.rank < first.rank
  rank_others : op.rank ≤ others.rank
  blank : Text.IsBlank w
  blank' : Text.IsBlank w'
  atoms_eq : e.atoms = first.atoms ++ others.atoms
  truth_eq : ∀ reading scope n, e.truth reading scope n
    = op.truth (first.truth reading scope n) (others.truth reading scope n)
  inParens : e.AndsInParens → (binary op first others).AndsInParens

/-- **Every chain can be cut after its first operand.** -/
theorem Spells.exists_cut {op : Connective} {l r : Expr} {s : List Char}
    (h : (Expr.binary op l r).Spells s) : Nonempty (Cut op (Expr.binary op l r) s) := by
  induction l generalizing r s with
  | binary op' l' r' ihl _ =>
      cases h with
      | @binary _ _ _ s t w w' hl hr h h' hw hw' =>
          by_cases hlt : op.rank < op'.rank
          · exact ⟨⟨_, _, _, _, _, _, rfl, h, h', hlt, Nat.le_of_lt hr, hw, hw', rfl,
              fun _ _ _ => rfl, id⟩⟩
          · -- the left operand is a chain of the same operator
            have hsame : op' = op :=
              rank_injective (Nat.le_antisymm (Nat.le_of_not_lt hlt) hl)
            subst hsame
            obtain ⟨cut⟩ := ihl h
            refine ⟨⟨cut.first, Expr.binary op' cut.others r, cut.p, _, cut.w, cut.w', ?_,
              cut.spells_first, .binary op' cut.rank_others hr cut.spells_others h' hw hw',
              cut.rank_first, Nat.le_refl _, cut.blank, cut.blank', ?_, ?_, ?_⟩⟩
            · conv_lhs => rw [cut.text_eq]
              simp only [List.append_assoc]
            · rw [atoms, cut.atoms_eq, atoms, List.append_assoc]
            · intro reading scope n
              rw [truth, cut.truth_eq, truth, truth_assoc]
            · rintro ⟨hinl, hinr, hranks⟩
              obtain ⟨hinf, hino, hranks'⟩ := cut.inParens hinl
              refine ⟨hinf, ⟨hino, hinr, fun hor => ⟨(hranks' hor).2, (hranks hor).2⟩⟩, ?_⟩
              intro hor
              refine ⟨(hranks' hor).1, ?_⟩
              show op'.rank ≠ 1
              rw [hor]
              decide
  | atom a =>
      cases h with
      | binary _ hl hr h h' hw hw' =>
          exact ⟨⟨_, _, _, _, _, _, rfl, h, h', rank_lt op, Nat.le_of_lt hr, hw, hw', rfl,
            fun _ _ _ => rfl, id⟩⟩
  | paren e _ =>
      cases h with
      | binary _ hl hr h h' hw hw' =>
          exact ⟨⟨_, _, _, _, _, _, rfl, h, h', rank_lt op, Nat.le_of_lt hr, hw, hw', rfl,
            fun _ _ _ => rfl, id⟩⟩
  | not e _ =>
      cases h with
      | binary _ hl hr h h' hw hw' =>
          exact ⟨⟨_, _, _, _, _, _, rfl, h, h', rank_lt op, Nat.le_of_lt hr, hw, hw', rfl,
            fun _ _ _ => rfl, id⟩⟩

/-! ## Parsing -/

theorem stripNot_not (space : Bool) {body : List Char} (hbody : Closed body) {inner : List Char}
    (htrim : Text.trim body = inner)
    (hsolid : Text.Solid
      ((if space then "not (".toList else "not(".toList) ++ body ++ [')'])) :
    stripNot ((if space then "not (".toList else "not(".toList) ++ body ++ [')']) = some inner := by
  unfold stripNot
  rw [hsolid.trim_eq]
  have hbalanced : balancedFrom 0 body = true := hbody
  have hsuffix := Text.stripSuffix?_append [')'] body
  cases space with
  | false =>
      have hfront : Text.stripPrefix? "not(".toList ("not(".toList ++ (body ++ [')']))
          = some (body ++ [')']) := Text.stripPrefix?_append ..
      simp only [Bool.false_eq_true, if_false, List.append_assoc, hfront, hsuffix]
      rw [if_pos hbalanced, htrim]
  | true =>
      have hnone : Text.stripPrefix? "not(".toList ("not (".toList ++ (body ++ [')'])) = none := rfl
      have hfront : Text.stripPrefix? "not (".toList ("not (".toList ++ (body ++ [')']))
          = some (body ++ [')']) := Text.stripPrefix?_append ..
      simp only [if_true, List.append_assoc, hnone, hfront, hsuffix]
      rw [if_pos hbalanced, htrim]

/-- A chain is split after its first operand. -/
theorem Cut.split {op : Connective} {e : Expr} {s : List Char} (cut : Cut op e s) (hp : e.Plain)
    (hin : e.AndsInParens) : splitTopLevel s op.text = some (cut.p, cut.q) := by
  have hpf : cut.first.Plain := fun a ha => hp a (by
    rw [cut.atoms_eq]
    exact List.mem_append_left _ ha)
  have hpo : cut.others.Plain := fun a ha => hp a (by
    rw [cut.atoms_eq]
    exact List.mem_append_right _ ha)
  have hrank : cut.first.rank = 2 := by
    obtain ⟨_, _, hor⟩ := cut.inParens hin
    have hlt := cut.rank_first
    have hle : cut.first.rank ≤ 2 := by
      cases cut.first with
      | binary op' l r => exact Nat.le_of_lt (rank_lt op')
      | _ => exact Nat.le_refl 2
    cases op with
    | and =>
        have hand : Connective.and.rank = 1 := rfl
        omega
    | or =>
        have hne := (hor rfl).1
        have hzero : Connective.or.rank = 0 := rfl
        omega
  have hfirst := cut.spells_first.operand hpf hrank
  have htext := op.text_eq
  have hpass := hfirst.passes op (cut.w ++ op.text ++ cut.w' ++ cut.q)
  have hsplit := splitTopLevel_at (a := op.head) (p := cut.p) (q := cut.q) (by rwa [htext] at hpass)
    hfirst.closed op.head_not_whitespace hfirst.solid (cut.spells_others.solid hpo) cut.blank
    cut.blank'
  rw [← htext, ← cut.text_eq] at hsplit
  exact hsplit

/-- **Boolean expressions are read as XPath reads them**, where `and` under `or` is in parentheses
and with a name in no namespace read as one in any. -/
theorem eval_of_spelled {e : Expr} {s w w' : List Char} {scope n : Node} {x : XPathBoolExpr}
    (hspelled : e.Spells s) (hw : Text.IsBlank w) (hw' : Text.IsBlank w') (hplain : e.Plain)
    (hparens : e.AndsInParens) (hread : e.ReadAt n)
    (hparse : parseXPathBoolExpr (w ++ s ++ w') scope = some x) :
    evalXPathBool n x = e.truth anyNamespace scope n := by
  rw [parse_padded hw (hspelled.solid hplain) hw'] at hparse
  clear hw hw'
  -- on the length of the text, since a chain is cut at its first operator
  induction hlen : s.length using Nat.strongRecOn generalizing e s x with
  | ind N ih =>
      subst hlen
      cases e with
      | atom a =>
          cases hspelled with
          | atom h =>
              rw [h.parse_eq (hplain _ List.mem_cons_self)] at hparse
              exact Atom.eval_parsed hparse (hread _ List.mem_cons_self)
      | paren e =>
          have hoperand := hspelled.operand hplain rfl
          cases hspelled with
          | @paren _ t w w' h hw hw' =>
              have hf := parseF64Nonzero?_eq_none (s := '(' :: (w ++ t ++ w') ++ [')']) (c := '(')
                List.mem_cons_self (by decide)
              rw [parse_paren hoperand.solid hf (splitTopLevel_of_passes (hoperand.passes .and []))
                (splitTopLevel_of_passes (hoperand.passes .or []))
                (stripNot_of_head (by decide) hoperand.solid),
                parse_padded hw (h.solid hplain) hw'] at hparse
              show evalXPathBool n x = e.truth anyNamespace scope n
              refine ih t.length ?_ h hplain hparens hread hparse rfl
              simp only [List.length_append, List.length_cons]
              omega
      | not e =>
          have hoperand := hspelled.operand hplain rfl
          cases hspelled with
          | @not _ t w w' space h hw hw' =>
              have hclosed : Closed (w ++ t ++ w') := ((NoParens.of_blank hw).closed.append
                (h.closed hplain)).append (NoParens.of_blank hw').closed
              have hnot := stripNot_not space hclosed (Text.trim_padded hw (h.solid hplain) hw')
                hoperand.solid
              have hf := parseF64Nonzero?_eq_none
                (s := (if space then "not (".toList else "not(".toList) ++ (w ++ t ++ w') ++ [')'])
                (c := ')') (List.mem_append_right _ List.mem_cons_self) (by decide)
              rw [parse_not hoperand.solid hf (splitTopLevel_of_passes (hoperand.passes .and []))
                (splitTopLevel_of_passes (hoperand.passes .or [])) hnot,
                Option.map_eq_some_iff] at hparse
              obtain ⟨y, hy, rfl⟩ := hparse
              have hlt : t.length
                  < ((if space then "not (".toList else "not(".toList) ++ (w ++ t ++ w')
                    ++ [')']).length := by
                simp only [List.length_append, List.length_cons]
                omega
              rw [evalXPathBool, ih t.length hlt h hplain hparens hread hy rfl]
              rfl
      | binary op l r =>
          have hsolid := hspelled.solid hplain
          -- the first operator of the chain, where the parser cuts too
          obtain ⟨cut⟩ := hspelled.exists_cut
          obtain ⟨hinf, hino, hor⟩ := cut.inParens hparens
          have hsplit := cut.split hplain hparens
          have hpf : cut.first.Plain := fun a ha => hplain a (by
            rw [cut.atoms_eq]
            exact List.mem_append_left _ ha)
          have hpo : cut.others.Plain := fun a ha => hplain a (by
            rw [cut.atoms_eq]
            exact List.mem_append_right _ ha)
          have hrf : cut.first.ReadAt n := fun a ha => hread a (by
            rw [cut.atoms_eq]
            exact List.mem_append_left _ ha)
          have hro : cut.others.ReadAt n := fun a ha => hread a (by
            rw [cut.atoms_eq]
            exact List.mem_append_right _ ha)
          have hspace : ' ' ∈ s := by
            rw [cut.text_eq, op.text_eq]
            simp
          have hf := parseF64Nonzero?_eq_none hspace (by decide)
          have hlen : cut.p.length < s.length ∧ cut.q.length < s.length := by
            have htext := congrArg List.length cut.text_eq
            rw [op.text_eq] at htext
            simp only [List.length_append, List.length_cons] at htext
            omega
          cases op with
          | and =>
              obtain ⟨y, z, hy, hz, rfl⟩ := (parse_and hsolid hf hsplit).mp hparse
              rw [evalXPathBool, cut.truth_eq, ih _ hlen.1 cut.spells_first hpf hinf hrf hy rfl,
                ih _ hlen.2 cut.spells_others hpo hino hro hz rfl]
              rfl
          | or =>
              -- `and` is looked for first, and there is none outside of brackets
              have hnoand := splitTopLevel_of_passes
                (hspelled.passes_and hplain hparens (show Connective.or.rank ≠ 1 by decide) [])
              obtain ⟨y, z, hy, hz, rfl⟩ := (parse_or hsolid hf hnoand hsplit).mp hparse
              rw [evalXPathBool, cut.truth_eq, ih _ hlen.1 cut.spells_first hpf hinf hrf hy rfl,
                ih _ hlen.2 cut.spells_others hpo hino hro hz rfl]
              rfl

/-! ## A name in a namespace -/

/-- The element `a` of a namespace. -/
def sampleElement : Element := ⟨⟨none, "a", some "urn:x"⟩, [], []⟩

def sampleDocument : Document where
  root := 0
  top := .node 1 sampleElement .nil .nil
  nodup := by decide

def sampleNode : Node := ⟨1, [], .node sampleElement .nil⟩

theorem letterA_isName : IsXPathName ['a'] := by decide

/-- `self::a` -/
def selfA : Expr := .atom (.nameTest .self ⟨none, ['a'], NameTest.noPrefix, letterA_isName⟩)

/-- `1` -/
def one : Expr := .atom (.number ⟨['1'], none, by decide, by decide⟩)

theorem selfA_spells : selfA.Spells "self::a".toList := .atom (.nameTest .self _)

theorem one_spells : one.Spells ['1'] := .atom (.number _)

/-- `not(self::a) or 1`, one line below the other. -/
theorem eval_of_spelled_sample :
    evalXPathBool sampleNode (.or (.not (.selfElement "" "a")) .true)
      = (binary .or (not selfA) one).truth anyNamespace sampleNode sampleNode := by
  have hnil : Text.IsBlank [] := by decide
  have hline : Text.IsBlank ['\n'] := by decide
  have hspelled : (binary .or (not selfA) one).Spells
      ("not(self::a)".toList ++ (['\n'] ++ " or ".toList ++ []) ++ ['1']) :=
    .binary .or (by decide) (by decide) (.not false selfA_spells hnil hnil) one_spells hline hnil
  refine eval_of_spelled hspelled hnil hnil ?_ ?_ ?_ (by decide +kernel)
  · intro a ha
    rcases List.mem_cons.mp ha with rfl | ha
    · trivial
    · rcases List.mem_cons.mp ha with rfl | ha
      · trivial
      · cases ha
  · exact ⟨trivial, trivial, fun _ => by decide⟩
  · intro a ha
    rcases List.mem_cons.mp ha with rfl | ha
    · trivial
    · rcases List.mem_cons.mp ha with rfl | ha
      · trivial
      · cases ha

/-- Every spelled expression that is parsed is given its truth in XPath 1.0. -/
def ReadAsXPath : Prop :=
  ∀ (e : Expr) (s : List Char) (scope : Node) (x : XPathBoolExpr) (doc : Document) (n : Node),
    e.Spells s → parseXPathBoolExpr s scope = some x → n ∈ doc.descendants →
    evalXPathBool n x = e.truth exactName scope n

/-- A name without a prefix fits an element in a namespace. -/
theorem unprefixed_in_namespace : ¬ ReadAsXPath := by
  intro h
  have hparse : parseXPathBoolExpr "self::a".toList sampleNode = some (.selfElement "" "a") := by
    decide +kernel
  have hmem : sampleNode ∈ sampleDocument.descendants := by decide +kernel
  have heq := h selfA _ sampleNode _ sampleDocument sampleNode selfA_spells hparse hmem
  have heval : evalXPathBool sampleNode (.selfElement "" "a") = true := by decide +kernel
  have htruth : selfA.truth exactName sampleNode sampleNode = false := by decide +kernel
  rw [heval, htruth] at heq
  cases heq

/-- `0 and 0 or 1` is true in XPath; the parser reads `0 and (0 or 1)`. -/
example :
    (parseXPathBoolExpr "0 and 0 or 1".toList sampleNode).map (evalXPathBool sampleNode)
      = some false := by decide +kernel

end Expr

end XPath

end Bergshamra
