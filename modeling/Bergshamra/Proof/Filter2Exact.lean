import Bergshamra.Lib.Fold
import Bergshamra.Proof.Filter2Fold
import Bergshamra.Proof.SelectText

/-!
# What a Filter 2.0 expression selects

On a selection of XPath 1.0 the evaluator of XPath Filter 2.0 returns the
subtrees below the nodes that XPath selects, except that it reads a name without
a prefix as one in any namespace (`selection_exact`). It refuses `//prefix:name`
with a prefix that is not declared, and a union with a part that is not an
absolute path.
-/

namespace Bergshamra

namespace XPath

/-! ## Steps -/

/-- The prefix of a node test is declared. -/
def Step.Resolves (scope : Node) (st : Step) : Prop :=
  match st.test with
  | .any => True
  | .named t => (t.uri? scope).isSome = true

theorem ElementTest.namesElement_pathStep {scope : Node} (test : ElementTest)
    (h : match test with
      | .any => True
      | .named t => (t.uri? scope).isSome = true) (predicate : Option (List Char)) (e : Element) :
    (test.pathStep predicate).namesElement scope e = test.fits unprefixedAnywhere scope e := by
  cases test with
  | any => rfl
  | named t =>
      obtain ⟨pfx, localName, hpfx, hlocal⟩ := t
      have hne : (localName == ['*']) = false := by
        rw [beq_eq_false_iff_ne]
        rintro rfl
        exact hlocal.ne_of_delimiter (by decide) List.mem_cons_self
      unfold PathStep.namesElement ElementTest.pathStep ElementTest.fits unprefixedAnywhere
      dsimp only
      rw [hne, Bool.false_or]
      cases pfx with
      | none => rfl
      | some p =>
          obtain ⟨uri, huri⟩ := Option.isSome_iff_exists.mp h
          have huri : resolveNsPrefix scope p = some uri := huri
          rw [Option.bind_some, huri]
          simp [NameTest.uri?, huri]

/-- **A step that was read keeps the children it should keep.** -/
theorem Step.ReadAs.holds {st : Step} {ps : PathStep} (h : st.ReadAs ps) {scope : Node}
    (hr : st.Resolves scope) (ha : ∀ a ∈ st.attrTests, a.literal.Matched) (up : Uppsala) (n : Node) :
    ps.holds up scope n = .ok (st.keeps unprefixedAnywhere up scope n) := by
  obtain ⟨test, predicate⟩ := st
  unfold PathStep.holds Step.keeps
  cases n.element? with
  | none => rfl
  | some e =>
      have hname : ps.namesElement scope e = test.fits unprefixedAnywhere scope e := by
        rw [h.test]
        exact ElementTest.namesElement_pathStep test hr _ e
      dsimp only [Option.any_some]
      rw [hname]
      by_cases hfit : test.fits unprefixedAnywhere scope e = true
      · rw [if_pos hfit, hfit, Bool.true_and]
        cases predicate with
        | none =>
            have hp : ps.predicate = none := h.predicate
            rw [hp]
            rfl
        | some p =>
            obtain ⟨w, s, w', hw, hw', hs, hp⟩ := h.predicate
            rw [hp]
            exact hs.evaluate ha hw hw' up e
      · rw [if_neg hfit, Bool.eq_false_iff.mpr hfit, Bool.false_and]

/-- A node is reached by steps from some nodes: it is one of them, or a step leads on. -/
def Step.Reaches (up : Uppsala) (scope : Node) (sts : List Step) (current : List Node) (n : Node) :
    Prop :=
  (sts = [] ∧ n ∈ current)
    ∨ ∃ m ∈ current, Step.Leads unprefixedAnywhere up scope sts m.children n

theorem Step.leads_cons {up : Uppsala} {scope : Node} {st : Step} {sts : List Step}
    {row kept : List Node}
    (hk : ∀ n, n ∈ kept ↔ n ∈ row ∧ st.keeps unprefixedAnywhere up scope n = true) {n : Node} :
    Step.Leads unprefixedAnywhere up scope (st :: sts) row n ↔ Step.Reaches up scope sts kept n := by
  constructor
  · intro h
    cases h with
    | last hn hs => exact Or.inl ⟨rfl, (hk n).mpr ⟨hn, hs⟩⟩
    | @next _ _ _ m _ hm hs h => exact Or.inr ⟨m, (hk m).mpr ⟨hm, hs⟩, h⟩
  · rintro (⟨rfl, hn⟩ | ⟨m, hm, h⟩)
    · exact .last ((hk n).mp hn).1 ((hk n).mp hn).2
    · exact .next ((hk m).mp hm).1 ((hk m).mp hm).2 h

/-- A row is used for its members only. -/
theorem Step.leads_flatMap {up : Uppsala} {scope : Node} {st : Step} {sts : List Step}
    {current : List Node} {n : Node} :
    Step.Leads unprefixedAnywhere up scope (st :: sts) (current.flatMap Forest.Cursor.children) n
      ↔ Step.Reaches up scope (st :: sts) current n := by
  constructor
  · intro h
    refine Or.inr ?_
    cases h with
    | last hn hs =>
        obtain ⟨m, hm, hn⟩ := List.mem_flatMap.mp hn
        exact ⟨m, hm, .last hn hs⟩
    | next hm hs h =>
        obtain ⟨m', hm', hm⟩ := List.mem_flatMap.mp hm
        exact ⟨m', hm', .next hm hs h⟩
  · rintro (⟨h, _⟩ | ⟨m, hm, h⟩)
    · exact absurd h (List.cons_ne_nil _ _)
    · cases h with
      | last hn hs => exact .last (List.mem_flatMap.mpr ⟨m, hm, hn⟩) hs
      | next hn hs h => exact .next (List.mem_flatMap.mpr ⟨m, hm, hn⟩) hs h

section

variable {up : Uppsala} {scope : Node}

theorem matchStep_reads {st : Step} {ps : PathStep} (h : st.ReadAs ps) (hr : st.Resolves scope)
    (ha : ∀ a ∈ st.attrTests, a.literal.Matched) (candidates : List Node) :
    ∃ r, matchStep up scope ps candidates = .ok r
      ∧ ∀ n, n ∈ r ↔ n ∈ candidates ∧ st.keeps unprefixedAnywhere up scope n = true :=
  Fold.filterM_ok (h.holds hr ha up) candidates

theorem foldSteps_reads {sts : List Step} {pss : List PathStep}
    (h : List.Forall₂ Step.ReadAs sts pss) (hr : ∀ st ∈ sts, st.Resolves scope)
    (ha : ∀ st ∈ sts, ∀ a ∈ st.attrTests, a.literal.Matched) (current : List Node) :
    ∃ r, pss.foldlM (fun current s =>
        matchStep up scope s (current.flatMap Forest.Cursor.children)) current = .ok r
      ∧ ∀ n, n ∈ r ↔ Step.Reaches up scope sts current n := by
  induction h generalizing current with
  | nil =>
      refine ⟨current, rfl, fun n => ⟨fun hn => Or.inl ⟨rfl, hn⟩, ?_⟩⟩
      rintro (⟨_, hn⟩ | ⟨m, _, h⟩)
      · exact hn
      · cases h
  | @cons st ps sts pss h _ ih =>
      obtain ⟨kept, hkept, hmem⟩ := @matchStep_reads up _ _ _ h (hr st List.mem_cons_self)
        (ha st List.mem_cons_self) (current.flatMap Forest.Cursor.children)
      obtain ⟨r, hrun, hres⟩ := ih (fun s hs => hr s (List.mem_cons_of_mem _ hs))
        (fun s hs => ha s (List.mem_cons_of_mem _ hs)) kept
      refine ⟨r, Fold.cons_ok.mpr ⟨kept, hkept, hrun⟩, fun n => ?_⟩
      rw [hres n, ← Step.leads_cons hmem, Step.leads_flatMap]

/-- **Steps that were read lead to the nodes they should lead to.** -/
theorem evaluatePathSteps_reads {sts : List Step} {pss : List PathStep}
    (h : List.Forall₂ Step.ReadAs sts pss) (hne : sts ≠ []) (hr : ∀ st ∈ sts, st.Resolves scope)
    (ha : ∀ st ∈ sts, ∀ a ∈ st.attrTests, a.literal.Matched) (doc : Document) :
    ∃ r, evaluatePathSteps up doc scope pss = .ok r
      ∧ ∀ n, n ∈ r ↔ Step.Leads unprefixedAnywhere up scope sts doc.children n := by
  cases h with
  | nil => exact absurd rfl hne
  | @cons st ps sts pss h hs =>
      obtain ⟨start, hstart, hmem⟩ := @matchStep_reads up _ _ _ h (hr st List.mem_cons_self)
        (ha st List.mem_cons_self) doc.children
      obtain ⟨r, hrun, hres⟩ := @foldSteps_reads up _ _ _ hs
        (fun s hs => hr s (List.mem_cons_of_mem _ hs))
        (fun s hs => ha s (List.mem_cons_of_mem _ hs)) start
      refine ⟨r, bind_eq_ok.mpr ⟨start, hstart, hrun⟩, fun n => ?_⟩
      rw [hres n, ← Step.leads_cons hmem]

end

/-! ## Paths -/

/-- The nodes in the subtrees of what a path selects. -/
def Path.expansion (up : Uppsala) (doc : Document) (scope : Node) (p : Path) : Set NodeId :=
  { id | ∃ n, p.Selects unprefixedAnywhere up doc scope n ∧ id ∈ Selection.subtreeIds doc n }

theorem subtreesOf_lists {ns : List Node} {f : Set NodeId}
    (h : ∀ id, id ∈ f ↔ ∃ n ∈ ns, id ∈ n.subtreeKeys) : (subtreesOf ns).Lists f := by
  refine NodeSet.lists_of_nodes rfl fun id => ?_
  rw [h id]
  simp [subtreesOf, NodeSet.fromIds]

theorem unprefixedAnywhere_of_uri {t : NameTest} {scope : Node} {uri : String}
    (hp : t.pfx.isSome = true) (h : t.uri? scope = some uri) :
    unprefixedAnywhere t scope = fun e => e.isNamed uri (String.ofList t.localName) := by
  obtain ⟨p, hp⟩ := Option.isSome_iff_exists.mp hp
  funext e
  rw [unprefixedAnywhere, h, hp]
  rfl

/-- The search for `//name`, and the only way in which it is refused. -/
theorem selectByName_text (t : NameTest) (doc : Document) (scope : Node) :
    ((t.uri? scope).isSome = true → selectByName doc scope t.text
        = .ok (subtreesOf (doc.descendants.filter (fun n : Node =>
            n.element?.any (unprefixedAnywhere t scope)))))
      ∧ (t.uri? scope = none → ∀ r, selectByName doc scope t.text ≠ .ok r) := by
  unfold selectByName
  rw [t.splitOnce_text]
  cases hp : t.pfx with
  | none =>
      have huri : t.uri? scope = some "" := by rw [NameTest.uri?, hp]
      have htext : t.text = t.localName := by rw [NameTest.text, hp]
      have hread : unprefixedAnywhere t scope
          = fun e => e.name.localName == String.ofList t.localName := by
        funext e
        rw [unprefixedAnywhere, hp, Option.isNone_none, Bool.true_or, Bool.and_true]
      rw [huri, htext, hread]
      exact ⟨fun _ => rfl, fun h => by cases h⟩
  | some p =>
      have hres : t.uri? scope = resolveNsPrefix scope p := by rw [NameTest.uri?, hp]
      dsimp only [Option.map_some]
      rw [hres]
      refine ⟨fun h => ?_, fun h r => ?_⟩
      · obtain ⟨uri, huri⟩ := Option.isSome_iff_exists.mp h
        rw [unprefixedAnywhere_of_uri (by rw [hp]; rfl) (hres.trans huri), huri]
        rfl
      · rw [h]
        exact fun hr => by cases hr

theorem anywhere_lists (t : NameTest) (up : Uppsala) (doc : Document) (scope : Node) :
    (subtreesOf (doc.descendants.filter (fun n : Node =>
        n.element?.any (unprefixedAnywhere t scope)))).Lists
      ((Path.anywhere t).expansion up doc scope) := by
  refine subtreesOf_lists fun id => ?_
  constructor
  · rintro ⟨m, hm, hid⟩
    cases hm with
    | @anywhere _ n e hn he ht =>
        refine ⟨n, List.mem_filter.mpr ⟨hn, ?_⟩, hid⟩
        rw [he]
        exact ht
  · rintro ⟨n, hn, hid⟩
    obtain ⟨hd, ht⟩ := List.mem_filter.mp hn
    obtain ⟨e, he, ht⟩ := (Option.any_eq_true _ _).mp ht
    exact ⟨some n, .anywhere hd he ht, hid⟩

theorem root_lists (up : Uppsala) (doc : Document) (scope : Node) :
    (NodeSet.all doc).Lists (Path.root.expansion up doc scope) := by
  have h := all_lists doc
  refine ⟨h.1, h.2.trans (Set.ext fun id => ?_)⟩
  constructor
  · exact fun hid => ⟨none, .root, hid⟩
  · rintro ⟨n, hn, hid⟩
    cases hn
    exact hid

/-- A step begins with its node test. -/
theorem Step.SpellsPath.head {sts : List Step} {s : List Char} (h : SpellsPath sts s) :
    '/' ∉ s.head? ∧ s ≠ [] ∧ sts ≠ [] := by
  have hstep : ∀ {st : Step} {s : List Char}, st.Spells s →
      ∃ (test : ElementTest) (rest : List Char), s = test.text ++ rest := by
    intro st s h
    cases h with
    | bare test => exact ⟨test, [], by rw [List.append_nil]⟩
    | filtered test => exact ⟨test, _, by rw [List.append_assoc]⟩
  have hfront : ∀ (test : ElementTest) (rest : List Char),
      '/' ∉ (test.text ++ rest).head? ∧ test.text ++ rest ≠ [] := by
    intro test rest
    have hne := test.text_ne_nil
    refine ⟨?_, by simp [hne]⟩
    rw [List.head?_append_of_ne_nil _ hne]
    exact fun hm => test.not_mem (d := '/') (by decide) (List.mem_of_mem_head? hm)
  cases h with
  | one h =>
      obtain ⟨test, rest, rfl⟩ := hstep h
      exact ⟨(hfront test rest).1, (hfront test rest).2, List.cons_ne_nil _ _⟩
  | cons h _ =>
      obtain ⟨test, rest, rfl⟩ := hstep h
      rw [List.append_assoc]
      exact ⟨(hfront test _).1, (hfront test _).2, List.cons_ne_nil _ _⟩

/-- A path has no bar outside its predicates. -/
theorem Path.Spells.splitXPathUnion_eq {p : Path} {s : List Char} (h : p.Spells s)
    (ha : ∀ a ∈ p.attrTests, a.literal.Matched) : splitXPathUnion s = none := by
  have hpass := @splitXPathUnionFrom_pass _ _ 0 [] (h.text ha).2.2 []
  rw [List.append_nil] at hpass
  rw [splitXPathUnion, hpass, splitXPathUnionFrom]

section

variable {up : Uppsala} {doc : Document} {scope : Node}

theorem evaluate_anywhere (t : NameTest) (fuel : Nat) :
    evaluateWithFuel up doc scope (fuel + 1) ("//".toList ++ t.text)
      = selectByName doc scope t.text := by
  have hs : Path.Spells (.anywhere t) ("//".toList ++ t.text) := .anywhere t
  have hsplit := hs.splitXPathUnion_eq (fun a ha => by cases ha)
  have hne : "//".toList ++ t.text ≠ ['/'] := by
    intro h
    have := congrArg List.length h
    simp at this
  rw [evaluateWithFuel, if_neg hne, hsplit]
  dsimp only
  rw [Text.stripPrefix?_append]

/-- **A path is evaluated to the subtrees of what it selects.** -/
theorem Path.Spells.evaluate {p : Path} {s : List Char} (h : p.Spells s)
    (ha : ∀ a ∈ p.attrTests, a.literal.Matched)
    (hr : ∀ t ∈ p.tests, (t.uri? scope).isSome = true) (fuel : Nat) :
    ∃ r, evaluateWithFuel up doc scope (fuel + 1) s = .ok r
      ∧ r.Lists (p.expansion up doc scope) := by
  have hsplit := h.splitXPathUnion_eq ha
  cases h with
  | root => exact ⟨NodeSet.all doc, by rw [evaluateWithFuel, if_pos rfl], root_lists up doc scope⟩
  | anywhere t =>
      have hsel := (selectByName_text t doc scope).1 (hr t List.mem_cons_self)
      exact ⟨_, (evaluate_anywhere t fuel).trans hsel, anywhere_lists t up doc scope⟩
  | @steps sts s h =>
      obtain ⟨hhead, hne, hsts⟩ := h.head
      have hat : ∀ st ∈ sts, ∀ a ∈ st.attrTests, a.literal.Matched := fun st hst a hm =>
        ha a (List.mem_flatMap.mpr ⟨st, hst, hm⟩)
      have hres : ∀ st ∈ sts, st.Resolves scope := by
        intro st hst
        unfold Step.Resolves
        cases ht : st.test with
        | any => trivial
        | named t => exact hr t (List.mem_filterMap.mpr ⟨st, hst, by rw [ht]⟩)
      obtain ⟨pss, hparse, hreads⟩ := h.split hat
      obtain ⟨ns, heval, hmem⟩ := @evaluatePathSteps_reads up _ _ _ hreads hsts hres hat doc
      -- neither the root alone nor a path that begins with two slashes
      have hslash : '/' :: s ≠ ['/'] := fun heq => hne (List.cons_eq_cons.mp heq).2
      have htwo : Text.stripPrefix? "//".toList ('/' :: s) = none := by
        show Text.stripPrefix? ['/', '/'] ('/' :: s) = none
        rw [Text.stripPrefix?, if_pos rfl]
        cases s with
        | nil => rfl
        | cons c s =>
            have hc : '/' ≠ c := fun hc => hhead (by rw [hc]; rfl)
            rw [Text.stripPrefix?, if_neg hc]
      have hone : Text.stripPrefix? ['/'] ('/' :: s) = some s := Text.stripPrefix?_append ['/'] s
      refine ⟨subtreesOf ns, ?_, subtreesOf_lists fun id => ?_⟩
      · rw [evaluateWithFuel, if_neg hslash, hsplit]
        dsimp only
        rw [htwo]
        dsimp only
        rw [hone]
        exact bind_eq_ok.mpr ⟨pss, hparse, bind_eq_ok.mpr ⟨ns, heval, rfl⟩⟩
      · constructor
        · rintro ⟨n, hn, hid⟩
          cases hn with
          | @steps _ n hn => exact ⟨n, (hmem n).mpr hn, hid⟩
        · rintro ⟨n, hn, hid⟩
          exact ⟨some n, .steps ((hmem n).mp hn), hid⟩

/-! ## Unions -/

/-- Both sides of a union are evaluated. -/
theorem evaluate_union {expr left right : List Char}
    (h : splitXPathUnion expr = some (left, right)) {fuel : Nat} {r : NodeSet} :
    evaluateWithFuel up doc scope (fuel + 1) expr = .ok r
      ↔ ∃ a b, evaluateWithFuel up doc scope fuel (Text.trim left) = .ok a
        ∧ evaluateWithFuel up doc scope fuel (Text.trim right) = .ok b ∧ r = a.union b := by
  have hne : expr ≠ ['/'] := by
    rintro rfl
    have hnone : splitXPathUnion ['/'] = none := by decide
    rw [hnone] at h
    cases h
  rw [evaluateWithFuel, if_neg hne, h]
  dsimp only
  rw [bind_eq_ok]
  refine exists_congr fun a => ?_
  rw [bind_eq_ok]
  constructor
  · rintro ⟨ha, b, hb, hr⟩
    exact ⟨b, ha, hb, (Except.ok.inj hr).symm⟩
  · rintro ⟨b, ha, hb, rfl⟩
    exact ⟨ha, b, hb, rfl⟩

/-- The bar after a path splits a union. -/
theorem Path.Spells.splitXPathUnion_bar {p : Path} {s w w' t : List Char} (h : p.Spells s)
    (ha : ∀ a ∈ p.attrTests, a.literal.Matched) (hw : Text.IsBlank w)
    (ht : Text.trim (w' ++ t) ≠ []) :
    splitXPathUnion (s ++ (w ++ '|' :: w') ++ t) = some (s, Text.trim (w' ++ t)) := by
  obtain ⟨hsolid, hm, hg⟩ := h.text ha
  have hblank : '|' ∉ w := by
    intro hmem
    have := hw '|' hmem
    exact absurd this (by decide)
  have hguard : Text.Guarded '[' ']' '|' 0 (s ++ w) := hg.append (.of_not_mem hblank _)
  have hmw : Matched (s ++ w) := hm.append (matched_blank hw)
  have htrim : Text.trim (s ++ w) = s := Text.trim_padded_right hsolid hw
  have hsplit : s ++ (w ++ '|' :: w') ++ t = (s ++ w) ++ '|' :: (w' ++ t) := by simp
  have hcond : '|' = '|' ∧ (0 : Int) = 0 ∧ (0 : Int) = 0
      ∧ Text.trim ((s ++ w).reverse ++ []).reverse ≠ [] ∧ Text.trim (w' ++ t) ≠ [] := by
    rw [List.append_nil, List.reverse_reverse, htrim]
    exact ⟨rfl, rfl, rfl, hsolid.ne_nil, ht⟩
  rw [splitXPathUnion, hsplit, splitXPathUnionFrom_pass hguard, hmw.bracketsFrom_eq,
    hmw.parensFrom_eq, splitXPathUnionFrom, if_pos hcond, List.append_nil, List.reverse_reverse,
    htrim]

theorem Selection.Spells.solid {ps : Selection} {s : List Char} (h : Selection.Spells ps s)
    (ha : ∀ a ∈ ps.attrTests, a.literal.Matched) : Text.Solid s := by
  induction h with
  | @one p s h => exact (h.text fun a hm => ha a (by simpa [Selection.attrTests] using hm)).1
  | @union p ps s t w w' h _ _ _ ih =>
      have h1 := (h.text fun a hm => ha a (List.mem_append_left _ hm)).1
      exact h1.append (ih fun a hm => ha a (List.mem_append_right _ hm)) _

theorem Selection.expansion_cons (p : Path) (ps : Selection) :
    Selection.expansion unprefixedAnywhere up doc scope (p :: ps)
      = p.expansion up doc scope ∪ Selection.expansion unprefixedAnywhere up doc scope ps := by
  ext id
  simp [Selection.expansion, Path.expansion]

/-- **A selection is evaluated to its expansion.** -/
theorem Selection.Spells.evaluate {ps : Selection} {s : List Char} (h : Selection.Spells ps s)
    (ha : ∀ a ∈ ps.attrTests, a.literal.Matched)
    (hr : ∀ t ∈ ps.tests, (t.uri? scope).isSome = true) {fuel : Nat} (hf : s.length < fuel) :
    ∃ r, evaluateWithFuel up doc scope fuel s = .ok r
      ∧ r.Lists (Selection.expansion unprefixedAnywhere up doc scope ps) := by
  induction h generalizing fuel with
  | @one p s h =>
      obtain ⟨fuel, rfl⟩ := Nat.exists_eq_add_of_lt hf
      obtain ⟨r, hrun, hl⟩ := @Path.Spells.evaluate up doc _ _ _ h
        (fun a hm => ha a (List.mem_append_left _ hm))
        (fun t hm => hr t (List.mem_append_left _ hm)) (s.length + fuel)
      refine ⟨r, hrun, ?_⟩
      have hone : Selection.expansion unprefixedAnywhere up doc scope [p]
          = p.expansion up doc scope := by
        ext id
        simp [Selection.expansion, Path.expansion]
      rwa [hone]
  | @union p ps s t w w' h hw hw' h' ih =>
      have hap : ∀ a ∈ p.attrTests, a.literal.Matched :=
        fun a hm => ha a (List.mem_append_left _ hm)
      have haps : ∀ a ∈ Selection.attrTests ps, a.literal.Matched :=
        fun a hm => ha a (List.mem_append_right _ hm)
      have hsolid := h'.solid haps
      have htrim : Text.trim (w' ++ t) = t := Text.trim_padded_left hw' hsolid
      have hbar := @Path.Spells.splitXPathUnion_bar _ _ _ w' t h hap hw (by
        rw [htrim]
        exact hsolid.ne_nil)
      have hlen : s.length + 1 + t.length < fuel := by
        simp only [List.length_append, List.length_cons] at hf
        omega
      -- one turn for the bar, and one for the path before it
      obtain ⟨fuel, rfl⟩ : ∃ k, fuel = k + 1 + 1 := ⟨fuel - 2, by omega⟩
      obtain ⟨a, hrun, hl⟩ := @Path.Spells.evaluate up doc _ _ _ h hap
        (fun t hm => hr t (List.mem_append_left _ hm)) fuel
      obtain ⟨b, hrun', hl'⟩ := ih haps (fun t hm => hr t (List.mem_append_right _ hm))
        (show _ < fuel + 1 by omega)
      refine ⟨a.union b, (evaluate_union hbar).mpr ⟨a, b, ?_, ?_, rfl⟩, ?_⟩
      · rw [(h.text hap).1.trim_eq]
        exact hrun
      · rw [htrim, hsolid.trim_eq]
        exact hrun'
      · rw [Selection.expansion_cons]
        exact hl.apply .union hl'

/-! ## Refusals -/

/-- **A prefix that is not declared is refused** in `//prefix:name`. -/
theorem Selection.Spells.unresolved {ps : Selection} {s : List Char} (h : Selection.Spells ps s)
    (ha : ∀ a ∈ ps.attrTests, a.literal.Matched) {t : NameTest} (ht : Path.anywhere t ∈ ps)
    (hnone : t.uri? scope = none) (fuel : Nat) (r : NodeSet) :
    evaluateWithFuel up doc scope fuel s ≠ .ok r := by
  have hpath : ∀ {s : List Char} (fuel : Nat) (r : NodeSet), Path.Spells (.anywhere t) s →
      evaluateWithFuel up doc scope fuel s ≠ .ok r := by
    intro s fuel r hs
    cases hs
    cases fuel with
    | zero => exact fun h => by cases h
    | succ fuel =>
        rw [evaluate_anywhere]
        exact (selectByName_text t doc scope).2 hnone r
  induction h generalizing fuel r with
  | one h =>
      rw [List.mem_singleton] at ht
      subst ht
      exact hpath fuel r h
  | @union p ps s u w w' h hw hw' h' ih =>
      have hap : ∀ a ∈ p.attrTests, a.literal.Matched :=
        fun a hm => ha a (List.mem_append_left _ hm)
      have haps : ∀ a ∈ Selection.attrTests ps, a.literal.Matched :=
        fun a hm => ha a (List.mem_append_right _ hm)
      have hsolid := h'.solid haps
      have htrim : Text.trim (w' ++ u) = u := Text.trim_padded_left hw' hsolid
      have hbar := @Path.Spells.splitXPathUnion_bar _ _ _ w' u h hap hw (by
        rw [htrim]
        exact hsolid.ne_nil)
      cases fuel with
      | zero => exact fun h => by cases h
      | succ fuel =>
          intro hrun
          obtain ⟨a, b, hleft, hright, _⟩ := (evaluate_union hbar).mp hrun
          rw [(h.text hap).1.trim_eq] at hleft
          rw [htrim, hsolid.trim_eq] at hright
          rcases List.mem_cons.mp ht with rfl | ht
          · exact hpath fuel a h hleft
          · exact ih haps ht fuel b hright

theorem splitXPathUnionFrom_eq_some {bracket paren : Int} {before s left right : List Char}
    (h : splitXPathUnionFrom bracket paren before s = some (left, right)) :
    ∃ u v, before.reverse ++ s = u ++ '|' :: v ∧ left = Text.trim u ∧ right = Text.trim v
      ∧ left ≠ [] := by
  induction s generalizing bracket paren before with
  | nil => simp [splitXPathUnionFrom] at h
  | cons c s ih =>
      rw [splitXPathUnionFrom] at h
      split at h
      · rename_i hc
        simp only [Option.some.injEq, Prod.mk.injEq] at h
        obtain ⟨rfl, rfl⟩ := h
        exact ⟨before.reverse, s, by rw [hc.1], rfl, rfl, hc.2.2.2.1⟩
      · obtain ⟨u, v, huv, hl, hr, hne⟩ := ih h
        rw [List.reverse_cons, List.append_assoc, List.singleton_append] at huv
        exact ⟨u, v, huv, hl, hr, hne⟩

/-- **An expression that does not begin with a slash is refused.** -/
theorem evaluate_not_absolute {s : List Char} (h : '/' ∉ (Text.trimStart s).head?) (fuel : Nat)
    (r : NodeSet) : evaluateWithFuel up doc scope fuel s ≠ .ok r := by
  induction fuel generalizing s r with
  | zero => exact fun h => by cases h
  | succ fuel ih =>
      have hslash : ∀ t, s ≠ '/' :: t := by
        rintro t rfl
        exact h rfl
      cases hsplit : splitXPathUnion s with
      | some p =>
          obtain ⟨left, right⟩ := p
          intro hrun
          obtain ⟨a, _, hleft, _⟩ := (evaluate_union hsplit).mp hrun
          -- the left side begins where the expression begins
          obtain ⟨u, v, huv, rfl, _, hne⟩ := splitXPathUnionFrom_eq_some hsplit
          have hsolid := Text.solid_trim hne
          have hu : (Text.trimStart s).head? = (Text.trimStart u).head? := by
            have hs : s = u ++ '|' :: v := huv
            have hstart : Text.trimStart u ≠ [] := by
              intro hnil
              have := Text.trim_prefix u
              rw [hnil, List.prefix_nil] at this
              exact hne this
            have hne' : (List.dropWhile Text.isWhitespace u).isEmpty = false := by
              rw [List.isEmpty_eq_false_iff]
              exact hstart
            rw [hs, Text.trimStart, List.dropWhile_append, hne', if_neg Bool.false_ne_true]
            exact List.head?_append_of_ne_nil _ hstart
          refine ih ?_ a hleft
          rw [hsolid.trim_eq, Text.trimStart_of_head hsolid.head, Text.head?_trim hne, ← hu]
          exact h
      | none =>
          have htwo : Text.stripPrefix? "//".toList s = none := by
            rw [Option.eq_none_iff_forall_ne_some]
            exact fun t ht => hslash _ (Text.stripPrefix?_eq_some.mp ht)
          have hone : Text.stripPrefix? ['/'] s = none := by
            rw [Option.eq_none_iff_forall_ne_some]
            exact fun t ht => hslash _ (Text.stripPrefix?_eq_some.mp ht)
          rw [evaluateWithFuel, if_neg (hslash []), hsplit]
          dsimp only
          rw [htwo]
          dsimp only
          rw [hone]
          exact fun h => by cases h

/-- **A union with a part that does not begin with a slash is refused.** -/
theorem Selection.Spells.then_not_absolute {ps : Selection} {s : List Char}
    (h : Selection.Spells ps s) (ha : ∀ a ∈ ps.attrTests, a.literal.Matched) {w w' t : List Char}
    (hw : Text.IsBlank w) (hw' : Text.IsBlank w') (ht : Text.Solid t) (hslash : '/' ∉ t.head?)
    (fuel : Nat) (r : NodeSet) :
    evaluateWithFuel up doc scope fuel (s ++ (w ++ '|' :: w') ++ t) ≠ .ok r := by
  have hright : ∀ {v u : List Char} (fuel : Nat) (r : NodeSet), Text.IsBlank v → Text.Solid u →
      (∀ fuel r, evaluateWithFuel up doc scope fuel u ≠ .ok r) →
        ∀ {p : Path} {s : List Char}, p.Spells s → (∀ a ∈ p.attrTests, a.literal.Matched) →
          ∀ {w : List Char}, Text.IsBlank w →
            evaluateWithFuel up doc scope fuel (s ++ (w ++ '|' :: v) ++ u) ≠ .ok r := by
    intro v u fuel r hv hu hnot p s hs hp w hw hrun
    cases fuel with
    | zero => cases hrun
    | succ fuel =>
        have htrim : Text.trim (v ++ u) = u := Text.trim_padded_left hv hu
        have hbar := @Path.Spells.splitXPathUnion_bar _ _ _ v u hs hp hw (by
          rw [htrim]
          exact hu.ne_nil)
        obtain ⟨_, b, _, hb, _⟩ := (evaluate_union hbar).mp hrun
        rw [htrim, hu.trim_eq] at hb
        exact hnot fuel b hb
  induction h generalizing w w' fuel r with
  | one h =>
      refine hright fuel r hw' ht (fun fuel r => ?_) h
        (fun a hm => ha a (List.mem_append_left _ hm)) hw
      exact evaluate_not_absolute (by rwa [Text.trimStart_of_head ht.head]) fuel r
  | @union p ps s u v v' h hv hv' h' ih =>
      have haps : ∀ a ∈ Selection.attrTests ps, a.literal.Matched :=
        fun a hm => ha a (List.mem_append_right _ hm)
      have hsolid := (h'.solid haps).append ht (w ++ '|' :: w')
      have hassoc : s ++ (v ++ '|' :: v') ++ u ++ (w ++ '|' :: w') ++ t
          = s ++ (v ++ '|' :: v') ++ (u ++ (w ++ '|' :: w') ++ t) := by simp
      rw [hassoc]
      exact hright fuel r hv' hsolid (fun fuel r => ih haps hw hw' fuel r) h
        (fun a hm => ha a (List.mem_append_left _ hm)) hv

/-! ## The evaluator -/

namespace Selection

/-- **A selection is read as XPath reads it, except that a name without a prefix is one in any
namespace.** A prefix of `//prefix:name` that is not declared, an expression that does not begin
with a slash and a union with such a part are refused. -/
theorem exact_or_refused (up : Uppsala) (doc : Document) (scope : Node) :
    (∀ (ps : Selection) (s : List Char), Spells ps s → (∀ a ∈ ps.attrTests, a.literal.Matched) →
      (∀ t ∈ ps.tests, (t.uri? scope).isSome = true) →
      ∃ r, evaluateSimpleXPath up doc s scope = .ok r
        ∧ r.members = ps.expansion unprefixedAnywhere up doc scope)
    ∧ (∀ (ps : Selection) (s : List Char) (t : NameTest) (r : NodeSet), Spells ps s →
      (∀ a ∈ ps.attrTests, a.literal.Matched) → Path.anywhere t ∈ ps → t.uri? scope = none →
      evaluateSimpleXPath up doc s scope ≠ .ok r)
    ∧ (∀ (s : List Char) (r : NodeSet), '/' ∉ (Text.trimStart s).head? →
      evaluateSimpleXPath up doc s scope ≠ .ok r)
    ∧ (∀ (ps : Selection) (s w w' t : List Char) (r : NodeSet), Spells ps s →
      (∀ a ∈ ps.attrTests, a.literal.Matched) → Text.IsBlank w → Text.IsBlank w' → Text.Solid t →
      '/' ∉ t.head? → evaluateSimpleXPath up doc (s ++ (w ++ '|' :: w') ++ t) scope ≠ .ok r) := by
  refine ⟨?_, ?_, ?_, ?_⟩
  · intro ps s hs ha hr
    obtain ⟨r, hrun, hl⟩ := hs.evaluate ha hr (Nat.lt_succ_self s.length)
    exact ⟨r, hrun, hl.2⟩
  · exact fun ps s t r hs ha ht hnone => hs.unresolved ha ht hnone _ r
  · exact fun s r hs => evaluate_not_absolute hs _ r
  · exact fun ps s w w' t r hs ha hw hw' ht hslash =>
      hs.then_not_absolute ha hw hw' ht hslash _ r

/-- `<a xmlns="u" b="1"/>` -/
def sampleRow : Document where
  root := 0
  top := .node 1 ⟨⟨none, "a", some "u"⟩, [⟨⟨none, "b", none⟩, "1"⟩], [("", "u")]⟩ .nil .nil
  nodup := by decide

def sampleUppsala : Uppsala where
  parse _ := .ok sampleRow
  getAttribute e name := (e.attributes.find? (fun a => a.name.localName == name)).map (·.value)

/-- The element that holds the expression, with nothing declared. -/
def sampleScope : Node := ⟨9, [], .node ⟨⟨none, "XPath", none⟩, [], []⟩ .nil⟩

theorem nameA_isName : IsXPathName ['a'] := by decide

def nameA : NameTest := ⟨none, ['a'], NameTest.noPrefix, nameA_isName⟩

/-- `@b="1"` -/
def attrB : AttrTest := ⟨['b'], ⟨'"', ['1'], Or.inl rfl, by decide⟩, by decide⟩

/-- `//a | /a[@b="1"]` -/
def sampleUnion : Selection :=
  [.anywhere nameA, .steps [⟨.named nameA, some (.any [attrB])⟩]]

theorem sampleUnion_spells :
    Spells sampleUnion ("//a".toList ++ ([' '] ++ '|' :: [' ']) ++ "/a[@b=\"1\"]".toList) := by
  have hblank : Text.IsBlank [' '] := by decide
  have hnil : Text.IsBlank [] := by decide
  exact .union (.anywhere nameA) hblank hblank
    (.one (.steps (.one (.filtered (.named nameA) hnil hnil (.any (.one attrB))))))

theorem attrB_matched : attrB.literal.Matched := by
  refine ⟨by decide, by decide, ?_, ?_⟩
  · simp [attrB, apostrophe]
  · simp [attrB, apostrophe]

theorem exact_or_refused_sample :
    ∃ r, evaluateSimpleXPath sampleUppsala sampleRow
          ("//a".toList ++ ([' '] ++ '|' :: [' ']) ++ "/a[@b=\"1\"]".toList) sampleScope = .ok r
      ∧ r.members = sampleUnion.expansion unprefixedAnywhere sampleUppsala sampleRow sampleScope := by
  refine (exact_or_refused sampleUppsala sampleRow sampleScope).1 _ _ sampleUnion_spells ?_ ?_
  · intro a ha
    have hone : a = attrB := by simpa [sampleUnion, attrTests, Path.attrTests, Step.attrTests,
      Predicate.attrTests] using ha
    rw [hone]
    exact attrB_matched
  · intro t ht
    have hone : t = nameA := by simpa [sampleUnion, tests, Path.tests] using ht
    rw [hone]
    rfl

/-- Where the evaluator returns a set for a selection, it is the expansion in XPath 1.0. -/
def ReadAsXPath : Prop :=
  ∀ (up : Uppsala) (doc : Document) (scope : Node) (ps : Selection) (s : List Char) (r : NodeSet),
    Spells ps s → evaluateSimpleXPath up doc s scope = .ok r →
    r.members = ps.expansion exactName up doc scope

/-- `//a` selects an element in a namespace. -/
theorem unprefixed_selects_namespace : ¬ ReadAsXPath := by
  intro h
  have hrun : evaluateSimpleXPath sampleUppsala sampleRow "//a".toList sampleScope
      = .ok (.fromIds {1} .normal) := rfl
  have heq := h sampleUppsala sampleRow sampleScope [.anywhere nameA] _ _
    (.one (.anywhere nameA)) hrun
  have hin : 1 ∈ (NodeSet.fromIds {1} .normal).members := by
    show (NodeSet.fromIds {1} .normal).containsId 1 = true
    decide
  rw [heq] at hin
  obtain ⟨p, hp, n, hn, _⟩ := hin
  rw [List.mem_singleton] at hp
  subst hp
  cases hn with
  | @anywhere _ n e hd he ht =>
      -- the only element is in the namespace `u`
      have hall : ∀ m ∈ sampleRow.descendants, ∀ e ∈ m.element?,
          exactName nameA sampleScope e = false := by decide +kernel
      rw [hall n hd e he] at ht
      cases ht

end Selection

end

end XPath

end Bergshamra
