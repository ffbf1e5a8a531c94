import Bergshamra.Proof.CompoundText
import Bergshamra.Proof.SelectsWhere
import Bergshamra.Proof.InputOnly
import Bergshamra.Dsig.Verify
import Mathlib.Data.Finset.Card
import Mathlib.Data.Finset.Option

/-!
# The compound filter counts nothing

The expression compares sizes of node sets three times; the code tests whether a
node is below one element and not below another. The tests agree with the sizes
while the elements they look for exist. Where one is missing the code decides by
a default, and `CompoundAgreesAt` says at which nodes the default is right.
-/

namespace Bergshamra

/-! ## What the expression means -/

instance : DecidableEq Document := fun a b =>
  decidable_of_iff (a.root = b.root ∧ a.top = b.top) (by
    obtain ⟨root, top, _⟩ := a
    obtain ⟨root', top', _⟩ := b
    simp)

/-- A node of a document; two documents have no node in common. -/
abbrev PlacedNode := Document × NodeId

/-- `ancestor-or-self::node()`. -/
def selfAndAbove (doc : Document) (n : Node) : Finset PlacedNode :=
  ((n.key :: (n.path.map Prod.fst ++ [doc.root])).map (fun i => (doc, i))).toFinset

/-- `ancestor-or-self::` with a name. -/
def selfAndAboveNamed (doc : Document) (name : String × String) (n : Node) : Finset PlacedNode :=
  ((n.selfPath.filter (fun a => a.2.isNamed name.1 name.2)).map (fun a => (doc, a.1))).toFinset

/-- The element `here()/ancestor::B[1]`: the nearest above the XPath element. -/
def hereAncestor? (xpathNode : Node) (name : String × String) : Option (NodeId × Element) :=
  xpathNode.path.find? (fun a => a.2.isNamed name.1 name.2)

/-- `here()/ancestor::B[1]`. -/
def hereNodes (outer : Document) (xpathNode : Node) (name : String × String) :
    Finset PlacedNode :=
  ((hereAncestor? xpathNode name).map (fun a => (outer, a.1))).toFinset

/-- What the argument of `id()` is split at. -/
def isXmlSpace (c : Char) : Bool := c == ' ' || c == '\t' || c == '\r' || c == '\n'

/-- The elements with an id that the argument of `id()` lists, and these ids. -/
def idListed (up : Uppsala) (doc : Document) (idValue : String) : List (String × Node) :=
  (idEntries up defaultIdAttrs doc).filter
    (fun p => decide (p.1.toList ∈ Text.splitRuns isXmlSpace idValue.toList))

/-- `id('X')`. -/
def idNodes (up : Uppsala) (doc : Document) (idValue : String) : Finset PlacedNode :=
  ((idListed up doc idValue).map (fun p => (doc, p.2.key))).toFinset

/-- `A and count(named | here) > count(named) or count(above | ids) = count(above)`. -/
def CountsTrue (a named here above ids : Finset PlacedNode) : Prop :=
  a.Nonempty ∧ (named ∪ here).card > named.card ∨ (above ∪ ids).card = above.card

/-- The value of the expression at a node of the tree. -/
def CompoundTrue (up : Uppsala) (doc outer : Document) (xpathNode : Node) (c : CompoundFilter)
    (n : Node) : Prop :=
  CountsTrue (selfAndAboveNamed doc c.a n) (selfAndAboveNamed doc c.b n)
    (hereNodes outer xpathNode c.b) (selfAndAbove doc n) (idNodes up doc c.id)

/-- Its value at the document node, which has nothing above it and no name. -/
def CompoundTrueAtRoot (up : Uppsala) (doc outer : Document) (xpathNode : Node)
    (c : CompoundFilter) : Prop :=
  CountsTrue ∅ ∅ (hereNodes outer xpathNode c.b) {(doc, doc.root)} (idNodes up doc c.id)

/-! ## Sizes and membership -/

section

variable {α : Type} [DecidableEq α] {s t : Finset α}

theorem card_union_eq_iff : (s ∪ t).card = s.card ↔ t ⊆ s := by
  constructor
  · intro h
    have hs : s = s ∪ t := Finset.eq_of_subset_of_card_le Finset.subset_union_left h.le
    rw [hs]
    exact Finset.subset_union_right
  · intro h
    rw [Finset.union_eq_left.mpr h]

theorem card_lt_union_iff : (s ∪ t).card > s.card ↔ ¬ t ⊆ s := by
  have hle : s.card ≤ (s ∪ t).card := Finset.card_le_card Finset.subset_union_left
  rw [← card_union_eq_iff]
  omega

end

theorem countsTrue_iff {a named here above ids : Finset PlacedNode} :
    CountsTrue a named here above ids ↔ a.Nonempty ∧ ¬ here ⊆ named ∨ ids ⊆ above := by
  rw [CountsTrue, card_lt_union_iff, card_union_eq_iff]

theorem mem_selfAndAbove {doc d : Document} {n : Node} {i : NodeId} :
    (d, i) ∈ selfAndAbove doc n ↔ d = doc ∧ isDescendantOfIndex doc n i = true := by
  simp only [selfAndAbove, List.mem_toFinset, List.mem_map, List.mem_cons, List.mem_append,
    List.not_mem_nil, or_false, Prod.mk.injEq, isDescendantOfIndex, Bool.or_eq_true, beq_iff_eq,
    List.any_eq_true]
  constructor
  · rintro ⟨j, hj, hd, rfl⟩
    refine ⟨hd.symm, ?_⟩
    rcases hj with rfl | ⟨a, ha, rfl⟩ | rfl
    · exact Or.inl (Or.inl rfl)
    · exact Or.inl (Or.inr ⟨a, ha, rfl⟩)
    · exact Or.inr rfl
  · rintro ⟨rfl, (rfl | ⟨a, ha, rfl⟩) | rfl⟩
    · exact ⟨_, Or.inl rfl, rfl, rfl⟩
    · exact ⟨_, Or.inr (Or.inl ⟨a, ha, rfl⟩), rfl, rfl⟩
    · exact ⟨_, Or.inr (Or.inr rfl), rfl, rfl⟩

theorem selfAndAboveNamed_nonempty_iff {doc : Document} {name : String × String} {n : Node} :
    (selfAndAboveNamed doc name n).Nonempty ↔ UnderNamed name.1 name.2 n := by
  simp only [selfAndAboveNamed, Finset.Nonempty, List.mem_toFinset, List.mem_map,
    List.mem_filter, UnderNamed, Node.elements, List.any_map, List.any_eq_true]
  constructor
  · rintro ⟨_, a, ⟨ha, hname⟩, _⟩
    exact ⟨a, ha, hname⟩
  · rintro ⟨a, ha, hname⟩
    exact ⟨_, a, ⟨ha, hname⟩, rfl⟩

/-- What encloses a node of a document is an element of it. -/
theorem element_of_mem_path {doc : Document} {m : Node} (hm : m ∈ doc.descendants)
    {a : NodeId × Element} (ha : a ∈ m.path) :
    ∃ c ∈ doc.descendants, c.key = a.1 ∧ Node.element? c = some a.2 := by
  obtain ⟨l₁, l₂, hl⟩ := List.append_of_mem ha
  rcases Forest.exists_of_suffix hm (p := a) (t := l₂) ⟨l₁, hl.symm⟩ with h | ⟨kids, hc, _⟩
  · simp at h
  · exact ⟨_, hc, rfl, rfl⟩

theorem mem_selfPath {n : Node} {a : NodeId × Element} :
    a ∈ n.selfPath ↔ a ∈ n.path ∨ a.1 = n.key ∧ n.element? = some a.2 := by
  obtain ⟨key, path, item⟩ := n
  cases item with
  | leaf k => simp [Forest.Cursor.selfPath, Node.element?]
  | node e kids =>
      simp only [Forest.Cursor.selfPath, Node.element?, List.mem_cons, Option.some.injEq]
      constructor
      · rintro (rfl | h)
        · exact Or.inr ⟨rfl, rfl⟩
        · exact Or.inl h
      · rintro (h | ⟨hk, he⟩)
        · exact Or.inr h
        · exact Or.inl (Prod.ext hk he.symm)

/-- What encloses a node of a document encloses another, or is it, when the way up from there meets
the index. -/
theorem mem_selfPath_iff {doc : Document} {m n : Node} (hm : m ∈ doc.descendants)
    (hn : n ∈ doc.descendants) {a : NodeId × Element} (ha : a ∈ m.path) :
    a ∈ n.selfPath ↔ isDescendantOfIndex doc n a.1 = true := by
  obtain ⟨c, hc, hck, hce⟩ := element_of_mem_path hm ha
  simp only [mem_selfPath, isDescendantOfIndex, Bool.or_eq_true, beq_iff_eq, List.any_eq_true]
  constructor
  · rintro (h | ⟨hk, _⟩)
    · exact Or.inl (Or.inr ⟨a, h, rfl⟩)
    · exact Or.inl (Or.inl hk.symm)
  · rintro ((hk | ⟨b, hb, hk⟩) | hroot)
    · have hcn : c = n := Forest.cursor_eq_of_key doc.nodup_top hc hn (hck.trans hk.symm)
      exact Or.inr ⟨hk.symm, hcn ▸ hce⟩
    · obtain ⟨c', hc', hck', hce'⟩ := element_of_mem_path hn hb
      have hcc : c = c' :=
        Forest.cursor_eq_of_key doc.nodup_top hc hc' (by rw [hck, hck', hk])
      subst hcc
      rw [hce, Option.some.injEq] at hce'
      exact Or.inl (Prod.ext hk hce'.symm ▸ hb)
    · have hmem := Document.mem_descendants_key hc
      rw [hck, ← hroot] at hmem
      exact absurd hmem doc.root_not_mem

/-! ## Where the code agrees -/

section

variable (up : Uppsala) (doc outer : Document) (xpathNode : Node) (c : CompoundFilter)

/-- Every element with an id that the argument of `id()` lists encloses the node, or is it. -/
def BelowListed (n : Node) : Prop :=
  ∀ p ∈ idListed up doc c.id, isDescendantOfIndex doc n p.2.key = true

/-- The first element whose id is the whole argument encloses the node, or is it. -/
def BelowFound (n : Node) : Prop :=
  ∃ m, IdMap.get? (idEntries up defaultIdAttrs doc) c.id = some m
    ∧ isDescendantOfIndex doc n m.key = true

/-- There is an element to leave out, and the node is not in it. -/
def OutsideHere (n : Node) : Prop :=
  ∃ a, hereAncestor? xpathNode c.b = some a
    ∧ ¬ (outer = doc ∧ isDescendantOfIndex doc n a.1 = true)

/-- The node is not below the index of the nearest `B`, starting with the XPath element itself;
where there is none, it never is. -/
def OutsideIndex (n : Node) : Prop :=
  ∀ i, findAncestorByNameIdx xpathNode c.b.1 c.b.2 = some i → isDescendantOfIndex doc n i = false

/-- The two ways of leaving out agree. -/
def HereAgrees (n : Node) : Prop :=
  match hereAncestor? xpathNode c.b with
  -- XPath leaves out every node, the code at most those below an XPath element called `B`
  | none => xpathNode.isNamed c.b.1 c.b.2 = true ∧ isDescendantOfIndex doc n xpathNode.key = true
  | some a =>
      if xpathNode.isNamed c.b.1 c.b.2 then
        (outer = doc ∧ isDescendantOfIndex doc n a.1 = true
          ↔ isDescendantOfIndex doc n xpathNode.key = true)
      else outer = doc ∨ isDescendantOfIndex doc n a.1 = false

/-- **Where the tests agree with the sizes.** -/
structure CompoundAgreesAt (n : Node) : Prop where
  /-- `id()` lets the node in; so does the code when it has found the element, or by the rest. -/
  letIn : BelowListed up doc c n →
    BelowFound up doc c n ∨ UnderNamed c.a.1 c.a.2 n ∧ OutsideIndex doc xpathNode c n
  /-- `id()` does not let it in, but the code does: an id with white space in it was found. -/
  found : ¬ BelowListed up doc c n → BelowFound up doc c n →
    UnderNamed c.a.1 c.a.2 n ∧ OutsideHere doc outer xpathNode c n
  leftOut : ¬ BelowListed up doc c n → ¬ BelowFound up doc c n → UnderNamed c.a.1 c.a.2 n →
    HereAgrees doc outer xpathNode c n

/-- The filter is exact on an input. -/
structure CompoundExact (input : Option NodeSet) : Prop where
  nodes : ∀ n ∈ doc.descendants, isVisible input n.key = true →
    CompoundAgreesAt up doc outer xpathNode c n
  /-- With nothing to list, XPath keeps the document node too. -/
  root : isVisible input doc.root = true → idListed up doc c.id ≠ []
  /-- The result lists the namespace nodes of its elements, whatever the input lists. -/
  namespaces : hasNsFilter input = true → ∀ n ∈ doc.descendants, ∀ p, doc.HasNsNode n.key p →
    CompoundTrue up doc outer xpathNode c n →
    (showsNs input n.key p = true ↔ isVisible input n.key = true)
  attributes : input.any NodeSet.excludesAttrs = false

end

section

variable {up : Uppsala} {doc outer : Document} {xpathNode : Node} {c : CompoundFilter}

/-- The value of the expression, without sizes. -/
theorem compoundTrue_iff (hx : xpathNode ∈ outer.descendants) {n : Node}
    (hn : n ∈ doc.descendants) :
    CompoundTrue up doc outer xpathNode c n
      ↔ UnderNamed c.a.1 c.a.2 n ∧ OutsideHere doc outer xpathNode c n
        ∨ BelowListed up doc c n := by
  rw [CompoundTrue, countsTrue_iff, selfAndAboveNamed_nonempty_iff]
  refine or_congr (and_congr_right (fun _ => ?_)) ?_
  · unfold OutsideHere hereNodes
    cases ha : hereAncestor? xpathNode c.b with
    | none => simp
    | some a =>
        have hmem : a ∈ xpathNode.path := List.mem_of_find?_eq_some ha
        have hname : a.2.isNamed c.b.1 c.b.2 = true := by simpa using List.find?_some ha
        have hin : (outer, a.1) ∈ selfAndAboveNamed doc c.b n
            ↔ outer = doc ∧ isDescendantOfIndex doc n a.1 = true := by
          simp only [selfAndAboveNamed, List.mem_toFinset, List.mem_map, List.mem_filter,
            Prod.mk.injEq]
          constructor
          · rintro ⟨b, ⟨hb, _⟩, rfl, hk⟩
            refine ⟨rfl, ?_⟩
            rw [← hk]
            rcases mem_selfPath.mp hb with hp | ⟨hk', _⟩
            · simp only [isDescendantOfIndex, Bool.or_eq_true, List.any_eq_true, beq_iff_eq]
              exact Or.inl (Or.inr ⟨b, hp, rfl⟩)
            · simp [isDescendantOfIndex, hk']
          · rintro ⟨rfl, hb⟩
            exact ⟨a, ⟨(mem_selfPath_iff hx hn hmem).mpr hb, hname⟩, rfl, rfl⟩
        simp [hin]
  · simp only [BelowListed, idNodes, Finset.subset_iff, List.mem_toFinset, List.mem_map]
    constructor
    · intro h p hp
      exact (mem_selfAndAbove.mp (h ⟨p, hp, rfl⟩)).2
    · rintro h _ ⟨p, hp, rfl⟩
      exact mem_selfAndAbove.mpr ⟨rfl, h p hp⟩

theorem compoundTrueAtRoot_iff :
    CompoundTrueAtRoot up doc outer xpathNode c ↔ idListed up doc c.id = [] := by
  rw [CompoundTrueAtRoot, countsTrue_iff]
  constructor
  · rintro (⟨h, _⟩ | h)
    · simp at h
    · by_contra hne
      obtain ⟨p, hp⟩ := List.exists_mem_of_ne_nil _ hne
      have hin : (doc, p.2.key) ∈ idNodes up doc c.id := by
        simp only [idNodes, List.mem_toFinset, List.mem_map]
        exact ⟨p, hp, rfl⟩
      have hroot := h hin
      rw [Finset.mem_singleton, Prod.mk.injEq] at hroot
      -- what carries an id is a node of the tree
      have hmem := Document.mem_descendants_key (mem_idEntries (List.mem_filter.mp hp).1)
      rw [hroot.2] at hmem
      exact doc.root_not_mem hmem
  · intro h
    refine Or.inr ?_
    simp [idNodes, h]

/-- What the code computes at a node. -/
theorem compoundKeeps_iff {n : Node} :
    compoundKeeps c doc (findAncestorByNameIdx xpathNode c.b.1 c.b.2)
        ((IdMap.get? (idEntries up defaultIdAttrs doc) c.id).map Forest.Cursor.key) n = true
      ↔ UnderNamed c.a.1 c.a.2 n ∧ OutsideIndex doc xpathNode c n ∨ BelowFound up doc c n := by
  rw [compoundKeeps_apply, Bool.or_eq_true, Bool.and_eq_true]
  refine or_congr (and_congr ?_ ?_) ?_
  · rw [UnderNamed, Node.elements, List.any_map]
    rfl
  · unfold OutsideIndex
    cases findAncestorByNameIdx xpathNode c.b.1 c.b.2 <;> simp
  · unfold BelowFound
    cases IdMap.get? (idEntries up defaultIdAttrs doc) c.id <;> simp

/-- The nearest `B` from the XPath element on is that element, or the nearest above it. -/
theorem findAncestorByNameIdx_eq (n : Node) (name : String × String) :
    findAncestorByNameIdx n name.1 name.2
      = if n.isNamed name.1 name.2 then some n.key else (hereAncestor? n name).map Prod.fst := by
  obtain ⟨key, path, item⟩ := n
  cases item with
  | leaf k => rfl
  | node e kids =>
      by_cases he : e.isNamed name.1 name.2 = true
      · simp [findAncestorByNameIdx, Forest.Cursor.selfPath, Node.isNamed, Node.element?, he]
      · simp [findAncestorByNameIdx, Forest.Cursor.selfPath, Node.isNamed, Node.element?, he,
          hereAncestor?]

theorem hereAgrees_iff {n : Node} :
    HereAgrees doc outer xpathNode c n
      ↔ (OutsideHere doc outer xpathNode c n ↔ OutsideIndex doc xpathNode c n) := by
  unfold HereAgrees OutsideHere OutsideIndex
  rw [findAncestorByNameIdx_eq]
  cases hereAncestor? xpathNode c.b with
  | none =>
      by_cases hb : xpathNode.isNamed c.b.1 c.b.2 = true
      · simp [hb]
      · simp [hb]
  | some a =>
      by_cases hb : xpathNode.isNamed c.b.1 c.b.2 = true
      · simp only [hb, if_true, Option.some.injEq, forall_eq', exists_eq_left']
        generalize isDescendantOfIndex doc n a.1 = below
        generalize isDescendantOfIndex doc n xpathNode.key = belowSelf
        cases below <;> cases belowSelf <;> simp
      · cases hd : isDescendantOfIndex doc n a.1 <;> simp [hb, hd]

/-- **The tests and the sizes, at one node.** -/
theorem compoundAgreesAt_iff (hx : xpathNode ∈ outer.descendants) {n : Node}
    (hn : n ∈ doc.descendants) :
    CompoundAgreesAt up doc outer xpathNode c n
      ↔ (compoundKeeps c doc (findAncestorByNameIdx xpathNode c.b.1 c.b.2)
          ((IdMap.get? (idEntries up defaultIdAttrs doc) c.id).map Forest.Cursor.key) n = true
        ↔ CompoundTrue up doc outer xpathNode c n) := by
  rw [compoundKeeps_iff, compoundTrue_iff hx hn]
  constructor
  · rintro ⟨hlet, hfound, hout⟩
    rw [hereAgrees_iff] at hout
    tauto
  · intro h
    refine ⟨?_, ?_, ?_⟩
    · tauto
    · tauto
    · rw [hereAgrees_iff]
      tauto

end

/-! ## The transform -/

/-- A filtered set that lists no namespace nodes of its own selects exactly where the two tests
agree, if the document node is to go and the input has no settings. -/
theorem selectsWhere_filterNodes_iff {doc : Document} {input : Option NodeSet} {keep : Node → Bool}
    {test : Node → Prop} {atRoot : Prop} :
    SelectsWhere doc input test atRoot (NodeSet.fromIds (filterNodes doc input keep) .normal)
      ↔ (∀ n ∈ doc.descendants, isVisible input n.key = true → (keep n = true ↔ test n))
        ∧ (isVisible input doc.root = true → ¬ atRoot)
        ∧ (hasNsFilter input = true → ∀ n ∈ doc.descendants, ∀ p, doc.HasNsNode n.key p → test n →
          (showsNs input n.key p = true ↔ isVisible input n.key = true))
        ∧ input.any NodeSet.excludesAttrs = false := by
  have hnode : ∀ n ∈ doc.descendants,
      (NodeSet.fromIds (filterNodes doc input keep) .normal).containsId n.key
        = (isVisible input n.key && keep n) :=
    fun n hn => containsId_filterNodes (by simp [NodeSet.fromIds]) rfl hn
  -- the filter runs over the descendants, so it never keeps the root
  have hroot : (NodeSet.fromIds (filterNodes doc input keep) .normal).containsId doc.root = false := by
    rw [NodeSet.containsId_fromIds_normal, decide_eq_false_iff_not, mem_filterNodes]
    rintro ⟨n, hn, hk, _⟩
    exact doc.root_not_mem (hk ▸ Document.mem_descendants_key hn)
  constructor
  · intro h
    have hnodes : ∀ n ∈ doc.descendants, isVisible input n.key = true → (keep n = true ↔ test n) := by
      intro n hn hv
      have := h.nodes n hn
      rw [hnode n hn, hv, Bool.true_and] at this
      simpa using this
    refine ⟨hnodes, ?_, ?_, ?_⟩
    · intro hv hr
      have := h.root.mpr ⟨hv, hr⟩
      rw [hroot] at this
      exact absurd this (by simp)
    · intro hf n hn p hp ht
      have := h.namespaces n hn p hp
      rw [containsNsNode, containsNsNode, if_pos hf, if_neg (by simp [hasNsFilter]), isVisible,
        hnode n hn, Bool.and_eq_true] at this
      constructor
      · intro hs
        exact (this.mpr ⟨hs, ht⟩).1
      · intro hv
        exact (this.mp ⟨hv, (hnodes n hn hv).mpr ht⟩).1
    · rw [← h.attributes]
      rfl
  · rintro ⟨hnodes, hr, hns, hattr⟩
    have hmain : ∀ n ∈ doc.descendants,
        ((NodeSet.fromIds (filterNodes doc input keep) .normal).containsId n.key = true
          ↔ isVisible input n.key = true ∧ test n) := by
      intro n hn
      rw [hnode n hn, Bool.and_eq_true]
      exact and_congr_right (hnodes n hn)
    refine ⟨hmain, ?_, ?_, ?_⟩
    · rw [hroot]
      simpa using hr
    · intro n hn p hp
      rw [containsNsNode, if_neg (by simp [hasNsFilter]), isVisible, hmain n hn, containsNsNode]
      refine and_congr_left (fun ht => ?_)
      by_cases hf : hasNsFilter input = true
      · rw [if_pos hf]
        exact (hns hf n hn p hp ht).symm
      · rw [if_neg hf]
    · rw [hattr]
      rfl

theorem parseCompound_of_classify {expr : List Char} {xpathNode : Node} {c : CompoundFilter}
    (h : classifyXPath expr xpathNode = .ok (.compound c)) :
    parseCompound expr xpathNode = some c := by
  unfold classifyXPath at h
  obtain ⟨enveloped, _, h⟩ := bind_eq_ok.mp h
  split at h
  · simp at h
  · split at h
    · simp at h
    · split at h
      · rename_i hc
        simpa [hc] using h
      · simp at h

/-- **When the compound filter leaves the nodes at which its expression is true.** -/
theorem compound_exact_iff {lib : TransformLibs} {data : TransformData} {xmlText : String}
    {input : Option NodeSet} {doc outer : Document} {transformNode xpathNode : Node}
    {sigNode : NodeId} {e : CompoundText} {c : CompoundFilter} {r : NodeSet}
    (hx : xpathChild? transformNode = some xpathNode) (hout : xpathNode ∈ outer.descendants)
    (htext : xpathExprOf xpathNode = e.text)
    (hacc : classifyXPath e.text xpathNode = .ok (.compound c))
    (hdata : data.asXml? = some (xmlText, input)) (hdoc : lib.parse xmlText = .ok doc)
    (hr : applyXPathTransform lib data transformNode sigNode = .ok (.xml xmlText (some r))) :
    e.resolve xpathNode = some c
      ∧ (SelectsWhere doc input (CompoundTrue lib.toUppsala doc outer xpathNode c)
          (CompoundTrueAtRoot lib.toUppsala doc outer xpathNode c) r
        ↔ CompoundExact lib.toUppsala doc outer xpathNode c input) := by
  refine ⟨?_, ?_⟩
  · rw [← parseCompound_text]
    exact parseCompound_of_classify hacc
  obtain ⟨xpathNode', filter, hx', hclass, happly⟩ := applyXPathTransform_ok.mp hr
  -- what was parsed is what is applied
  obtain rfl : xpathNode = xpathNode' := by
    rw [hx, Option.some.injEq] at hx'
    exact hx'
  obtain rfl : .compound c = filter := by
    rw [htext, hacc, Except.ok.injEq] at hclass
    exact hclass
  obtain ⟨xmlText', input', doc', idMap, hdata', hdoc', hid, heq⟩ := applyCompoundFilter_ok.mp happly
  rw [hdata, Option.some.injEq, Prod.mk.injEq] at hdata'
  obtain ⟨rfl, rfl⟩ := hdata'
  rw [hdoc, Except.ok.injEq] at hdoc'
  subst hdoc'
  simp only [TransformData.xml.injEq, true_and, Option.some.injEq] at heq
  rw [buildIdMap_ok hid] at heq
  rw [heq, selectsWhere_filterNodes_iff]
  constructor
  · rintro ⟨hnodes, hroot, hns, hattr⟩
    refine ⟨?_, ?_, hns, hattr⟩
    · intro n hn hv
      exact (compoundAgreesAt_iff hout hn).mpr (hnodes n hn hv)
    · intro hv hnone
      exact hroot hv (compoundTrueAtRoot_iff.mpr hnone)
  · rintro ⟨hnodes, hroot, hns, hattr⟩
    refine ⟨?_, ?_, hns, hattr⟩
    · intro n hn hv
      exact (compoundAgreesAt_iff hout hn).mp (hnodes n hn hv)
    · intro hv hr
      exact hroot hv (compoundTrueAtRoot_iff.mp hr)

/-! ## Where everything the expression looks for is there -/

/-- **With both elements there the filter is exact**: the `B` around the XPath element, which is not
one itself, and the element that carries the id. -/
theorem compoundExact_of_targets {up : Uppsala} {doc : Document} {xpathNode : Node}
    {c : CompoundFilter} {input : Option NodeSet} {m : Node}
    (hself : xpathNode.isNamed c.b.1 c.b.2 = false)
    (hhere : (hereAncestor? xpathNode c.b).isSome = true)
    (hlisted : idListed up doc c.id = [(c.id, m)])
    (hfound : IdMap.get? (idEntries up defaultIdAttrs doc) c.id = some m)
    (hns : hasNsFilter input = false) (hattr : input.any NodeSet.excludesAttrs = false) :
    CompoundExact up doc doc xpathNode c input := by
  have hbelow : ∀ n, BelowListed up doc c n ↔ BelowFound up doc c n := by
    intro n
    simp [BelowListed, BelowFound, hlisted, hfound]
  refine ⟨?_, ?_, ?_, hattr⟩
  · intro n _ _
    refine ⟨?_, ?_, ?_⟩
    · intro h
      exact Or.inl ((hbelow n).mp h)
    · intro h h'
      exact absurd ((hbelow n).mpr h') h
    · intro _ _ _
      obtain ⟨a, ha⟩ := Option.isSome_iff_exists.mp hhere
      unfold HereAgrees
      rw [ha]
      dsimp only
      rw [if_neg (by simp [hself])]
      exact Or.inl rfl
  · intro _
    simp [hlisted]
  · intro h
    rw [hns] at h
    exact absurd h (by simp)

/-! ## Nothing to leave out -/

/-- A name without prefix, of letters. -/
def sampleNameTest (s : String) (h : IsXPathName s.toList) : NameTest := ⟨none, s.toList, by simp, h⟩

/-- `ancestor-or-self::A`, less the `B` around the expression, and what is in `id('y')`. -/
def sampleCompound : CompoundText :=
  ⟨sampleNameTest "A" (by decide), sampleNameTest "B" (by decide), "y".toList, by decide⟩

def samplePlain (name : String) (attributes : List Attribute) : Element :=
  ⟨⟨none, name, none⟩, attributes, []⟩

def sampleCompoundKids : Nodes :=
  .node 3 (samplePlain "XPath" []) (.leaf 4 (.text (String.ofList sampleCompound.text)) .nil) .nil

/-- `<A><Transform><XPath>…</XPath></Transform><i Id="y"/></A>`, without any `B`. -/
def sampleWithoutB : Document where
  root := 0
  top := .node 1 (samplePlain "A" [])
    (.node 2 (samplePlain "Transform" []) sampleCompoundKids
      (.node 5 (samplePlain "i" [Sample.attr "Id" "y"]) .nil .nil)) .nil
  nodup := by
    show [0, 1, 2, 3, 4, 5].Nodup
    decide

def sampleCompoundTransform : Node :=
  ⟨2, [(1, samplePlain "A" [])], .node (samplePlain "Transform" []) sampleCompoundKids⟩

def sampleCompoundXPath : Node :=
  ⟨3, [(2, samplePlain "Transform" []), (1, samplePlain "A" [])],
    .node (samplePlain "XPath" []) (.leaf 4 (.text (String.ofList sampleCompound.text)) .nil)⟩

def sampleWithoutBLibs : TransformLibs := .ofParser (fun _ => .ok sampleWithoutB)

def sampleFilter : CompoundFilter := ⟨("", "A"), ("", "B"), "y"⟩

theorem sampleCompoundXPath_mem : sampleCompoundXPath ∈ sampleWithoutB.descendants :=
  List.mem_cons_of_mem _ (List.mem_cons_of_mem _ List.mem_cons_self)

theorem sampleCompound_expr : xpathExprOf sampleCompoundXPath = sampleCompound.text := by
  show Text.normalizeSpace (Text.trim (String.ofList sampleCompound.text).toList) = _
  rw [String.toList_ofList]
  decide +kernel

theorem sampleCompound_classify :
    classifyXPath sampleCompound.text sampleCompoundXPath = .ok (.compound sampleFilter) := by
  have henveloped : isEnvelopedXPath sampleCompound.text sampleCompoundXPath = .ok false := by
    decide +kernel
  have hhere : isEnvelopedXPathHere sampleCompound.text sampleCompoundXPath = false := by
    decide +kernel
  have hparse : parseXPathBoolExpr sampleCompound.text sampleCompoundXPath = none := by
    decide +kernel
  have hcompound : parseCompound sampleCompound.text sampleCompoundXPath = some sampleFilter := by
    rw [parseCompound_text]
    rfl
  rw [classifyXPath, henveloped, hhere]
  dsimp only [bind, Except.bind]
  rw [hparse, hcompound]
  rfl

/-- What the filter leaves of all nodes. -/
def sampleCompoundResult : NodeSet :=
  .fromIds (filterNodes sampleWithoutB none
    (compoundKeeps sampleFilter sampleWithoutB none (some 5))) .normal

theorem sampleCompound_apply :
    applyXPathTransform sampleWithoutBLibs (.xml "" none) sampleCompoundTransform 0
      = .ok (.xml "" (some sampleCompoundResult)) := by
  have hclass := sampleCompound_classify
  rw [← sampleCompound_expr] at hclass
  refine applyXPathTransform_ok.mpr ⟨sampleCompoundXPath, _, rfl, hclass, ?_⟩
  exact applyCompoundFilter_ok.mpr ⟨"", none, sampleWithoutB, _, rfl, rfl, rfl, rfl⟩

theorem compound_exact_iff_sample :
    sampleCompound.resolve sampleCompoundXPath = some sampleFilter
      ∧ (SelectsWhere sampleWithoutB none
          (CompoundTrue sampleWithoutBLibs.toUppsala sampleWithoutB sampleWithoutB
            sampleCompoundXPath sampleFilter)
          (CompoundTrueAtRoot sampleWithoutBLibs.toUppsala sampleWithoutB sampleWithoutB
            sampleCompoundXPath sampleFilter) sampleCompoundResult
        ↔ CompoundExact sampleWithoutBLibs.toUppsala sampleWithoutB sampleWithoutB
            sampleCompoundXPath sampleFilter none) :=
  compound_exact_iff (show xpathChild? sampleCompoundTransform = some sampleCompoundXPath from rfl)
    sampleCompoundXPath_mem sampleCompound_expr sampleCompound_classify rfl rfl sampleCompound_apply

/-- Every accepted expression selects the nodes at which it is true. -/
def CompoundFilterExact : Prop :=
  ∀ (lib : TransformLibs) (data : TransformData) (xmlText : String) (input : Option NodeSet)
    (doc outer : Document) (transformNode xpathNode : Node) (sigNode : NodeId) (e : CompoundText)
    (c : CompoundFilter) (r : NodeSet),
    xpathChild? transformNode = some xpathNode → xpathNode ∈ outer.descendants →
    xpathExprOf xpathNode = e.text →
    classifyXPath e.text xpathNode = .ok (.compound c) →
    data.asXml? = some (xmlText, input) → lib.parse xmlText = .ok doc →
    applyXPathTransform lib data transformNode sigNode = .ok (.xml xmlText (some r)) →
    SelectsWhere doc input (CompoundTrue lib.toUppsala doc outer xpathNode c)
      (CompoundTrueAtRoot lib.toUppsala doc outer xpathNode c) r

/-- With no `B` to leave out the element `A` is kept; its two sizes are equal. -/
theorem missing_here_keeps : ¬ CompoundFilterExact := by
  intro h
  have hsel := h sampleWithoutBLibs (.xml "" none) "" none sampleWithoutB sampleWithoutB
    sampleCompoundTransform sampleCompoundXPath 0 sampleCompound sampleFilter sampleCompoundResult
    rfl sampleCompoundXPath_mem sampleCompound_expr sampleCompound_classify rfl rfl
    sampleCompound_apply
  let i : Element := samplePlain "i" [Sample.attr "Id" "y"]
  let a : Node := ⟨1, [], .node (samplePlain "A" []) (.node 2 (samplePlain "Transform" [])
    sampleCompoundKids (.node 5 i .nil .nil))⟩
  have hmem : a ∈ sampleWithoutB.descendants := List.mem_cons_self
  have hkept : sampleCompoundResult.containsId 1 = true := by decide +kernel
  have htrue := ((hsel.nodes a hmem).mp hkept).2
  rcases (compoundTrue_iff sampleCompoundXPath_mem hmem).mp htrue with ⟨_, b, hb, _⟩ | hlisted
  · exact absurd (show none = some b from hb) (by simp)
  · have hbelow := hlisted ("y", ⟨5, [(1, samplePlain "A" [])], .node i .nil⟩) List.mem_cons_self
    exact absurd (show false = true from hbelow) (by simp)

end Bergshamra
