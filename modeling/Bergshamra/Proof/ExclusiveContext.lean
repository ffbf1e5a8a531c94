import Bergshamra.C14n.Canonicalize

/-!
# Exclusive canonicalization does not look at the envelope

A signed element is moved from one envelope to another. Exclusive
canonicalization of its subtree must not notice: the only thing it may read from
the envelope is what the prefixes the subtree visibly utilizes are bound to.

Three steps. Nodes outside the set write nothing, so the walk over the document
is the walk over the subtree alone, started with nothing rendered. Inside the
subtree visibility is the same in both documents, node for node. And the walk
over two subtrees of one shape stays in step: at each depth both runs have
rendered the same bindings, and look the utilized prefixes up with the same
result.
-/

namespace Bergshamra

/-- Every prefix visibly utilized by an element of the row or below it. -/
def Exclusive.utilizedBelow {ι : Type} : Forest ι Element LeafKind → List String
  | .nil => []
  | .leaf _ _ rest => utilizedBelow rest
  | .node _ e kids rest => utilizedPrefixes [] e ++ (utilizedBelow kids ++ utilizedBelow rest)

/-- The namespaces in scope at the parent of a node. -/
def Exclusive.envelopeNamespaces (n : Node) : NsMap :=
  collectInscopeNamespaces (n.path.map Prod.snd)

namespace Exclusive

/-! ## Outside the set nothing is written -/

/-- A row with no visible node writes nothing, when namespace nodes are not filtered. -/
theorem processNodes_hidden {ctx : ExcC14nContext} (hf : hasNsFilter ctx.nodeSet = false)
    (path : List (NodeId × Element)) (preceding : Bool) (rendered : NsMap) (f : Nodes)
    (h : ∀ i ∈ f.keys, isVisible ctx.nodeSet i = false) :
    processNodes ctx path preceding rendered f = [] := by
  induction f generalizing path preceding rendered with
  | nil => rfl
  | leaf i k rest ih =>
      have hi : isVisible ctx.nodeSet i = false := h i (by simp)
      rw [processNodes, ih _ _ _ (fun j hj => h j (by simp [hj])), hi]
      simp
  | node i e kids rest ihk ihr =>
      have hi : isVisible ctx.nodeSet i = false := h i (by simp)
      rw [processNodes, ihk _ _ rendered (fun j hj => h j (by simp [hj])),
        ihr _ _ _ (fun j hj => h j (by simp [hj])), hi, hf]
      simp

/-- **The walk reaches one subtree.** When every visible node lies at or below the element
`c`, the row that holds `c` writes what `c` alone writes. -/
theorem processNodes_subtree {ctx : ExcC14nContext} (hf : hasNsFilter ctx.nodeSet = false)
    {c : Node} (hc : c.element?.isSome) (rendered : NsMap) {path : List (NodeId × Element)}
    {f : Nodes} (preceding : Bool) (hn : f.keys.Nodup) (hmem : c ∈ f.cursors path)
    (h : ∀ i ∈ f.keys, i ∉ c.subtreeKeys → isVisible ctx.nodeSet i = false) :
    processNodes ctx path preceding rendered f
      = processNodes ctx c.path false rendered c.toForest := by
  induction f generalizing path preceding with
  | nil => simp [Forest.cursors] at hmem
  | leaf i k rest ih =>
      rw [Forest.keys_leaf, List.nodup_cons] at hn
      rw [Forest.cursors, List.mem_cons] at hmem
      rcases hmem with hmem | hmem
      · subst hmem
        simp [Node.element?] at hc
      · have hi : i ∉ c.subtreeKeys := fun hi => hn.1 (Forest.subtreeKeys_subset hmem hi)
        rw [processNodes, h i (by simp) hi, ih preceding hn.2 hmem
          (fun j hj => h j (by simp [hj]))]
        simp
  | node i e kids rest ihk ihr =>
      have hk : kids.keys.Nodup :=
        (List.nodup_append.mp (List.nodup_cons.mp hn).2).1
      have hr : rest.keys.Nodup :=
        (List.nodup_append.mp (List.nodup_cons.mp hn).2).2.1
      have hd := (List.nodup_append.mp (List.nodup_cons.mp hn).2).2.2
      have hi := (List.nodup_cons.mp hn).1
      rw [Forest.cursors, List.mem_cons, List.mem_append] at hmem
      rcases hmem with hmem | hmem | hmem
      · -- the element itself: its later siblings are hidden
        subst hmem
        have hrest : ∀ j ∈ rest.keys, isVisible ctx.nodeSet j = false := by
          intro j hj
          refine h j (by simp [hj]) ?_
          intro hs
          rcases List.mem_cons.mp hs with hs | hs
          · subst hs
            exact hi (List.mem_append_right _ hj)
          · exact hd j hs j hj rfl
        rw [Forest.Cursor.toForest, processNodes, processNodes,
          processNodes_hidden hf _ _ _ rest hrest]
        rfl
      · -- below a hidden element: nothing is written for it, and its siblings are hidden
        have hrest : ∀ j ∈ rest.keys, isVisible ctx.nodeSet j = false := fun j hj =>
          h j (by simp [hj]) (Forest.not_mem_subtreeKeys_of_kids hn hmem (Or.inr hj))
        have hvi : isVisible ctx.nodeSet i = false :=
          h i (by simp) (Forest.not_mem_subtreeKeys_of_kids hn hmem (Or.inl rfl))
        rw [processNodes, hvi, hf, processNodes_hidden hf _ _ _ rest hrest,
          ihk false hk hmem (fun j hj => h j (by simp [hj]))]
        simp
      · -- behind a hidden element
        have hkids : ∀ j ∈ kids.keys, isVisible ctx.nodeSet j = false := fun j hj =>
          h j (by simp [hj]) (Forest.not_mem_subtreeKeys_of_rest hn hmem (Or.inr hj))
        have hvi : isVisible ctx.nodeSet i = false :=
          h i (by simp) (Forest.not_mem_subtreeKeys_of_rest hn hmem (Or.inl rfl))
        rw [processNodes, hvi, hf, processNodes_hidden hf _ _ rendered kids hkids,
          ihr true hr hmem (fun j hj => h j (by simp [hj]))]
        simp

/-! ## Two runs in step -/

/-- Which declaration a prefix gets depends on that prefix's binding alone, and `xml` gets none. -/
theorem nsDeclFor_congr {rendered ns ns' : NsMap} {p : String}
    (h : p ≠ "xml" → ns[p]? = ns'[p]?) : nsDeclFor rendered ns p = nsDeclFor rendered ns' p := by
  unfold nsDeclFor
  by_cases hp : p = "xml"
  · rw [if_pos hp, if_pos hp]
  · rw [if_neg hp, if_neg hp, h hp]

/-- The declarations of an element depend on the bindings of the utilized prefixes alone. -/
theorem nsDecls_congr {rendered ns ns' : NsMap} {utilized : List String}
    (h : ∀ p ∈ utilized, p ≠ "xml" → ns[p]? = ns'[p]?) :
    nsDecls rendered ns utilized = nsDecls rendered ns' utilized := by
  unfold nsDecls
  rw [List.filterMap_congr (fun p hp => nsDeclFor_congr (h p hp))]

/-- Unfiltered, what the children find rendered depends on the declarations alone. -/
theorem childRendered_congr {rendered ns ns' : NsMap} {utilized : List String}
    (h : ∀ p ∈ utilized, p ≠ "xml" → ns[p]? = ns'[p]?) :
    childRendered false rendered ns utilized = childRendered false rendered ns' utilized := by
  unfold childRendered
  rw [nsDecls_congr h]
  simp

/-- One element deeper, two envelopes that agree on a prefix still agree on it. -/
theorem inscope_congr {chain chain' : List Element} {p : String} (e : Element)
    (h : (collectInscopeNamespaces chain)[p]? = (collectInscopeNamespaces chain')[p]?) :
    (collectInscopeNamespaces (e :: chain))[p]? = (collectInscopeNamespaces (e :: chain'))[p]? := by
  unfold collectInscopeNamespaces at h ⊢
  rw [getElem?_collectInscope_cons, getElem?_collectInscope_cons, h]

/-- Two contexts that a walk without a namespace filter and a PrefixList cannot tell apart,
apart from which nodes are visible. -/
structure SameSettings (ctx ctx' : ExcC14nContext) : Prop where
  withComments : ctx.withComments = ctx'.withComments
  noPrefixes : ctx.inclusivePrefixes = []
  noPrefixes' : ctx'.inclusivePrefixes = []
  noFilter : hasNsFilter ctx.nodeSet = false
  noFilter' : hasNsFilter ctx'.nodeSet = false

/-- **One element.** Two visible elements with the same start tag and in-step contents write
the same. -/
theorem processNodes_node_congr {ctx ctx' : ExcC14nContext} (hs : SameSettings ctx ctx')
    {path path' : List (NodeId × Element)} (preceding preceding' : Bool) (rendered : NsMap)
    {i i' : NodeId} {e : Element} {kids kids' rest rest' : Nodes}
    (hi : isVisible ctx.nodeSet i = true) (hi' : isVisible ctx'.nodeSet i' = true)
    (hns : ∀ p ∈ utilizedPrefixes [] e, p ≠ "xml" →
      (collectInscopeNamespaces (path.map Prod.snd))[p]?
        = (collectInscopeNamespaces (path'.map Prod.snd))[p]?)
    (hkids : ∀ r, processNodes ctx ((i, e) :: path) false r kids
      = processNodes ctx' ((i', e) :: path') false r kids')
    (hrest : processNodes ctx path true rendered rest
      = processNodes ctx' path' true rendered rest') :
    processNodes ctx path preceding rendered (.node i e kids rest)
      = processNodes ctx' path' preceding' rendered (.node i' e kids' rest') := by
  have hns' : ∀ p ∈ utilizedPrefixes [] e, p ≠ "xml" →
      (collectInscopeNamespaces (e :: path.map Prod.snd))[p]?
        = (collectInscopeNamespaces (e :: path'.map Prod.snd))[p]? :=
    fun p hp hx => inscope_congr e (hns p hp hx)
  rw [processNodes, processNodes, hi, hi', hs.noPrefixes, hs.noPrefixes', hs.noFilter,
    hs.noFilter', hrest]
  unfold visibleNs
  rw [visibleNamespaces_of_not_filter hs.noFilter, visibleNamespaces_of_not_filter hs.noFilter',
    nsDecls_congr hns', childRendered_congr hns', hkids]
  rfl

/-- **The two walks stay in step.** Below an element, over rows of one shape whose nodes are
visible alike: if both runs have rendered the same and bind every utilized prefix alike, they
write the same. -/
theorem processNodes_congr {ctx ctx' : ExcC14nContext} (hs : SameSettings ctx ctx')
    {keep : LeafKind → Bool} {path path' : List (NodeId × Element)} (preceding : Bool)
    (rendered : NsMap) {f f' : Nodes} (hshape : f.shape = f'.shape)
    (hm : f.Marked (isVisible ctx.nodeSet) keep) (hm' : f'.Marked (isVisible ctx'.nodeSet) keep)
    (hp : path ≠ []) (hp' : path' ≠ [])
    (hns : ∀ p ∈ utilizedBelow f, p ≠ "xml" →
      (collectInscopeNamespaces (path.map Prod.snd))[p]?
        = (collectInscopeNamespaces (path'.map Prod.snd))[p]?) :
    processNodes ctx path preceding rendered f
      = processNodes ctx' path' preceding rendered f' := by
  induction f generalizing path path' preceding rendered f' with
  | nil =>
      cases f' with
      | nil => rfl
      | leaf | node => simp at hshape
  | leaf i k rest ih =>
      cases f' with
      | nil | node => simp at hshape
      | leaf i' k' rest' =>
          simp only [Forest.shape_leaf, Forest.leaf.injEq, true_and] at hshape
          obtain ⟨rfl, hrest⟩ := hshape
          have hroot : path.isEmpty = false := by simpa using hp
          have hroot' : path'.isEmpty = false := by simpa using hp'
          -- below an element no newline is written, so the siblings do not matter
          have hleaf : ∀ b b' w w' : Bool, processLeaf ctx.withComments ⟨false, b, b'⟩ k
              = processLeaf ctx'.withComments ⟨false, w, w'⟩ k := by
            intro b b' w w'
            rw [hs.withComments]
            cases k <;> simp [processLeaf, Place.before, Place.after]
          rw [processNodes, processNodes, ih preceding rendered hrest hm.2 hm'.2 hp hp' hns,
            hm.1, hm'.1, hroot, hroot', hleaf]
  | node i e kids rest ihk ihr =>
      cases f' with
      | nil | leaf => simp at hshape
      | node i' e' kids' rest' =>
          simp only [Forest.shape_node, Forest.node.injEq, true_and] at hshape
          obtain ⟨rfl, hkids, hrest⟩ := hshape
          refine processNodes_node_congr hs preceding preceding rendered hm.1 hm'.1 ?_ ?_ ?_
          · intro p hpu
            exact hns p (List.mem_append_left _ hpu)
          · intro r
            refine ihk false r hkids hm.2.1 hm'.2.1 (by simp) (by simp) ?_
            intro p hpu hx
            exact inscope_congr e (hns p (by simp [utilizedBelow, hpu]) hx)
          · refine ihr true rendered hrest hm.2.2 hm'.2.2 hp hp' ?_
            intro p hpu
            exact hns p (by simp [utilizedBelow, hpu])

end Exclusive

/-! ## The subtree sets -/

/-- `tree_with_comments` or `tree_without_comments`. -/
def NodeSet.tree (includeComments : Bool) (n : Node) : NodeSet :=
  if includeComments then .treeWithComments n else .treeWithoutComments n

theorem NodeSet.containsId_tree (includeComments : Bool) {n : Node} {e : Element}
    {kids : Nodes} (hn : n.item = .node e kids) (id : NodeId) :
    (NodeSet.tree includeComments n).containsId id = true
      ↔ id = n.key ∨ id ∈ kids.keysWhere (fun k => includeComments || !k.isComment) := by
  unfold NodeSet.tree NodeSet.treeWithComments NodeSet.treeWithoutComments collectSubtree
  rw [hn]
  cases includeComments <;> simp

theorem NodeSet.hasNsVisible_tree (includeComments : Bool) (n : Node) :
    (NodeSet.tree includeComments n).hasNsVisible = false := by
  unfold NodeSet.tree
  cases includeComments <;> rfl

/-- In the subtree set of an element, the nodes below it are marked by being comments or not. -/
theorem NodeSet.marked_tree (includeComments : Bool) {doc : Document} {n : Node} {e : Element}
    {kids : Nodes} (hmem : n ∈ doc.descendants) (hn : n.item = .node e kids) :
    kids.Marked (isVisible (some (NodeSet.tree includeComments n)))
      (fun k => includeComments || !k.isComment) := by
  have hkeys : n.subtreeKeys = n.key :: kids.keys := by
    rw [Forest.Cursor.subtreeKeys, Forest.Cursor.kids, hn]
  have hnodup : n.subtreeKeys.Nodup :=
    doc.nodup_top.sublist (Forest.subtreeKeys_sublist hmem)
  rw [hkeys, List.nodup_cons] at hnodup
  refine Forest.marked_of_keysWhere hnodup.2 ?_
  intro i hi
  have hne : i ≠ n.key := fun he => hnodup.1 (he ▸ hi)
  rw [isVisible, NodeSet.containsId_tree includeComments hn]
  simp [hne]

/-- The element itself is visible in its set. -/
theorem NodeSet.visible_tree_self (includeComments : Bool) {n : Node} {e : Element}
    {kids : Nodes} (hn : n.item = .node e kids) :
    isVisible (some (NodeSet.tree includeComments n)) n.key = true :=
  (NodeSet.containsId_tree includeComments hn n.key).mpr (Or.inl rfl)

/-- Nothing outside the subtree is visible in its set. -/
theorem NodeSet.not_visible_tree (includeComments : Bool) {n : Node} {e : Element}
    {kids : Nodes} (hn : n.item = .node e kids) {i : NodeId} (hi : i ∉ n.subtreeKeys) :
    isVisible (some (NodeSet.tree includeComments n)) i = false := by
  rw [isVisible, ← Bool.not_eq_true, NodeSet.containsId_tree includeComments hn]
  intro h
  apply hi
  rw [Forest.Cursor.subtreeKeys, Forest.Cursor.kids, hn]
  rcases h with h | h
  · simp [h]
  · exact List.mem_cons_of_mem _ (Forest.keysWhere_subset _ kids h)

namespace Exclusive

/-- The walk over the document with the set of one element is the walk over that element. -/
theorem canonicalize_tree (includeComments withComments : Bool) {doc : Document} {n : Node}
    {e : Element} {kids : Nodes} (hmem : n ∈ doc.descendants) (hn : n.item = .node e kids) :
    canonicalize doc withComments (some (NodeSet.tree includeComments n)) []
      = processNodes ⟨withComments, some (NodeSet.tree includeComments n), []⟩ n.path false ∅
          (.node n.key e kids .nil) := by
  have hf : hasNsFilter (some (NodeSet.tree includeComments n)) = false := by
    simp [hasNsFilter, NodeSet.hasNsVisible_tree]
  have hsome : n.element?.isSome := by
    simp [Node.element?, hn]
  rw [canonicalize, processNodes_subtree (c := n) hf hsome ∅ false doc.nodup_top hmem
    (fun i _ hi => NodeSet.not_visible_tree includeComments hn hi), Forest.Cursor.toForest, hn]

/-- **Exclusive canonicalization is context independent.** Two elements of two documents
whose subtrees have one shape, and whose envelopes bind every prefix utilized in it alike (`xml`,
which is bound everywhere, apart), have the same canonical form. Nothing else about the envelopes
is assumed. -/
theorem exclusive_context_independent (mode : C14nMode) (hmode : mode.isExclusive = true)
    (includeComments : Bool) (doc doc' : Document) (n n' : Node)
    (hmem : n ∈ doc.descendants) (hmem' : n' ∈ doc'.descendants)
    (helem : n.element?.isSome) (hshape : n.toForest.shape = n'.toForest.shape)
    (hbind : ∀ p ∈ utilizedBelow n.toForest, p ≠ "xml" →
      (envelopeNamespaces n)[p]? = (envelopeNamespaces n')[p]?) :
    canonicalizeDoc doc mode (some (NodeSet.tree includeComments n)) []
      = canonicalizeDoc doc' mode (some (NodeSet.tree includeComments n')) [] := by
  rw [canonicalizeDoc_eq_iff, canonicalText, canonicalText, hmode]
  obtain ⟨id, path, item⟩ := n
  obtain ⟨id', path', item'⟩ := n'
  cases item with
  | leaf k => simp [Node.element?] at helem
  | node e kids =>
      cases item' with
      | leaf k => simp [Forest.Cursor.toForest] at hshape
      | node e' kids' =>
          simp only [Forest.Cursor.toForest, Forest.shape_node, Forest.node.injEq, true_and,
            and_true] at hshape
          obtain ⟨rfl, hkids⟩ := hshape
          rw [if_pos rfl, if_pos rfl, canonicalize_tree includeComments _ hmem rfl,
            canonicalize_tree includeComments _ hmem' rfl]
          have hs : SameSettings
              ⟨mode.withComments, some (NodeSet.tree includeComments ⟨id, path, .node e kids⟩), []⟩
              ⟨mode.withComments, some (NodeSet.tree includeComments ⟨id', path', .node e kids'⟩),
                []⟩ :=
            ⟨rfl, rfl, rfl, by simp [hasNsFilter, NodeSet.hasNsVisible_tree],
              by simp [hasNsFilter, NodeSet.hasNsVisible_tree]⟩
          -- what the subtree utilizes is bound alike in both envelopes, at the apex and below it
          refine processNodes_node_congr hs false false ∅ ?_ ?_ ?_ ?_ rfl
          · exact NodeSet.visible_tree_self includeComments (n := ⟨id, path, .node e kids⟩) rfl
          · exact NodeSet.visible_tree_self includeComments (n := ⟨id', path', .node e kids'⟩) rfl
          · intro p hp
            exact hbind p (List.mem_append_left _ hp)
          · intro r
            refine processNodes_congr hs false r hkids
              (NodeSet.marked_tree includeComments hmem rfl)
              (NodeSet.marked_tree includeComments hmem' rfl) (by simp) (by simp) ?_
            intro p hp hx
            exact inscope_congr e
              (hbind p (by simp [utilizedBelow, Forest.Cursor.toForest, hp]) hx)

/-- `<p:b t="1">x</p:b>`, whose id and whose text's id depend on the document. -/
def sampleAssertion (id : NodeId) : Nodes :=
  .node id ⟨⟨some "p", "b", some "urn:p"⟩, [⟨⟨none, "t", none⟩, "1"⟩], []⟩
    (.leaf (id + 1) (.text "x") .nil) .nil

/-- The assertion below `<a xmlns:p="urn:p">`. -/
def sampleEnvelope : Document where
  root := 0
  top := .node 1 ⟨⟨none, "a", none⟩, [], [("p", "urn:p")]⟩ (sampleAssertion 2) .nil
  nodup := by decide

/-- The assertion below `<c xmlns="urn:c" xmlns:p="urn:p" xml:lang="en">`, after a text. -/
def sampleEnvelope' : Document where
  root := 0
  top := .node 5 ⟨⟨none, "c", some "urn:c"⟩, [⟨⟨some "xml", "lang", some Ns.XML⟩, "en"⟩],
    [("", "urn:c"), ("p", "urn:p")]⟩ (.leaf 6 (.text "y") (sampleAssertion 7)) .nil
  nodup := by decide

/-- The assertion as a node of the first envelope, then of the second. -/
def sampleNode : Node :=
  ⟨2, [(1, ⟨⟨none, "a", none⟩, [], [("p", "urn:p")]⟩)],
    .node ⟨⟨some "p", "b", some "urn:p"⟩, [⟨⟨none, "t", none⟩, "1"⟩], []⟩
      (.leaf 3 (.text "x") .nil)⟩

def sampleNode' : Node :=
  ⟨7, [(5, ⟨⟨none, "c", some "urn:c"⟩, [⟨⟨some "xml", "lang", some Ns.XML⟩, "en"⟩],
      [("", "urn:c"), ("p", "urn:p")]⟩)],
    .node ⟨⟨some "p", "b", some "urn:p"⟩, [⟨⟨none, "t", none⟩, "1"⟩], []⟩
      (.leaf 8 (.text "x") .nil)⟩

theorem exclusive_context_independent_sample :
    canonicalizeDoc sampleEnvelope .exclusive (some (NodeSet.tree false sampleNode)) []
      = canonicalizeDoc sampleEnvelope' .exclusive (some (NodeSet.tree false sampleNode')) [] :=
  exclusive_context_independent .exclusive rfl false sampleEnvelope sampleEnvelope'
    sampleNode sampleNode' (by decide) (by decide) rfl (by decide) (by decide)

end Exclusive

end Bergshamra
