import Bergshamra.Proof.InputOnly
import Bergshamra.Dsig.Verify
import Mathlib.Data.Fintype.EquivFin

/-!
# The transforms that read outside their input

For each of the three, two documents that differ outside the node set and have
two outputs. The node set is empty, so any change is a change outside it: the
relationship transform then still lists what it selects, the XSLT processor
still copies the text, and an XPath filter that holds at a namespace node still
lets the canonicalizer write the namespace.

A transform that looks a node up by index takes another one when something
outside the set comes before it: of two documents whose set is one element, one
has a comment in front, with the index that the element has in the other.
-/

namespace Bergshamra

/-- No node at all. -/
def noNodes : NodeSet := NodeSet.fromIds ∅ .normal

/-- A document with one element for its document element. -/
def rootedDocument (e : Element) (kids : Nodes) (h : (0 :: 1 :: kids.keys).Nodup) : Document where
  root := 0
  top := .node 1 e kids .nil
  nodup := by simpa using h

theorem dark_noNodes (f : Nodes) : Dark (fun _ => true) (some noNodes) f := by
  refine dark_of_keys ?_ ?_
  · intro i _
    rfl
  · intro hf
    exact absurd hf (by decide)

theorem Numbering.same_self (numbering : Numbering) (transformNode : Node) (sigNode i : NodeId) :
    numbering.same transformNode sigNode sigNode i i := by
  cases numbering with
  | kept => exact ⟨Iff.rfl, fun _ _ => Iff.rfl⟩
  | free => rfl

/-- With no node in the set, one document may be changed into any other. -/
theorem changedOutside_noNodes {same : NodeId → NodeId → Prop} (hsame : same 0 0) (e e' : Element)
    {kids kids' : Nodes} (h : (0 :: 1 :: kids.keys).Nodup) (h' : (0 :: 1 :: kids'.keys).Nodup) :
    ChangedOutside same (rootedDocument e kids h) (some noNodes) (rootedDocument e' kids' h')
      (some noNodes) := by
  refine ⟨⟨rfl, rfl, rfl⟩, ?_, ?_, hsame, ?_⟩
  · rintro _ ⟨⟩
    simp [noNodes, NodeSet.fromIds]
  · rintro _ ⟨⟩
    simp [noNodes, NodeSet.fromIds]
  · exact .hole (dark_noNodes _) (dark_noNodes _) .nil

/-- A parser that knows two texts. -/
def parserOfTwo (doc doc' : Document) (text : String) : Except String Document :=
  if text = "" then .ok doc else .ok doc'

/-- **Two outputs where only excluded nodes differ** refute the law. -/
theorem not_dependsOnInput {lib : TransformLibs} {numbering : Numbering} {uri : String}
    {transformNode : Node} (e e' : Element) {kids kids' : Nodes} (h : (0 :: 1 :: kids.keys).Nodup)
    (h' : (0 :: 1 :: kids'.keys).Nodup) {output output' : ByteArray} (hne : output ≠ output')
    (ho : transformOutput
        (lib.withParse (parserOfTwo (rootedDocument e kids h) (rootedDocument e' kids' h'))) uri
        (.xml "" (some noNodes)) transformNode 0 = .ok output)
    (ho' : transformOutput
        (lib.withParse (parserOfTwo (rootedDocument e kids h) (rootedDocument e' kids' h'))) uri
        (.xml "'" (some noNodes)) transformNode 0 = .ok output') :
    ¬ DependsOnInput lib numbering uri transformNode := by
  intro hlaw
  have hchanged := changedOutside_noNodes (numbering.same_self transformNode 0 0) e e' h h'
  exact hne (hlaw _ "" "'" _ _ _ _ 0 0 output output' rfl rfl hchanged ho ho')

theorem toUTF8_ne {a b : String} (h : a ≠ b) : a.toUTF8 ≠ b.toUTF8 := by
  rw [String.toUTF8_eq_toByteArray, String.toUTF8_eq_toByteArray]
  exact fun he => h (String.toByteArray_inj.mp he)

/-! ## Relationships -/

/-- What the transform writes for a document element. -/
def relationshipsOf (lib : TransformLibs) (transformNode root : Node) : String :=
  writeRelationships lib ((selectedRels lib.toUppsala
    (referenceValues lib.toUppsala transformNode "RelationshipReference" "SourceId")
    (referenceValues lib.toUppsala transformNode "RelationshipsGroupReference" "SourceType")
    root).insertionSort RelInfo.le)

theorem transformOutput_relationship (lib : TransformLibs) {parse : String → Except String Document}
    {xmlText : String} {doc : Document} (hdoc : parse xmlText = .ok doc) {root : Node}
    (hroot : doc.documentElement = some root) (s : Option NodeSet) (transformNode : Node)
    (sigNode : NodeId) :
    transformOutput (lib.withParse parse) Algorithm.RELATIONSHIP (.xml xmlText s) transformNode sigNode
      = .ok (relationshipsOf lib transformNode root).toUTF8 := by
  have hparse : (lib.withParse parse).parse xmlText = .ok doc := hdoc
  rw [transformOutput, applyTransform_relationship, applyRelationshipTransform, inputText, bind_eq_ok]
  refine ⟨.binary (relationshipsOf lib transformNode root).toUTF8, ?_, rfl⟩
  rw [bind_eq_ok]
  refine ⟨xmlText, rfl, ?_⟩
  rw [hparse]
  dsimp only
  rw [hroot]
  rfl

theorem relationship_reads_outside {lib : TransformLibs} {numbering : Numbering}
    (hw : ∀ name attrs, lib.emptyElementExpanded name attrs ≠ "") {transformNode : Node} {e : Element}
    (hs : SelectsRelationship lib.toUppsala transformNode e) :
    ¬ DependsOnInput lib numbering Algorithm.RELATIONSHIP transformNode := by
  have hn : (0 :: 1 :: (Forest.node 2 e .nil .nil : Nodes).keys).Nodup := by simp
  have hn' : (0 :: 1 :: (Forest.nil : Nodes).keys).Nodup := by simp
  obtain ⟨hname, hsel⟩ := hs
  -- with the relationship below the document element, and without
  have hone : relationshipsOf lib transformNode ⟨1, [], .node e (.node 2 e .nil .nil)⟩
      = writeRelationships lib [relInfoOf lib.toUppsala e] := by
    have hrels : selectedRels lib.toUppsala
        (referenceValues lib.toUppsala transformNode "RelationshipReference" "SourceId")
        (referenceValues lib.toUppsala transformNode "RelationshipsGroupReference" "SourceType")
        ⟨1, [], .node e (.node 2 e .nil .nil)⟩ = [relInfoOf lib.toUppsala e] := by
      simpa [selectedRels, Forest.Cursor.children, Forest.Cursor.kids, Forest.row, Node.element?,
        hname] using hsel
    rw [relationshipsOf, hrels]
    rfl
  have hnone : relationshipsOf lib transformNode ⟨1, [], .node e .nil⟩ = writeRelationships lib [] :=
    rfl
  refine not_dependsOnInput e e hn hn' ?_ (transformOutput_relationship lib rfl rfl _ _ _)
    (transformOutput_relationship lib rfl rfl _ _ _)
  apply toUTF8_ne
  rw [hone, hnone]
  intro heq
  have hchars := congrArg String.toList heq
  simp only [writeRelationships, List.map_cons, List.map_nil, String.join_cons, String.join_nil,
    String.append_empty, String.toList_append, List.append_cancel_right_eq] at hchars
  rw [List.append_right_eq_self] at hchars
  exact hw _ _ (String.toList_eq_nil_iff.mp hchars)

/-! ## XSLT -/

/-- A name that no template is made for. -/
theorem exists_unmatched_name (up : Uppsala) (templates : List Node) :
    ∃ name : String, ∀ t ∈ templates, Xslt.matchAttrOf up t ≠ name.toList := by
  obtain ⟨cs, hcs⟩ := Infinite.exists_notMem_finset (templates.map (Xslt.matchAttrOf up)).toFinset
  refine ⟨String.ofList cs, ?_⟩
  intro t ht he
  rw [String.toList_ofList] at he
  apply hcs
  rw [List.mem_toFinset, ← he]
  exact List.mem_map_of_mem ht

/-- Without a template for the document element the default rules copy the text below it. -/
theorem outputOf_unmatched {up : Uppsala} {st : Xslt.Stylesheet} {e : Element}
    (h : ∀ t ∈ st.templates, Xslt.matchAttrOf up t ≠ e.name.localName.toList) (kids : Nodes)
    (hn : (0 :: 1 :: kids.keys).Nodup) :
    Xslt.outputOf up st (rootedDocument e kids hn)
      = .ok ((Xslt.applyTemplates up st [(1, e)] kids).flatMap Prod.snd) := by
  have hnone : Xslt.findMatchingTemplate up st.templates [] e = none := by
    rw [Xslt.findMatchingTemplate, List.find?_eq_none]
    intro t ht
    have hne := h t ht
    rw [Xslt.matchAttrNames]
    split
    · split <;> simp
    · simpa using hne
  rw [Xslt.outputOf, rootedDocument]
  simp only [Xslt.applyTemplates, hnone]
  rfl

theorem transformOutput_xslt (lib : TransformLibs) {parse : String → Except String Document}
    {xmlText : String} {doc : Document} (hdoc : parse xmlText = .ok doc)
    {transformNode stylesheet : Node} (hs : stylesheetChild? transformNode = some stylesheet)
    (hid : Xslt.isIdentity lib.toUppsala (Xslt.stylesheetOf lib.toUppsala stylesheet) = false)
    {text : List Char}
    (ho : Xslt.outputOf (lib.withParse parse).toUppsala
      (Xslt.stylesheetOf lib.toUppsala stylesheet) doc = .ok text)
    (s : Option NodeSet) (sigNode : NodeId) :
    transformOutput (lib.withParse parse) Algorithm.XSLT (.xml xmlText s) transformNode sigNode
      = .ok (String.ofList text).toUTF8 := by
  have hparse : (lib.withParse parse).parse xmlText = .ok doc := hdoc
  have hfind : transformNode.children.find? (fun c : Node =>
      c.element?.any (fun e => Xslt.isXsl e "stylesheet")) = some stylesheet := hs
  have hid' : Xslt.isIdentity (lib.withParse parse).toUppsala
      (Xslt.stylesheetOf (lib.withParse parse).toUppsala stylesheet) = false := hid
  rw [transformOutput, applyTransform_xslt, bind_eq_ok]
  refine ⟨.binary (String.ofList text).toUTF8, ?_, rfl⟩
  rw [applyXsltTransform, hfind]
  dsimp only
  rw [hid', if_neg (by simp), Xslt.applyMinimalXslt, bind_eq_ok]
  refine ⟨xmlText, rfl, ?_⟩
  rw [hparse]
  exact bind_eq_ok.mpr ⟨text, ho, rfl⟩

theorem xslt_reads_outside {lib : TransformLibs} {numbering : Numbering}
    {transformNode stylesheet : Node}
    (hs : stylesheetChild? transformNode = some stylesheet)
    (hid : Xslt.isIdentity lib.toUppsala (Xslt.stylesheetOf lib.toUppsala stylesheet) = false) :
    ¬ DependsOnInput lib numbering Algorithm.XSLT transformNode := by
  obtain ⟨name, hname⟩ := exists_unmatched_name lib.toUppsala
    (Xslt.stylesheetOf lib.toUppsala stylesheet).templates
  have hn : (0 :: 1 :: (Forest.leaf 2 (.text "x") .nil : Nodes).keys).Nodup := by simp
  have hn' : (0 :: 1 :: (Forest.nil : Nodes).keys).Nodup := by simp
  let e : Element := ⟨⟨none, name, none⟩, [], []⟩
  have hout : ∀ parse kids (h : (0 :: 1 :: Forest.keys kids).Nodup),
      Xslt.outputOf (lib.withParse parse).toUppsala (Xslt.stylesheetOf lib.toUppsala stylesheet)
          (rootedDocument e kids h)
        = .ok ((Xslt.applyTemplates (lib.withParse parse).toUppsala
            (Xslt.stylesheetOf lib.toUppsala stylesheet) [(1, e)] kids).flatMap Prod.snd) := by
    intro parse kids h
    exact outputOf_unmatched (fun t ht => hname t ht) kids h
  refine not_dependsOnInput e e hn hn' ?_ (transformOutput_xslt lib rfl hs hid (hout _ _ hn) _ _)
    (transformOutput_xslt lib rfl hs hid (hout _ _ hn') _ _)
  apply toUTF8_ne
  intro heq
  have hx : Xslt.isAsciiWhitespace 'x' = false := by decide
  have := String.ofList_injective heq
  simp [Xslt.applyTemplates, Xslt.leafOutput, LeafKind.text?, hx, escapeText, escapeTextChar] at this

/-! ## Namespace nodes -/

/-- An element outside the set, with a visible namespace node that is new, writes it; what is
written below or beside it does not take it back. -/
theorem processNodes_writes {ctx : C14nContext} (hhid : ∀ i, isVisible ctx.nodeSet i = false)
    (hf : hasNsFilter ctx.nodeSet = true) {f : Nodes} {path : List (NodeId × Element)}
    {preceding : Bool} {n : Node} (hn : n ∈ f.cursors path) {e : Element}
    (he : n.element? = some e)
    (hw : Inclusive.changedDecls ∅ (Inclusive.visibleNs ctx n.key n.path e) ≠ []) :
    Inclusive.processNodes ctx path preceding ∅ f ≠ [] := by
  induction f generalizing path preceding with
  | nil => simp [Forest.cursors] at hn
  | leaf i k rest ih =>
      rw [Forest.cursors, List.mem_cons] at hn
      rcases hn with rfl | hn
      · simp [Node.element?] at he
      · rw [Inclusive.processNodes, hhid]
        exact ih hn
  | node i e₀ kids rest ihk ihr =>
      rw [Forest.cursors, List.mem_cons, List.mem_append] at hn
      rw [Inclusive.processNodes, hhid, if_neg (by simp), hf, if_pos rfl, ne_eq, List.append_eq_nil_iff,
        List.append_eq_nil_iff, not_and_or, not_and_or]
      rcases hn with rfl | hn | hn
      · refine Or.inl (Or.inl ?_)
        obtain rfl : e₀ = e := Option.some.inj he
        obtain ⟨d, hd⟩ := List.exists_mem_of_ne_nil _ hw
        rw [List.flatMap_eq_nil_iff]
        intro hall
        have hrender := hall d ((List.perm_insertionSort _ _).mem_iff.mpr hd)
        rw [NsDecl.render] at hrender
        split at hrender
        · simp at hrender
        · simp at hrender
      · exact Or.inl (Or.inr (ihk hn))
      · exact Or.inr (ihr hn)

/-- Elements inside one another, the outermost first, with indexes from `i` on. -/
def nest (i : NodeId) : List Element → Nodes
  | [] => .nil
  | e :: es => .node i e (nest (i + 1) es) .nil

theorem keys_nest (i : NodeId) (es : List Element) :
    (nest i es).keys = List.range' i es.length := by
  induction es generalizing i with
  | nil => rfl
  | cons e es ih => simp [nest, ih, List.range'_succ]

theorem mem_nest (i : NodeId) (es : List Element) (e : Element) (path : List (NodeId × Element)) :
    ∃ c ∈ (nest i (es ++ [e])).cursors path, c.item = .node e .nil
      ∧ c.path.map Prod.snd = es.reverse ++ path.map Prod.snd := by
  induction es generalizing i path with
  | nil => exact ⟨⟨i, path, .node e .nil⟩, by simp [nest, Forest.cursors], rfl, by simp⟩
  | cons e₁ es ih =>
      obtain ⟨c, hc, hi, hp⟩ := ih (i + 1) ((i, e₁) :: path)
      refine ⟨c, ?_, hi, ?_⟩
      · rw [List.cons_append, nest, Forest.cursors]
        exact List.mem_cons_of_mem _ (List.mem_append_left _ hc)
      · rw [hp]
        simp

/-- A binding the exclusive walk reports, the inclusive walk reports too. -/
theorem inclusive_inscope_of_exclusive {chain : List Element} {p uri : String}
    (h : (Exclusive.collectInscopeNamespaces chain)[p]? = some uri) :
    (Inclusive.collectInscopeNamespaces chain)[p]? = some uri := by
  unfold Exclusive.collectInscopeNamespaces at h
  unfold Inclusive.collectInscopeNamespaces
  induction chain with
  | nil => simp at h
  | cons e chain ih =>
      rw [getElem?_collectInscope_cons] at h ⊢
      cases hl : (nsLevel e)[p]? with
      | none =>
          rw [hl] at h
          exact ih h
      | some u =>
          simp only [hl] at h ⊢
          split at h
          · simp at h
          · rename_i hne
            rw [if_neg (by simp [hne])]
            exact h

theorem isVisible_parsed_noNodes (doc : Document) (expr : XPathBoolExpr) (i : NodeId) :
    isVisible (some (parsedXPathNodeSet doc (some noNodes) expr)) i = false := by
  have hnodes : filterNodes doc (some noNodes) (fun n => evalXPathBool n expr) = ∅ := by
    rw [Finset.eq_empty_iff_forall_notMem]
    intro j hj
    obtain ⟨_, _, _, hvis, _⟩ := mem_filterNodes.mp hj
    exact absurd hvis (by simp [isVisible, noNodes])
  rw [isVisible, NodeSet.containsId_of_ne_invert (by rw [parsedXPathNodeSet_setType]; simp),
    parsedXPathNodeSet_nodes, hnodes]
  simp

/-- Where the expression holds at a namespace node of the document, the output is not empty. -/
theorem canonicalText_parsed_ne_nil {doc : Document} {expr : XPathBoolExpr}
    (hr : exprReferencesNsNodes expr = true) {c : Node} (hc : c ∈ doc.descendants) {n : NsNode}
    (he : c.element? = some n.parent) (hp : c.path.map Prod.snd = n.above) (hs : n.InScope)
    (hx : n.pfx ≠ "xml") (hv : evalXPathBoolNs n expr = true) :
    canonicalText doc .inclusive (some (parsedXPathNodeSet doc (some noNodes) expr)) [] ≠ [] := by
  have hf : hasNsFilter (some (parsedXPathNodeSet doc (some noNodes) expr)) = true := by
    rw [hasNsFilter, Option.any_some, NodeSet.hasNsVisible, parsedXPathNodeSet_nsVisible, if_pos hr]
    rfl
  refine processNodes_writes (isVisible_parsed_noNodes doc expr) hf hc he ?_
  -- the namespace node is visible at its element, and nothing was inherited
  have hshow : showsNs (some (parsedXPathNodeSet doc (some noNodes) expr)) c.key n.pfx = true := by
    rw [showsNs, Option.all_some, NodeSet.isNsVisible, parsedXPathNodeSet_nsVisible, if_pos hr]
    dsimp only
    rw [nsVisibleOf_of_node hc he, hp, hs, Option.map_some, Option.getD_some]
    exact hv
  have huri : n.uri.isEmpty = false := exclusive_inscope_ne_empty hs
  have hget : (Inclusive.visibleNs ⟨false, some (parsedXPathNodeSet doc (some noNodes) expr), false⟩
      c.key c.path n.parent)[n.pfx]? = some n.uri := by
    rw [Inclusive.visibleNs, getElem?_visibleNamespaces, hshow, if_pos rfl, hp]
    exact inclusive_inscope_of_exclusive hs
  have hmem := Std.ExtTreeMap.mem_toList_iff_getElem?_eq_some.mpr hget
  refine List.ne_nil_of_mem (a := ⟨n.pfx, n.uri⟩) ?_
  rw [Inclusive.changedDecls, List.mem_filterMap]
  refine ⟨(n.pfx, n.uri), hmem, ?_⟩
  simp [hx, huri]

/-- An element without declarations has no namespace node. -/
theorem canonicalText_parsed_undeclared {e : Element} (he : e.namespaceDeclarations = [])
    (h : (0 :: 1 :: (Forest.nil : Nodes).keys).Nodup) {expr : XPathBoolExpr}
    (hr : exprReferencesNsNodes expr = true) :
    canonicalText (rootedDocument e .nil h) .inclusive
      (some (parsedXPathNodeSet (rootedDocument e .nil h) (some noNodes) expr)) [] = [] := by
  have hall : ∀ p : String, p ≠ "xml" → (fun _ : String => true) p = true := fun _ _ => rfl
  refine Inclusive.processNodes_dark hall _ _ _ _ ?_
  refine dark_of_keys (fun i _ => isVisible_parsed_noNodes _ expr i) ?_
  intro _ i _ p _
  rw [showsNs, Option.all_some, NodeSet.isNsVisible, parsedXPathNodeSet_nsVisible, if_pos hr]
  dsimp only
  rw [nsVisibleOf]
  cases hn : (rootedDocument e .nil h).node? i with
  | none => rfl
  | some c =>
      obtain ⟨hc, _⟩ := Document.mem_of_node? hn
      obtain rfl : c = ⟨1, [], .node e .nil⟩ := by
        simpa [Document.descendants, rootedDocument, Forest.cursors] using hc
      have hscope : (collectInscopeNamespacesRaw [e])[p]? = none := by
        rw [collectInscopeNamespacesRaw, Exclusive.collectInscopeNamespaces,
          getElem?_collectInscope_cons, nsLevel, he]
        simp
      simp only [Node.element?, List.map_nil, hscope, Option.map_none, Option.getD_none]

theorem transformOutput_parsed (lib : TransformLibs) {parse : String → Except String Document}
    {xmlText : String} {doc : Document} (hdoc : parse xmlText = .ok doc)
    {transformNode xpathNode : Node} {expr : XPathBoolExpr}
    (hx : xpathChild? transformNode = some xpathNode)
    (hc : classifyXPath (xpathExprOf xpathNode) xpathNode = .ok (.parsed expr))
    (s : Option NodeSet) (sigNode : NodeId) :
    transformOutput (lib.withParse parse) Algorithm.XPATH (.xml xmlText s) transformNode sigNode
      = .ok (canonicalizeDoc doc .inclusive (some (parsedXPathNodeSet doc s expr)) []) := by
  rw [transformOutput, applyTransform_xpath, bind_eq_ok]
  refine ⟨.xml xmlText (some (parsedXPathNodeSet doc s expr)), ?_, canonicalize_ok hdoc _ _ _⟩
  rw [applyXPathTransform_ok]
  exact ⟨xpathNode, .parsed expr, hx, hc, applyParsedXPathFilter_ok.mpr ⟨_, _, _, rfl, hdoc, rfl⟩⟩

theorem nsNodes_read_outside {lib : TransformLibs} {numbering : Numbering}
    {transformNode xpathNode : Node} {expr : XPathBoolExpr}
    (hx : xpathChild? transformNode = some xpathNode)
    (hc : classifyXPath (xpathExprOf xpathNode) xpathNode = .ok (.parsed expr))
    (h : HoldsAtNsNode expr) : ¬ DependsOnInput lib numbering Algorithm.XPATH transformNode := by
  obtain ⟨hr, n, hs, hpfx, hv⟩ := h
  have hn' : (0 :: 1 :: (Forest.nil : Nodes).keys).Nodup := by simp
  let e₀ : Element := ⟨⟨none, "e", none⟩, [], []⟩
  -- a document that is the chain of the namespace node, from the document element inwards
  obtain ⟨c, hmem, hi, hpath⟩ := mem_nest 1 n.above.reverse n.parent []
  have hpath' : c.path.map Prod.snd = n.above := by simpa using hpath
  cases hes : n.above.reverse ++ [n.parent] with
  | nil => simp at hes
  | cons e es =>
      have hn : (0 :: 1 :: (nest 2 es).keys).Nodup := by
        have : 0 :: 1 :: (nest 2 es).keys = List.range' 0 (es.length + 2) := by
          rw [keys_nest]
          simp [List.range'_succ]
        rw [this]
        exact List.nodup_range'
      have hdesc : c ∈ (rootedDocument e (nest 2 es) hn).descendants := by
        rw [hes] at hmem
        exact hmem
      have he : Node.element? c = some n.parent := by simp [Node.element?, hi]
      refine not_dependsOnInput e e₀ hn hn' ?_ (transformOutput_parsed lib rfl hx hc _ _)
        (transformOutput_parsed lib rfl hx hc _ _)
      rw [ne_eq, canonicalizeDoc_eq_iff, canonicalText_parsed_undeclared rfl hn' hr]
      exact canonicalText_parsed_ne_nil hr hdesc he hpath' hs hpfx hv

/-! ## Indexes -/

/-- One element, with the index `o`. -/
def elementAt (o : NodeId) (e : Element) : Document where
  root := o + 1
  top := .node o e .nil .nil
  nodup := by simp

/-- The element behind a comment, which has the index `o`. -/
def elementAfter (o : NodeId) (e : Element) : Document where
  root := o + 1
  top := .leaf o (.comment "") (.node (o + 2) e .nil .nil)
  nodup := by simp

def onlyNode (i : NodeId) : NodeSet := NodeSet.fromIds {i} .normal

@[simp] theorem isVisible_onlyNode (i j : NodeId) :
    isVisible (some (onlyNode i)) j = decide (j = i) := by
  rw [isVisible, NodeSet.containsId_of_ne_invert (by simp [onlyNode, NodeSet.fromIds])]
  simp [onlyNode, NodeSet.fromIds]

theorem listed_onlyNode (i : NodeId) :
    ∀ ns, some (onlyNode i) = some ns → ns.setType ≠ .invert := by
  rintro _ ⟨⟩
  simp [onlyNode, NodeSet.fromIds]

/-- A comment outside the set has come before the element. -/
theorem changedOutside_elementAfter (transformNode : Node) (sigNode o : NodeId) (e : Element) :
    ChangedOutside (Numbering.free.same transformNode sigNode sigNode) (elementAt o e)
      (some (onlyNode o)) (elementAfter o e) (some (onlyNode (o + 2))) where
  settings := ⟨rfl, rfl, rfl⟩
  listed := listed_onlyNode o
  listed' := listed_onlyNode (o + 2)
  root := rfl
  view := .skipLeaf' (by simp) (.node rfl ⟨by simp, fun _ => rfl⟩ .nil .nil)

theorem descendants_elementAt (o : NodeId) (e : Element) :
    (elementAt o e).descendants = [⟨o, [], .node e .nil⟩] := rfl

theorem descendants_elementAfter (o : NodeId) (e : Element) :
    (elementAfter o e).descendants
      = [⟨o, [], .leaf (.comment "")⟩, ⟨o + 2, [], .node e .nil⟩] := rfl

/-- **A filter that drops the element where it has the index, and keeps it where the comment has
it**, has two outputs. -/
theorem not_dependsOnInput_free {lib : TransformLibs} {uri : String} {transformNode : Node}
    (sigNode o : NodeId) (e : Element) {r r' : NodeSet} {keep keep' : Node → Bool}
    (hr : Keeps (elementAt o e) (some (onlyNode o)) r keep)
    (hr' : Keeps (elementAfter o e) (some (onlyNode (o + 2))) r' keep')
    (hf : hasNsFilter (some r) = false) (hkeep : keep ⟨o, [], .node e .nil⟩ = false)
    (hkeep' : keep' ⟨o + 2, [], .node e .nil⟩ = true)
    (ho : transformOutput (lib.withParse (parserOfTwo (elementAt o e) (elementAfter o e))) uri
        (.xml "" (some (onlyNode o))) transformNode sigNode
      = .ok (canonicalizeDoc (elementAt o e) .inclusive (some r) []))
    (ho' : transformOutput (lib.withParse (parserOfTwo (elementAt o e) (elementAfter o e))) uri
        (.xml "'" (some (onlyNode (o + 2)))) transformNode sigNode
      = .ok (canonicalizeDoc (elementAfter o e) .inclusive (some r') [])) :
    ¬ DependsOnInput lib .free uri transformNode := by
  intro hlaw
  have heq := hlaw _ "" "'" _ _ _ _ sigNode sigNode _ _ rfl rfl
    (changedOutside_elementAfter transformNode sigNode o e) ho ho'
  rw [canonicalizeDoc_eq_iff] at heq
  -- nothing is left of the first document
  have hhidden : isVisible (some r) o = false := by
    have h := hr.visible _ (by rw [descendants_elementAt]; exact List.mem_cons_self)
    rw [hkeep, Bool.and_false] at h
    exact h
  have hnil : canonicalText (elementAt o e) .inclusive (some r) [] = [] := by
    refine @Inclusive.processNodes_dark (fun _ => true) _ (fun _ _ => rfl) _ _ _ _ ?_
    refine dark_of_keys ?_ (fun h => absurd h (by rw [hf]; simp))
    intro i hi
    obtain rfl : i = o := by simpa [elementAt] using hi
    exact hhidden
  -- and the tag of the element is written in the second
  have hshown : isVisible (some r') (o + 2) = true := by
    have h := hr'.visible _
      (by rw [descendants_elementAfter]; exact List.mem_cons_of_mem _ List.mem_cons_self)
    rw [hkeep', Bool.and_true] at h
    rw [isVisible, h, isVisible_onlyNode]
    exact decide_eq_true rfl
  rw [hnil] at heq
  refine absurd heq.symm ?_
  show Inclusive.processNodes _ _ _ _ _ ≠ []
  rw [elementAfter, Inclusive.processNodes, Inclusive.processNodes, hshown, if_pos rfl]
  simp [renderStartTag]

theorem isDescendantOfIndex_elementAt (o : NodeId) (e : Element) :
    isDescendantOfIndex (elementAt o e) ⟨o, [], .node e .nil⟩ o = true := by
  simp [isDescendantOfIndex]

theorem isDescendantOfIndex_elementAfter (o : NodeId) (e : Element) :
    isDescendantOfIndex (elementAfter o e) ⟨o + 2, [], .node e .nil⟩ o = false := by
  simp [isDescendantOfIndex, elementAfter]

/-- The enveloped-signature transform, under whatever name. -/
theorem enveloped_by_index {lib : TransformLibs} {uri : String} {transformNode : Node}
    (h : ∀ (parse : String → Except String Document) (xmlText : String) (doc : Document)
      (s : Option NodeSet) (sigNode : NodeId), parse xmlText = .ok doc →
      transformOutput (lib.withParse parse) uri (.xml xmlText s) transformNode sigNode
        = .ok (canonicalizeDoc doc .inclusive (some (envelopedNodeSet sigNode doc s)) [])) :
    ¬ DependsOnInput lib .free uri transformNode := by
  let e : Element := ⟨⟨none, "e", none⟩, [], []⟩
  have hdrop := isDescendantOfIndex_elementAt 1 e
  have hkeep := isDescendantOfIndex_elementAfter 1 e
  refine not_dependsOnInput_free 1 1 e
    (keeps_enveloped (listed_onlyNode 1) 1) (keeps_enveloped (listed_onlyNode 3) 1) rfl ?_ ?_
    (h _ "" _ _ 1 rfl) (h _ "'" _ _ 1 rfl)
  · rw [hdrop]
    rfl
  · rw [hkeep]
    rfl

/-- Where no attribute is found on an element without attributes, that element has no id. -/
theorem idEntries_nil {up : Uppsala}
    (hup : ∀ (e : Element) (name : String), e.attributes = [] → up.getAttribute e name = none)
    {doc : Document} (hdoc : ∀ c ∈ doc.descendants, ∀ e, Node.element? c = some e →
      e.attributes = []) (attrNames : List String) : idEntries up attrNames doc = [] := by
  rw [idEntries, List.flatMap_eq_nil_iff]
  intro c hc
  cases he : Node.element? c with
  | none => rfl
  | some e =>
      dsimp only
      rw [List.filterMap_eq_nil_iff]
      intro a _
      rw [hup e a (hdoc c hc e he)]
      rfl

theorem here_by_index {lib : TransformLibs}
    (hup : ∀ (e : Element) (name : String), e.attributes = [] → lib.getAttribute e name = none)
    {transformNode xpathNode : Node} {f : CompoundFilter} {o : NodeId}
    (hx : xpathChild? transformNode = some xpathNode)
    (hc : classifyXPath (xpathExprOf xpathNode) xpathNode = .ok (.compound f))
    (ho : findAncestorByNameIdx xpathNode f.b.1 f.b.2 = some o) :
    ¬ DependsOnInput lib .free Algorithm.XPATH transformNode := by
  let e : Element := ⟨⟨none, f.a.2, some f.a.1⟩, [], []⟩
  have hnamed : e.isNamed f.a.1 f.a.2 = true := by
    simp [e, Element.isNamed, QName.uri]
  have hout : ∀ (parse : String → Except String Document) (xmlText : String) (doc : Document)
      (s : Option NodeSet), parse xmlText = .ok doc →
      (∀ c ∈ doc.descendants, ∀ e', Node.element? c = some e' → e'.attributes = []) →
      transformOutput (lib.withParse parse) Algorithm.XPATH (.xml xmlText s) transformNode 0
        = .ok (canonicalizeDoc doc .inclusive
          (some (NodeSet.fromIds (filterNodes doc s (compoundKeeps f doc (some o) none)) .normal))
          []) := by
    intro parse xmlText doc s hparse hattrs
    -- no element has an id, so `id()` lets nothing in
    have hids : buildIdMap (lib.withParse parse).toUppsala doc defaultIdAttrs = .ok [] := by
      rw [buildIdMap, @idEntries_nil (lib.withParse parse).toUppsala hup doc hattrs]
      rfl
    rw [transformOutput, applyTransform_xpath, bind_eq_ok]
    refine ⟨_, applyXPathTransform_ok.mpr ⟨xpathNode, .compound f, hx, hc,
      applyCompoundFilter_ok.mpr ⟨_, _, _, _, rfl, hparse, hids, rfl⟩⟩, ?_⟩
    rw [ho]
    exact canonicalize_ok hparse _ _ _
  refine not_dependsOnInput_free 0 o e (keeps_filterNodes _ _ _) (keeps_filterNodes _ _ _) rfl
    ?_ ?_ (hout _ "" _ _ rfl ?_) (hout _ "'" _ _ rfl ?_)
  · rw [compoundKeeps_apply, Option.all_some, isDescendantOfIndex_elementAt]
    simp
  · rw [compoundKeeps_apply, Option.all_some, isDescendantOfIndex_elementAfter]
    simp [Forest.Cursor.selfPath, hnamed]
  · intro c hc e' he'
    rw [descendants_elementAt, List.mem_singleton] at hc
    subst hc
    cases he'
    rfl
  · intro c hc e' he'
    rw [descendants_elementAfter] at hc
    rcases List.mem_cons.mp hc with rfl | hc
    · cases he'
    · rw [List.mem_singleton] at hc
      subst hc
      cases he'
      rfl

theorem byIndex_reads_outside {lib : TransformLibs}
    (hup : ∀ (e : Element) (name : String), e.attributes = [] → lib.getAttribute e name = none)
    {uri : String} {transformNode : Node} (h : ByIndex uri transformNode) :
    ¬ DependsOnInput lib .free uri transformNode := by
  cases h with
  | enveloped =>
      refine enveloped_by_index ?_
      intro parse xmlText doc s sigNode hdoc
      have hparse : (lib.withParse parse).parse xmlText = .ok doc := hdoc
      rw [transformOutput, applyTransform_enveloped,
        EnvelopedSignatureTransform.execute_xml hparse]
      exact canonicalize_ok hparse _ _ _
  | xpathEnveloped hx hc =>
      refine enveloped_by_index ?_
      intro parse xmlText doc s sigNode hdoc
      have hparse : (lib.withParse parse).parse xmlText = .ok doc := hdoc
      rw [transformOutput, applyTransform_xpath, bind_eq_ok]
      refine ⟨.xml xmlText (some (envelopedNodeSet sigNode doc s)), ?_,
        canonicalize_ok hparse _ _ _⟩
      refine applyXPathTransform_ok.mpr ⟨_, .enveloped, hx, hc, ?_⟩
      rw [applyXPathFilter, EnvelopedSignatureTransform.execute_xml hparse]
  | here hx hc ho => exact here_by_index hup hx hc ho

/-! ## The law, exactly -/

/-- **Which transforms depend on their input alone.** -/
theorem dependsOnInput_iff {lib : TransformLibs}
    (hw : ∀ name attrs, lib.emptyElementExpanded name attrs ≠ "")
    (hup : ∀ (e : Element) (name : String), e.attributes = [] → lib.getAttribute e name = none)
    (numbering : Numbering) (uri : String) (transformNode : Node) :
    DependsOnInput lib numbering uri transformNode
      ↔ ¬ ReadsOutside lib.toUppsala uri transformNode
        ∧ (numbering = .kept ∨ ¬ ByIndex uri transformNode) := by
  constructor
  · intro hlaw
    constructor
    · intro hread
      cases hread with
      | nsNodes hx hc h => exact nsNodes_read_outside hx hc h hlaw
      | relationship h => exact relationship_reads_outside hw h hlaw
      | xslt hs h => exact xslt_reads_outside hs h hlaw
    · cases numbering with
      | kept => exact Or.inl rfl
      | free => exact Or.inr (fun hindex => byIndex_reads_outside hup hindex hlaw)
  · rintro ⟨hread, hnumbering⟩
    intro parse xmlText xmlText' doc doc' s s' sigNode sigNode' output output' hdoc hdoc' h ho ho'
    refine transformOutput_congr hdoc hdoc' h ?_ ?_ ho ho'
    · intro hr
      have hget : (lib.withParse parse).getAttribute = lib.getAttribute := rfl
      exact hread (hr.of_getAttribute hget)
    · intro hindex i i' hi
      rcases hnumbering with rfl | hno
      · exact hi
      · exact absurd hindex hno

/-! ## One that reads an excluded relationship -/

/-- A relationship transform that selects the relationship `rId1`. -/
def sampleRelationships : Node :=
  ⟨10, [], .node (Sample.element "Transform" [])
    (.node 11 ⟨⟨none, "RelationshipReference", some Ns.RELATIONSHIP_REFERENCE⟩,
      [Sample.attr "SourceId" "rId1"], []⟩ .nil .nil)⟩

/-- `<Relationship Id="rId1" Target="evil.xml"/>`. -/
def sampleRelationship : Element :=
  ⟨⟨none, "Relationship", some Ns.RELATIONSHIPS⟩,
    [Sample.attr "Id" "rId1", Sample.attr "Target" "evil.xml"], []⟩

def sampleLibs : TransformLibs := .ofParser (fun _ => .error "no text is known")

theorem sampleRelationship_selected :
    SelectsRelationship sampleLibs.toUppsala sampleRelationships sampleRelationship :=
  ⟨by decide, by decide⟩

theorem sampleLibs_writes (name : String) (attrs : List (String × String)) :
    sampleLibs.emptyElementExpanded name attrs ≠ "" := by
  intro h
  have hc := congrArg String.toList h
  simp [sampleLibs, TransformLibs.ofParser] at hc

theorem sampleLibs_attributes (e : Element) (name : String) (h : e.attributes = []) :
    sampleLibs.getAttribute e name = none := by
  simp [sampleLibs, TransformLibs.ofParser, h]

theorem dependsOnInput_iff_sample :
    (∀ name attrs, sampleLibs.emptyElementExpanded name attrs ≠ "")
      ∧ (∀ e name, e.attributes = [] → sampleLibs.getAttribute e name = none)
      ∧ (DependsOnInput sampleLibs .free Algorithm.BASE64 sampleRelationships
        ↔ ¬ ReadsOutside sampleLibs.toUppsala Algorithm.BASE64 sampleRelationships
          ∧ (Numbering.free = .kept ∨ ¬ ByIndex Algorithm.BASE64 sampleRelationships)) :=
  ⟨sampleLibs_writes, sampleLibs_attributes,
    dependsOnInput_iff sampleLibs_writes sampleLibs_attributes .free Algorithm.BASE64
      sampleRelationships⟩

/-- Every transform depends on its input alone. -/
def TransformsDependOnInput : Prop :=
  ∀ (lib : TransformLibs) (uri : String) (transformNode : Node),
    DependsOnInput lib .free uri transformNode

/-- With no node in the set, the relationship transform still writes the relationship. -/
theorem relationships_not_excluded : ¬ TransformsDependOnInput := by
  intro h
  exact relationship_reads_outside sampleLibs_writes sampleRelationship_selected (h sampleLibs _ _)

end Bergshamra
