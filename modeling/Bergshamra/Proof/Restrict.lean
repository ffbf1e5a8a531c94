import Bergshamra.Dsig.Transform
import Bergshamra.Proof.SameView

/-!
# What a transform may add to a node set

A later transform must not bring back what an earlier one removed: the set a
transform leaves shows at most what the set it was given showed. There are three
things to show, nodes, namespace nodes and attributes, and the transforms treat
them differently. The intersection carries all three; removal carries the last
two; the XPath filters build a new set and carry the nodes alone.

So each transform has an exact condition on the set it is given. A set that
lists what it leaves out gains by any operation that shortens the list.
-/

namespace Bergshamra

/-- A namespace node of the document: a prefix in scope at an element. -/
def Document.HasNsNode (doc : Document) (id : NodeId) (p : String) : Prop :=
  ∃ n ∈ doc.descendants, n.key = id ∧ ∃ e, n.element? = some e
    ∧ (collectInscopeNamespacesRaw (e :: n.path.map Prod.snd))[p]?.isSome

/-- `out` shows no node, namespace node or attribute of the document that `input` hides. -/
structure ShowsAtMost (doc : Document) (out : NodeSet) (input : Option NodeSet) : Prop where
  nodes : ∀ id ∈ doc.ids, out.containsId id = true → isVisible input id = true
  namespaces : ∀ id p, doc.HasNsNode id p → out.isNsVisible id p = true → showsNs input id p = true
  attributes : input.any NodeSet.excludesAttrs = true → out.excludesAttrs = true

/-- If the set lists what it leaves out, it lists no node that is `touched`. -/
def AvoidsInverted (doc : Document) (input : Option NodeSet) (touched : NodeId → Prop) : Prop :=
  ∀ s, input = some s → s.setType = .invert → ∀ id ∈ doc.ids, touched id → id ∉ s.nodes

/-- The set hides no namespace node of the document of which `p` holds. -/
def ShowsNamespaces (doc : Document) (input : Option NodeSet) (p : NodeId → String → Prop) : Prop :=
  ∀ id pfx, doc.HasNsNode id pfx → p id pfx → showsNs input id pfx = true

theorem isVisible_some (s : NodeSet) (id : NodeId) : isVisible (some s) id = s.containsId id := rfl

/-! ## Removal -/

theorem showsAtMost_enveloped_iff {doc : Document} {sigId : NodeId} {input : Option NodeSet} :
    ShowsAtMost doc (envelopedNodeSet sigId doc input) input
      ↔ AvoidsInverted doc input (fun id => id ∈ doc.idsBelow sigId) := by
  cases input with
  | none =>
      refine ⟨fun _ s hs => by simp at hs, fun _ => ⟨?_, ?_, ?_⟩⟩
      · intro id _ _
        rfl
      · intro id p _ _
        rfl
      · intro h
        simp at h
  | some s =>
      constructor
      · intro h t hs hinv id hid hbelow hlist
        obtain rfl := Option.some.inj hs
        -- a listed id below the signature becomes a member
        have hout : (envelopedNodeSet sigId doc (some s)).containsId id = true := by
          rw [envelopedNodeSet, Option.getD_some, containsId_removeSubtree_invert hinv]
          simp [hbelow]
        have hin := h.nodes id hid hout
        rw [isVisible_some, NodeSet.containsId_of_invert hinv] at hin
        simp [hlist] at hin
      · intro h
        refine ⟨?_, ?_, ?_⟩
        · intro id hid hout
          rw [envelopedNodeSet, Option.getD_some] at hout
          rw [isVisible_some]
          by_cases hinv : s.setType = .invert
          · rw [containsId_removeSubtree_invert hinv, Bool.or_eq_true] at hout
            rcases hout with hout | hout
            · exact hout
            · have := h s rfl hinv id hid (by simpa using hout)
              rw [NodeSet.containsId_of_invert hinv]
              simpa using this
          · rw [containsId_removeSubtree hinv, Bool.and_eq_true] at hout
            exact hout.1
        · intro id p _ hp
          simpa [envelopedNodeSet, showsNs] using hp
        · intro hattr
          simpa [envelopedNodeSet] using hattr

/-! ## Intersection -/

theorem showsAtMost_intersection_iff {doc : Document} {s f : NodeSet} :
    ShowsAtMost doc (s.intersection f) (some s)
      ↔ AvoidsInverted doc (some s) (fun id => id ∈ f.nodes) := by
  constructor
  · intro h t hs hinv id hid hf hlist
    obtain rfl := Option.some.inj hs
    have hout : (s.intersection f).containsId id = true := by
      rw [NodeSet.containsId_intersection]
      simp [hlist, hf]
    have hin := h.nodes id hid hout
    rw [isVisible_some, NodeSet.containsId_of_invert hinv] at hin
    simp [hlist] at hin
  · intro h
    refine ⟨?_, ?_, ?_⟩
    · intro id hid hout
      rw [NodeSet.containsId_intersection, decide_eq_true_iff] at hout
      rw [isVisible_some]
      by_cases hinv : s.setType = .invert
      · exact absurd hout.1 (h s rfl hinv id hid hout.2)
      · rw [NodeSet.containsId_of_ne_invert hinv]
        simpa using hout.1
    · intro id p _ hp
      rw [NodeSet.isNsVisible_intersection, Bool.and_eq_true] at hp
      exact hp.1
    · intro hattr
      have : s.excludesAttrs = true := hattr
      simp [this]

/-- Without an input set there is nothing to bring back. -/
theorem showsAtMost_none (doc : Document) (out : NodeSet) : ShowsAtMost doc out none :=
  ⟨fun _ _ _ => rfl, fun _ _ _ _ => rfl, fun h => by simp at h⟩

theorem avoidsInverted_none (doc : Document) (touched : NodeId → Prop) :
    AvoidsInverted doc none touched := by
  intro s hs
  simp at hs

theorem showsAtMost_meet_iff {doc : Document} {input : Option NodeSet} {f : NodeSet} :
    ShowsAtMost doc ((input.getD (NodeSet.all doc)).intersection f) input
      ↔ AvoidsInverted doc input (fun id => id ∈ f.nodes) := by
  cases input with
  | none => exact iff_of_true (showsAtMost_none doc _) (avoidsInverted_none doc _)
  | some s => exact showsAtMost_intersection_iff

theorem showsAtMost_xpointer_iff {doc : Document} {input : Option NodeSet} {target : Node} :
    ShowsAtMost doc (xpointerNodeSet target input) input
      ↔ AvoidsInverted doc input (fun id => id ∈ (NodeSet.treeWithComments target).nodes) := by
  cases input with
  | none => exact iff_of_true (showsAtMost_none doc _) (avoidsInverted_none doc _)
  | some s => exact showsAtMost_intersection_iff

/-! ## New sets over the nodes that pass a filter -/

/-- A set made of nodes that pass a filter only lacks the other two parts of the input. -/
theorem showsAtMost_filterNodes_iff {doc : Document} {input : Option NodeSet} {keep : Node → Bool}
    (out : NodeSet) (hnodes : out.nodes = filterNodes doc input keep)
    (htype : out.setType = .normal) :
    ShowsAtMost doc out input
      ↔ ShowsNamespaces doc input (fun id p => out.isNsVisible id p = true)
        ∧ (input.any NodeSet.excludesAttrs = true → out.excludesAttrs = true) := by
  constructor
  · intro h
    exact ⟨fun id p hns hp => h.namespaces id p hns hp, h.attributes⟩
  · rintro ⟨hns, hattr⟩
    refine ⟨?_, fun id p hn hp => hns id p hn hp, hattr⟩
    intro id _ hout
    rw [NodeSet.containsId_of_ne_invert (by rw [htype]; decide), hnodes, decide_eq_true_iff,
      mem_filterNodes] at hout
    obtain ⟨n, _, rfl, hvis, _⟩ := hout
    exact hvis

/-- Does the filter's result show the namespace node? Without a map it shows all of them. -/
def filterShowsNs (doc : Document) (expr : XPathBoolExpr) (id : NodeId) (p : String) : Prop :=
  exprReferencesNsNodes expr = true → nsVisibleOf doc expr id p = some true

theorem isNsVisible_parsedXPathNodeSet (doc : Document) (input : Option NodeSet)
    (expr : XPathBoolExpr) (id : NodeId) (p : String) :
    (parsedXPathNodeSet doc input expr).isNsVisible id p = true ↔ filterShowsNs doc expr id p := by
  unfold NodeSet.isNsVisible filterShowsNs
  rw [parsedXPathNodeSet_nsVisible]
  by_cases he : exprReferencesNsNodes expr = true
  · rw [if_pos he]
    dsimp only
    cases nsVisibleOf doc expr id p with
    | none => simp [he]
    | some b => simp [he]
  · rw [if_neg he]
    simp [he]

/-! ## The condition -/

/-- When the XPath transform shows no more than it was given, by the kind of its expression. -/
def XPathFilter.Restricts (doc : Document) (input : Option NodeSet) (sigNode : NodeId) :
    XPathFilter → Prop
  | .enveloped => AvoidsInverted doc input (fun id => id ∈ doc.idsBelow sigNode)
  | .parsed expr =>
      ShowsNamespaces doc input (filterShowsNs doc expr)
        ∧ (input.any NodeSet.excludesAttrs = true → expr = .hasAttributes)
  | .compound _ =>
      ShowsNamespaces doc input (fun _ _ => True) ∧ input.any NodeSet.excludesAttrs = false

/-- When a transform on node sets shows no more than it was given. -/
def TransformRestricts (up : Uppsala) (uri : String) (doc : Document) (input : Option NodeSet)
    (transformNode : Node) (sigNode : NodeId) : Prop :=
  if uri = Algorithm.ENVELOPED_SIGNATURE then
    AvoidsInverted doc input (fun id => id ∈ doc.idsBelow sigNode)
  else if uri = Algorithm.XPATH then
    ∀ xpathNode filter, xpathChild? transformNode = some xpathNode →
      classifyXPath (xpathExprOf xpathNode) xpathNode = .ok filter →
      filter.Restricts doc input sigNode
  else if uri = Algorithm.XPOINTER then
    ∀ id target, xpointerIdOf transformNode = .ok id → resolveDefaultId up doc id = .ok target →
      AvoidsInverted doc input (fun i => i ∈ (NodeSet.treeWithComments target).nodes)
  else
    ∀ filterNs, filter2Ns up doc transformNode = .ok filterNs →
      AvoidsInverted doc input (fun i => i ∈ filterNs.nodes)

/-- The transforms that take a node set to a node set. -/
def nodeSetTransforms : List String :=
  [Algorithm.XPATH, Algorithm.ENVELOPED_SIGNATURE, Algorithm.XPATH2, Algorithm.XPOINTER]

section

variable (up : Uppsala) (doc : Document) (input : Option NodeSet) (transformNode : Node)
  (sigNode : NodeId)

theorem transformRestricts_xpath :
    TransformRestricts up Algorithm.XPATH doc input transformNode sigNode
      ↔ ∀ xpathNode filter, xpathChild? transformNode = some xpathNode →
          classifyXPath (xpathExprOf xpathNode) xpathNode = .ok filter →
          filter.Restricts doc input sigNode := by
  rw [TransformRestricts, if_neg (by decide), if_pos rfl]

theorem transformRestricts_xpointer :
    TransformRestricts up Algorithm.XPOINTER doc input transformNode sigNode
      ↔ ∀ id target, xpointerIdOf transformNode = .ok id →
          resolveDefaultId up doc id = .ok target →
          AvoidsInverted doc input (fun i => i ∈ (NodeSet.treeWithComments target).nodes) := by
  rw [TransformRestricts, if_neg (by decide), if_neg (by decide), if_pos rfl]

theorem transformRestricts_xpath2 :
    TransformRestricts up Algorithm.XPATH2 doc input transformNode sigNode
      ↔ ∀ filterNs, filter2Ns up doc transformNode = .ok filterNs →
          AvoidsInverted doc input (fun i => i ∈ filterNs.nodes) := by
  rw [TransformRestricts, if_neg (by decide), if_neg (by decide), if_neg (by decide)]

end

/-! ## Every transform -/

theorem showsAtMost_xpath_iff {lib : TransformLibs} {xmlText : String} {doc : Document}
    (hdoc : lib.parse xmlText = .ok doc) {input : Option NodeSet} {filter : XPathFilter}
    {xpathNode : Node} {sigNode : NodeId} {result : TransformData}
    (h : applyXPathFilter lib (.xml xmlText input) filter xpathNode sigNode = .ok result) :
    (∃ out, result = .xml xmlText (some out) ∧ ShowsAtMost doc out input)
      ↔ filter.Restricts doc input sigNode := by
  cases filter with
  | enveloped =>
      rw [applyXPathFilter, EnvelopedSignatureTransform.execute_xml hdoc, Except.ok.injEq] at h
      subst h
      simp [XPathFilter.Restricts, showsAtMost_enveloped_iff]
  | parsed expr =>
      rw [applyXPathFilter, applyParsedXPathFilter_ok] at h
      obtain ⟨_, _, doc', hx, hdoc', rfl⟩ := h
      obtain ⟨rfl, rfl⟩ := Prod.mk.inj (Option.some.inj hx)
      obtain rfl := Except.ok.inj (hdoc.symm.trans hdoc')
      have hiff := showsAtMost_filterNodes_iff _ (parsedXPathNodeSet_nodes doc input expr)
        (parsedXPathNodeSet_setType doc input expr)
      simp only [isNsVisible_parsedXPathNodeSet, NodeSet.excludesAttrs,
        parsedXPathNodeSet_excludeAttrs, decide_eq_true_iff] at hiff
      simpa [XPathFilter.Restricts] using hiff
  | compound c =>
      rw [applyXPathFilter, applyCompoundFilter_ok] at h
      obtain ⟨_, _, doc', idMap, hx, hdoc', _, rfl⟩ := h
      obtain ⟨rfl, rfl⟩ := Prod.mk.inj (Option.some.inj hx)
      obtain rfl := Except.ok.inj (hdoc.symm.trans hdoc')
      rw [XPathFilter.Restricts]
      have hiff := showsAtMost_filterNodes_iff (NodeSet.fromIds (filterNodes doc input
        (compoundKeeps c doc (findAncestorByNameIdx xpathNode c.b.1 c.b.2)
          ((idMap.get? c.id).map Forest.Cursor.key))) .normal) rfl rfl
      simpa using hiff

/-- **When a transform only restricts.** Over a text that parses, a node-set transform that
succeeds leaves a set that shows at most what its input showed exactly when its condition on the
input holds. -/
theorem transform_shows_at_most_iff (lib : TransformLibs) (uri xmlText : String) (doc : Document)
    (hdoc : lib.parse xmlText = .ok doc) (huri : uri ∈ nodeSetTransforms) (input : Option NodeSet)
    (transformNode : Node) (sigNode : NodeId) (result : TransformData)
    (h : applyTransform lib uri (.xml xmlText input) transformNode sigNode = .ok result) :
    (∃ out, result = .xml xmlText (some out) ∧ ShowsAtMost doc out input)
      ↔ TransformRestricts lib.toUppsala uri doc input transformNode sigNode := by
  have huri' : uri = Algorithm.XPATH ∨ uri = Algorithm.ENVELOPED_SIGNATURE
      ∨ uri = Algorithm.XPATH2 ∨ uri = Algorithm.XPOINTER := by
    simpa [nodeSetTransforms] using huri
  -- each transform gives one set, and that set is bounded as the condition says
  rcases huri' with rfl | rfl | rfl | rfl
  · rw [applyTransform_xpath, applyXPathTransform_ok] at h
    obtain ⟨xpathNode, filter, hx, hc, h⟩ := h
    rw [showsAtMost_xpath_iff hdoc h, transformRestricts_xpath]
    constructor
    · intro hr xpathNode' filter' hx' hc'
      obtain rfl := Option.some.inj (hx.symm.trans hx')
      obtain rfl := Except.ok.inj (hc.symm.trans hc')
      exact hr
    · intro hr
      exact hr xpathNode filter hx hc
  · rw [applyTransform_enveloped, EnvelopedSignatureTransform.execute_xml hdoc,
      Except.ok.injEq] at h
    subst h
    simp only [TransformData.xml.injEq, true_and, Option.some.injEq, exists_eq_left']
    exact showsAtMost_enveloped_iff
  · rw [applyTransform_xpath2, applyXPathFilter2Transform_xml hdoc] at h
    obtain ⟨filterNs, hf, rfl⟩ := h
    simp only [TransformData.xml.injEq, true_and, Option.some.injEq, exists_eq_left']
    rw [transformRestricts_xpath2, showsAtMost_meet_iff]
    constructor
    · intro hr filterNs' hf'
      obtain rfl := Except.ok.inj (hf.symm.trans hf')
      exact hr
    · intro hr
      exact hr filterNs hf
  · rw [applyTransform_xpointer, applyXPointerTransform_xml hdoc] at h
    obtain ⟨id, target, hid, ht, rfl⟩ := h
    simp only [TransformData.xml.injEq, true_and, Option.some.injEq, exists_eq_left']
    rw [transformRestricts_xpointer, showsAtMost_xpointer_iff]
    constructor
    · intro hr id' target' hid' ht'
      obtain rfl := Except.ok.inj (hid.symm.trans hid')
      obtain rfl := Except.ok.inj (ht.symm.trans ht')
      exact hr
    · intro hr
      exact hr id target hid ht

/-! ## One that brings content back -/

/-- A transform element with this text in its `<XPath>` child. -/
def sampleTransform (expr : String) : Node :=
  ⟨10, [], .node ⟨⟨none, "Transform", some Ns.DSIG⟩, [], []⟩
    (.node 11 ⟨⟨none, "XPath", some Ns.DSIG⟩, [], []⟩ (.leaf 12 (.text expr) .nil) .nil)⟩

/-- The `<XPath>` child. -/
def sampleXPath (expr : String) : Node :=
  ⟨11, [(10, ⟨⟨none, "Transform", some Ns.DSIG⟩, [], []⟩)],
    .node ⟨⟨none, "XPath", some Ns.DSIG⟩, [], []⟩ (.leaf 12 (.text expr) .nil)⟩

/-- `<doc xmlns:x="urn:1"/>`. -/
def sampleDeclaring : Document where
  root := 0
  top := .node 1 ⟨⟨none, "doc", none⟩, [], [("x", "urn:1")]⟩ .nil .nil
  nodup := by
    show [0, 1].Nodup
    decide

/-- What the filter `name() != 'x'` leaves of it: all nodes, without the namespace node `x`. -/
def sampleHiding : NodeSet := parsedXPathNodeSet sampleDeclaring none (.nameNeq "x")

/-- A filter that keeps every node it is given, here. -/
theorem applyTransform_parsed {text : String} {expr : XPathBoolExpr} (input : Option NodeSet)
    (hchild : xpathChild? (sampleTransform text) = some (sampleXPath text))
    (hexpr : classifyXPath (xpathExprOf (sampleXPath text)) (sampleXPath text)
      = .ok (.parsed expr)) :
    applyTransform (.ofParser (fun _ => .ok sampleDeclaring)) Algorithm.XPATH (.xml "" input)
        (sampleTransform text) 0
      = .ok (.xml "" (some (parsedXPathNodeSet sampleDeclaring input expr))) := by
  rw [applyTransform_xpath, applyXPathTransform_ok]
  exact ⟨sampleXPath text, .parsed expr, hchild, hexpr,
    applyParsedXPathFilter_ok.mpr ⟨_, _, _, rfl, rfl, rfl⟩⟩

theorem applyTransform_one (input : Option NodeSet) :
    applyTransform (.ofParser (fun _ => .ok sampleDeclaring)) Algorithm.XPATH (.xml "" input)
        (sampleTransform "1") 0
      = .ok (.xml "" (some (parsedXPathNodeSet sampleDeclaring input .true))) :=
  applyTransform_parsed input (by decide) rfl

/-- The filter `name() != 'x'` once more shows nothing again. -/
theorem transform_shows_at_most_iff_sample :
    ∃ out, TransformData.xml "" (some (parsedXPathNodeSet sampleDeclaring (some sampleHiding)
        (.nameNeq "x"))) = .xml "" (some out)
      ∧ ShowsAtMost sampleDeclaring out (some sampleHiding) := by
  have hchild : xpathChild? (sampleTransform "name() != 'x'")
      = some (sampleXPath "name() != 'x'") := by decide
  have hexpr : classifyXPath (xpathExprOf (sampleXPath "name() != 'x'"))
      (sampleXPath "name() != 'x'") = .ok (.parsed (.nameNeq "x")) := by rfl
  refine (transform_shows_at_most_iff (.ofParser (fun _ => .ok sampleDeclaring)) Algorithm.XPATH ""
    sampleDeclaring rfl (by decide) (some sampleHiding) (sampleTransform "name() != 'x'") 0 _
    (applyTransform_parsed (some sampleHiding) hchild hexpr)).mpr ?_
  rw [transformRestricts_xpath]
  intro xpathNode filter hx hc
  cases hchild.symm.trans hx
  cases hexpr.symm.trans hc
  refine ⟨fun id p _ hp => ?_, fun h => absurd h (by decide)⟩
  exact (isNsVisible_parsedXPathNodeSet sampleDeclaring none (.nameNeq "x") id p).mpr hp

/-- Every node-set transform that succeeds shows at most what it was given. -/
def TransformsOnlyRestrict : Prop :=
  ∀ (lib : TransformLibs) (uri xmlText : String) (doc : Document),
    lib.parse xmlText = .ok doc → uri ∈ nodeSetTransforms →
    ∀ (input : Option NodeSet) (transformNode : Node) (sigNode : NodeId) (result : TransformData),
      applyTransform lib uri (.xml xmlText input) transformNode sigNode = .ok result →
      ∃ out, result = .xml xmlText (some out) ∧ ShowsAtMost doc out input

/-- The filter `1` after the filter `name() != 'x'` shows the namespace node `x` again. -/
theorem transform_shows_again : ¬ TransformsOnlyRestrict := by
  intro h
  obtain ⟨out, hout, hshows⟩ := h (.ofParser (fun _ => .ok sampleDeclaring)) Algorithm.XPATH ""
    sampleDeclaring rfl (by decide) (some sampleHiding) (sampleTransform "1") 0 _
    (applyTransform_one (some sampleHiding))
  simp only [TransformData.xml.injEq, true_and, Option.some.injEq] at hout
  subst hout
  have hns : sampleDeclaring.HasNsNode 1 "x" :=
    ⟨⟨1, [], .node ⟨⟨none, "doc", none⟩, [], [("x", "urn:1")]⟩ .nil⟩, by decide, rfl, _, rfl,
      by decide⟩
  have hin := hshows.namespaces 1 "x" hns
    ((isNsVisible_parsedXPathNodeSet _ _ _ _ _).mpr (fun he => absurd he (by decide)))
  exact absurd hin (by decide +kernel)

end Bergshamra
