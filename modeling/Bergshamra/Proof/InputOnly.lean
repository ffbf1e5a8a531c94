import Bergshamra.Dsig.Transform
import Bergshamra.Proof.Narrow
import Bergshamra.Proof.IdLookup

/-!
# What a transform's output depends on

Two texts that differ only outside the input set should give one output. Most
transforms consult the set: canonicalization and the Base64 transform pass over
what is not in it, and the filters meet what they select with it. Three do not.
The relationship transform and the XSLT processor read the text and drop the
set; and an XPath filter that asks about namespace nodes lists the namespace
nodes of every element of the document, also of elements the set left out.

Some transforms find a node by the index it has in the document of the
Signature. A change that leaves what such an index names as it was (`kept`) does
not show; one that moves other nodes there (`free`) does.

A node here is a node of the tree, with its attributes and declarations.
-/

namespace Bergshamra

/-- A transform's output as octets: what is digested when the chain ends here. -/
def transformOutput (lib : TransformLibs) (uri : String) (data : TransformData)
    (transformNode : Node) (sigNode : NodeId) : Except Error ByteArray := do
  let result ← applyTransform lib uri data transformNode sigNode
  result.toBinary lib

/-- The indexes of the transform element's own document that an XPath filter looks up in the
document it filters. -/
def chainIndexes (transformNode : Node) : List NodeId :=
  ((xpathChild? transformNode).map (fun n => n.selfPath.map Prod.fst)).getD []

/-- Two nodes can be one node before and after a change: if one of them is handed to the
transform by index, so is the other. -/
structure Corresponds (transformNode : Node) (sigNode sigNode' : NodeId) (i i' : NodeId) :
    Prop where
  sig : i = sigNode ↔ i' = sigNode'
  chain : ∀ o ∈ chainIndexes transformNode, (i = o ↔ i' = o)

/-- Which nodes may be one node before and after a change. -/
inductive Numbering where
  /-- What is handed to the transform by index stays what it was, whatever its index is now. -/
  | kept
  /-- Nodes may move to any index, also across those that the transform is given. -/
  | free

def Numbering.same (transformNode : Node) (sigNode sigNode' : NodeId) :
    Numbering → NodeId → NodeId → Prop
  | .kept => Corresponds transformNode sigNode sigNode'
  | .free => fun _ _ => sigNode = sigNode'

/-- **The second document is the first with changes outside the node set.** Nodes in the set, and
the nodes above them, stay as they are and in their order; any other subtree may go, come or
change. -/
structure ChangedOutside (same : NodeId → NodeId → Prop) (doc : Document)
    (nodeSet : Option NodeSet) (doc' : Document) (nodeSet' : Option NodeSet) : Prop where
  settings : SameSettingsOf nodeSet nodeSet'
  listed : ∀ s, nodeSet = some s → s.setType ≠ .invert
  listed' : ∀ s, nodeSet' = some s → s.setType ≠ .invert
  root : same doc.root doc'.root
  view : SameView (fun _ => true) same nodeSet nodeSet' true doc.top doc'.top

/-! ## Narrowing both sets -/

section Restricted

variable {same : NodeId → NodeId → Prop} {doc doc' : Document} {s s' : Option NodeSet}

/-- What must hold of the set `r` that a filter makes of `s`: it keeps of the visible nodes those
of `keep`, and no namespace node shows where none showed. -/
structure Keeps (doc : Document) (s : Option NodeSet) (r : NodeSet) (keep : Node → Bool) : Prop where
  visible : ∀ c ∈ doc.descendants, r.containsId c.key = (isVisible s c.key && keep c)
  ns : ∀ i, (hasNsFilter s = true → ∀ p, showsNs s i p = false) →
    hasNsFilter (some r) = true → ∀ p, p ≠ "xml" → showsNs (some r) i p = false

theorem Keeps.narrower {r : NodeSet} {keep : Node → Bool} (h : Keeps doc s r keep) :
    Narrower (fun _ => true) (floats .inclusive []) s (some r) doc.top.keys := by
  constructor
  · intro i hi hv
    rw [← Forest.cursors_keys [] doc.top, List.mem_map] at hi
    obtain ⟨c, hc, rfl⟩ := hi
    have := h.visible c hc
    rw [hv, Bool.false_and] at this
    exact this
  · intro i _ hns hf p hp
    refine h.ns i (fun hs q => hns hs q rfl) hf p ?_
    rintro rfl
    simp [floats] at hp

/-- **Filters that keep the same of what shows give one output.** -/
theorem toBinary_keeps {lib : TransformLibs} {xmlText xmlText' : String}
    (hdoc : lib.parse xmlText = .ok doc) (hdoc' : lib.parse xmlText' = .ok doc')
    (hview : SameView (fun _ => true) same s s' true doc.top doc'.top) {r r' : NodeSet}
    {keep keep' : Node → Bool} (hr : Keeps doc s r keep) (hr' : Keeps doc' s' r' keep')
    (hs : SameSettingsOf (some r) (some r'))
    (hkeep : ∀ c ∈ doc.descendants, ∀ c' ∈ doc'.descendants, Matched same s s' c c' →
      keep c = keep' c')
    (hns : ∀ c ∈ doc.descendants, ∀ c' ∈ doc'.descendants, Matched same s s' c c' →
      Node.element? c ≠ none → ∀ p, r.isNsVisible c.key p = r'.isNsVisible c'.key p) :
    TransformData.toBinary lib (.xml xmlText (some r))
      = TransformData.toBinary lib (.xml xmlText' (some r')) := by
  have hv : SameView (floats .inclusive []) same (some r) (some r') true doc.top doc'.top := by
    refine hview.narrow .nil hr.narrower hr'.narrower ?_
    intro c hc c' hc' hm
    refine ⟨?_, ?_⟩
    · show r.containsId c.key = r'.containsId c'.key
      rw [hr.visible c hc, hr'.visible c' hc', hm.visible, hkeep c hc c' hc' hm]
    · intro he p
      exact hns c hc c' hc' hm (by rintro h; simp [h] at he) p
  rw [TransformData.toBinary, TransformData.toBinary, canonicalize_ok hdoc, canonicalize_ok hdoc',
    canonicalizeDoc_sameView .inclusive [] hs hv]

end Restricted

section Sides

variable {same : NodeId → NodeId → Prop} {doc doc' : Document} {s s' : Option NodeSet}

/-! ## Canonicalization and Base64 -/

theorem ChangedOutside.canonicalizeDoc_eq
    (h : ChangedOutside same doc s doc' s') (mode : C14nMode)
    (inclusivePrefixes : List String) :
    canonicalizeDoc doc mode s inclusivePrefixes = canonicalizeDoc doc' mode s' inclusivePrefixes := by
  refine canonicalizeDoc_sameView mode inclusivePrefixes h.settings (h.view.narrow .nil ?_ ?_ ?_)
  · exact ⟨fun _ _ hv => hv, fun _ _ hns hf p _ => hns hf p rfl⟩
  · exact ⟨fun _ _ hv => hv, fun _ _ hns hf p _ => hns hf p rfl⟩
  · intro c _ c' _ hm
    exact ⟨hm.visible, hm.ns⟩

variable {lib : TransformLibs} {xmlText xmlText' : String}

theorem execute_c14n_congr (hdoc : lib.parse xmlText = .ok doc)
    (hdoc' : lib.parse xmlText' = .ok doc')
    (h : ChangedOutside same doc s doc' s') (t : C14nTransform) :
    t.execute lib (.xml xmlText s) = t.execute lib (.xml xmlText' s') := by
  rw [C14nTransform.execute_xml hdoc, C14nTransform.execute_xml hdoc', h.canonicalizeDoc_eq]

/-- The data itself, when the transform hands it on. -/
theorem toBinary_congr (hdoc : lib.parse xmlText = .ok doc) (hdoc' : lib.parse xmlText' = .ok doc')
    (h : ChangedOutside same doc s doc' s') :
    TransformData.toBinary lib (.xml xmlText s) = TransformData.toBinary lib (.xml xmlText' s') := by
  rw [TransformData.toBinary, TransformData.toBinary, canonicalize_ok hdoc, canonicalize_ok hdoc',
    h.canonicalizeDoc_eq]

theorem extractTextContent_eq (hdoc : lib.parse xmlText = .ok doc) (s : Option NodeSet) :
    extractTextContent lib xmlText s = .ok (String.join (visibleTexts s doc.descendants)) := by
  rw [extractTextContent, hdoc]
  rfl

theorem execute_base64_congr (hdoc : lib.parse xmlText = .ok doc)
    (hdoc' : lib.parse xmlText' = .ok doc')
    (h : ChangedOutside same doc s doc' s') :
    Base64DecodeTransform.execute lib (.xml xmlText s)
      = Base64DecodeTransform.execute lib (.xml xmlText' s') := by
  have ht : visibleTexts s doc.descendants = visibleTexts s' doc'.descendants :=
    h.view.visibleTexts [] []
  have hb : base64Input lib (.xml xmlText s) = base64Input lib (.xml xmlText' s') := by
    rw [base64Input, base64Input, extractTextContent_eq hdoc, extractTextContent_eq hdoc', ht]
  rw [Base64DecodeTransform.execute, Base64DecodeTransform.execute, hb]

/-! ## The enveloped signature -/

/-- Walking up meets the same indexes from both of two matched nodes. -/
theorem ChangedOutside.isDescendantOfIndex_eq
    (h : ChangedOutside same doc s doc' s') {o o' : NodeId}
    (ho : ∀ i i', same i i' → (i = o ↔ i' = o')) {c c' : Node} (hm : Matched same s s' c c') :
    isDescendantOfIndex doc c o = isDescendantOfIndex doc' c' o' := by
  have hpath : c.path.any (fun a => a.1 == o) = c'.path.any (fun a => a.1 == o') := by
    refine hm.chain.any ?_
    intro a a' _ ha
    rw [Bool.eq_iff_iff, beq_iff_eq, beq_iff_eq]
    exact ho _ _ ha
  have hkey : (c.key == o) = (c'.key == o') := by
    rw [Bool.eq_iff_iff, beq_iff_eq, beq_iff_eq]
    exact ho _ _ hm.matched
  have hroot : (doc.root == o) = (doc'.root == o') := by
    rw [Bool.eq_iff_iff, beq_iff_eq, beq_iff_eq]
    exact ho _ _ h.root
  rw [isDescendantOfIndex, isDescendantOfIndex, hpath, hkey, hroot]

theorem containsId_getD_all {c : Node} (hc : c ∈ doc.descendants) :
    (s.getD (NodeSet.all doc)).containsId c.key = isVisible s c.key := by
  cases s with
  | none =>
      have := Document.mem_descendants_key hc
      simp [NodeSet.all, isVisible, this]
  | some ns => rfl

theorem isNsVisible_getD_all (s : Option NodeSet) (doc : Document) (i : NodeId) (p : String) :
    (s.getD (NodeSet.all doc)).isNsVisible i p = showsNs s i p := by
  cases s with
  | none => rfl
  | some ns => rfl

theorem setType_getD_all (hs : ∀ ns, s = some ns → ns.setType ≠ .invert) :
    (s.getD (NodeSet.all doc)).setType ≠ .invert := by
  cases s with
  | none => simp [NodeSet.all, NodeSet.fromIds]
  | some ns => exact hs ns rfl

theorem keeps_enveloped (hs : ∀ ns, s = some ns → ns.setType ≠ .invert) (sigNode : NodeId) :
    Keeps doc s (envelopedNodeSet sigNode doc s) (fun c => !isDescendantOfIndex doc c sigNode) := by
  constructor
  · intro c hc
    rw [envelopedNodeSet, containsId_removeSubtree (setType_getD_all hs), containsId_getD_all hc]
    congr 1
    rw [Bool.eq_iff_iff, decide_eq_true_iff, Bool.not_eq_true', ← Bool.not_eq_true,
      isDescendantOfIndex_iff hc]
  · intro i hns hf p _
    have hf' : hasNsFilter s = true := by
      cases s with
      | none => simp [hasNsFilter, envelopedNodeSet, NodeSet.all] at hf
      | some ns => simpa [hasNsFilter, envelopedNodeSet] using hf
    rw [showsNs, Option.all_some, envelopedNodeSet, isNsVisible_removeSubtree,
      isNsVisible_getD_all]
    exact hns hf' p

theorem settings_enveloped (hs : SameSettingsOf s s') (sigNode sigNode' : NodeId) :
    SameSettingsOf (some (envelopedNodeSet sigNode doc s))
      (some (envelopedNodeSet sigNode' doc' s')) := by
  obtain ⟨hsome, hf, he⟩ := hs
  refine ⟨rfl, ?_, ?_⟩
  · cases s <;> cases s' <;> simp_all [hasNsFilter, envelopedNodeSet, NodeSet.all]
  · cases s <;> cases s' <;> simp_all [envelopedNodeSet, NodeSet.all]

theorem toBinary_enveloped (hdoc : lib.parse xmlText = .ok doc)
    (hdoc' : lib.parse xmlText' = .ok doc') (h : ChangedOutside same doc s doc' s')
    {sigNode sigNode' : NodeId} (hsig : ∀ i i', same i i' → (i = sigNode ↔ i' = sigNode')) :
    TransformData.toBinary lib (.xml xmlText (some (envelopedNodeSet sigNode doc s)))
      = TransformData.toBinary lib (.xml xmlText' (some (envelopedNodeSet sigNode' doc' s'))) := by
  refine toBinary_keeps hdoc hdoc' h.view (keeps_enveloped h.listed sigNode)
    (keeps_enveloped h.listed' sigNode') (settings_enveloped h.settings _ _) ?_ ?_
  · intro c _ c' _ hm
    rw [h.isDescendantOfIndex_eq hsig hm]
  · intro c _ c' _ hm he p
    rw [envelopedNodeSet, envelopedNodeSet, isNsVisible_removeSubtree, isNsVisible_removeSubtree,
      isNsVisible_getD_all, isNsVisible_getD_all]
    exact hm.ns (Option.isSome_iff_ne_none.mpr he) p

/-! ## XPath expressions -/

/-- An expression has one value at matched nodes. -/
theorem evalXPathBool_matched {same : NodeId → NodeId → Prop} {c c' : Node}
    (hm : Matched same s s' c c') (expr : XPathBoolExpr) :
    evalXPathBool c expr = evalXPathBool c' expr := by
  induction expr with
  | ancestorOrSelf nsUri localName =>
      exact hm.selfPath.any (fun a a' ha _ => by rw [ha])
  | parentIs nsUri localName =>
      have hp := hm.parentElement
      rw [evalXPathBool, evalXPathBool]
      cases h : c.parentElement? with
      | none =>
          cases h' : c'.parentElement? with
          | none => rfl
          | some a' => simp [h, h'] at hp
      | some a =>
          cases h' : c'.parentElement? with
          | none => simp [h, h'] at hp
          | some a' =>
              simp only [h, h', Option.map_some, Option.some.injEq] at hp
              rw [Option.any_some, Option.any_some, hp]
  | depthOdd => rw [evalXPathBool, evalXPathBool, hm.chain.length]
  | not inner ih => rw [evalXPathBool, evalXPathBool, ih]
  | and left right ihl ihr => rw [evalXPathBool, evalXPathBool, ihl, ihr]
  | or left right ihl ihr => rw [evalXPathBool, evalXPathBool, ihl, ihr]
  | selfText => rw [evalXPathBool, evalXPathBool, hm.leaf]
  | hasAttributes => rw [evalXPathBool, evalXPathBool, hm.element]
  | selfElement nsUri localName => rw [evalXPathBool, evalXPathBool, hm.element]
  | nameEq t => rw [evalXPathBool, evalXPathBool, hm.element, hm.leaf]
  | nameNeq t => rw [evalXPathBool, evalXPathBool, hm.element, hm.leaf]
  | namespaceUriEq t => rw [evalXPathBool, evalXPathBool, hm.element]
  | namespaceUriNeq t => rw [evalXPathBool, evalXPathBool, hm.element]
  | _ => rfl

/-- The namespace node is in scope at its parent. -/
def NsNode.InScope (n : NsNode) : Prop :=
  (collectInscopeNamespacesRaw (n.parent :: n.above))[n.pfx]? = some n.uri

/-- The expression holds at some namespace node that canonicalization would write. -/
def HoldsAtNsNode (expr : XPathBoolExpr) : Prop :=
  exprReferencesNsNodes expr = true
    ∧ ∃ n : NsNode, n.InScope ∧ n.pfx ≠ "xml" ∧ evalXPathBoolNs n expr = true

theorem nsVisibleOf_of_node {c : Node} (hc : c ∈ doc.descendants) {e : Element}
    (he : c.element? = some e) (expr : XPathBoolExpr) (p : String) :
    nsVisibleOf doc expr c.key p
      = (collectInscopeNamespacesRaw (e :: c.path.map Prod.snd))[p]?.map (fun uri =>
          evalXPathBoolNs ⟨p, uri, e, c.path.map Prod.snd⟩ expr) := by
  rw [nsVisibleOf, Document.node?_key hc]
  simp only [he]

/-- Where the expression holds at no namespace node, the map shows none that would be written. -/
theorem nsVisibleOf_hidden {expr : XPathBoolExpr} (hr : exprReferencesNsNodes expr = true)
    (h : ¬ HoldsAtNsNode expr) (doc : Document) (i : NodeId) {p : String} (hp : p ≠ "xml") :
    (nsVisibleOf doc expr i p).getD false = false := by
  cases hn : doc.node? i with
  | none => simp [nsVisibleOf, hn]
  | some c =>
      obtain ⟨hc, rfl⟩ := Document.mem_of_node? hn
      cases he : c.element? with
      | none => simp [nsVisibleOf, hn, he]
      | some e =>
          rw [nsVisibleOf_of_node hc he]
          cases hin : (collectInscopeNamespacesRaw (e :: c.path.map Prod.snd))[p]? with
          | none => rfl
          | some uri =>
              rw [Option.map_some, Option.getD_some]
              by_contra hne
              rw [Bool.not_eq_false] at hne
              exact h ⟨hr, ⟨p, uri, e, c.path.map Prod.snd⟩, hin, hp, hne⟩

theorem containsId_filterNodes {keep : Node → Bool} {r : NodeSet} (ht : r.setType ≠ .invert)
    (hn : r.nodes = filterNodes doc s keep) {c : Node} (hc : c ∈ doc.descendants) :
    r.containsId c.key = (isVisible s c.key && keep c) := by
  rw [NodeSet.containsId_of_ne_invert ht, hn, Bool.eq_iff_iff, decide_eq_true_iff, mem_filterNodes,
    Bool.and_eq_true]
  constructor
  · rintro ⟨m, hm, hk, hv, hkeep⟩
    rw [← Forest.cursor_eq_of_key doc.nodup_top hm hc hk]
    exact ⟨hv, hkeep⟩
  · rintro ⟨hv, hkeep⟩
    exact ⟨c, hc, rfl, hv, hkeep⟩

theorem keeps_parsed {expr : XPathBoolExpr} (h : ¬ HoldsAtNsNode expr) (doc : Document)
    (s : Option NodeSet) :
    Keeps doc s (parsedXPathNodeSet doc s expr) (fun c => evalXPathBool c expr) := by
  constructor
  · intro c hc
    refine containsId_filterNodes ?_ (parsedXPathNodeSet_nodes doc s expr) hc
    rw [parsedXPathNodeSet_setType]
    simp
  · intro i _ hf p hp
    rw [hasNsFilter, Option.any_some, NodeSet.hasNsVisible, parsedXPathNodeSet_nsVisible] at hf
    by_cases hr : exprReferencesNsNodes expr = true
    · rw [showsNs, Option.all_some, NodeSet.isNsVisible, parsedXPathNodeSet_nsVisible, if_pos hr]
      exact nsVisibleOf_hidden hr h doc i hp
    · rw [if_neg hr] at hf
      simp at hf

theorem settings_parsed (doc doc' : Document) (s s' : Option NodeSet) (expr : XPathBoolExpr) :
    SameSettingsOf (some (parsedXPathNodeSet doc s expr))
      (some (parsedXPathNodeSet doc' s' expr)) := by
  refine ⟨rfl, ?_, ?_⟩
  · simp only [hasNsFilter, Option.any_some, NodeSet.hasNsVisible, parsedXPathNodeSet_nsVisible]
    split <;> rfl
  · simp only [Option.any_some, NodeSet.excludesAttrs, parsedXPathNodeSet_excludeAttrs]

theorem toBinary_parsed (hdoc : lib.parse xmlText = .ok doc)
    (hdoc' : lib.parse xmlText' = .ok doc')
    (h : ChangedOutside same doc s doc' s') {expr : XPathBoolExpr}
    (he : ¬ HoldsAtNsNode expr) :
    TransformData.toBinary lib (.xml xmlText (some (parsedXPathNodeSet doc s expr)))
      = TransformData.toBinary lib (.xml xmlText' (some (parsedXPathNodeSet doc' s' expr))) := by
  refine toBinary_keeps hdoc hdoc' h.view (keeps_parsed he doc s) (keeps_parsed he doc' s')
    (settings_parsed doc doc' s s' expr) ?_ ?_
  · intro c _ c' _ hm
    exact evalXPathBool_matched hm expr
  · intro c hc c' hc' hm hne p
    rw [NodeSet.isNsVisible, NodeSet.isNsVisible, parsedXPathNodeSet_nsVisible,
      parsedXPathNodeSet_nsVisible]
    by_cases hr : exprReferencesNsNodes expr = true
    · obtain ⟨e, hce⟩ := Option.ne_none_iff_exists'.mp hne
      have hce' : c'.element? = some e := hm.element ▸ hce
      rw [if_pos hr, if_pos hr]
      dsimp only
      rw [nsVisibleOf_of_node hc hce, nsVisibleOf_of_node hc' hce', hm.chain.elements]
    · rw [if_neg hr, if_neg hr]

/-! ## Ids -/

theorem Matched.elements {same : NodeId → NodeId → Prop} {c c' : Node}
    (hm : Matched same s s' c c') : c.elements = c'.elements := hm.selfPath.elements

/-- A node's place under the element an id denotes, as the compound filter looks for it. -/
theorem isDescendantOfIndex_id {up : Uppsala} {attrNames : List String} {m : IdMap}
    (h : buildIdMap up doc attrNames = .ok m) (id : String) {c : Node}
    (hc : c ∈ doc.descendants) :
    ((m.get? id).map Forest.Cursor.key).any (fun i => isDescendantOfIndex doc c i)
      = c.elements.any (hasId up attrNames id) := by
  rw [Bool.eq_iff_iff, ← below_id_iff h hc, Option.any_map, Option.any_eq_true]
  refine exists_congr (fun t => and_congr_right (fun ht => ?_))
  rw [isDescendantOfIndex_iff hc, idsBelow_of_node ((get?_buildIdMap h).mp ht).1]

theorem compoundKeeps_matched (h : ChangedOutside same doc s doc' s')
    (f : CompoundFilter) {here? : Option NodeId}
    (hhere : ∀ o, here? = some o → ∀ i i', same i i' → (i = o ↔ i' = o)) {m m' : IdMap}
    (hid : buildIdMap lib.toUppsala doc defaultIdAttrs = .ok m)
    (hid' : buildIdMap lib.toUppsala doc' defaultIdAttrs = .ok m') {c c' : Node}
    (hc : c ∈ doc.descendants) (hc' : c' ∈ doc'.descendants)
    (hm : Matched same s s' c c') :
    compoundKeeps f doc here? ((m.get? f.id).map Forest.Cursor.key) c
      = compoundKeeps f doc' here? ((m'.get? f.id).map Forest.Cursor.key) c' := by
  have ha : c.selfPath.any (fun x => x.2.isNamed f.a.1 f.a.2)
      = c'.selfPath.any (fun x => x.2.isNamed f.a.1 f.a.2) :=
    hm.selfPath.any (fun a a' he _ => by rw [he])
  have hb : here?.all (fun i => !isDescendantOfIndex doc c i)
      = here?.all (fun i => !isDescendantOfIndex doc' c' i) := by
    cases here? with
    | none => rfl
    | some o =>
        rw [Option.all_some, Option.all_some,
          h.isDescendantOfIndex_eq (hhere o rfl) hm]
  rw [compoundKeeps_apply, compoundKeeps_apply, ha, hb, isDescendantOfIndex_id hid f.id hc,
    isDescendantOfIndex_id hid' f.id hc', hm.elements]

theorem keeps_filterNodes (doc : Document) (s : Option NodeSet) (keep : Node → Bool) :
    Keeps doc s (NodeSet.fromIds (filterNodes doc s keep) .normal) keep := by
  constructor
  · intro c hc
    exact containsId_filterNodes (by simp [NodeSet.fromIds]) rfl hc
  · intro i _ hf
    simp [hasNsFilter] at hf

theorem mem_chainIndexes {transformNode xpathNode : Node}
    (hx : xpathChild? transformNode = some xpathNode)
    {nsUri localName : String} {o : NodeId}
    (h : findAncestorByNameIdx xpathNode nsUri localName = some o) :
    o ∈ chainIndexes transformNode := by
  rw [findAncestorByNameIdx, Option.map_eq_some_iff] at h
  obtain ⟨a, ha, rfl⟩ := h
  rw [chainIndexes, hx]
  exact List.mem_map_of_mem (List.mem_of_find?_eq_some ha)

theorem toBinary_compound (hdoc : lib.parse xmlText = .ok doc)
    (hdoc' : lib.parse xmlText' = .ok doc')
    (h : ChangedOutside same doc s doc' s') (f : CompoundFilter)
    {here? : Option NodeId} (hhere : ∀ o, here? = some o → ∀ i i', same i i' → (i = o ↔ i' = o))
    {m m' : IdMap} (hid : buildIdMap lib.toUppsala doc defaultIdAttrs = .ok m)
    (hid' : buildIdMap lib.toUppsala doc' defaultIdAttrs = .ok m') :
    TransformData.toBinary lib (.xml xmlText (some (NodeSet.fromIds (filterNodes doc s
        (compoundKeeps f doc here? ((m.get? f.id).map Forest.Cursor.key))) .normal)))
      = TransformData.toBinary lib (.xml xmlText' (some (NodeSet.fromIds (filterNodes doc' s'
        (compoundKeeps f doc' here? ((m'.get? f.id).map Forest.Cursor.key))) .normal))) := by
  refine toBinary_keeps hdoc hdoc' h.view (keeps_filterNodes doc s _) (keeps_filterNodes doc' s' _)
    ⟨rfl, rfl, rfl⟩ ?_ ?_
  · intro c hc c' hc' hm
    exact compoundKeeps_matched h f hhere hid hid' hc hc' hm
  · intro c _ c' _ _ _ p
    rfl

/-- The subtree of the target, as a list of keys. -/
theorem mem_treeWithComments {t : Node} {i : NodeId} :
    i ∈ (NodeSet.treeWithComments t).nodes ↔ i ∈ t.subtreeKeys := by
  obtain ⟨key, path, item⟩ := t
  cases item with
  | leaf k =>
      simp [NodeSet.treeWithComments, NodeSet.collectSubtree, NodeSet.fromIds,
        Forest.Cursor.subtreeKeys, Forest.Cursor.kids]
  | node e kids =>
      simp [NodeSet.treeWithComments, NodeSet.collectSubtree, NodeSet.fromIds,
        Forest.Cursor.subtreeKeys, Forest.Cursor.kids, Forest.keysWhere_true]

/-- Meeting a set with a plain set keeps the set's namespace nodes. -/
theorem keeps_intersection {input f : NodeSet} {keep : Node → Bool}
    (hv : ∀ c ∈ doc.descendants, (c.key ∈ input.nodes ↔ isVisible s c.key = true))
    (hns : hasNsFilter (some input) = hasNsFilter s)
    (hshow : ∀ i p, input.isNsVisible i p = showsNs s i p) (hf : f.Plain)
    (hkeep : ∀ c ∈ doc.descendants, (c.key ∈ f.nodes ↔ keep c = true)) :
    Keeps doc s (input.intersection f) keep := by
  constructor
  · intro c hc
    rw [NodeSet.containsId_intersection, Bool.eq_iff_iff, decide_eq_true_iff, hv c hc, hkeep c hc,
      Bool.and_eq_true]
  · intro i hdark hfilter p _
    have hin : hasNsFilter s = true := by
      rw [← hns]
      cases hi : input.nsVisible with
      | none =>
          simp [hasNsFilter, NodeSet.hasNsVisible, NodeSet.intersection, hi, hf.nsVisible,
            NodeSet.mergeNsVisibleIntersection] at hfilter
      | some map => simp [hasNsFilter, NodeSet.hasNsVisible, hi]
    rw [showsNs, Option.all_some, NodeSet.isNsVisible_intersection, hshow, hdark hin p,
      Bool.false_and]

theorem mem_getD_all_iff (hs : ∀ ns, s = some ns → ns.setType ≠ .invert) {c : Node}
    (hc : c ∈ doc.descendants) :
    c.key ∈ (s.getD (NodeSet.all doc)).nodes ↔ isVisible s c.key = true := by
  rw [← containsId_getD_all hc, NodeSet.containsId_of_ne_invert (setType_getD_all hs),
    decide_eq_true_iff]

theorem hasNsFilter_getD_all (s : Option NodeSet) (doc : Document) :
    hasNsFilter (some (s.getD (NodeSet.all doc))) = hasNsFilter s := by
  cases s with
  | none => simp [hasNsFilter, NodeSet.all]
  | some ns => rfl

theorem excludesAttrs_getD_all (s : Option NodeSet) (doc : Document) :
    (s.getD (NodeSet.all doc)).excludesAttrs = s.any NodeSet.excludesAttrs := by
  cases s with
  | none => rfl
  | some ns => rfl

theorem hasNsVisible_intersection_plain (a : NodeSet) {f : NodeSet} (hf : f.Plain) :
    (a.intersection f).hasNsVisible = a.hasNsVisible := by
  cases hi : a.nsVisible <;>
    simp [NodeSet.hasNsVisible, NodeSet.intersection, hi, hf.nsVisible,
      NodeSet.mergeNsVisibleIntersection]

theorem isNsVisible_plain {f : NodeSet} (hf : f.Plain) (i : NodeId) (p : String) :
    f.isNsVisible i p = true := by
  rw [NodeSet.isNsVisible, hf.nsVisible]

/-- **Sets met with plain sets that agree at matched nodes give one output.** -/
theorem toBinary_intersection (hdoc : lib.parse xmlText = .ok doc)
    (hdoc' : lib.parse xmlText' = .ok doc')
    (h : ChangedOutside same doc s doc' s') {f f' : NodeSet}
    (hf : f.Plain) (hf' : f'.Plain)
    (hagree : ∀ c ∈ doc.descendants, ∀ c' ∈ doc'.descendants, c.elements = c'.elements →
      (c.key ∈ f.nodes ↔ c'.key ∈ f'.nodes)) :
    TransformData.toBinary lib (.xml xmlText (some ((s.getD (NodeSet.all doc)).intersection f)))
      = TransformData.toBinary lib
          (.xml xmlText' (some ((s'.getD (NodeSet.all doc')).intersection f'))) := by
  have hmem : ∀ (d : Document) (g : NodeSet), ∀ c ∈ d.descendants,
      (c.key ∈ g.nodes ↔ decide (c.key ∈ g.nodes) = true) := by
    intro d g c _
    rw [decide_eq_true_iff]
  refine toBinary_keeps hdoc hdoc' h.view
    (keeps_intersection (fun c hc => mem_getD_all_iff h.listed hc) (hasNsFilter_getD_all s doc)
      (isNsVisible_getD_all s doc) hf (hmem doc f))
    (keeps_intersection (fun c hc => mem_getD_all_iff h.listed' hc) (hasNsFilter_getD_all s' doc')
      (isNsVisible_getD_all s' doc') hf' (hmem doc' f')) ⟨rfl, ?_, ?_⟩ ?_ ?_
  · have hl := hasNsFilter_getD_all s doc
    have hr := hasNsFilter_getD_all s' doc'
    rw [hasNsFilter, Option.any_some] at hl hr ⊢
    rw [hasNsFilter, Option.any_some, hasNsVisible_intersection_plain _ hf,
      hasNsVisible_intersection_plain _ hf', hl, hr, h.settings.hasNsFilter]
  · rw [Option.any_some, Option.any_some, NodeSet.excludesAttrs_intersection,
      NodeSet.excludesAttrs_intersection, excludesAttrs_getD_all, excludesAttrs_getD_all,
      h.settings.excludesAttrs, NodeSet.excludesAttrs, NodeSet.excludesAttrs, hf.excludeAttrs,
      hf'.excludeAttrs]
  · intro c hc c' hc' hm
    rw [Bool.eq_iff_iff, decide_eq_true_iff, decide_eq_true_iff]
    exact hagree c hc c' hc' hm.elements
  · intro c _ c' _ hm hne p
    rw [NodeSet.isNsVisible_intersection, NodeSet.isNsVisible_intersection, isNsVisible_getD_all,
      isNsVisible_getD_all, isNsVisible_plain hf, isNsVisible_plain hf',
      hm.ns (Option.isSome_iff_ne_none.mpr hne) p]

end Sides

/-! ## The law -/

/-- The same libraries around another parser. -/
def TransformLibs.withParse (lib : TransformLibs) (parse : String → Except String Document) :
    TransformLibs := { lib with parse := parse }

/-- Changing the text outside the node set does not change the output of the transform. Two texts
for which the transform returns an output are compared; the Signature it is told of is the one it
was told of before (`free`: its index is the same). -/
def DependsOnInput (lib : TransformLibs) (numbering : Numbering) (uri : String)
    (transformNode : Node) : Prop :=
  ∀ (parse : String → Except String Document) (xmlText xmlText' : String) (doc doc' : Document)
    (s s' : Option NodeSet) (sigNode sigNode' : NodeId) (output output' : ByteArray),
    parse xmlText = .ok doc → parse xmlText' = .ok doc' →
    ChangedOutside (numbering.same transformNode sigNode sigNode') doc s doc' s' →
    transformOutput (lib.withParse parse) uri (.xml xmlText s) transformNode sigNode = .ok output →
    transformOutput (lib.withParse parse) uri (.xml xmlText' s') transformNode sigNode'
      = .ok output' →
    output = output'

/-- Does the transform select relationships with the attributes of this element? -/
def SelectsRelationship (up : Uppsala) (transformNode : Node) (e : Element) : Prop :=
  e.isNamed Ns.RELATIONSHIPS "Relationship" = true
    ∧ ((referenceValues up transformNode "RelationshipReference" "SourceId").contains
          (relInfoOf up e).id
        || (referenceValues up transformNode "RelationshipsGroupReference" "SourceType").contains
          (relInfoOf up e).relType) = true

/-- The `<xsl:stylesheet>` child. -/
def stylesheetChild? (transformNode : Node) : Option Node :=
  transformNode.children.find? (fun c : Node => c.element?.any (fun e => Xslt.isXsl e "stylesheet"))

/-- **The transforms that read what the node set leaves out.** -/
inductive ReadsOutside (up : Uppsala) : String → Node → Prop
  /-- An XPath expression that holds at a namespace node: the visibility map is made for the whole
  document. -/
  | nsNodes {transformNode xpathNode : Node} {expr : XPathBoolExpr}
      (hx : xpathChild? transformNode = some xpathNode)
      (hc : classifyXPath (xpathExprOf xpathNode) xpathNode = .ok (.parsed expr))
      (h : HoldsAtNsNode expr) : ReadsOutside up Algorithm.XPATH transformNode
  /-- A relationship transform that can select something. -/
  | relationship {transformNode : Node} {e : Element}
      (h : SelectsRelationship up transformNode e) :
      ReadsOutside up Algorithm.RELATIONSHIP transformNode
  /-- A stylesheet that is not taken for the identity transformation. -/
  | xslt {transformNode stylesheet : Node} (hs : stylesheetChild? transformNode = some stylesheet)
      (h : Xslt.isIdentity up (Xslt.stylesheetOf up stylesheet) = false) :
      ReadsOutside up Algorithm.XSLT transformNode

/-- **The transforms that look a node of another document up by its index**: the Signature, or the
element around the XPath expression that `here()` leads to. -/
inductive ByIndex : String → Node → Prop
  | enveloped {transformNode : Node} : ByIndex Algorithm.ENVELOPED_SIGNATURE transformNode
  /-- An XPath expression that is taken for the enveloped-signature transform. -/
  | xpathEnveloped {transformNode xpathNode : Node}
      (hx : xpathChild? transformNode = some xpathNode)
      (hc : classifyXPath (xpathExprOf xpathNode) xpathNode = .ok .enveloped) :
      ByIndex Algorithm.XPATH transformNode
  /-- The compound expression, where there is such an element. -/
  | here {transformNode xpathNode : Node} {f : CompoundFilter} {o : NodeId}
      (hx : xpathChild? transformNode = some xpathNode)
      (hc : classifyXPath (xpathExprOf xpathNode) xpathNode = .ok (.compound f))
      (ho : findAncestorByNameIdx xpathNode f.b.1 f.b.2 = some o) :
      ByIndex Algorithm.XPATH transformNode

/-- Which transforms these are does not depend on the parser. -/
theorem ReadsOutside.of_getAttribute {up up' : Uppsala} (hup : up.getAttribute = up'.getAttribute)
    {uri : String} {transformNode : Node} (h : ReadsOutside up uri transformNode) :
    ReadsOutside up' uri transformNode := by
  obtain ⟨parse, getAttribute⟩ := up
  obtain ⟨parse', getAttribute'⟩ := up'
  subst hup
  cases h with
  | nsNodes hx hc h => exact .nsNodes hx hc h
  | relationship h => exact .relationship h
  | xslt hs h => exact .xslt hs h

section Outputs

variable {same : NodeId → NodeId → Prop} {transformNode : Node} {sigNode sigNode' : NodeId}
  {doc doc' : Document} {s s' : Option NodeSet} {lib : TransformLibs} {xmlText xmlText' : String}
  {output output' : ByteArray}

theorem bind_output_congr {r r' : Except Error TransformData}
    {f : TransformData → Except Error ByteArray}
    (h : ∀ d d', r = .ok d → r' = .ok d' → f d = f d') (ho : (r >>= f) = .ok output)
    (ho' : (r' >>= f) = .ok output') : output = output' := by
  rw [bind_eq_ok] at ho ho'
  obtain ⟨d, hr, hd⟩ := ho
  obtain ⟨d', hr', hd'⟩ := ho'
  rw [h d d' hr hr', hd'] at hd
  exact (Except.ok.inj hd).symm

theorem xpath_congr (hdoc : lib.parse xmlText = .ok doc) (hdoc' : lib.parse xmlText' = .ok doc')
    (h : ChangedOutside same doc s doc' s')
    (hr : ¬ ReadsOutside lib.toUppsala Algorithm.XPATH transformNode)
    (hindex : ByIndex Algorithm.XPATH transformNode →
      ∀ i i', same i i' → Corresponds transformNode sigNode sigNode' i i') {d d' : TransformData}
    (hd : applyXPathTransform lib (.xml xmlText s) transformNode sigNode = .ok d)
    (hd' : applyXPathTransform lib (.xml xmlText' s') transformNode sigNode' = .ok d') :
    d.toBinary lib = d'.toBinary lib := by
  rw [applyXPathTransform_ok] at hd hd'
  obtain ⟨xpathNode, filter, hx, hc, hd⟩ := hd
  obtain ⟨xpathNode', filter', hx', hc', hd'⟩ := hd'
  rw [hx, Option.some.injEq] at hx'
  subst hx'
  rw [hc, Except.ok.injEq] at hc'
  subst hc'
  -- both runs classify the expression alike
  cases filter with
  | enveloped =>
      rw [applyXPathFilter, EnvelopedSignatureTransform.execute_xml hdoc] at hd
      rw [applyXPathFilter, EnvelopedSignatureTransform.execute_xml hdoc'] at hd'
      cases hd
      cases hd'
      exact toBinary_enveloped hdoc hdoc' h
        (fun i i' hi => (hindex (.xpathEnveloped hx hc) i i' hi).sig)
  | parsed expr =>
      rw [applyXPathFilter, applyParsedXPathFilter_ok] at hd hd'
      obtain ⟨t, n, e, hxml, hparse, rfl⟩ := hd
      obtain ⟨t', n', e', hxml', hparse', rfl⟩ := hd'
      cases hxml
      cases hxml'
      rw [hdoc, Except.ok.injEq] at hparse
      rw [hdoc', Except.ok.injEq] at hparse'
      subst hparse hparse'
      exact toBinary_parsed hdoc hdoc' h (fun he => hr (.nsNodes hx hc he))
  | compound f =>
      rw [applyXPathFilter, applyCompoundFilter_ok] at hd hd'
      obtain ⟨t, n, e, m, hxml, hparse, hid, rfl⟩ := hd
      obtain ⟨t', n', e', m', hxml', hparse', hid', rfl⟩ := hd'
      cases hxml
      cases hxml'
      rw [hdoc, Except.ok.injEq] at hparse
      rw [hdoc', Except.ok.injEq] at hparse'
      subst hparse hparse'
      refine toBinary_compound hdoc hdoc' h f ?_ hid hid'
      intro o ho i i' hi
      exact (hindex (.here hx hc ho) i i' hi).chain o (mem_chainIndexes hx ho)

/-- Without an input set the target's subtree is met with all nodes. -/
theorem xpointerNodeSet_eq {target : Node} (ht : target ∈ doc.descendants) (s : Option NodeSet) :
    xpointerNodeSet target s
      = (s.getD (NodeSet.all doc)).intersection (NodeSet.treeWithComments target) := by
  cases s with
  | some ns => rfl
  | none =>
      have hsub : (NodeSet.all doc).nodes ∩ (NodeSet.treeWithComments target).nodes
          = (NodeSet.treeWithComments target).nodes := by
        rw [Finset.inter_eq_right]
        intro i hi
        have := Forest.subtreeKeys_subset ht (mem_treeWithComments.mp hi)
        simp [NodeSet.all, NodeSet.fromIds, this]
      rw [xpointerNodeSet, Option.getD_none, NodeSet.intersection, hsub]
      rfl

theorem treeWithComments_plain (target : Node) : (NodeSet.treeWithComments target).Plain :=
  ⟨rfl, rfl⟩

theorem resolveDefaultId_ok {up : Uppsala} {id : String} {target : Node} :
    resolveDefaultId up doc id = .ok target
      ↔ ∃ m, buildIdMap up doc defaultIdAttrs = .ok m ∧ m.get? id = some target := by
  rw [resolveDefaultId, bind_eq_ok]
  refine exists_congr (fun m => and_congr_right (fun _ => ?_))
  rw [resolveId]
  cases m.get? id <;> simp

theorem mem_target_iff {up : Uppsala} {id : String} {target : Node}
    (ht : resolveDefaultId up doc id = .ok target) {c : Node} (hc : c ∈ doc.descendants) :
    c.key ∈ (NodeSet.treeWithComments target).nodes
      ↔ c.elements.any (hasId up defaultIdAttrs id) = true := by
  obtain ⟨m, hm, hget⟩ := resolveDefaultId_ok.mp ht
  rw [mem_treeWithComments, ← below_id_iff hm hc, hget]
  simp

theorem xpointer_congr (hdoc : lib.parse xmlText = .ok doc) (hdoc' : lib.parse xmlText' = .ok doc')
    (h : ChangedOutside same doc s doc' s') {d d' : TransformData}
    (hd : applyXPointerTransform lib (.xml xmlText s) transformNode = .ok d)
    (hd' : applyXPointerTransform lib (.xml xmlText' s') transformNode = .ok d') :
    d.toBinary lib = d'.toBinary lib := by
  rw [applyXPointerTransform_xml hdoc] at hd
  rw [applyXPointerTransform_xml hdoc'] at hd'
  obtain ⟨id, target, hid, ht, rfl⟩ := hd
  obtain ⟨id', target', hid', ht', rfl⟩ := hd'
  rw [hid, Except.ok.injEq] at hid'
  subst hid'
  obtain ⟨m, hm, hget⟩ := resolveDefaultId_ok.mp ht
  obtain ⟨m', hm', hget'⟩ := resolveDefaultId_ok.mp ht'
  rw [xpointerNodeSet_eq ((get?_buildIdMap hm).mp hget).1,
    xpointerNodeSet_eq ((get?_buildIdMap hm').mp hget').1]
  refine toBinary_intersection hdoc hdoc' h (treeWithComments_plain _) (treeWithComments_plain _) ?_
  intro c hc c' hc' he
  rw [mem_target_iff ht hc, mem_target_iff ht' hc', he]

theorem filter2_congr (hdoc : lib.parse xmlText = .ok doc) (hdoc' : lib.parse xmlText' = .ok doc')
    (h : ChangedOutside same doc s doc' s') {d d' : TransformData}
    (hd : applyXPathFilter2Transform lib (.xml xmlText s) transformNode = .ok d)
    (hd' : applyXPathFilter2Transform lib (.xml xmlText' s') transformNode = .ok d') :
    d.toBinary lib = d'.toBinary lib := by
  rw [applyXPathFilter2Transform_xml hdoc] at hd
  rw [applyXPathFilter2Transform_xml hdoc'] at hd'
  obtain ⟨f, hf, rfl⟩ := hd
  obtain ⟨f', hf', rfl⟩ := hd'
  exact toBinary_intersection hdoc hdoc' h (filter2Ns_plain hf) (filter2Ns_plain hf')
    (readsChain_filter2Ns lib.toUppsala transformNode doc doc' f f' hf hf')

/-- Where no relationship can be selected, none is. -/
theorem selectedRels_nil {up : Uppsala} (hr : ∀ e, ¬ SelectsRelationship up transformNode e)
    (root : Node) :
    selectedRels up (referenceValues up transformNode "RelationshipReference" "SourceId")
      (referenceValues up transformNode "RelationshipsGroupReference" "SourceType") root = [] := by
  rw [selectedRels, List.filter_eq_nil_iff]
  intro r hmem hsel
  obtain ⟨c, _, hc⟩ := List.mem_filterMap.mp hmem
  rw [Option.bind_eq_some_iff] at hc
  obtain ⟨e, _, he⟩ := hc
  split at he
  · rename_i hn
    rw [Option.some.injEq] at he
    subst he
    exact hr e ⟨hn, hsel⟩
  · simp at he

theorem relationship_ok (hdoc : lib.parse xmlText = .ok doc)
    (hr : ∀ e, ¬ SelectsRelationship lib.toUppsala transformNode e) {d : TransformData}
    (hd : applyRelationshipTransform lib (.xml xmlText s) transformNode = .ok d) :
    d = .binary (writeRelationships lib []).toUTF8 := by
  rw [applyRelationshipTransform, inputText, bind_eq_ok] at hd
  obtain ⟨t, ht, hd⟩ := hd
  cases ht
  rw [hdoc] at hd
  dsimp only at hd
  split at hd
  · simp at hd
  · rw [selectedRels_nil hr] at hd
    exact (Except.ok.inj hd).symm

theorem xslt_ok (hr : ¬ ReadsOutside lib.toUppsala Algorithm.XSLT transformNode)
    {data d : TransformData} (hd : applyXsltTransform lib data transformNode = .ok d) : d = data := by
  unfold applyXsltTransform at hd
  split at hd
  · simp at hd
  · rename_i stylesheet hs
    dsimp only at hd
    split at hd
    · exact (Except.ok.inj hd).symm
    · rename_i hid
      exact absurd (.xslt hs (by simpa using hid)) hr

/-- **Transforms that do not read outside give one output.** -/
theorem transformOutput_congr {uri : String} (hdoc : lib.parse xmlText = .ok doc)
    (hdoc' : lib.parse xmlText' = .ok doc')
    (h : ChangedOutside same doc s doc' s')
    (hr : ¬ ReadsOutside lib.toUppsala uri transformNode)
    (hindex : ByIndex uri transformNode →
      ∀ i i', same i i' → Corresponds transformNode sigNode sigNode' i i')
    (ho : transformOutput lib uri (.xml xmlText s) transformNode sigNode = .ok output)
    (ho' : transformOutput lib uri (.xml xmlText' s') transformNode sigNode' = .ok output') :
    output = output' := by
  unfold transformOutput at ho ho'
  refine bind_output_congr ?_ ho ho'
  intro d d' hd hd'
  -- both runs go to the same transform, in the order of the dispatch
  unfold applyTransform at hd hd'
  split at hd
  · rename_i hu
    rw [if_pos hu, EnvelopedSignatureTransform.execute_xml hdoc'] at hd'
    rw [EnvelopedSignatureTransform.execute_xml hdoc] at hd
    cases hd
    cases hd'
    subst hu
    exact toBinary_enveloped hdoc hdoc' h (fun i i' hi => (hindex .enveloped i i' hi).sig)
  · rename_i hu
    rw [if_neg hu] at hd'
    split at hd
    · rename_i mode hmode
      rw [hmode] at hd'
      dsimp only at hd'
      rw [execute_c14n_congr hdoc hdoc' h, hd'] at hd
      rw [Except.ok.inj hd]
    · rename_i hmode
      rw [hmode] at hd'
      dsimp only at hd'
      split at hd
      · rename_i hu
        rw [if_pos hu] at hd'
        rw [execute_base64_congr hdoc hdoc' h, hd'] at hd
        rw [Except.ok.inj hd]
      · rename_i hu
        rw [if_neg hu] at hd'
        split at hd
        · rename_i hu
          rw [if_pos hu] at hd'
          subst hu
          exact xpath_congr hdoc hdoc' h hr hindex hd hd'
        · rename_i hu
          rw [if_neg hu] at hd'
          split at hd
          · rename_i hu
            rw [if_pos hu] at hd'
            exact xpointer_congr hdoc hdoc' h hd hd'
          · rename_i hu
            rw [if_neg hu] at hd'
            split at hd
            · rename_i hu
              rw [if_pos hu] at hd'
              exact filter2_congr hdoc hdoc' h hd hd'
            · rename_i hu
              rw [if_neg hu] at hd'
              split at hd
              · rename_i hu
                rw [if_pos hu] at hd'
                subst hu
                -- it selects nothing, so the output is the same for every text
                have hnone : ∀ e, ¬ SelectsRelationship lib.toUppsala transformNode e :=
                  fun e he => hr (.relationship he)
                rw [relationship_ok hdoc hnone hd, relationship_ok hdoc' hnone hd']
              · rename_i hu
                rw [if_neg hu] at hd'
                split at hd
                · rename_i hu
                  rw [if_pos hu] at hd'
                  subst hu
                  -- the stylesheet is taken for the identity transformation
                  rw [xslt_ok hr hd, xslt_ok hr hd']
                  exact toBinary_congr hdoc hdoc' h
                · simp at hd

end Outputs

end Bergshamra
