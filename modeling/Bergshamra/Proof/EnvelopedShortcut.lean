import Bergshamra.Proof.SelectsWhere
import Bergshamra.Proof.InputOnly
import Bergshamra.Dsig.Verify

/-!
# The enveloped-signature shortcut

An expression `not(ancestor-or-self::P:Signature)` is not evaluated: one subtree
is removed, that of the Signature being processed. Evaluation would remove the
nodes under every element that is a `Signature` in the namespace `P` has at the
XPath element. The two agree exactly when, as far as the input goes, that is the
one subtree; and when the input lists no namespace node of what is removed,
since the removal leaves the visibility map alone.
-/

namespace Bergshamra

/-- The prefix between the two ends of the pattern. -/
def envelopedPrefix (expr : List Char) : List Char :=
  let front := "not(ancestor-or-self::".toList
  let back := ":Signature)".toList
  ((Text.trim expr).drop front.length).take ((Text.trim expr).length - front.length - back.length)

/-- The set lists what it leaves out. -/
def Inverted (input : Option NodeSet) : Prop := ∃ s, input = some s ∧ s.setType = .invert

/-- **The Signature subtrees are one**, for the input: its nodes under a Signature are its nodes
under the one being processed, and it lists none of their namespace nodes. -/
structure OneSignatureSubtree (doc : Document) (input : Option NodeSet) (nsUri : String)
    (sigNode : NodeId) : Prop where
  removed : ¬ Inverted input → ∀ s ∈ doc.descendants, s.isNamed nsUri "Signature" = true →
    ∀ id ∈ s.subtreeKeys, isVisible input id = true → id ∈ doc.idsBelow sigNode
  only : ¬ Inverted input → ∀ id ∈ doc.ids, id ∈ doc.idsBelow sigNode →
    isVisible input id = true →
    ∃ s ∈ doc.descendants, s.isNamed nsUri "Signature" = true ∧ id ∈ s.subtreeKeys
  /-- Shortening the list of an inverted set lets nodes in; there must be nothing to do. -/
  inverted : Inverted input →
    (∀ s ∈ doc.descendants, s.isNamed nsUri "Signature" = true →
      ∀ id ∈ s.subtreeKeys, isVisible input id = false)
      ∧ ∀ id ∈ doc.ids, id ∈ doc.idsBelow sigNode → isVisible input id = true
  namespaces : hasNsFilter input = true → ∀ s ∈ doc.descendants,
    s.isNamed nsUri "Signature" = true → ∀ n ∈ doc.descendants, n.key ∈ s.subtreeKeys →
    ∀ p, doc.HasNsNode n.key p → showsNs input n.key p = false

section

variable {doc : Document} {input : Option NodeSet} {sigNode : NodeId}

theorem isVisible_getD_all {id : NodeId} (hid : id ∈ doc.ids) :
    (input.getD (NodeSet.all doc)).containsId id = isVisible input id := by
  cases input with
  | none => simpa [NodeSet.all, NodeSet.fromIds, NodeSet.containsId, isVisible, Document.ids] using hid
  | some s => rfl

theorem containsId_envelopedNodeSet (hinv : ¬ Inverted input) {id : NodeId} (hid : id ∈ doc.ids) :
    (envelopedNodeSet sigNode doc input).containsId id
      = (isVisible input id && decide (id ∉ doc.idsBelow sigNode)) := by
  have hs : ∀ ns, input = some ns → ns.setType ≠ .invert := fun ns hns ht => hinv ⟨ns, hns, ht⟩
  rw [envelopedNodeSet, containsId_removeSubtree (setType_getD_all hs), isVisible_getD_all hid]

theorem containsId_envelopedNodeSet_inverted (hinv : Inverted input) (id : NodeId) :
    (envelopedNodeSet sigNode doc input).containsId id
      = (isVisible input id || decide (id ∈ doc.idsBelow sigNode)) := by
  obtain ⟨s, rfl, ht⟩ := hinv
  rw [envelopedNodeSet, Option.getD_some, containsId_removeSubtree_invert ht, isVisible]

theorem hasNsFilter_enveloped :
    hasNsFilter (some (envelopedNodeSet sigNode doc input)) = hasNsFilter input := by
  rw [hasNsFilter, Option.any_some, envelopedNodeSet, hasNsVisible_removeSubtree]
  exact hasNsFilter_getD_all input doc

theorem showsNs_enveloped (id : NodeId) (p : String) :
    showsNs (some (envelopedNodeSet sigNode doc input)) id p = showsNs input id p := by
  rw [showsNs, Option.all_some, envelopedNodeSet, isNsVisible_removeSubtree, isNsVisible_getD_all]

/-- Evaluation at the tree nodes and the document node. -/
theorem nodes_enveloped_iff {nsUri : String} :
    ((∀ n ∈ doc.descendants, ((envelopedNodeSet sigNode doc input).containsId n.key = true
        ↔ isVisible input n.key = true ∧ ¬ UnderNamed nsUri "Signature" n))
      ∧ ((envelopedNodeSet sigNode doc input).containsId doc.root = true
        ↔ isVisible input doc.root = true ∧ True))
    ↔ ∀ id ∈ doc.ids, ((envelopedNodeSet sigNode doc input).containsId id = true
        ↔ isVisible input id = true ∧ ¬ ∃ s ∈ doc.descendants,
            s.isNamed nsUri "Signature" = true ∧ id ∈ s.subtreeKeys) := by
  have hroot : ¬ ∃ s ∈ doc.descendants, s.isNamed nsUri "Signature" = true
      ∧ doc.root ∈ s.subtreeKeys := by
    rintro ⟨s, hs, _, hk⟩
    exact doc.root_not_mem (Forest.subtreeKeys_subset hs hk)
  constructor
  · rintro ⟨hn, hr⟩ id hid
    rcases List.mem_cons.mp hid with rfl | hid
    · simpa [hroot] using hr
    · rw [← Forest.cursors_keys [] doc.top, List.mem_map] at hid
      obtain ⟨n, hmem, rfl⟩ := hid
      rw [← underNamed_iff hmem]
      exact hn n hmem
  · intro h
    refine ⟨?_, ?_⟩
    · intro n hn
      rw [underNamed_iff hn]
      exact h n.key (List.mem_cons_of_mem _ (Document.mem_descendants_key hn))
    · have := h doc.root List.mem_cons_self
      simpa [hroot] using this

/-- **The shortcut is exact when there is one Signature subtree.** -/
theorem selectsWhere_enveloped_iff {nsUri : String} :
    SelectsWhere doc input (fun n => ¬ UnderNamed nsUri "Signature" n) True
        (envelopedNodeSet sigNode doc input)
      ↔ OneSignatureSubtree doc input nsUri sigNode := by
  constructor
  · intro h
    -- each part is read off at the nodes of a Signature, or below the given one
    have hids := nodes_enveloped_iff.mp ⟨h.nodes, h.root⟩
    refine ⟨?_, ?_, ?_, ?_⟩
    · intro hinv s hs hname id hk hv
      have hid : id ∈ doc.ids := List.mem_cons_of_mem _ (Forest.subtreeKeys_subset hs hk)
      have hiff := hids id hid
      rw [containsId_envelopedNodeSet hinv hid, hv, Bool.true_and, decide_eq_true_iff] at hiff
      by_contra hnot
      exact (hiff.mp hnot).2 ⟨s, hs, hname, hk⟩
    · intro hinv id hid hbelow hv
      have hiff := hids id hid
      rw [containsId_envelopedNodeSet hinv hid, hv, Bool.true_and, decide_eq_true_iff] at hiff
      by_contra hnone
      exact hiff.mpr ⟨rfl, hnone⟩ hbelow
    · intro hinv
      refine ⟨?_, ?_⟩
      · intro s hs hname id hk
        have hid : id ∈ doc.ids := List.mem_cons_of_mem _ (Forest.subtreeKeys_subset hs hk)
        have hiff := hids id hid
        rw [containsId_envelopedNodeSet_inverted hinv] at hiff
        cases hv : isVisible input id with
        | false => rfl
        | true =>
            rw [hv, Bool.true_or] at hiff
            exact absurd ⟨s, hs, hname, hk⟩ (hiff.mp rfl).2
      · intro id hid hbelow
        have hiff := hids id hid
        rw [containsId_envelopedNodeSet_inverted hinv, decide_eq_true hbelow, Bool.or_true] at hiff
        exact (hiff.mp rfl).1
    · intro hf s hs hname n hn hk p hp
      have hiff := h.namespaces n hn p hp
      rw [containsNsNode, containsNsNode, hasNsFilter_enveloped, hf, if_pos rfl, if_pos rfl,
        showsNs_enveloped] at hiff
      cases hshow : showsNs input n.key p with
      | false => rfl
      | true => exact absurd ((underNamed_iff hn).mpr ⟨s, hs, hname, hk⟩) (hiff.mp hshow).2
  · intro h
    have hids : ∀ id ∈ doc.ids, ((envelopedNodeSet sigNode doc input).containsId id = true
        ↔ isVisible input id = true ∧ ¬ ∃ s ∈ doc.descendants,
            s.isNamed nsUri "Signature" = true ∧ id ∈ s.subtreeKeys) := by
      intro id hid
      -- an inverted set shows what was removed
      by_cases hinv : Inverted input
      · obtain ⟨hnone, hall⟩ := h.inverted hinv
        rw [containsId_envelopedNodeSet_inverted hinv, Bool.or_eq_true, decide_eq_true_iff]
        constructor
        · intro hc
          have hv : isVisible input id = true := hc.elim (fun hv => hv) (hall id hid)
          refine ⟨hv, ?_⟩
          rintro ⟨s, hs, hname, hk⟩
          rw [hnone s hs hname id hk] at hv
          exact absurd hv (by simp)
        · rintro ⟨hv, _⟩
          exact Or.inl hv
      · rw [containsId_envelopedNodeSet hinv hid, Bool.and_eq_true, decide_eq_true_iff]
        refine and_congr_right (fun hv => not_congr ⟨?_, ?_⟩)
        · intro hbelow
          exact h.only hinv id hid hbelow hv
        · rintro ⟨s, hs, hname, hk⟩
          exact h.removed hinv s hs hname id hk hv
    obtain ⟨hnodes, hroot⟩ := nodes_enveloped_iff.mpr hids
    refine ⟨hnodes, hroot, ?_, ?_⟩
    · intro n hn p hp
      rw [containsNsNode, containsNsNode, hasNsFilter_enveloped]
      by_cases hf : hasNsFilter input = true
      · rw [if_pos hf, if_pos hf, showsNs_enveloped]
        refine ⟨fun hshow => ⟨hshow, ?_⟩, fun hb => hb.1⟩
        intro hunder
        obtain ⟨s, hs, hname, hk⟩ := (underNamed_iff hn).mp hunder
        rw [h.namespaces hf s hs hname n hn hk p hp] at hshow
        exact absurd hshow (by simp)
      · rw [if_neg hf, if_neg hf]
        exact hnodes n hn
    · rw [envelopedNodeSet, excludesAttrs_removeSubtree, excludesAttrs_getD_all]

end

/-! ## The transform -/

/-- A prefix that the test finds declared has a nearest declaration. -/
theorem resolveNsPrefix_of_declaresDsig {xpathNode : Node} {pfx : List Char}
    (h : declaresDsig xpathNode pfx = true) : ∃ uri, resolveNsPrefix xpathNode pfx = some uri := by
  rw [declaresDsig, List.any_eq_true] at h
  obtain ⟨a, ha, hdecl⟩ := h
  rw [List.any_eq_true] at hdecl
  obtain ⟨d, hd, hpfx⟩ := hdecl
  rw [Bool.and_eq_true, beq_iff_eq, beq_iff_eq] at hpfx
  rw [← Option.isSome_iff_exists, resolveNsPrefix, List.findSome?_isSome_iff]
  refine ⟨a, ha, ?_⟩
  rw [List.findSome?_isSome_iff]
  exact ⟨d, hd, by rw [if_pos hpfx.1]; rfl⟩

/-- What `is_enveloped_xpath` accepts names a prefix that is declared. -/
theorem declaresDsig_of_isEnvelopedXPath {expr : List Char} {xpathNode : Node}
    (h : isEnvelopedXPath expr xpathNode = .ok true) :
    declaresDsig xpathNode (envelopedPrefix expr) = true := by
  unfold isEnvelopedXPath at h
  dsimp only at h
  split at h
  · simp at h
  · split at h
    · simp at h
    · rw [Except.ok.injEq] at h
      exact h

theorem applyXPathTransform_enveloped {lib : TransformLibs} {xmlText : String} {doc : Document}
    {input : Option NodeSet} {transformNode xpathNode : Node} {sigNode : NodeId}
    (hdoc : lib.parse xmlText = .ok doc) (hx : xpathChild? transformNode = some xpathNode)
    (h : isEnvelopedXPath (xpathExprOf xpathNode) xpathNode = .ok true) :
    applyXPathTransform lib (.xml xmlText input) transformNode sigNode
      = .ok (.xml xmlText (some (envelopedNodeSet sigNode doc input))) := by
  have hclass : classifyXPath (xpathExprOf xpathNode) xpathNode = .ok .enveloped := by
    unfold classifyXPath
    rw [h]
    rfl
  refine applyXPathTransform_ok.mpr ⟨xpathNode, .enveloped, hx, hclass, ?_⟩
  exact EnvelopedSignatureTransform.execute_xml hdoc sigNode input

/-- **When the shortcut is the expression**: exactly when the Signature subtrees are one. -/
theorem enveloped_shortcut_iff {lib : TransformLibs} {xmlText : String} {doc : Document}
    {input : Option NodeSet} {transformNode xpathNode : Node} {sigNode : NodeId}
    (hdoc : lib.parse xmlText = .ok doc) (hx : xpathChild? transformNode = some xpathNode)
    (hacc : isEnvelopedXPath (xpathExprOf xpathNode) xpathNode = .ok true) :
    ∃ nsUri r, resolveNsPrefix xpathNode (envelopedPrefix (xpathExprOf xpathNode)) = some nsUri
      ∧ applyXPathTransform lib (.xml xmlText input) transformNode sigNode
        = .ok (.xml xmlText (some r))
      ∧ (SelectsWhere doc input (fun n => ¬ UnderNamed nsUri "Signature" n) True r
        ↔ OneSignatureSubtree doc input nsUri sigNode) := by
  obtain ⟨nsUri, huri⟩ := resolveNsPrefix_of_declaresDsig (declaresDsig_of_isEnvelopedXPath hacc)
  exact ⟨nsUri, _, huri, applyXPathTransform_enveloped hdoc hx hacc, selectsWhere_enveloped_iff⟩

/-! ## Two Signatures -/

/-- `<XPath xmlns:ds="…">not(ancestor-or-self::ds:Signature)</XPath>`. -/
def sampleEnvelopedXPath : Node :=
  ⟨11, [(10, Sample.element "Transform" [])],
    .node ⟨⟨none, "XPath", some Ns.DSIG⟩, [], [("ds", Ns.DSIG)]⟩
      (.leaf 12 (.text "not(ancestor-or-self::ds:Signature)") .nil)⟩

/-- The transform element around it. -/
def sampleEnvelopedTransform : Node :=
  ⟨10, [], .node (Sample.element "Transform" [])
    (.node 11 ⟨⟨none, "XPath", some Ns.DSIG⟩, [], [("ds", Ns.DSIG)]⟩
      (.leaf 12 (.text "not(ancestor-or-self::ds:Signature)") .nil) .nil)⟩

/-- `<doc><Signature/><Signature/></doc>`, with both in the signature namespace. -/
def sampleTwoSignatures : Document where
  root := 0
  top := .node 1 ⟨⟨none, "doc", none⟩, [], []⟩
    (.node 2 (Sample.element "Signature" []) .nil
      (.node 3 (Sample.element "Signature" []) .nil .nil)) .nil
  nodup := by
    show [0, 1, 2, 3].Nodup
    decide

def sampleTwoSignaturesLibs : TransformLibs := .ofParser (fun _ => .ok sampleTwoSignatures)

theorem isEnvelopedXPath_sample :
    isEnvelopedXPath (xpathExprOf sampleEnvelopedXPath) sampleEnvelopedXPath = .ok true := rfl

theorem enveloped_shortcut_iff_sample :
    sampleTwoSignaturesLibs.parse "" = .ok sampleTwoSignatures
      ∧ xpathChild? sampleEnvelopedTransform = some sampleEnvelopedXPath
      ∧ isEnvelopedXPath (xpathExprOf sampleEnvelopedXPath) sampleEnvelopedXPath = .ok true
      ∧ ∃ nsUri r, resolveNsPrefix sampleEnvelopedXPath
            (envelopedPrefix (xpathExprOf sampleEnvelopedXPath)) = some nsUri
        ∧ applyXPathTransform sampleTwoSignaturesLibs (.xml "" none) sampleEnvelopedTransform 2
          = .ok (.xml "" (some r))
        ∧ (SelectsWhere sampleTwoSignatures none
            (fun n => ¬ UnderNamed nsUri "Signature" n) True r
          ↔ OneSignatureSubtree sampleTwoSignatures none nsUri 2) :=
  ⟨rfl, rfl, isEnvelopedXPath_sample, enveloped_shortcut_iff rfl rfl isEnvelopedXPath_sample⟩

/-- The shortcut always leaves the nodes at which the expression is true. -/
def EnvelopedShortcutExact : Prop :=
  ∀ (lib : TransformLibs) (xmlText : String) (doc : Document) (input : Option NodeSet)
    (transformNode xpathNode : Node) (sigNode : NodeId) (nsUri : String),
    lib.parse xmlText = .ok doc → xpathChild? transformNode = some xpathNode →
    isEnvelopedXPath (xpathExprOf xpathNode) xpathNode = .ok true →
    resolveNsPrefix xpathNode (envelopedPrefix (xpathExprOf xpathNode)) = some nsUri →
    ∃ r, applyXPathTransform lib (.xml xmlText input) transformNode sigNode
        = .ok (.xml xmlText (some r))
      ∧ SelectsWhere doc input (fun n => ¬ UnderNamed nsUri "Signature" n) True r

/-- Of two Signatures, the one that is not processed stays. -/
theorem second_signature_kept : ¬ EnvelopedShortcutExact := by
  intro h
  obtain ⟨r, hr, hsel⟩ := h sampleTwoSignaturesLibs "" sampleTwoSignatures none
    sampleEnvelopedTransform sampleEnvelopedXPath 2 Ns.DSIG rfl rfl isEnvelopedXPath_sample rfl
  rw [applyXPathTransform_enveloped
    (show sampleTwoSignaturesLibs.parse "" = .ok sampleTwoSignatures from rfl)
    (show xpathChild? sampleEnvelopedTransform = some sampleEnvelopedXPath from rfl)
    isEnvelopedXPath_sample] at hr
  simp only [Except.ok.injEq, TransformData.xml.injEq, Option.some.injEq, true_and] at hr
  subst hr
  let second : Node := ⟨3, [(1, ⟨⟨none, "doc", none⟩, [], []⟩)],
    .node (Sample.element "Signature" []) .nil⟩
  have hmem : second ∈ sampleTwoSignatures.descendants := by decide
  have hkept : (envelopedNodeSet 2 sampleTwoSignatures none).containsId second.key = true := by
    decide
  exact ((hsel.nodes second hmem).mp hkept).2 rfl

end Bergshamra
