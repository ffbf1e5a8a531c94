import Bergshamra.Proof.WrittenTree
import Bergshamra.Proof.XmlAttributes

/-!
# No node set, and the set of all nodes

With a node set the canonicalizers take paths they skip without one. When every
node is in the set these paths change nothing: the parent of an element shows, or
the element stands at the top, where there are no ancestors to inherit `xml:*`
attributes from and `xml:base` is absolutized to the value it already has.
-/

namespace Bergshamra

namespace Inclusive

/-! ## `xml:base` at the top -/

/-- Giving the first `xml:base` the value it has. -/
theorem replaceXmlBase_self {as : List Attr} {a : Attr} (h : as.find? isXmlBase = some a) :
    replaceXmlBase a.value as = as := by
  induction as with
  | nil => rfl
  | cons b as ih =>
      rw [replaceXmlBase]
      rw [List.find?_cons] at h
      cases hb : isXmlBase b with
      | true =>
          rw [hb] at h
          rw [if_pos rfl, ← Option.some.inj h]
      | false =>
          rw [hb] at h
          rw [if_neg (by simp), ih h]

/-- Without ancestors the absolute base is the element's own. -/
theorem absolutizeBase_top (e : Element) :
    absolutizeBase (computeAbsoluteBaseUri [e]) (sortAttrs (e.attributes.map attrOf))
      = sortAttrs (e.attributes.map attrOf) := by
  have hval : ((sortAttrs (e.attributes.map attrOf)).find? isXmlBase).map Attr.value
      = xmlBase? e := by
    rw [isXmlBase_eq, find?_own, Option.map_map]
    exact Option.map_id_apply
  cases hf : (sortAttrs (e.attributes.map attrOf)).find? isXmlBase with
  | none =>
      rw [hf, Option.map_none] at hval
      have hbase : computeAbsoluteBaseUri [e] = [] := by
        simp [computeAbsoluteBaseUri, ← hval]
      rw [hbase]
      rfl
  | some a =>
      rw [hf, Option.map_some] at hval
      have hbase : computeAbsoluteBaseUri [e] = a.value.toList := by
        simp [computeAbsoluteBaseUri, ← hval]
      have hany : (sortAttrs (e.attributes.map attrOf)).any isXmlBase = true := by
        rw [isXmlBase_eq, any_isXmlNamed, ← isXmlBase_eq, hf]
        rfl
      unfold absolutizeBase
      by_cases hempty : (computeAbsoluteBaseUri [e]).isEmpty = true
      · rw [if_pos hempty]
      · rw [if_neg hempty, if_pos hany, hbase, String.ofList_toList, replaceXmlBase_self hf]

/-! ## The attributes, with every node in the set -/

/-- With every ancestor in the set an element writes its own attributes, as without a set. -/
theorem attrsToRender_whole (withComments c14n11Mode : Bool) {s : NodeSet}
    (hex : s.excludesAttrs = false) {path : List (NodeId × Element)}
    (hp : ∀ x ∈ path, s.containsId x.1 = true) (e : Element) :
    attrsToRender ⟨withComments, some s, c14n11Mode⟩ path e
      = attrsToRender ⟨withComments, none, c14n11Mode⟩ path e := by
  simp only [attrsToRender, Option.any_some, hex, Option.any_none, Option.isSome_some,
    Option.isSome_none, Bool.not_false, Bool.and_true, Bool.true_and, Bool.false_eq_true,
    if_false, Bool.false_and]
  cases path with
  | nil =>
      -- a top element has no ancestors to inherit from
      have hnone : collectInheritedXmlAttrs []
          (sortAttrs (e.attributes.map attrOf)) = [] := by
        simp [collectInheritedXmlAttrs, inheritedXml]
      rw [parentNotVisible, if_pos rfl, List.map_nil, hnone, List.append_nil,
        absolutizeBase_top]
      simp
  | cons x path =>
      have hx : isVisible (some s) x.1 = true := hp x (by simp)
      rw [parentNotVisible, hx, if_neg (by simp)]

end Inclusive

/-- The two chains of a node are one chain of nodes in the set. -/
theorem pairedPath_self {In : NodeId → Prop} {path path' : List (NodeId × Element)}
    (h : Forest.PairedPath (fun i (e e' : Element) => e = e' ∧ In i) path path') :
    path = path' ∧ ∀ x ∈ path, In x.1 := by
  induction h with
  | nil => exact ⟨rfl, by simp⟩
  | cons hx _ ih =>
      rename_i x x' path path'
      obtain ⟨hk, he, hi⟩ := hx
      refine ⟨by rw [Prod.ext hk he, ih.1], ?_⟩
      intro y hy
      rcases List.mem_cons.mp hy with hy | hy
      · exact hy ▸ hi
      · exact ih.2 y hy

section Whole

variable {s : NodeSet} (hns : s.hasNsVisible = false)

include hns

theorem visibleNamespaces_whole (id : NodeId) (current : NsMap) :
    visibleNamespaces (some s) id current = current :=
  visibleNamespaces_of_not_filter (show hasNsFilter (some s) = false from hns) id current

theorem Inclusive.inheritedAt_whole (withComments c14n11Mode : Bool)
    {path : List (NodeId × Element)} (hp : ∀ x ∈ path, s.containsId x.1 = true) :
    inheritedAt ⟨withComments, some s, c14n11Mode⟩ path
      = inheritedAt ⟨withComments, none, c14n11Mode⟩ path := by
  induction path with
  | nil => rfl
  | cons x path ih =>
      obtain ⟨i, e⟩ := x
      have hx : isVisible (some s) i = true := hp (i, e) (by simp)
      have hf : hasNsFilter (some s) = false := hns
      rw [inheritedAt, inheritedAt, ih (fun y hy => hp y (by simp [hy])), if_pos hx,
        if_pos (isVisible_none i), hf, visibleNs, visibleNamespaces_whole hns]
      rfl

theorem Exclusive.renderedAt_whole (withComments : Bool) (inclusivePrefixes : List String)
    {path : List (NodeId × Element)} (hp : ∀ x ∈ path, s.containsId x.1 = true) :
    renderedAt ⟨withComments, some s, inclusivePrefixes⟩ path
      = renderedAt ⟨withComments, none, inclusivePrefixes⟩ path := by
  induction path with
  | nil => rfl
  | cons x path ih =>
      obtain ⟨i, e⟩ := x
      have hx : isVisible (some s) i = true := hp (i, e) (by simp)
      have hf : hasNsFilter (some s) = false := hns
      rw [renderedAt, renderedAt, ih (fun y hy => hp y (by simp [hy])), if_pos hx,
        if_pos (isVisible_none i), hf, visibleNs, visibleNamespaces_whole hns]
      rfl

/-- **A set that holds every node is no set.** -/
theorem writtenTree_whole (doc : Document) (mode : C14nMode) (inclusivePrefixes : List String)
    (hex : s.excludesAttrs = false) (hall : ∀ i ∈ doc.top.keys, s.containsId i = true) :
    writtenTree doc mode none inclusivePrefixes
      = writtenTree doc mode (some s) inclusivePrefixes := by
  -- the document is walked along itself, with every node in the set
  have hpaired : Forest.Paired
      (fun i (e e' : Element) => e = e' ∧ s.containsId i = true)
      (fun i => s.containsId i = true) doc.top doc.top := by
    have := Forest.Paired.map (P := fun i (e e' : Element) => e = e' ∧ s.containsId i = true)
      (Q := fun i => s.containsId i = true) id (f := doc.top) []
      (fun c hc _ _ _ => ⟨rfl, hall c.key (Forest.mem_cursors_key hc)⟩) hall
    rwa [Forest.mapLabels_id] at this
  have hf : hasNsFilter (some s) = false := hns
  unfold writtenTree writerOf
  by_cases hx : mode.isExclusive = true
  · rw [if_pos hx, if_pos hx]
    refine Forest.Writer.write_congr (fun i e e' h => h.2.symm) ?_ ?_ ?_ hpaired .nil false
    · intro path path' i e e' hp h _
      obtain ⟨rfl, hin⟩ := pairedPath_self hp
      obtain ⟨rfl, _⟩ := h
      simp only [Exclusive.writer, Exclusive.renderedAt_whole hns _ _ hin, Exclusive.visibleNs,
        visibleNamespaces_whole hns]
      rfl
    · intro path path' i e e' _ h hk
      exact absurd hk (by simp [Exclusive.writer, isVisible_none])
    · intro top preceding following i k hi
      have hv : isVisible (some s) i = true := hi
      simp only [Exclusive.writer, hv, isVisible_none]
  · rw [if_neg hx, if_neg hx]
    refine Forest.Writer.write_congr (fun i e e' h => h.2.symm) ?_ ?_ ?_ hpaired .nil false
    · intro path path' i e e' hp h _
      obtain ⟨rfl, hin⟩ := pairedPath_self hp
      obtain ⟨rfl, _⟩ := h
      simp only [Inclusive.writer, Inclusive.inheritedAt_whole hns _ _ hin, Inclusive.visibleNs,
        visibleNamespaces_whole hns, Inclusive.attrsToRender_whole _ _ hex hin, hf]
      rfl
    · intro path path' i e e' _ h hk
      exact absurd hk (by simp [Inclusive.writer, isVisible_none])
    · intro top preceding following i k hi
      have hv : isVisible (some s) i = true := hi
      simp only [Inclusive.writer, hv, isVisible_none]

end Whole

/-- **The whole document and the set of all its nodes have one canonical form**, in every mode. -/
theorem canonicalizeDoc_all (doc : Document) (mode : C14nMode) (inclusivePrefixes : List String) :
    canonicalizeDoc doc mode none inclusivePrefixes
      = canonicalizeDoc doc mode (some (NodeSet.all doc)) inclusivePrefixes := by
  refine canonicalizeDoc_eq_of_tree (writtenTree_whole rfl doc mode inclusivePrefixes rfl ?_)
  intro i hi
  simp [NodeSet.all, hi]

end Bergshamra
