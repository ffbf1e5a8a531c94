import Bergshamra.Proof.WrittenTree
import Bergshamra.Proof.XmlAttributes

/-!
# The order of attributes and declarations

A parser hands out the attributes and the namespace declarations of a start tag
in the order they were written. The canonicalizers read them in four ways: into a
map from prefix to URI, by searching for one `xml:*` attribute, by gathering
prefixes, and by listing the attributes to be sorted. In a well-formed start tag
no prefix is declared twice and no two attributes have one name, and then none of
the four sees the order.
-/

namespace Bergshamra

/-- Two start tags that differ in the order of attributes and declarations only. -/
structure Element.Reordered (e e' : Element) : Prop where
  name : e.name = e'.name
  attributes : e.attributes.Perm e'.attributes
  declarations : e.namespaceDeclarations.Perm e'.namespaceDeclarations

/-- No two attributes have one name, and no prefix is declared twice. -/
structure Element.UniqueNames (e : Element) : Prop where
  attributes : (e.attributes.map (fun a => (a.name.uri, a.name.localName))).Nodup
  declarations : (e.namespaceDeclarations.map Prod.fst).Nodup

/-- The two start tags of an element, and the first has unique names. -/
def SameTag (_ : NodeId) (e e' : Element) : Prop := e.Reordered e' ∧ e.UniqueNames

namespace Element.UniqueNames

variable {e : Element}

theorem attribute_eq (h : e.UniqueNames) {a b : Attribute} (ha : a ∈ e.attributes)
    (hb : b ∈ e.attributes) (hu : a.name.uri = b.name.uri)
    (hl : a.name.localName = b.name.localName) : a = b :=
  List.inj_on_of_nodup_map h.attributes ha hb (by rw [hu, hl])

theorem declaration_eq (h : e.UniqueNames) {d d' : String × String}
    (hd : d ∈ e.namespaceDeclarations) (hd' : d' ∈ e.namespaceDeclarations) (hp : d.1 = d'.1) :
    d = d' := List.inj_on_of_nodup_map h.declarations hd hd' hp

end Element.UniqueNames

/-! ## Namespaces -/

theorem insert_comm (m : NsMap) {d d' : String × String} (h : d.1 = d'.1 → d = d') :
    (m.insert d.1 d.2).insert d'.1 d'.2 = (m.insert d'.1 d'.2).insert d.1 d.2 := by
  by_cases hp : d.1 = d'.1
  · rw [h hp]
  · apply Std.ExtTreeMap.ext_getElem?
    intro q
    by_cases hq : q = d'.1
    · rw [hq, OrdMap.getElem?_insert_ne _ _ (Ne.symm hp)]
      simp
    · by_cases hq' : q = d.1
      · rw [hq', OrdMap.getElem?_insert_ne _ _ hp]
        simp
      · rw [OrdMap.getElem?_insert_ne _ _ hq, OrdMap.getElem?_insert_ne _ _ hq',
          OrdMap.getElem?_insert_ne _ _ hq', OrdMap.getElem?_insert_ne _ _ hq]

theorem nsLevel_reordered {e e' : Element} (h : e.Reordered e') (hu : e.UniqueNames) :
    nsLevel e = nsLevel e' := by
  refine h.declarations.foldl_eq' ?_ ∅
  intro d hd d' hd' m
  exact insert_comm m (fun hp => hu.declaration_eq hd hd' hp)

/-- The elements of two chains, one beside the other. -/
abbrev SameTags (chain chain' : List Element) : Prop :=
  List.Forall₂ (fun e e' => e.Reordered e' ∧ e.UniqueNames) chain chain'

theorem sameTags_of_path {path path' : List (NodeId × Element)}
    (hp : Forest.PairedPath SameTag path path') :
    SameTags (path.map Prod.snd) (path'.map Prod.snd) := by
  induction hp with
  | nil => exact .nil
  | cons hx _ ih => exact .cons hx.2 ih

theorem levels_reordered {path path' : List (NodeId × Element)}
    (hp : Forest.PairedPath SameTag path path') : levels path = levels path' := by
  induction hp with
  | nil => rfl
  | cons hx _ ih =>
      simp only [levels, List.map_cons]
      rw [hx.1, nsLevel_reordered hx.2.1 hx.2.2]
      exact congrArg _ ih

/-! ## One attribute -/

theorem xmlAttr?_reordered {e e' : Element} (h : e.Reordered e') (hu : e.UniqueNames)
    (name : String) : e.xmlAttr? name = e'.xmlAttr? name := by
  unfold Element.xmlAttr?
  rw [List.find?_eq_of_perm h.attributes]
  intro a ha b hb hpa hpb
  simp only [Bool.and_eq_true, beq_iff_eq] at hpa hpb
  refine hu.attribute_eq ha hb ?_ (hpa.2.trans hpb.2.symm)
  rw [QName.uri, QName.uri, hpa.1, hpb.1]

namespace Inclusive

theorem inheritedXml_reordered {chain chain' : List Element} (h : SameTags chain chain') :
    inheritedXml chain = inheritedXml chain' := by
  apply Std.ExtTreeMap.ext_getElem?
  intro name
  rw [getElem?_inheritedXml, getElem?_inheritedXml]
  induction h with
  | nil => rfl
  | cons he _ ih =>
      rw [List.findSome?_cons, List.findSome?_cons, ih, xmlAttr?_reordered he.1 he.2]

theorem computeAbsoluteBaseUri_reordered {chain chain' : List Element}
    (h : SameTags chain chain') :
    computeAbsoluteBaseUri chain = computeAbsoluteBaseUri chain' := by
  have hmap : chain.map xmlBase? = chain'.map xmlBase? := by
    induction h with
    | nil => rfl
    | cons he _ ih =>
        rw [List.map_cons, List.map_cons, ih, xmlBase?_eq, xmlBase?_eq,
          xmlAttr?_reordered he.1 he.2]
  have hbases : ∀ chain : List Element,
      chain.reverse.filterMap xmlBase? = (chain.map xmlBase?).reverse.filterMap id := by
    intro chain
    rw [← List.map_reverse, List.filterMap_map]
    rfl
  unfold computeAbsoluteBaseUri
  rw [hbases, hbases, hmap]

/-! ## The attributes as written -/

theorem own_reordered {e e' : Element} (h : e.Reordered e') (hu : e.UniqueNames) :
    sortAttrs (e.attributes.map attrOf) = sortAttrs (e'.attributes.map attrOf) := by
  refine sortAttrs_eq_of_perm (h.attributes.map attrOf) ?_
  intro x hx y hy hn hl
  obtain ⟨a, ha, rfl⟩ := List.mem_map.mp hx
  obtain ⟨b, hb, rfl⟩ := List.mem_map.mp hy
  rw [hu.attribute_eq ha hb hn hl]

/-- What is merged into the sorted attributes is the same, so nothing more is asked of it. -/
theorem attrsToRender_reordered (ctx : C14nContext) {path path' : List (NodeId × Element)}
    (hp : Forest.PairedPath SameTag path path') {e e' : Element} (h : e.Reordered e')
    (hu : e.UniqueNames) : attrsToRender ctx path e = attrsToRender ctx path' e' := by
  have hchain := sameTags_of_path hp
  have hself : SameTags (e :: path.map Prod.snd) (e' :: path'.map Prod.snd) :=
    .cons ⟨h, hu⟩ hchain
  have hown : sortAttrs (if ctx.nodeSet.any NodeSet.excludesAttrs then []
        else e.attributes.map attrOf)
      = sortAttrs (if ctx.nodeSet.any NodeSet.excludesAttrs then []
        else e'.attributes.map attrOf) := by
    split
    · rfl
    · exact own_reordered h hu
  have hparent : parentNotVisible ctx.nodeSet path = parentNotVisible ctx.nodeSet path' := by
    cases hp with
    | nil => rfl
    | cons hx _ => simp [parentNotVisible, hx.1]
  simp only [attrsToRender, hown, hparent, collectInheritedXmlAttrs,
    inheritedXml_reordered hchain, computeAbsoluteBaseUri_reordered hself]

end Inclusive

namespace Exclusive

theorem utilizedPrefixes_reordered (ps : List String) {e e' : Element} (h : e.Reordered e') :
    (utilizedPrefixes ps e).Perm (utilizedPrefixes ps e') := by
  unfold utilizedPrefixes getElementPrefix
  rw [h.name]
  refine List.Perm.dedup (List.Perm.append_right _ (List.Perm.cons _ ?_))
  exact (h.attributes.filterMap getAttrPrefix).filter _

theorem pfx_of_nsDeclFor {rendered ns : NsMap} {p : String} {d : NsDecl}
    (h : nsDeclFor rendered ns p = some d) : d.pfx = p := by
  unfold nsDeclFor at h
  split at h
  · simp at h
  · split at h
    · split at h
      · simp at h
      · rw [← Option.some.inj h]
    · split at h
      · rename_i hp
        rw [← Option.some.inj h]
        simp only [Bool.and_eq_true, String.isEmpty_iff] at hp
        exact hp.1.symm
      · simp at h

/-- The declarations do not depend on the order in which the prefixes were gathered. -/
theorem nsDecls_perm (rendered ns : NsMap) {us us' : List String} (hp : us.Perm us') :
    nsDecls rendered ns us = nsDecls rendered ns us' := by
  refine sortNsDecls_eq_of_perm (hp.filterMap _) ?_
  intro d hd d' hd' hpfx
  obtain ⟨p, _, hd⟩ := List.mem_filterMap.mp hd
  obtain ⟨p', _, hd'⟩ := List.mem_filterMap.mp hd'
  have hpp : p = p' := by rw [← pfx_of_nsDeclFor hd, ← pfx_of_nsDeclFor hd', hpfx]
  subst hpp
  exact Option.some.inj (hd.symm.trans hd')

theorem erase_comm (m : NsMap) (p q : String) : (m.erase p).erase q = (m.erase q).erase p := by
  apply Std.ExtTreeMap.ext_getElem?
  intro r
  simp only [Std.ExtTreeMap.getElem?_erase]
  split <;> split <;> rfl

theorem childRendered_perm (filtered : Bool) (rendered ns : NsMap) {us us' : List String}
    (hp : us.Perm us') :
    childRendered filtered rendered ns us = childRendered filtered rendered ns us' := by
  unfold childRendered
  rw [nsDecls_perm rendered ns hp]
  cases filtered with
  | false => rfl
  | true =>
      refine hp.foldl_eq' ?_ _
      intro p _ q _ m
      split <;> split <;> first | rfl | exact erase_comm m p q

theorem renderedAt_reordered (ctx : ExcC14nContext) {path path' : List (NodeId × Element)}
    (hp : Forest.PairedPath SameTag path path') : renderedAt ctx path = renderedAt ctx path' := by
  induction hp with
  | nil => rfl
  | cons hx htail ih =>
      rename_i x x' path path'
      obtain ⟨i, e⟩ := x
      obtain ⟨i', e'⟩ := x'
      obtain ⟨hi, h⟩ := hx
      have hi : i = i' := hi
      subst hi
      rw [renderedAt, renderedAt, ih,
        visibleNs_levels ctx i (levels_reordered htail) (nsLevel_reordered h.1 h.2),
        childRendered_perm _ _ _ (utilizedPrefixes_reordered ctx.inclusivePrefixes h.1)]

theorem attrsToRender_reordered {e e' : Element} (h : e.Reordered e') (hu : e.UniqueNames) :
    attrsToRender e = attrsToRender e' := by
  refine sortAttrs_eq_of_perm (h.attributes.map attrOf) ?_
  intro x hx y hy hn hl
  obtain ⟨a, ha, rfl⟩ := List.mem_map.mp hx
  obtain ⟨b, hb, rfl⟩ := List.mem_map.mp hy
  rw [hu.attribute_eq ha hb hn hl]

end Exclusive

/-! ## The tree -/

theorem writtenTree_reordered {doc doc' : Document} (mode : C14nMode) (s : Option NodeSet)
    (ps : List String) (h : Forest.Paired SameTag (fun _ => True) doc.top doc'.top) :
    writtenTree doc mode s ps = writtenTree doc' mode s ps := by
  unfold writtenTree writerOf
  by_cases hx : mode.isExclusive = true
  · rw [if_pos hx]
    refine Forest.Writer.write_congr (fun _ _ _ _ => rfl) ?_ ?_ (fun _ _ _ _ _ _ => rfl) h .nil
      false
    · intro path path' i e e' hp he _
      have hname : qualifiedElementName e = qualifiedElementName e' := by
        unfold qualifiedElementName
        rw [he.1.name]
      simp only [Exclusive.writer, hname, Exclusive.renderedAt_reordered _ hp,
        Exclusive.visibleNs_levels _ i (levels_reordered hp) (nsLevel_reordered he.1 he.2),
        Exclusive.attrsToRender_reordered he.1 he.2, Exclusive.nsDecls_perm _ _
          (Exclusive.utilizedPrefixes_reordered ps he.1)]
    · intro path path' i e e' hp he _
      simp only [Exclusive.writer, Exclusive.renderedAt_reordered _ hp,
        Exclusive.visibleNs_levels _ i (levels_reordered hp) (nsLevel_reordered he.1 he.2)]
  · rw [if_neg hx]
    refine Forest.Writer.write_congr (fun _ _ _ _ => rfl) ?_ ?_ (fun _ _ _ _ _ _ => rfl) h .nil
      false
    · intro path path' i e e' hp he _
      have hname : qualifiedElementName e = qualifiedElementName e' := by
        unfold qualifiedElementName
        rw [he.1.name]
      simp only [Inclusive.writer, hname, Inclusive.inheritedAt_levels _ (levels_reordered hp),
        Inclusive.visibleNs_levels _ i (levels_reordered hp) (nsLevel_reordered he.1 he.2),
        Inclusive.attrsToRender_reordered _ hp he.1 he.2]
    · intro path path' i e e' hp he _
      simp only [Inclusive.writer, Inclusive.inheritedAt_levels _ (levels_reordered hp),
        Inclusive.visibleNs_levels _ i (levels_reordered hp) (nsLevel_reordered he.1 he.2)]

/-! ## The order of what is written -/

/-- By prefix, the default declaration first. -/
def DeclsInOrder (ds : List NsDecl) : Prop :=
  ds.Pairwise (fun a b => a.pfx = "" ∨ (b.pfx ≠ "" ∧ a.pfx ≤ b.pfx))

/-- Un-namespaced ones first by local name, then by (URI, local name). -/
def AttrsInOrder (as : List Attr) : Prop :=
  as.Pairwise (fun a b =>
    (a.nsUri = "" ∧ (b.nsUri ≠ "" ∨ a.localName ≤ b.localName))
    ∨ (a.nsUri ≠ "" ∧ b.nsUri ≠ ""
      ∧ (a.nsUri < b.nsUri ∨ (a.nsUri = b.nsUri ∧ a.localName ≤ b.localName))))

theorem declsInOrder_sort (ds : List NsDecl) : DeclsInOrder (sortNsDecls ds) := by
  refine (sorted_sortNsDecls ds).imp ?_
  intro a b h
  by_cases ha : a.pfx = ""
  · exact .inl ha
  · refine .inr ⟨?_, h⟩
    intro hb
    rw [hb] at h
    exact ha (le_antisymm h (empty_le_string _))

theorem attrsInOrder_sort (as : List Attr) : AttrsInOrder (sortAttrs as) := by
  refine (sorted_sortAttrs as).imp ?_
  intro a b h
  rw [Attr.le_iff] at h
  by_cases ha : a.nsUri = ""
  · by_cases hb : b.nsUri = ""
    · rcases h with h | h
      · rw [ha, hb] at h
        exact absurd h (lt_irrefl _)
      · exact .inl ⟨ha, .inr h.2⟩
    · exact .inl ⟨ha, .inl hb⟩
  · refine .inr ⟨ha, ?_, h⟩
    intro hb
    rcases h with h | h
    · rw [hb] at h
      exact absurd h (not_lt_of_ge (empty_le_string _))
    · exact ha (h.1.trans hb)

theorem inOrder_tag (mode : C14nMode) (s : Option NodeSet) (ps : List String)
    (path : List (NodeId × Element)) (i : NodeId) (e : Element) :
    DeclsInOrder ((writerOf mode s ps).tag path i e).decls
      ∧ AttrsInOrder ((writerOf mode s ps).tag path i e).attrs := by
  unfold writerOf
  split
  · exact ⟨declsInOrder_sort _, attrsInOrder_sort _⟩
  · refine ⟨declsInOrder_sort _, ?_⟩
    show AttrsInOrder (Inclusive.attrsToRender _ path e)
    unfold Inclusive.attrsToRender
    dsimp only
    split <;> exact attrsInOrder_sort _

/-- **The canonical form does not depend on the order inside the start tags**, and every start
tag of it lists its declarations and then its attributes in the canonical orders. -/
theorem order_invariant (doc : Document) (mode : C14nMode) (s : Option NodeSet)
    (ps : List String) :
    (∀ doc' : Document,
      Forest.Paired (fun _ e e' => e.Reordered e') (fun _ => True) doc.top doc'.top →
      (∀ e ∈ doc.top.labels, e.UniqueNames) →
      canonicalizeDoc doc mode s ps = canonicalizeDoc doc' mode s ps)
    ∧ canonicalText doc mode s ps = WrittenTree.chars (writtenTree doc mode s ps)
    ∧ ∀ n ∈ (writtenTree doc mode s ps).cursors [], ∀ t kids, n.item = .node t kids →
        DeclsInOrder t.decls ∧ AttrsInOrder t.attrs := by
  refine ⟨?_, canonicalText_eq_chars doc mode s ps, ?_⟩
  · intro doc' h hu
    exact canonicalizeDoc_eq_of_tree (writtenTree_reordered mode s ps (h.and hu))
  · intro n hn t kids hi
    obtain ⟨c, _, e, hw⟩ := exists_source hn hi
    rw [hw.tag]
    exact inOrder_tag mode s ps c.path c.key e

/-- `<r xmlns="u" xmlns:p="v" b="1" p:a="2">`, and the same with everything the other way round. -/
def sampleOrder : Document where
  root := 0
  top := .node 1 ⟨⟨none, "r", some "u"⟩,
    [⟨⟨none, "b", none⟩, "1"⟩, ⟨⟨some "p", "a", some "v"⟩, "2"⟩], [("", "u"), ("p", "v")]⟩ .nil .nil
  nodup := by decide

def sampleOrder' : Document where
  root := 0
  top := .node 1 ⟨⟨none, "r", some "u"⟩,
    [⟨⟨some "p", "a", some "v"⟩, "2"⟩, ⟨⟨none, "b", none⟩, "1"⟩], [("p", "v"), ("", "u")]⟩ .nil .nil
  nodup := by decide

theorem order_invariant_sample :
    canonicalizeDoc sampleOrder .exclusive none ["p"]
        = canonicalizeDoc sampleOrder' .exclusive none ["p"]
    ∧ canonicalText sampleOrder .exclusive none ["p"]
        = WrittenTree.chars (writtenTree sampleOrder .exclusive none ["p"])
    ∧ ∀ n ∈ (writtenTree sampleOrder .exclusive none ["p"]).cursors [], ∀ t kids,
        n.item = .node t kids → DeclsInOrder t.decls ∧ AttrsInOrder t.attrs := by
  have h := order_invariant sampleOrder .exclusive none ["p"]
  refine ⟨h.1 sampleOrder' ?_ ?_, h.2⟩
  · exact .node ⟨rfl, List.Perm.swap _ _ _, List.Perm.swap _ _ _⟩ .nil .nil
  · intro e he
    have he : e ∈ sampleOrder.top.labels := he
    simp only [sampleOrder, Forest.labels, List.append_nil, List.mem_singleton] at he
    subst he
    exact ⟨by decide, by decide⟩

end Bergshamra
