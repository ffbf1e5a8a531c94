import Bergshamra.Proof.NamespaceContext
import Bergshamra.Proof.RenderOrder

/-!
# What exclusive canonicalization declares

An element declares the prefixes it visibly utilizes and no others, so a
declaration can be passed over by many elements before one uses it. What has been
rendered is exactly what the start tags above declare (`overlay_tags`), so at the
first element that uses a prefix the comparison with what is in scope is a
comparison with what the reader knows, however far above the declaration is.
-/

namespace Bergshamra

namespace Exclusive

/-- The element's own prefix, the prefixes of its attributes, and those of the PrefixList, where
`#default` stands for the default namespace. -/
def Utilizes (ps : List String) (e : Element) (p : String) : Prop :=
  p = getElementPrefix e
    ∨ (p ≠ "" ∧ ∃ a ∈ e.attributes, getAttrPrefix a = some p)
    ∨ (p ≠ "#default" ∧ p ∈ ps)
    ∨ (p = "" ∧ "#default" ∈ ps)

theorem mem_utilizedPrefixes_iff {ps : List String} {e : Element} {p : String} :
    p ∈ utilizedPrefixes ps e ↔ Utilizes ps e p := by
  rw [utilizedPrefixes, List.mem_dedup, List.cons_append, List.mem_cons, List.mem_append,
    List.mem_filter, List.mem_filterMap, List.mem_map]
  unfold Utilizes
  refine or_congr Iff.rfl (or_congr ?_ ?_)
  · constructor
    · rintro ⟨ha, hp⟩
      exact ⟨by simpa using hp, ha⟩
    · rintro ⟨hp, ha⟩
      exact ⟨ha, by simpa using hp⟩
  · constructor
    · rintro ⟨q, hq, h⟩
      by_cases hd : q = "#default"
      · rw [if_pos hd] at h
        exact .inr ⟨h.symm, hd ▸ hq⟩
      · rw [if_neg hd] at h
        exact .inl ⟨h ▸ hd, h ▸ hq⟩
    · rintro (⟨hd, hp⟩ | ⟨hp, hd⟩)
      · exact ⟨p, hp, if_neg hd⟩
      · exact ⟨"#default", hd, by rw [if_pos rfl, hp]⟩

variable {ctx : ExcC14nContext} (hf : hasNsFilter ctx.nodeSet = false)

include hf

theorem decls_tag (path : List (NodeId × Element)) (i : NodeId) (e : Element) :
    ((writer ctx).tag path i e).decls
      = (exclusiveRule ctx.inclusivePrefixes).decls (renderedAt ctx path)
          (e :: path.map Prod.snd) := by
  show nsDecls (renderedAt ctx path) (visibleNs ctx i path e) _ = _
  rw [visibleNs, visibleNamespaces_of_not_filter hf]
  rfl

theorem renderedAt_keep {i : NodeId} (hv : isVisible ctx.nodeSet i = true) (e : Element)
    (path : List (NodeId × Element)) :
    renderedAt ctx ((i, e) :: path)
      = (exclusiveRule ctx.inclusivePrefixes).next (renderedAt ctx path)
          (e :: path.map Prod.snd) := by
  rw [renderedAt, if_pos hv, hf, visibleNs, visibleNamespaces_of_not_filter hf]
  rfl

/-- **What has been rendered is what the start tags say**, at every chain. -/
theorem overlay_tags (path : List (NodeId × Element)) (p : String) :
    overlay ((writer ctx).tags path) p = (renderedAt ctx path)[p]? := by
  induction path with
  | nil => simp [Forest.Writer.tags, overlay, renderedAt]
  | cons x path ih =>
      obtain ⟨i, e⟩ := x
      by_cases hv : isVisible ctx.nodeSet i = true
      · rw [Forest.Writer.tags_keep (show (writer ctx).keep i = true from hv), overlay_cons,
          renderedAt_keep hf hv, next_eq]
        rcases StartTag.declared_cases ((writer ctx).tag path i e) p with
          ⟨uri, hmem, hd⟩ | ⟨hnone, hd⟩
        · rw [decls_tag hf] at hmem
          rcases getElem?_insertDecls ((exclusiveRule ctx.inclusivePrefixes).decls
            (renderedAt ctx path) (e :: path.map Prod.snd)) (renderedAt ctx path) (p := p) with
            ⟨uri', hmem', hget⟩ | ⟨hnone, _⟩
          · rw [hd, Option.some_or, hget, decls_unique hmem hmem']
          · exact absurd hmem (hnone uri)
        · rw [decls_tag hf] at hnone
          rcases getElem?_insertDecls ((exclusiveRule ctx.inclusivePrefixes).decls
            (renderedAt ctx path) (e :: path.map Prod.snd)) (renderedAt ctx path) (p := p) with
            ⟨uri', hmem', _⟩ | ⟨_, hget⟩
          · exact absurd hmem' (hnone uri')
          · rw [hd, Option.none_or, hget, ih]
      · rw [Forest.Writer.tags_skip (show (writer ctx).keep i = false from
          Bool.eq_false_iff.mpr hv), renderedAt, if_neg hv, ih]

/-- A prefix that is utilized and bound is bound alike in the output. -/
theorem overlay_self {i : NodeId} (hv : isVisible ctx.nodeSet i = true) {e : Element}
    {path : List (NodeId × Element)} {p uri : String} (hp : p ≠ "xml")
    (hu : Utilizes ctx.inclusivePrefixes e p)
    (hs : (collectInscopeNamespaces (e :: path.map Prod.snd))[p]? = some uri) :
    overlay ((writer ctx).tags ((i, e) :: path)) p = some uri := by
  rw [Forest.Writer.tags_keep (show (writer ctx).keep i = true from hv), overlay_cons]
  rcases StartTag.declared_cases ((writer ctx).tag path i e) p with
    ⟨uri', hmem, hd⟩ | ⟨hnone, hd⟩
  · rw [decls_tag hf] at hmem
    obtain ⟨q, _, hq⟩ := mem_decls.mp hmem
    obtain ⟨rfl, _, hns⟩ := nsDeclFor_eq_some hq
    rcases hns with hns | ⟨hns, _, _⟩
    · rw [hns] at hs
      rw [hd, Option.some_or, hs]
    · rw [hns] at hs
      exact absurd hs (by simp)
  · rw [decls_tag hf] at hnone
    have hdecl : nsDeclFor (renderedAt ctx path)
        (collectInscopeNamespaces (e :: path.map Prod.snd)) p = none := by
      cases hd' : nsDeclFor (renderedAt ctx path)
          (collectInscopeNamespaces (e :: path.map Prod.snd)) p with
      | none => rfl
      | some d =>
          have hpfx := (nsDeclFor_eq_some hd').1
          exact absurd (mem_decls.mpr ⟨p, mem_utilizedPrefixes_iff.mpr hu, by rw [hd', ← hpfx]⟩)
            (hnone d.uri)
    rcases nsDeclFor_eq_none hp hdecl with ⟨uri', hns, hr⟩ | ⟨hns, _⟩
    · rw [hns] at hs
      rw [hd, Option.none_or, overlay_tags hf, hr, hs]
    · rw [hns] at hs
      exact absurd hs (by simp)

/-- Every declaration is of a prefix that is utilized, and is news to the reader. -/
theorem utilized_of_decl {path : List (NodeId × Element)} {i : NodeId} {e : Element} {d : NsDecl}
    (hd : d ∈ ((writer ctx).tag path i e).decls) :
    Utilizes ctx.inclusivePrefixes e d.pfx
      ∧ overlay ((writer ctx).tags path) d.pfx ≠ some d.uri := by
  rw [decls_tag hf] at hd
  obtain ⟨p, hp, hq⟩ := mem_decls.mp hd
  have hpfx : d.pfx = p := (nsDeclFor_eq_some hq).1
  subst hpfx
  refine ⟨mem_utilizedPrefixes_iff.mp hp, ?_⟩
  rw [overlay_tags hf]
  intro hr
  unfold nsDeclFor at hq
  rw [hr] at hq
  split at hq
  · simp at hq
  · split at hq
    · rename_i uri _
      by_cases hu : d.uri = uri
      · rw [hu, if_pos rfl] at hq
        simp at hq
      · split at hq
        · simp at hq
        · exact hu (congrArg NsDecl.uri (Option.some.inj hq)).symm
    · split at hq
      · rename_i hc
        have huri : d.uri = "" := (congrArg NsDecl.uri (Option.some.inj hq)).symm
        -- what undeclares the default namespace is not what has been rendered
        rw [Bool.and_eq_true, String.isEmpty_iff] at hc
        rw [hc.1, huri] at hr
        rw [hr] at hc
        simp at hc
      · simp at hq

/-- `xmlns=""` is written where the default namespace is utilized, unbound, and still bound in
what has been rendered. -/
theorem undeclares_iff (path : List (NodeId × Element)) (i : NodeId) (e : Element) :
    ⟨"", ""⟩ ∈ ((writer ctx).tag path i e).decls
      ↔ Utilizes ctx.inclusivePrefixes e ""
        ∧ (collectInscopeNamespaces (e :: path.map Prod.snd))[""]? = none
        ∧ ∃ uri, overlay ((writer ctx).tags path) "" = some uri ∧ uri ≠ "" := by
  rw [decls_tag hf, mem_decls, overlay_tags hf]
  constructor
  · rintro ⟨p, hp, hq⟩
    have hpfx : "" = p := (nsDeclFor_eq_some hq).1
    subst hpfx
    refine ⟨mem_utilizedPrefixes_iff.mp hp, ?_, ?_⟩
    · rcases (nsDeclFor_eq_some hq).2.2 with hns | ⟨hns, _, _⟩
      · exact absurd (exclusive_inscope_ne_empty hns) (by simp)
      · exact hns
    · unfold nsDeclFor at hq
      rw [if_neg (by decide)] at hq
      split at hq
      · rename_i uri hns
        have hempty : uri = "" := by
          split at hq
          · simp at hq
          · exact congrArg NsDecl.uri (Option.some.inj hq)
        exact absurd (exclusive_inscope_ne_empty hns) (by simp [hempty])
      · split at hq
        · rename_i hc
          cases hr : (renderedAt ctx path)[""]? with
          | none => simp [hr] at hc
          | some uri => exact ⟨uri, rfl, by simpa [hr] using hc⟩
        · simp at hq
  · rintro ⟨hu, hns, uri, hr, hne⟩
    refine ⟨"", mem_utilizedPrefixes_iff.mpr hu, ?_⟩
    simp [nsDeclFor, hns, hr, hne]

end Exclusive

/-- The binding of a prefix that the start tags of a chain leave in force. -/
def boundBy (tags : List (NodeId × StartTag)) (p : String) : Option String :=
  if p = "xml" then some Ns.XML else overlay tags p

/-- **Exclusive canonicalization renders exactly the namespaces needed.** The PrefixList is read
off words, so it does not hold the empty one. -/
theorem exclusive_context (doc : Document) (mode : C14nMode) (hm : mode.isExclusive = true)
    (s : Option NodeSet) (hf : hasNsFilter s = false) (ps : List String) (hps : "" ∉ ps) :
    canonicalText doc mode s ps = WrittenTree.chars (writtenTree doc mode s ps)
    ∧ ∀ n ∈ (writtenTree doc mode s ps).cursors [], ∀ t kids, n.item = .node t kids →
      ∃ c ∈ doc.descendants, c.key = n.key ∧ ∃ e, Node.element? c = some e ∧
        (∀ p, Exclusive.Utilizes ps e p → (resolve (e :: c.path.map Prod.snd) p).isSome →
          boundBy n.selfPath p = resolve (e :: c.path.map Prod.snd) p)
        ∧ (⟨"", ""⟩ ∈ t.decls
          ↔ (Exclusive.getElementPrefix e = "" ∨ "#default" ∈ ps)
            ∧ (Exclusive.collectInscopeNamespaces (e :: c.path.map Prod.snd))[""]? = none
            ∧ ∃ uri, overlay n.path "" = some uri ∧ uri ≠ "")
        ∧ ∀ d ∈ t.decls, Exclusive.Utilizes ps e d.pfx ∧ overlay n.path d.pfx ≠ some d.uri := by
  refine ⟨canonicalText_eq_chars doc mode s ps, ?_⟩
  intro n hn t kids hi
  obtain ⟨c, hc, e, hw⟩ := exists_source hn hi
  have hwriter : writerOf mode s ps = Exclusive.writer ⟨mode.withComments, s, ps⟩ := by
    rw [writerOf, if_pos hm]
  rw [hwriter] at hw
  obtain ⟨kids', hi'⟩ := hw.source
  have hv : isVisible s c.key = true := hw.keep
  have hself : n.selfPath
      = (Exclusive.writer ⟨mode.withComments, s, ps⟩).tags ((c.key, e) :: c.path) := by
    rw [Forest.Writer.tags_keep hw.keep, ← hw.tag, ← hw.path, ← hw.key, Forest.Cursor.selfPath, hi]
  refine ⟨c, hc, hw.key.symm, e, by simp [Node.element?, hi'], ?_, ?_, ?_⟩
  · intro p hu hs
    unfold boundBy resolve at *
    by_cases hx : p = "xml"
    · rw [if_pos hx, if_pos hx]
    · rw [if_neg hx] at hs ⊢
      rw [if_neg hx]
      obtain ⟨uri, hs⟩ := Option.isSome_iff_exists.mp hs
      rw [hs, hself]
      exact @Exclusive.overlay_self ⟨mode.withComments, s, ps⟩ hf _ hv e c.path p uri hx hu hs
  · -- the empty prefix is utilized by an unprefixed element, or by `#default`
    have hu : Exclusive.Utilizes ps e ""
        ↔ Exclusive.getElementPrefix e = "" ∨ "#default" ∈ ps := by
      constructor
      · rintro (hp | ⟨hne, _⟩ | ⟨_, hin⟩ | ⟨_, hd⟩)
        · exact .inl hp.symm
        · exact absurd rfl hne
        · exact absurd hin hps
        · exact .inr hd
      · rintro (hp | hd)
        · exact .inl hp.symm
        · exact .inr (.inr (.inr ⟨rfl, hd⟩))
    rw [hw.tag, hw.path,
      @Exclusive.undeclares_iff ⟨mode.withComments, s, ps⟩ hf c.path c.key e, hu]
  · intro d hd
    rw [hw.tag] at hd
    rw [hw.path]
    exact @Exclusive.utilized_of_decl ⟨mode.withComments, s, ps⟩ hf c.path c.key e d hd

/-- `<a xmlns="u"><p:b xmlns:p="v" xmlns=""><c/></p:b></a>`: `xmlns=""` waits for `c`. -/
def sampleUtilized : Document where
  root := 0
  top := .node 1 ⟨⟨none, "a", some "u"⟩, [], [("", "u")]⟩
    (.node 2 ⟨⟨some "p", "b", some "v"⟩, [], [("p", "v"), ("", "")]⟩
      (.node 3 ⟨⟨none, "c", none⟩, [], []⟩ .nil .nil) .nil) .nil
  nodup := by decide

example : canonicalText sampleUtilized .exclusive none []
    = "<a xmlns=\"u\"><p:b xmlns:p=\"v\"><c xmlns=\"\"></c></p:b></a>".toList := by
  decide +kernel

theorem exclusive_context_sample :
    canonicalText sampleUtilized .exclusive none ["p"]
        = WrittenTree.chars (writtenTree sampleUtilized .exclusive none ["p"])
    ∧ ∀ n ∈ (writtenTree sampleUtilized .exclusive none ["p"]).cursors [], ∀ t kids,
      n.item = .node t kids →
      ∃ c ∈ sampleUtilized.descendants, c.key = n.key ∧ ∃ e, Node.element? c = some e ∧
        (∀ p, Exclusive.Utilizes ["p"] e p → (resolve (e :: c.path.map Prod.snd) p).isSome →
          boundBy n.selfPath p = resolve (e :: c.path.map Prod.snd) p)
        ∧ (⟨"", ""⟩ ∈ t.decls
          ↔ (Exclusive.getElementPrefix e = "" ∨ "#default" ∈ ["p"])
            ∧ (Exclusive.collectInscopeNamespaces (e :: c.path.map Prod.snd))[""]? = none
            ∧ ∃ uri, overlay n.path "" = some uri ∧ uri ≠ "")
        ∧ ∀ d ∈ t.decls, Exclusive.Utilizes ["p"] e d.pfx ∧ overlay n.path d.pfx ≠ some d.uri :=
  exclusive_context sampleUtilized .exclusive rfl none rfl ["p"] (by decide)

end Bergshamra
