import Bergshamra.Proof.WrittenTree
import Bergshamra.Proof.ReadBack

/-!
# The namespace context a reader of the output sees

A reader of the canonical form knows of a prefix what the nearest start tag says
that declares it. Elements outside the node set write no tag, so what they declare
reaches the output on the next element below them that is written. The walk hands
down a map (`inheritedAt`, `renderedAt`); the invariant is that at every chain of
ancestors this map is what the start tags above say, whichever of the ancestors
are in the node set.
-/

namespace Bergshamra

/-- What a start tag declares a prefix to be. -/
def StartTag.declared (t : StartTag) (p : String) : Option String :=
  (t.decls.find? (fun d => d.pfx == p)).map NsDecl.uri

/-- What the start tags of a chain, nearest first, declare a prefix to be. -/
def overlay (tags : List (NodeId × StartTag)) (p : String) : Option String :=
  tags.findSome? (fun t => t.2.declared p)

theorem StartTag.declared_cases (t : StartTag) (p : String) :
    (∃ uri, ⟨p, uri⟩ ∈ t.decls ∧ t.declared p = some uri)
      ∨ (∀ uri, ⟨p, uri⟩ ∉ t.decls) ∧ t.declared p = none := by
  unfold StartTag.declared
  cases hf : t.decls.find? (fun d => d.pfx == p) with
  | some d =>
      have hd : d.pfx = p := by simpa using List.find?_some hf
      refine .inl ⟨d.uri, ?_, rfl⟩
      rw [← hd]
      exact List.mem_of_find?_eq_some hf
  | none =>
      refine .inr ⟨?_, rfl⟩
      intro uri hmem
      have hne := List.find?_eq_none.mp hf _ hmem
      simp at hne

theorem overlay_cons (i : NodeId) (t : StartTag) (tags : List (NodeId × StartTag)) (p : String) :
    overlay ((i, t) :: tags) p = (t.declared p).or (overlay tags p) := by
  rw [overlay, List.findSome?_cons]
  cases t.declared p <;> rfl

/-- The same binding, an absent and an empty default namespace being one. -/
def SameBinding (p : String) (a b : Option String) : Prop :=
  if p = "" then nonEmpty a = nonEmpty b else a = b

theorem nonEmpty_of_ne {a : Option String} (h : a ≠ some "") : nonEmpty a = a := by
  cases a with
  | none => rfl
  | some u =>
      have hu : u ≠ "" := fun he => h (by rw [he])
      simp [nonEmpty, hu]

theorem eq_of_nonEmpty {a : Option String} {u : String} (h : nonEmpty a = some u) :
    a = some u := by
  by_cases ha : a = some ""
  · rw [ha] at h
    simp [nonEmpty] at h
  · rw [← h, nonEmpty_of_ne ha]

theorem sameBinding_of_nonEmpty {p : String} {a b : Option String}
    (h : nonEmpty a = nonEmpty b) (ha : p ≠ "" → a ≠ some "") (hb : p ≠ "" → b ≠ some "") :
    SameBinding p a b := by
  unfold SameBinding
  by_cases hp : p = ""
  · rw [if_pos hp]
    exact h
  · rw [if_neg hp, ← nonEmpty_of_ne (ha hp), ← nonEmpty_of_ne (hb hp), h]

/-! ## Inclusive canonicalization -/

namespace Inclusive

variable {ctx : C14nContext} (hf : hasNsFilter ctx.nodeSet = false)

include hf

theorem decls_tag (path : List (NodeId × Element)) (i : NodeId) (e : Element) :
    ((writer ctx).tag path i e).decls
      = inclusiveRule.decls (inheritedAt ctx path) (e :: path.map Prod.snd) := by
  show nsDecls (hasNsFilter ctx.nodeSet) (inheritedAt ctx path) (visibleNs ctx i path e) = _
  rw [hf, visibleNs, visibleNamespaces_of_not_filter hf]
  rfl

theorem inheritedAt_keep {i : NodeId} (hv : isVisible ctx.nodeSet i = true) (e : Element)
    (path : List (NodeId × Element)) :
    inheritedAt ctx ((i, e) :: path)
      = inclusiveRule.next (inheritedAt ctx path) (e :: path.map Prod.snd) := by
  rw [inheritedAt, if_pos hv, hf, visibleNs, visibleNamespaces_of_not_filter hf]
  rfl

/-- **What is handed down is what the start tags say**, at every chain. -/
theorem overlay_tags (path : List (NodeId × Element)) {p : String} (hp : p ≠ "xml") :
    nonEmpty (overlay ((writer ctx).tags path) p) = nonEmpty (inheritedAt ctx path)[p]? := by
  induction path with
  | nil => simp [Forest.Writer.tags, overlay, inheritedAt]
  | cons x path ih =>
      obtain ⟨i, e⟩ := x
      by_cases hv : isVisible ctx.nodeSet i = true
      · rw [Forest.Writer.tags_keep (show (writer ctx).keep i = true from hv), overlay_cons,
          inheritedAt_keep hf hv]
        rcases StartTag.declared_cases ((writer ctx).tag path i e) p with
          ⟨uri, hmem, hd⟩ | ⟨hnone, hd⟩
        · rw [decls_tag hf] at hmem
          rw [hd, Option.some_or, (readable.written hmem hp).2]
        · rw [decls_tag hf] at hnone
          rw [hd, Option.none_or, readable.unwritten hnone hp, ih]
      · -- an element outside the set writes no tag and hands down what it was handed
        rw [Forest.Writer.tags_skip (show (writer ctx).keep i = false from Bool.eq_false_iff.mpr hv),
          inheritedAt, if_neg hv, ih]

omit hf in
theorem inscope_ne_empty {chain : List Element} {p : String} (hp : p ≠ "") :
    (collectInscopeNamespaces chain)[p]? ≠ some "" := by
  unfold collectInscopeNamespaces
  induction chain with
  | nil => simp
  | cons e chain ih =>
      rw [getElem?_collectInscope_cons]
      cases (nsLevel e)[p]? with
      | none => exact ih
      | some u =>
          by_cases hu : u = ""
          · simp [hu, hp]
          · simp [hu]

theorem overlay_ne_empty (path : List (NodeId × Element)) {p : String} (hp : p ≠ "") :
    overlay ((writer ctx).tags path) p ≠ some "" := by
  induction path with
  | nil => simp [Forest.Writer.tags, overlay]
  | cons x path ih =>
      obtain ⟨i, e⟩ := x
      by_cases hv : isVisible ctx.nodeSet i = true
      · rw [Forest.Writer.tags_keep (show (writer ctx).keep i = true from hv), overlay_cons]
        rcases StartTag.declared_cases ((writer ctx).tag path i e) p with
          ⟨uri, hmem, hd⟩ | ⟨_, hd⟩
        · rw [decls_tag hf] at hmem
          rw [hd, Option.some_or, ← (mem_decls.mp hmem).1]
          exact inscope_ne_empty hp
        · rw [hd, Option.none_or]
          exact ih
      · rw [Forest.Writer.tags_skip (show (writer ctx).keep i = false from Bool.eq_false_iff.mpr hv)]
        exact ih

/-- What is bound in no way was handed down by nobody, unless somebody undeclares it. -/
theorem inheritedAt_none {path : List (NodeId × Element)} {p : String} (hp : p ≠ "xml")
    (hd : p ≠ "" → ∀ x ∈ path, (p, "") ∉ x.2.namespaceDeclarations)
    (h : (collectInscopeNamespaces (path.map Prod.snd))[p]? = none) :
    (inheritedAt ctx path)[p]? = none := by
  induction path with
  | nil => simp [inheritedAt]
  | cons x path ih =>
      obtain ⟨i, e⟩ := x
      have habove : (collectInscopeNamespaces (path.map Prod.snd))[p]? = none :=
        inscope_none_above (fun hne => hd hne (i, e) (by simp)) h
      have hrest := ih (fun hne x hx => hd hne x (by simp [hx])) habove
      by_cases hv : isVisible ctx.nodeSet i = true
      · have hself : (collectInscopeNamespaces (e :: path.map Prod.snd))[p]? = none := h
        rw [inheritedAt_keep hf hv, getElem?_next _ _ hp, hself]
        exact hrest
      · rw [inheritedAt, if_neg hv]
        exact hrest

/-- At an element that is written, the start tags say what is in scope. -/
theorem overlay_self {i : NodeId} (hv : isVisible ctx.nodeSet i = true) (e : Element)
    (path : List (NodeId × Element)) {p : String} (hp : p ≠ "xml")
    (hd : (collectInscopeNamespaces (e :: path.map Prod.snd))[p]?.isSome
      ∨ (p ≠ "" → ∀ x ∈ e :: path.map Prod.snd, (p, "") ∉ x.namespaceDeclarations)) :
    SameBinding p (overlay ((writer ctx).tags ((i, e) :: path)) p)
      (collectInscopeNamespaces (e :: path.map Prod.snd))[p]? := by
  refine sameBinding_of_nonEmpty ?_ (overlay_ne_empty hf _) inscope_ne_empty
  rw [overlay_tags hf _ hp, inheritedAt_keep hf hv, getElem?_next _ _ hp]
  cases hs : (collectInscopeNamespaces (e :: path.map Prod.snd))[p]? with
  | some uri => rfl
  | none =>
      have hall := hd.resolve_left (by simp [hs])
      have habove : (collectInscopeNamespaces (path.map Prod.snd))[p]? = none :=
        inscope_none_above (fun hne => hall hne e (by simp)) hs
      have hrest := inheritedAt_none hf hp (fun hne x hx => hall hne x.2
        (List.mem_cons_of_mem _ (List.mem_map_of_mem hx))) habove
      rw [hrest]

/-- A declaration is news to the reader. -/
theorem overlay_ne_of_decl {path : List (NodeId × Element)} {i : NodeId} {e : Element} {d : NsDecl}
    (hd : d ∈ ((writer ctx).tag path i e).decls) :
    overlay ((writer ctx).tags path) d.pfx ≠ some d.uri := by
  intro ho
  rw [decls_tag hf] at hd
  obtain ⟨_, hx, hne, hem⟩ := mem_decls.mp hd
  have hsame := overlay_tags hf path hx
  rw [ho] at hsame
  by_cases hu : d.uri = ""
  · -- the reader has no binding that this would undeclare
    have hnone : nonEmpty (inheritedAt ctx path)[d.pfx]? = none := by
      rw [← hsame, hu]
      rfl
    have hin : (inheritedAt ctx path)[d.pfx]? ≠ some "" := fun hi => hne (by rw [hi, hu])
    rw [nonEmpty_of_ne hin] at hnone
    exact hem ⟨by simp [hu], hnone⟩
  · have hself : nonEmpty (some d.uri) = some d.uri :=
      nonEmpty_of_ne (fun he => hu (Option.some.inj he))
    rw [hself] at hsame
    exact hne (eq_of_nonEmpty hsame.symm)

end Inclusive

/-- **Inclusive canonicalization reproduces the namespace context without redundancy.** What the
start tags on the way to an element declare is what is in scope there, and no declaration
repeats what the tags above say. The one binding that stays when it should go is that of a
prefix which an `xmlns:p=""` undeclares. -/
theorem inclusive_context (doc : Document) (mode : C14nMode) (hm : mode.isExclusive = false)
    (s : Option NodeSet) (hf : hasNsFilter s = false) (ps : List String) :
    canonicalText doc mode s ps = WrittenTree.chars (writtenTree doc mode s ps)
    ∧ ∀ n ∈ (writtenTree doc mode s ps).cursors [], ∀ t kids, n.item = .node t kids →
      ∃ c ∈ doc.descendants, c.key = n.key ∧ ∃ e, Node.element? c = some e ∧
        (∀ p, p ≠ "xml" →
          ((Inclusive.collectInscopeNamespaces (e :: c.path.map Prod.snd))[p]?.isSome
            ∨ (p ≠ "" → ∀ x ∈ e :: c.path.map Prod.snd, (p, "") ∉ x.namespaceDeclarations)) →
          SameBinding p (overlay n.selfPath p)
            (Inclusive.collectInscopeNamespaces (e :: c.path.map Prod.snd))[p]?)
        ∧ ∀ d ∈ t.decls, overlay n.path d.pfx ≠ some d.uri := by
  refine ⟨canonicalText_eq_chars doc mode s ps, ?_⟩
  intro n hn t kids hi
  obtain ⟨c, hc, e, hw⟩ := exists_source hn hi
  have hwriter : writerOf mode s ps = Inclusive.writer ⟨mode.withComments, s, mode.isC14n11⟩ := by
    rw [writerOf, if_neg (by simp [hm])]
  rw [hwriter] at hw
  obtain ⟨kids', hi'⟩ := hw.source
  have hv : isVisible s c.key = true := hw.keep
  have hself : n.selfPath
      = (Inclusive.writer ⟨mode.withComments, s, mode.isC14n11⟩).tags ((c.key, e) :: c.path) := by
    rw [Forest.Writer.tags_keep hw.keep, ← hw.tag, ← hw.path, ← hw.key, Forest.Cursor.selfPath, hi]
  refine ⟨c, hc, hw.key.symm, e, by simp [Node.element?, hi'], ?_, ?_⟩
  · intro p hp hd
    rw [hself]
    exact @Inclusive.overlay_self ⟨mode.withComments, s, mode.isC14n11⟩ hf _ hv e c.path p hp hd
  · intro d hd
    rw [hw.tag] at hd
    rw [hw.path]
    exact Inclusive.overlay_ne_of_decl hf hd

/-- `<r xmlns:p="u"><c xmlns:p=""/></r>`. -/
def sampleUndeclare : Document where
  root := 0
  top := .node 1 ⟨⟨none, "r", none⟩, [], [("p", "u")]⟩
    (.node 2 ⟨⟨none, "c", none⟩, [], [("p", "")]⟩ .nil .nil) .nil
  nodup := by decide

theorem inclusive_context_sample :
    canonicalText sampleUndeclare .inclusive11 none []
        = WrittenTree.chars (writtenTree sampleUndeclare .inclusive11 none [])
    ∧ ∀ n ∈ (writtenTree sampleUndeclare .inclusive11 none []).cursors [], ∀ t kids,
      n.item = .node t kids →
      ∃ c ∈ sampleUndeclare.descendants, c.key = n.key ∧ ∃ e, Node.element? c = some e ∧
        (∀ p, p ≠ "xml" →
          ((Inclusive.collectInscopeNamespaces (e :: c.path.map Prod.snd))[p]?.isSome
            ∨ (p ≠ "" → ∀ x ∈ e :: c.path.map Prod.snd, (p, "") ∉ x.namespaceDeclarations)) →
          SameBinding p (overlay n.selfPath p)
            (Inclusive.collectInscopeNamespaces (e :: c.path.map Prod.snd))[p]?)
        ∧ ∀ d ∈ t.decls, overlay n.path d.pfx ≠ some d.uri :=
  inclusive_context sampleUndeclare .inclusive11 rfl none rfl []

/-- `p` is not in scope at the inner element, and still bound where the output has that element. -/
theorem undeclared_prefix_stays_bound :
    canonicalText sampleUndeclare .inclusive none [] = "<r xmlns:p=\"u\"><c></c></r>".toList
    ∧ (∃ n ∈ (writtenTree sampleUndeclare .inclusive none []).cursors [],
        n.key = 2 ∧ overlay n.selfPath "p" = some "u")
    ∧ ∃ c ∈ sampleUndeclare.descendants, c.key = 2 ∧ ∃ e, Node.element? c = some e
        ∧ (Inclusive.collectInscopeNamespaces (e :: c.path.map Prod.snd))["p"]? = none := by
  refine ⟨by decide +kernel, by decide +kernel, ?_⟩
  refine ⟨⟨2, [(1, ⟨⟨none, "r", none⟩, [], [("p", "u")]⟩)],
    .node ⟨⟨none, "c", none⟩, [], [("p", "")]⟩ .nil⟩, by simp [sampleUndeclare,
      Document.descendants, Forest.cursors], rfl, _, rfl, by decide +kernel⟩

end Bergshamra
