import Bergshamra.Proof.WholeDocument
import Bergshamra.Lib.Refill

/-!
# A document without namespace declarations

Inclusive and exclusive canonicalization differ in the declarations they choose.
Without any there is nothing to choose: no binding is ever in scope, so nothing
is in force from an output ancestor and nothing is declared. What is left of the
two canonicalizers is the same walk over the same attributes; one asks for the
prefix of an attribute as an option, the other as a string that may be empty.
-/

namespace Bergshamra

/-- No declarations, and an attribute that has a prefix has one with a name. -/
structure Element.Undeclared (e : Element) : Prop where
  declarations : e.namespaceDeclarations = []
  pfx : ∀ a ∈ e.attributes, a.name.pfx ≠ some ""

theorem collectInscope_plain (drop : String → String → Bool) {chain : List Element}
    (h : ∀ e ∈ chain, e.namespaceDeclarations = []) : collectInscope drop chain = ∅ := by
  induction chain with
  | nil => rfl
  | cons e chain ih =>
      have hlevel : nsLevel e = ∅ := by
        rw [nsLevel, h e (by simp)]
        rfl
      apply Std.ExtTreeMap.ext_getElem?
      intro p
      rw [getElem?_collectInscope_cons, hlevel, ih (fun x hx => h x (by simp [hx]))]
      simp

section Undeclared

variable {path : List (NodeId × Element)}

theorem visibleNamespaces_plain (id : NodeId) (drop : String → String → Bool) {e : Element}
    (hpath : ∀ x ∈ path, x.2.Undeclared) (he : e.Undeclared) :
    visibleNamespaces none id (collectInscope drop (e :: path.map Prod.snd)) = ∅ := by
  have hchain : ∀ x ∈ e :: path.map Prod.snd, x.namespaceDeclarations = [] := by
    intro x hx
    rcases List.mem_cons.mp hx with hx | hx
    · rw [hx]
      exact he.declarations
    · obtain ⟨y, hy, rfl⟩ := List.mem_map.mp hx
      exact (hpath y hy).declarations
  exact collectInscope_plain drop hchain

/-- Nothing is in force below elements that declare nothing. -/
theorem Inclusive.inheritedAt_plain (withComments c14n11Mode : Bool)
    (hpath : ∀ x ∈ path, x.2.Undeclared) :
    inheritedAt ⟨withComments, none, c14n11Mode⟩ path = ∅ := by
  induction path with
  | nil => rfl
  | cons x path ih =>
      obtain ⟨i, e⟩ := x
      have hrest : ∀ x ∈ path, x.2.Undeclared := fun x hx => hpath x (by simp [hx])
      have hns : visibleNs ⟨withComments, none, c14n11Mode⟩ i path e = ∅ :=
        visibleNamespaces_plain i _ hrest (hpath (i, e) (by simp))
      rw [inheritedAt, if_pos (isVisible_none i), ih hrest, hns]
      apply Std.ExtTreeMap.ext_getElem?
      intro p
      rw [getElem?_childNs]
      simp

theorem Exclusive.nsDecls_plain (utilized : List String) : nsDecls ∅ ∅ utilized = [] := by
  have hnone : utilized.filterMap (nsDeclFor ∅ ∅) = [] := by
    rw [List.filterMap_eq_nil_iff]
    intro p _
    simp [nsDeclFor]
  rw [nsDecls, hnone]
  rfl

/-- Nothing has been rendered below elements that declare nothing. -/
theorem Exclusive.renderedAt_plain (withComments : Bool) (hpath : ∀ x ∈ path, x.2.Undeclared) :
    renderedAt ⟨withComments, none, []⟩ path = ∅ := by
  induction path with
  | nil => rfl
  | cons x path ih =>
      obtain ⟨i, e⟩ := x
      have hrest : ∀ x ∈ path, x.2.Undeclared := fun x hx => hpath x (by simp [hx])
      have hns : visibleNs ⟨withComments, none, []⟩ i path e = ∅ :=
        visibleNamespaces_plain i _ hrest (hpath (i, e) (by simp))
      rw [renderedAt, if_pos (isVisible_none i), ih hrest, hns, childRendered, nsDecls_plain]
      rfl

/-- Both canonicalizers write an attribute alike. -/
theorem attrOf_eq {a : Attribute} (h : a.name.pfx ≠ some "") :
    Inclusive.attrOf a = Exclusive.attrOf a := by
  unfold Inclusive.attrOf Exclusive.attrOf Inclusive.findAttrPrefix Exclusive.getAttrPrefix
  cases huri : a.name.namespaceUri with
  | none => rfl
  | some uri =>
      by_cases hx : uri = Ns.XML
      · simp [hx]
      · cases hp : a.name.pfx with
        | none => simp [hx]
        | some p =>
            have hne : p ≠ "" := fun he => h (by rw [hp, he])
            simp [hx, hne]

theorem attrsToRender_plain (withComments c14n11Mode : Bool) {e : Element} (he : e.Undeclared) :
    Inclusive.attrsToRender ⟨withComments, none, c14n11Mode⟩ path e
      = Exclusive.attrsToRender e := by
  have hattrs : e.attributes.map Inclusive.attrOf = e.attributes.map Exclusive.attrOf :=
    List.map_congr_left (fun a ha => attrOf_eq (he.pfx a ha))
  simp [Inclusive.attrsToRender, Exclusive.attrsToRender, hattrs]

end Undeclared

/-- The tree of a mode that is not exclusive and the tree of one that is. -/
theorem writtenTree_plain {doc : Document} (hdoc : ∀ e ∈ doc.top.labels, e.Undeclared)
    (mode mode' : C14nMode) (hm : mode.isExclusive = false) (hm' : mode'.isExclusive = true)
    (hwc : mode.withComments = mode'.withComments) (inclusivePrefixes : List String) :
    writtenTree doc mode none inclusivePrefixes = writtenTree doc mode' none [] := by
  have hpaired : Forest.Paired (fun _ (e e' : Element) => e = e' ∧ e.Undeclared)
      (fun _ => True) doc.top doc.top := by
    have := Forest.Paired.map (P := fun _ (e e' : Element) => e = e' ∧ e.Undeclared)
      (Q := fun _ => True) id (f := doc.top) []
      (fun c hc e kids hi => ⟨rfl, hdoc e (Forest.mem_labels_iff.mpr ⟨c, hc, kids, hi⟩)⟩)
      (fun _ _ => trivial)
    rwa [Forest.mapLabels_id] at this
  -- no element of the chain declares anything
  have hundeclared : ∀ {path path' : List (NodeId × Element)},
      Forest.PairedPath (fun _ (e e' : Element) => e = e' ∧ e.Undeclared) path path' →
      path = path' ∧ ∀ x ∈ path, x.2.Undeclared := by
    intro path path' hp
    induction hp with
    | nil => exact ⟨rfl, by simp⟩
    | cons hx _ ih =>
        obtain ⟨hk, he, hu⟩ := hx
        exact ⟨by rw [Prod.ext hk he, ih.1], List.forall_mem_cons.mpr ⟨hu, ih.2⟩⟩
  unfold writtenTree writerOf
  rw [if_neg (by simp [hm]), if_pos hm', hwc]
  refine Forest.Writer.write_congr ?_ ?_ ?_ ?_ hpaired .nil false
  · intro i e e' _
    rfl
  · intro path path' i e e' hp h _
    obtain ⟨rfl, hpath⟩ := hundeclared hp
    obtain ⟨rfl, he⟩ := h
    have hns : Inclusive.visibleNs ⟨mode'.withComments, none, mode.isC14n11⟩ i path e = ∅ :=
      visibleNamespaces_plain i _ hpath he
    have hns' : Exclusive.visibleNs ⟨mode'.withComments, none, []⟩ i path e = ∅ :=
      visibleNamespaces_plain i _ hpath he
    simp only [Inclusive.writer, Exclusive.writer, hns, hns', Inclusive.inheritedAt_plain _ _ hpath,
      Exclusive.renderedAt_plain _ hpath, Exclusive.nsDecls_plain, attrsToRender_plain _ _ he]
    rfl
  · intro path path' i e e' _ _ hk
    exact absurd hk (by simp [Inclusive.writer, isVisible_none])
  · intro top preceding following i k _
    rfl

/-- **Without namespace declarations the three canonicalizations are one.** The prefix of an
attribute is a name, so it is not the empty string. -/
theorem inclusive_eq_exclusive (doc : Document)
    (hdecl : ∀ e ∈ doc.top.labels, e.namespaceDeclarations = [])
    (hpfx : ∀ e ∈ doc.top.labels, ∀ a ∈ e.attributes, a.name.pfx ≠ some "")
    (inclusivePrefixes : List String) :
    (canonicalizeDoc doc .inclusive none inclusivePrefixes
        = canonicalizeDoc doc .exclusive none []
      ∧ canonicalizeDoc doc .inclusive11 none inclusivePrefixes
        = canonicalizeDoc doc .exclusive none [])
    ∧ canonicalizeDoc doc .inclusiveWithComments none inclusivePrefixes
        = canonicalizeDoc doc .exclusiveWithComments none []
      ∧ canonicalizeDoc doc .inclusive11WithComments none inclusivePrefixes
        = canonicalizeDoc doc .exclusiveWithComments none [] := by
  have hdoc : ∀ e ∈ doc.top.labels, e.Undeclared := fun e he => ⟨hdecl e he, hpfx e he⟩
  refine ⟨⟨?_, ?_⟩, ?_, ?_⟩
  · exact canonicalizeDoc_eq_of_tree (writtenTree_plain hdoc .inclusive .exclusive rfl rfl rfl _)
  · exact canonicalizeDoc_eq_of_tree (writtenTree_plain hdoc .inclusive11 .exclusive rfl rfl rfl _)
  · exact canonicalizeDoc_eq_of_tree
      (writtenTree_plain hdoc .inclusiveWithComments .exclusiveWithComments rfl rfl rfl _)
  · exact canonicalizeDoc_eq_of_tree
      (writtenTree_plain hdoc .inclusive11WithComments .exclusiveWithComments rfl rfl rfl _)

/-- `<!-- c --><doc b="2" xml:lang="en" a="1">t</doc>`. -/
def sampleUndeclared : Document where
  root := 0
  top := .leaf 1 (.comment " c ")
    (.node 2 ⟨⟨none, "doc", none⟩,
      [⟨⟨none, "b", none⟩, "2"⟩, ⟨⟨some "xml", "lang", some Ns.XML⟩, "en"⟩, ⟨⟨none, "a", none⟩, "1"⟩],
      []⟩ (.leaf 3 (.text "t") .nil) .nil)
  nodup := by decide

theorem inclusive_eq_exclusive_sample :
    (canonicalizeDoc sampleUndeclared .inclusive none ["p"]
        = canonicalizeDoc sampleUndeclared .exclusive none []
      ∧ canonicalizeDoc sampleUndeclared .inclusive11 none ["p"]
        = canonicalizeDoc sampleUndeclared .exclusive none [])
    ∧ canonicalizeDoc sampleUndeclared .inclusiveWithComments none ["p"]
        = canonicalizeDoc sampleUndeclared .exclusiveWithComments none []
      ∧ canonicalizeDoc sampleUndeclared .inclusive11WithComments none ["p"]
        = canonicalizeDoc sampleUndeclared .exclusiveWithComments none [] :=
  inclusive_eq_exclusive sampleUndeclared (by simp [sampleUndeclared, Forest.labels])
    (by simp [sampleUndeclared, Forest.labels]) ["p"]

end Bergshamra
