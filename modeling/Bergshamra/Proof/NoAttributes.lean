import Bergshamra.Proof.WrittenTree
import Bergshamra.Proof.RenderOrder

/-!
# A node set without attribute nodes

The inclusive canonicalizer asks the node set whether attribute nodes are in it
before it gathers any, before it inherits any and before it absolutizes
`xml:base`. The exclusive one does not ask: it writes the attributes of every
element in the set and declares their prefixes, so there the flag has an effect
only where there is nothing to hide.
-/

namespace Bergshamra

def Element.withoutAttributes (e : Element) : Element := { e with attributes := [] }

/-- The document with all attributes removed. -/
def Document.withoutAttributes (doc : Document) : Document where
  root := doc.root
  top := doc.top.mapLabels Element.withoutAttributes
  nodup := by
    rw [Forest.keys_mapLabels]
    exact doc.nodup

theorem nsLevel_withoutAttributes (e : Element) : nsLevel e.withoutAttributes = nsLevel e := rfl

/-- No start tag of the canonical form has an attribute, and the canonical form is that of the
document without attributes. -/
def AttributesLeftOut (doc : Document) (s : NodeSet) (mode : C14nMode) (ps : List String) : Prop :=
  (∀ n ∈ (writtenTree doc mode (some s) ps).cursors [], ∀ t kids, n.item = .node t kids →
      t.attrs = [])
    ∧ canonicalizeDoc doc mode (some s) ps = canonicalizeDoc doc.withoutAttributes mode (some s) ps

/-- Every element that is in the set has no attributes. -/
def NoVisibleAttributes (doc : Document) (s : NodeSet) : Prop :=
  ∀ c ∈ doc.descendants, ∀ e kids, c.item = .node e kids → s.containsId c.key = true →
    e.attributes = []

/-- An element beside itself without attributes; `shown` limits what is known of its own. -/
def Stripped (shown : NodeId → Element → Prop) (i : NodeId) (e e' : Element) : Prop :=
  e' = e.withoutAttributes ∧ shown i e

section Stripped

variable {shown : NodeId → Element → Prop} {path path' : List (NodeId × Element)}

theorem levels_stripped (hp : Forest.PairedPath (Stripped shown) path path') :
    levels path = levels path' := by
  induction hp with
  | nil => rfl
  | cons hx _ ih =>
      simp only [levels, List.map_cons]
      rw [hx.1, hx.2.1, nsLevel_withoutAttributes]
      exact congrArg _ ih

theorem paired_withoutAttributes {doc : Document}
    (h : ∀ c ∈ doc.descendants, ∀ e kids, c.item = .node e kids → shown c.key e) :
    Forest.Paired (Stripped shown) (fun _ => True) doc.top doc.withoutAttributes.top :=
  Forest.Paired.map Element.withoutAttributes [] (fun c hc e kids hi => ⟨rfl, h c hc e kids hi⟩)
    (fun _ _ => trivial)

end Stripped

/-! ## Inclusive canonicalization -/

theorem Inclusive.attrsToRender_excluded {ctx : C14nContext}
    (h : ctx.nodeSet.any NodeSet.excludesAttrs = true) (path : List (NodeId × Element))
    (e : Element) : attrsToRender ctx path e = [] := by
  simp [attrsToRender, h, sortAttrs]

theorem writtenTree_inclusive_excluded (doc : Document) {s : NodeSet}
    (hex : s.excludesAttrs = true) {mode : C14nMode} (hm : mode.isExclusive = false)
    (ps : List String) :
    writtenTree doc mode (some s) ps = writtenTree doc.withoutAttributes mode (some s) ps := by
  have hpaired := @paired_withoutAttributes (fun _ _ => True) doc (fun _ _ _ _ _ => trivial)
  unfold writtenTree writerOf
  rw [if_neg (by simp [hm])]
  refine Forest.Writer.write_congr (fun _ _ _ _ => rfl) ?_ ?_ (fun _ _ _ _ _ _ => rfl) hpaired
    .nil false
  · intro path path' i e e' hp he _
    obtain ⟨rfl, _⟩ := he
    have hname : qualifiedElementName e.withoutAttributes = qualifiedElementName e := rfl
    simp only [Inclusive.writer, hname, Inclusive.inheritedAt_levels _ (levels_stripped hp),
      Inclusive.visibleNs_levels _ i (levels_stripped hp) (nsLevel_withoutAttributes e).symm,
      @Inclusive.attrsToRender_excluded ⟨mode.withComments, some s, mode.isC14n11⟩ hex]
  · intro path path' i e e' hp he _
    obtain ⟨rfl, _⟩ := he
    simp only [Inclusive.writer, Inclusive.inheritedAt_levels _ (levels_stripped hp),
      Inclusive.visibleNs_levels _ i (levels_stripped hp) (nsLevel_withoutAttributes e).symm]

/-! ## Exclusive canonicalization -/

/-- Elements that are in the set have no attributes to lose. -/
theorem withoutAttributes_shown {s : NodeSet} {i : NodeId} {e : Element}
    (h : s.containsId i = true → e.attributes = []) (hv : s.containsId i = true) :
    e.withoutAttributes = e := by
  unfold Element.withoutAttributes
  rw [← h hv]

theorem Exclusive.renderedAt_stripped (ctx : ExcC14nContext) {s : NodeSet}
    (hs : ctx.nodeSet = some s) {path path' : List (NodeId × Element)}
    (hp : Forest.PairedPath
      (Stripped (fun i e => s.containsId i = true → e.attributes = [])) path path') :
    renderedAt ctx path = renderedAt ctx path' := by
  induction hp with
  | nil => rfl
  | cons hx htail ih =>
      rename_i x x' path path'
      obtain ⟨i, e⟩ := x
      obtain ⟨i', e'⟩ := x'
      obtain ⟨hi, he, hattr⟩ := hx
      have hi : i = i' := hi
      have he : e' = e.withoutAttributes := he
      subst hi he
      rw [renderedAt, renderedAt, ih,
        visibleNs_levels ctx i (levels_stripped htail) (nsLevel_withoutAttributes e).symm]
      -- only an element in the set adds to what is rendered
      by_cases hv : isVisible ctx.nodeSet i = true
      · have hin : s.containsId i = true := by
          rw [hs] at hv
          exact hv
        rw [if_pos hv, if_pos hv, withoutAttributes_shown hattr hin]
      · rw [if_neg hv, if_neg hv]

theorem writtenTree_exclusive_excluded (doc : Document) {s : NodeSet}
    (hno : NoVisibleAttributes doc s) {mode : C14nMode} (hm : mode.isExclusive = true)
    (ps : List String) :
    writtenTree doc mode (some s) ps = writtenTree doc.withoutAttributes mode (some s) ps := by
  have hpaired := @paired_withoutAttributes
    (fun i e => s.containsId i = true → e.attributes = []) doc hno
  unfold writtenTree writerOf
  rw [if_pos hm]
  refine Forest.Writer.write_congr (fun _ _ _ _ => rfl) ?_ ?_ (fun _ _ _ _ _ _ => rfl) hpaired
    .nil false
  · intro path path' i e e' hp he hk
    obtain ⟨rfl, hattr⟩ := he
    have hren := Exclusive.renderedAt_stripped ⟨mode.withComments, some s, ps⟩ rfl hp
    simp only [Exclusive.writer, hren, withoutAttributes_shown hattr hk,
      @Exclusive.visibleNs_levels _ i _ _ e e (levels_stripped hp) rfl]
  · intro path path' i e e' hp he _
    obtain ⟨rfl, _⟩ := he
    have hren := Exclusive.renderedAt_stripped ⟨mode.withComments, some s, ps⟩ rfl hp
    simp only [Exclusive.writer, hren,
      Exclusive.visibleNs_levels _ i (levels_stripped hp) (nsLevel_withoutAttributes e).symm]

/-- An exclusive mode writes as many attributes as the element has. -/
theorem Exclusive.attrsToRender_eq_nil {e : Element} :
    attrsToRender e = [] ↔ e.attributes = [] := by
  rw [← List.length_eq_zero_iff, ← List.length_eq_zero_iff, attrsToRender, sortAttrs,
    List.length_insertionSort, List.length_map]

/-- The attributes of the start tags an exclusive mode writes. -/
theorem exclusive_attrs_nil_iff (doc : Document) (s : NodeSet) {mode : C14nMode}
    (hm : mode.isExclusive = true) (ps : List String) :
    (∀ n ∈ (writtenTree doc mode (some s) ps).cursors [], ∀ t kids, n.item = .node t kids →
      t.attrs = []) ↔ NoVisibleAttributes doc s := by
  have htag : ∀ path i e, ((writerOf mode (some s) ps).tag path i e).attrs
      = Exclusive.attrsToRender e := by
    intro path i e
    rw [writerOf, if_pos hm]
    rfl
  constructor
  · intro h c hc e kids hi hv
    obtain ⟨n, hn, hw⟩ := @exists_written doc mode (some s) ps c hc e kids hi hv
    obtain ⟨kids', hi'⟩ := hw.target
    have hnil := h n hn _ kids' hi'
    rw [htag] at hnil
    exact Exclusive.attrsToRender_eq_nil.mp hnil
  · intro h n hn t kids hi
    obtain ⟨c, hc, e, hw⟩ := exists_source hn hi
    obtain ⟨kids', hi'⟩ := hw.source
    have hv : s.containsId c.key = true := by
      have := hw.keep
      rw [keep_writerOf] at this
      exact this
    rw [hw.tag, htag, Exclusive.attrsToRender_eq_nil]
    exact h c hc e kids' hi' hv

/-- **Attributes are left out exactly by the inclusive modes**, or where no element that is
written has one. -/
theorem attributesLeftOut_iff (doc : Document) (s : NodeSet) (hex : s.excludesAttrs = true)
    (mode : C14nMode) (ps : List String) :
    AttributesLeftOut doc s mode ps
      ↔ mode.isExclusive = false ∨ NoVisibleAttributes doc s := by
  cases hm : mode.isExclusive with
  | true =>
      rw [AttributesLeftOut, exclusive_attrs_nil_iff doc s hm ps]
      constructor
      · intro h
        exact .inr h.1
      · intro h
        rcases h with h | h
        · exact absurd h (by simp)
        · exact ⟨h, canonicalizeDoc_eq_of_tree (writtenTree_exclusive_excluded doc h hm ps)⟩
  | false =>
      refine iff_of_true ⟨?_, ?_⟩ (.inl rfl)
      · intro n hn t kids hi
        obtain ⟨c, _, e, hw⟩ := exists_source hn hi
        rw [hw.tag, writerOf, if_neg (by simp [hm])]
        exact @Inclusive.attrsToRender_excluded ⟨mode.withComments, some s, mode.isC14n11⟩ hex
          c.path e
      · exact canonicalizeDoc_eq_of_tree (writtenTree_inclusive_excluded doc hex hm ps)

/-- `<r a="1"/>`. -/
def sampleAttribute : Document where
  root := 0
  top := .node 1 ⟨⟨none, "r", none⟩, [⟨⟨none, "a", none⟩, "1"⟩], []⟩ .nil .nil
  nodup := by decide

/-- All nodes of the sample, its attribute nodes excluded. -/
def sampleNoAttributes : NodeSet := (NodeSet.fromIds {0, 1} .normal).setExcludeAttrs true

theorem attributesLeftOut_iff_sample :
    AttributesLeftOut sampleAttribute sampleNoAttributes .inclusive11 []
      ↔ C14nMode.inclusive11.isExclusive = false
        ∨ NoVisibleAttributes sampleAttribute sampleNoAttributes :=
  attributesLeftOut_iff sampleAttribute sampleNoAttributes rfl .inclusive11 []

/-- The exclusive canonical form is `<r a="1"></r>` all the same. -/
theorem exclusive_writes_excluded_attribute :
    sampleNoAttributes.excludesAttrs = true
      ∧ canonicalText sampleAttribute .exclusive (some sampleNoAttributes) []
          = "<r a=\"1\"></r>".toList
      ∧ ¬ AttributesLeftOut sampleAttribute sampleNoAttributes .exclusive [] := by
  refine ⟨rfl, by decide +kernel, ?_⟩
  intro h
  have hno := (exclusive_attrs_nil_iff sampleAttribute sampleNoAttributes rfl []).mp h.1
  have hattr := hno ⟨1, [], .node _ .nil⟩ List.mem_cons_self _ _ rfl (by decide)
  exact absurd hattr (by simp)

end Bergshamra
