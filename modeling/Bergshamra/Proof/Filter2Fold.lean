import Bergshamra.Proof.InputOnly
import Bergshamra.Dsig.Verify
import Mathlib.Data.Set.Basic

/-!
# What an XPath Filter 2.0 transform computes

The filter is a set of nodes that starts with all of them and is changed by one
set operation for each `<XPath>` child in turn (`Folds`); the output is the
input met with it. The code works on node sets, which list ids, carry a map for
the namespace nodes and a flag for the attributes; on these it computes the same
(`Filter2Meets`), with two exceptions. An octet stream is handed on as it is.
And of a set that lists what it leaves out, the intersection reads the list.
-/

namespace Bergshamra

/-- The three values of `Filter`. -/
inductive FilterOp where
  | intersect
  | subtract
  | union
deriving DecidableEq, Repr

namespace FilterOp

/-- The operation an attribute value names. -/
def ofAttr (value : String) : Option FilterOp :=
  if value = "intersect" then some .intersect
  else if value = "subtract" then some .subtract
  else if value = "union" then some .union
  else none

/-- The operation on sets of nodes. -/
def apply (op : FilterOp) (filter selection : Set NodeId) : Set NodeId :=
  match op with
  | .intersect => filter ∩ selection
  | .subtract => filter \ selection
  | .union => filter ∪ selection

/-- The operation of the code. -/
def onSets (op : FilterOp) (a b : NodeSet) : NodeSet :=
  match op with
  | .intersect => a.intersection b
  | .subtract => a.subtract b
  | .union => a.union b

end FilterOp

/-- The nodes a set contains. -/
def NodeSet.members (s : NodeSet) : Set NodeId := { id | s.containsId id = true }

/-- **The filter, folded.** `Folds up doc children f g`: the children take the filter from `f` to
`g`, each `<XPath>` child by its operation and the subtrees it selects. -/
inductive Folds (up : Uppsala) (doc : Document) : List Node → Set NodeId → Set NodeId → Prop
  | nil (f : Set NodeId) : Folds up doc [] f f
  | other {child : Node} {children : List Node} {f g : Set NodeId}
      (h : ∀ e, child.element? = some e → e.name.localName ≠ "XPath")
      (hrest : Folds up doc children f g) : Folds up doc (child :: children) f g
  | xpath {child : Node} {children : List Node} {f g : Set NodeId} {e : Element} {op : FilterOp}
      {selection : NodeSet} (he : child.element? = some e) (hn : e.name.localName = "XPath")
      (hop : FilterOp.ofAttr ((up.getAttribute e "Filter").getD "") = some op)
      (hs : evaluateSimpleXPath up doc (Text.trim (child.elementText.getD "").toList) child
        = .ok selection)
      (hrest : Folds up doc children (op.apply f selection.members) g) :
      Folds up doc (child :: children) f g

/-- `r` is the input set met with the filter: its nodes are those of both, and of the input's
namespace nodes and attributes it shows what the input shows. -/
structure Filter2Meets (doc : Document) (r : NodeSet) (input : Option NodeSet)
    (filter : Set NodeId) : Prop where
  nodes : ∀ id ∈ doc.ids, (r.containsId id = true ↔ isVisible input id = true ∧ id ∈ filter)
  namespaces : ∀ id p, r.isNsVisible id p = showsNs input id p
  attributes : r.excludesAttrs = input.any NodeSet.excludesAttrs

/-! ## The code's filter set -/

/-- A set that lists its members. -/
def NodeSet.Lists (s : NodeSet) (f : Set NodeId) : Prop := s.setType = .normal ∧ s.members = f

theorem NodeSet.Lists.mem_nodes {s : NodeSet} {f : Set NodeId} (h : s.Lists f) (id : NodeId) :
    id ∈ s.nodes ↔ id ∈ f := by
  rw [← h.2, NodeSet.members, Set.mem_ofPred_eq, NodeSet.containsId_of_ne_invert (by simp [h.1]),
    decide_eq_true_iff]

theorem NodeSet.lists_of_nodes {s : NodeSet} {f : Set NodeId} (ht : s.setType = .normal)
    (h : ∀ id, id ∈ s.nodes ↔ id ∈ f) : s.Lists f := by
  refine ⟨ht, Set.ext (fun id => ?_)⟩
  rw [NodeSet.members, Set.mem_ofPred_eq, NodeSet.containsId_of_ne_invert (by simp [ht]),
    decide_eq_true_iff, h]

theorem NodeSet.Lists.apply {a b : NodeSet} {f g : Set NodeId} (op : FilterOp) (ha : a.Lists f)
    (hb : b.Lists g) : (op.onSets a b).Lists (op.apply f g) := by
  cases op with
  | intersect =>
      refine lists_of_nodes rfl (fun id => ?_)
      rw [FilterOp.onSets, NodeSet.intersection, Finset.mem_inter, ha.mem_nodes, hb.mem_nodes]
      exact Iff.rfl
  | subtract =>
      refine lists_of_nodes rfl (fun id => ?_)
      rw [FilterOp.onSets, NodeSet.subtract, Finset.mem_sdiff, ha.mem_nodes, hb.mem_nodes]
      exact Iff.rfl
  | union =>
      refine lists_of_nodes rfl (fun id => ?_)
      rw [FilterOp.onSets, NodeSet.union, Finset.mem_union, ha.mem_nodes, hb.mem_nodes]
      exact Iff.rfl

theorem selectByName_setType {doc : Document} {xpathNode : Node} {name : List Char} {s : NodeSet}
    (h : selectByName doc xpathNode name = .ok s) : s.setType = .normal := by
  unfold selectByName at h
  split at h
  · split at h
    · simp at h
    · cases h
      rfl
  · cases h
    rfl

theorem evaluateWithFuel_setType {up : Uppsala} {doc : Document} {xpathNode : Node} {fuel : Nat}
    {expr : List Char} {s : NodeSet} (h : evaluateWithFuel up doc xpathNode fuel expr = .ok s) :
    s.setType = .normal := by
  cases fuel with
  | zero => simp [evaluateWithFuel] at h
  | succ fuel =>
      rw [evaluateWithFuel] at h
      split at h
      · cases h
        rfl
      · split at h
        · rw [bind_eq_ok] at h
          obtain ⟨l, _, h⟩ := h
          rw [bind_eq_ok] at h
          obtain ⟨r, _, hres⟩ := h
          cases hres
          rfl
        · split at h
          · exact selectByName_setType h
          · split at h
            · rw [bind_eq_ok] at h
              obtain ⟨steps, _, h⟩ := h
              rw [bind_eq_ok] at h
              obtain ⟨ns, _, hres⟩ := h
              cases hres
              rfl
            · simp at h

/-- **A child that is an operation applies it.** -/
theorem filter2Step_xpath {up : Uppsala} {doc : Document} {child : Node} (s : NodeSet)
    {e : Element} {op : FilterOp} {selection : NodeSet}
    (he : child.element? = some e) (hn : e.name.localName = "XPath")
    (hop : FilterOp.ofAttr ((up.getAttribute e "Filter").getD "") = some op)
    (hx : evaluateSimpleXPath up doc (Text.trim (child.elementText.getD "").toList) child
      = .ok selection) :
    filter2Step up doc s child = .ok (op.onSets s selection) := by
  unfold filter2Step
  simp only [he]
  rw [if_neg (by simp [hn]), bind_eq_ok]
  refine ⟨selection, hx, ?_⟩
  unfold FilterOp.ofAttr at hop
  split at hop
  · rename_i hf
    obtain rfl := Option.some.inj hop
    exact if_pos hf
  · rename_i hf₁
    rw [if_neg hf₁]
    split at hop
    · rename_i hf
      obtain rfl := Option.some.inj hop
      exact if_pos hf
    · rename_i hf₂
      rw [if_neg hf₂]
      split at hop
      · rename_i hf
        obtain rfl := Option.some.inj hop
        exact if_pos hf
      · simp at hop

theorem filter2Step_other {up : Uppsala} {doc : Document} {child : Node} (s : NodeSet)
    (h : ∀ e, child.element? = some e → e.name.localName ≠ "XPath") :
    filter2Step up doc s child = .ok s := by
  unfold filter2Step
  cases he : child.element? with
  | none => rfl
  | some e => exact if_pos (h e he)

/-- **The fold of the code is the fold of sets.** -/
theorem Folds.run {up : Uppsala} {doc : Document} {children : List Node} {f g : Set NodeId}
    (h : Folds up doc children f g) {s : NodeSet} (hs : s.Lists f) :
    ∃ t, children.foldlM (filter2Step up doc) s = .ok t ∧ t.Lists g := by
  induction h generalizing s with
  | nil f => exact ⟨s, rfl, hs⟩
  | other hother _ ih =>
      obtain ⟨t, hrun, ht⟩ := ih hs
      exact ⟨t, Fold.cons_ok.mpr ⟨s, filter2Step_other s hother, hrun⟩, ht⟩
  | xpath he hn hop hx _ ih =>
      obtain ⟨t, hrun, ht⟩ := ih (hs.apply _ ⟨evaluateWithFuel_setType hx, rfl⟩)
      exact ⟨t, Fold.cons_ok.mpr ⟨_, filter2Step_xpath s he hn hop hx, hrun⟩, ht⟩

theorem all_lists (doc : Document) : (NodeSet.all doc).Lists { id | id ∈ doc.ids } := by
  refine NodeSet.lists_of_nodes rfl (fun id => ?_)
  simp [NodeSet.all, NodeSet.fromIds, Document.ids]

theorem Folds.filter2Ns {up : Uppsala} {doc : Document} {transformNode : Node} {g : Set NodeId}
    (h : Folds up doc transformNode.children { id | id ∈ doc.ids } g) :
    ∃ t, Bergshamra.filter2Ns up doc transformNode = .ok t ∧ t.Lists g ∧ t.Plain := by
  obtain ⟨t, hrun, ht⟩ := h.run (all_lists doc)
  exact ⟨t, hrun, ht, filter2Ns_plain hrun⟩

/-! ## When the transform meets the input with the filter -/

/-- The set lists what it leaves out, and the filter has nodes for it to leave out. -/
def InvertedUnder (doc : Document) (input : Option NodeSet) (filter : Set NodeId) : Prop :=
  ∃ s, input = some s ∧ s.setType = .invert ∧ ∃ id ∈ doc.ids, id ∈ filter

theorem isVisible_iff_mem {s : Option NodeSet} {doc : Document}
    (hs : ∀ ns, s = some ns → ns.setType ≠ .invert) {id : NodeId} (hid : id ∈ doc.ids) :
    id ∈ (s.getD (NodeSet.all doc)).nodes ↔ isVisible s id = true := by
  cases s with
  | none => simpa [NodeSet.all, NodeSet.fromIds, isVisible, Document.ids] using hid
  | some ns =>
      rw [Option.getD_some, isVisible, NodeSet.containsId_of_ne_invert (hs ns rfl),
        decide_eq_true_iff]

/-- **The intersection is the meet**, but for an inverted set. -/
theorem filter2Meets_intersection_iff {doc : Document} {input : Option NodeSet} {f : NodeSet}
    {g : Set NodeId} (hf : f.Lists g) (hp : f.Plain) :
    Filter2Meets doc ((input.getD (NodeSet.all doc)).intersection f) input g
      ↔ ¬ InvertedUnder doc input g := by
  constructor
  · rintro h ⟨s, rfl, ht, id, hid, hg⟩
    have hn := h.nodes id hid
    rw [NodeSet.containsId_intersection, decide_eq_true_iff, Option.getD_some, hf.mem_nodes,
      isVisible, NodeSet.containsId_of_invert ht, decide_eq_true_iff] at hn
    by_cases hin : id ∈ s.nodes
    · exact (hn.mp ⟨hin, hg⟩).1 hin
    · exact hin (hn.mpr ⟨hin, hg⟩).1
  · intro h
    refine ⟨?_, ?_, ?_⟩
    · intro id hid
      rw [NodeSet.containsId_intersection, decide_eq_true_iff, hf.mem_nodes]
      by_cases hg : id ∈ g
      · have hs : ∀ ns, input = some ns → ns.setType ≠ .invert :=
          fun ns hns ht => h ⟨ns, hns, ht, id, hid, hg⟩
        rw [isVisible_iff_mem hs hid]
      · simp [hg]
    · intro id p
      rw [NodeSet.isNsVisible_intersection, isNsVisible_getD_all, isNsVisible_plain hp,
        Bool.and_true]
    · rw [NodeSet.excludesAttrs_intersection, excludesAttrs_getD_all, NodeSet.excludesAttrs,
        hp.excludeAttrs, Bool.or_false]

/-- **When a Filter 2.0 transform returns the input met with the filter**: exactly on XML, with a
set that does not list what it leaves out. -/
theorem filter2_meets_iff {lib : TransformLibs} {data : TransformData} {transformNode : Node}
    {xmlText : String} {input : Option NodeSet} {doc : Document} {filter : Set NodeId}
    (hdata : data.asXml? = some (xmlText, input)) (hdoc : lib.parse xmlText = .ok doc)
    (hfolds : Folds lib.toUppsala doc transformNode.children { id | id ∈ doc.ids } filter) :
    (∃ r, applyXPathFilter2Transform lib data transformNode = .ok (.xml xmlText (some r))
        ∧ Filter2Meets doc r input filter)
      ↔ (∃ nodeSet, data = .xml xmlText nodeSet) ∧ ¬ InvertedUnder doc input filter := by
  obtain ⟨f, hf, hlists, hplain⟩ := hfolds.filter2Ns
  cases data with
  | binary bytes =>
      simp [applyXPathFilter2Transform]
  | xml text nodeSet =>
      obtain ⟨rfl, rfl⟩ : text = xmlText ∧ nodeSet = input := by
        simpa [TransformData.asXml?] using hdata
      rw [← filter2Meets_intersection_iff hlists hplain]
      constructor
      · rintro ⟨r, hr, hmeets⟩
        rw [applyXPathFilter2Transform_xml hdoc] at hr
        obtain ⟨f', hf', heq⟩ := hr
        rw [hf, Except.ok.injEq] at hf'
        subst hf'
        simp only [TransformData.xml.injEq, true_and, Option.some.injEq] at heq
        exact ⟨⟨nodeSet, rfl⟩, heq ▸ hmeets⟩
      · rintro ⟨_, hmeets⟩
        exact ⟨_, (applyXPathFilter2Transform_xml hdoc).mpr ⟨f, hf, rfl⟩, hmeets⟩

/-! ## Octets are not filtered -/

/-- `<XPath Filter="subtract">//secret</XPath>` in its transform element. -/
def sampleSubtract : Node :=
  ⟨10, [], .node (Sample.element "Transform" [])
    (.node 11 (Sample.element "XPath" [Sample.attr "Filter" "subtract"])
      (.leaf 12 (.text "//secret") .nil) .nil)⟩

/-- `<doc><secret/></doc>`. -/
def sampleSecret : Document where
  root := 0
  top := .node 1 ⟨⟨none, "doc", none⟩, [], []⟩ (.node 2 ⟨⟨none, "secret", none⟩, [], []⟩ .nil .nil)
    .nil
  nodup := by
    show [0, 1, 2].Nodup
    decide

def sampleSecretLibs : TransformLibs := .ofParser (fun _ => .ok sampleSecret)

/-- The selection of `//secret`. -/
def sampleSelection : NodeSet := .fromIds {2} .normal

theorem folds_sampleSubtract :
    Folds sampleSecretLibs.toUppsala sampleSecret sampleSubtract.children
      { id | id ∈ sampleSecret.ids } ({ id | id ∈ sampleSecret.ids } \ sampleSelection.members) :=
  .xpath (show _ = some (Sample.element "XPath" [Sample.attr "Filter" "subtract"]) from rfl) rfl
    (show _ = some FilterOp.subtract by decide) (show _ = Except.ok sampleSelection from rfl) (.nil _)

theorem filter2_meets_iff_sample :
    (TransformData.xml "" none).asXml? = some ("", none)
      ∧ ((∃ r, applyXPathFilter2Transform sampleSecretLibs (.xml "" none) sampleSubtract
            = .ok (.xml "" (some r))
          ∧ Filter2Meets sampleSecret r none
            ({ id | id ∈ sampleSecret.ids } \ sampleSelection.members))
        ↔ (∃ nodeSet, TransformData.xml "" none = .xml "" nodeSet)
          ∧ ¬ InvertedUnder sampleSecret none
            ({ id | id ∈ sampleSecret.ids } \ sampleSelection.members)) :=
  ⟨rfl, filter2_meets_iff rfl rfl folds_sampleSubtract⟩

/-- Every input that can be read as XML is met with the filter. -/
def Filter2MeetsInput : Prop :=
  ∀ (lib : TransformLibs) (data : TransformData) (transformNode : Node) (xmlText : String)
    (input : Option NodeSet) (doc : Document) (filter : Set NodeId),
    data.asXml? = some (xmlText, input) → lib.parse xmlText = .ok doc →
    Folds lib.toUppsala doc transformNode.children { id | id ∈ doc.ids } filter →
    ∃ r, applyXPathFilter2Transform lib data transformNode = .ok (.xml xmlText (some r))
      ∧ Filter2Meets doc r input filter

theorem fromUTF8?_toUTF8 (s : String) : String.fromUTF8? s.toUTF8 = some s := by
  have h : s.toByteArray.IsValidUTF8 := s.isValidUTF8
  simp only [String.fromUTF8?, String.toUTF8_eq_toByteArray, dif_pos h]
  rfl

/-- The octets of `<doc><secret/></doc>` are handed on with the secret. -/
theorem octets_not_filtered : ¬ Filter2MeetsInput := by
  intro h
  have hdata : (TransformData.binary "<doc><secret/></doc>".toUTF8).asXml?
      = some ("<doc><secret/></doc>", none) := by
    rw [TransformData.asXml?, fromUTF8?_toUTF8]
    rfl
  obtain ⟨r, hr, _⟩ := h sampleSecretLibs _ sampleSubtract _ _ sampleSecret _ hdata rfl
    folds_sampleSubtract
  simp [applyXPathFilter2Transform] at hr

end Bergshamra
