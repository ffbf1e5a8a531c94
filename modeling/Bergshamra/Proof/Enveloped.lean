import Bergshamra.Proof.Written
import Bergshamra.Transforms.Pipeline
import Mathlib.Data.Fintype.EquivFin

/-!
# The enveloped signature and what it covers

After the enveloped-signature transform the canonical form should not depend on
anything inside the signature. It does not, except for two pieces of state that
`remove_id` leaves alone. The visibility map still lists the namespace nodes of
the removed elements, and an element outside the set writes its visible
namespace nodes. And in a set of type `Invert` the listed ids are the ones
*outside*, so removing an id from the list brings the node in.

The first half shows that nothing else goes wrong: with neither of the two, the
old and the new signature are dark, and `SameView` does the rest. The second half
shows that each of the two is enough to go wrong, by replacing the signature's
contents by something longer than the whole canonical form was.
-/

namespace Bergshamra

/-- `doc'` is `doc` with other attributes, declarations and descendants for the element `n`. -/
def ReplacesContent (doc : Document) (n : Node) (doc' : Document) : Prop :=
  ∃ e attributes namespaceDeclarations kids, n.element? = some e ∧ doc'.root = doc.root
    ∧ doc'.top = doc.top.replaceNode n.key
        { e with attributes := attributes, namespaceDeclarations := namespaceDeclarations } kids

/-- `EnvelopedSignatureTransform`, then `C14nTransform`. -/
def envelopedC14n (lib : TransformLibs) (sigId : NodeId) (nodeSet : Option NodeSet)
    (t : C14nTransform) (xmlText : String) : Except Error TransformData := do
  let data ← EnvelopedSignatureTransform.execute lib sigId (.xml xmlText nodeSet)
  t.execute lib data

/-- Whatever parser read the two texts: replacing what is inside the signature `n` leaves the
octets unchanged. -/
def EnvelopedNoninterference (doc : Document) (n : Node) (nodeSet : Option NodeSet)
    (t : C14nTransform) : Prop :=
  ∀ (lib : TransformLibs) (xmlText xmlText' : String) (doc' : Document),
    lib.parse xmlText = .ok doc → lib.parse xmlText' = .ok doc' → ReplacesContent doc n doc' →
      envelopedC14n lib n.key nodeSet t xmlText = envelopedC14n lib n.key nodeSet t xmlText'

/-- The set is not inverted, and its visibility map shows no namespace node that would be
written without its element: neither at an element inside the signature, nor at an index that
no node of the document has. -/
def LeavesSignatureOut (doc : Document) (n : Node) (nodeSet : Option NodeSet)
    (t : C14nTransform) : Prop :=
  ∀ s, nodeSet = some s →
    s.setType ≠ .invert
      ∧ (s.hasNsVisible = true → ∀ i, i ∈ n.subtreeKeys ∨ i ∉ doc.root :: doc.top.keys →
          ∀ p, floats t.mode t.inclusivePrefixes p = true → s.isNsVisible i p = false)

/-! ## Through the two transforms -/

theorem envelopedC14n_eq {lib : TransformLibs} {xmlText : String} {doc : Document}
    (h : lib.parse xmlText = .ok doc) (sigId : NodeId) (nodeSet : Option NodeSet)
    (t : C14nTransform) :
    envelopedC14n lib sigId nodeSet t xmlText
      = .ok (.binary (canonicalizeDoc doc t.mode (some (envelopedNodeSet sigId doc nodeSet))
          t.inclusivePrefixes)) := by
  rw [envelopedC14n, EnvelopedSignatureTransform.execute_xml h]
  exact C14nTransform.execute_xml h t _

/-- Where the ids of the document and of its edited copy are. -/
theorem ReplacesContent.keys {doc doc' : Document} {n : Node} (hn : n ∈ doc.descendants)
    {e e' : Element} {kids kids' : Nodes} (hi : n.item = .node e kids)
    (htop : doc'.top = doc.top.replaceNode n.key e' kids') :
    doc'.idsBelow n.key = n.key :: kids'.keys
      ∧ (∀ i ∈ doc.top.keys, i ∉ n.subtreeKeys →
          i ∈ doc'.top.keys ∧ i ∉ n.key :: kids'.keys) := by
  have hmem : (⟨n.key, n.path, .node e' kids'⟩ : Node) ∈ doc'.descendants := by
    unfold Document.descendants
    rw [htop]
    exact Forest.mem_cursors_replaceNode doc.nodup_top hn hi e' kids'
  obtain ⟨before, after, h1, h2⟩ := Forest.keys_replaceNode doc.nodup_top hn hi e' kids'
  refine ⟨idsBelow_of_node hmem, ?_⟩
  intro i hmi hni
  -- a node outside of the signature comes before or after it, in both documents
  have hside : i ∈ before ∨ i ∈ after := by
    rw [h1, List.mem_append, List.mem_append] at hmi
    rcases hmi with (hmi | hmi) | hmi
    · exact Or.inl hmi
    · exact absurd hmi hni
    · exact Or.inr hmi
  have hnodup := doc'.nodup_top
  rw [htop, h2] at hnodup ⊢
  rw [List.append_assoc, List.nodup_append, List.nodup_append] at hnodup
  obtain ⟨_, ⟨_, _, hmid⟩, hpre⟩ := hnodup
  refine ⟨?_, ?_⟩
  · rcases hside with h | h
    · simp [h]
    · simp [h]
  · intro hin
    rcases hside with h | h
    · exact hpre i h i (List.mem_append_left _ hin) rfl
    · exact hmid i hin i h rfl

/-! ## When it holds -/

theorem envelopedNodeSet_settings (sigId : NodeId) (doc doc' : Document)
    (nodeSet : Option NodeSet) :
    SameSettingsOf (some (envelopedNodeSet sigId doc nodeSet))
      (some (envelopedNodeSet sigId doc' nodeSet)) := by
  unfold envelopedNodeSet
  refine ⟨rfl, ?_, ?_⟩
  · cases nodeSet <;> simp [hasNsFilter, NodeSet.all]
  · cases nodeSet <;> simp [NodeSet.all]

/-- The set the transform starts from, which is not inverted. -/
theorem LeavesSignatureOut.setType {doc : Document} {n : Node} {nodeSet : Option NodeSet}
    {t : C14nTransform} (h : LeavesSignatureOut doc n nodeSet t) (d : Document) :
    (nodeSet.getD (NodeSet.all d)).setType ≠ .invert := by
  cases nodeSet with
  | none => simp [NodeSet.all, NodeSet.fromIds]
  | some s => exact (h s rfl).1

/-- With the condition, a subtree of removed ids is dark. -/
theorem LeavesSignatureOut.dark {doc d : Document} {n : Node} {nodeSet : Option NodeSet}
    {t : C14nTransform} (h : LeavesSignatureOut doc n nodeSet t) {e : Element} {kids : Nodes}
    (hids : d.idsBelow n.key = n.key :: kids.keys)
    (hin : ∀ i ∈ n.key :: kids.keys, i ∈ n.subtreeKeys ∨ i ∉ doc.root :: doc.top.keys) :
    Dark (floats t.mode t.inclusivePrefixes) (some (envelopedNodeSet n.key d nodeSet))
      (.node n.key e kids .nil) := by
  have hkeys : (Forest.node n.key e kids .nil : Nodes).keys = n.key :: kids.keys := by simp
  refine dark_of_keys ?_ ?_
  · intro i hi
    rw [hkeys] at hi
    rw [isVisible, envelopedNodeSet, containsId_removeSubtree (h.setType d), hids]
    simp only [Bool.and_eq_false_iff, decide_eq_false_iff_not, not_not]
    exact Or.inr hi
  · intro hf i hi p hp
    rw [hkeys] at hi
    cases nodeSet with
    | none => simp [hasNsFilter, envelopedNodeSet, NodeSet.all] at hf
    | some s =>
        have hns : s.hasNsVisible = true := by simpa [hasNsFilter, envelopedNodeSet] using hf
        have := (h s rfl).2 hns i (hin i hi) p hp
        simpa [showsNs, envelopedNodeSet] using this

/-- **Noninterference.** Under the condition nothing inside the signature is written. -/
theorem LeavesSignatureOut.noninterference {doc : Document} {n : Node}
    {nodeSet : Option NodeSet} {t : C14nTransform} (hn : n ∈ doc.descendants)
    (h : LeavesSignatureOut doc n nodeSet t) : EnvelopedNoninterference doc n nodeSet t := by
  intro lib xmlText xmlText' doc' hparse hparse' hrep
  obtain ⟨e, attributes, decls, kids', he, hroot, htop⟩ := hrep
  obtain ⟨kids, hi⟩ : ∃ kids, n.item = .node e kids := by
    unfold Node.element? at he
    cases hit : n.item with
    | leaf k => simp [hit] at he
    | node e₀ kids => simp only [hit, Option.some.injEq] at he; exact ⟨kids, by rw [he]⟩
  obtain ⟨hids', hout⟩ := ReplacesContent.keys hn hi htop
  have hsub : n.subtreeKeys = n.key :: kids.keys := by
    rw [Forest.Cursor.subtreeKeys, Forest.Cursor.kids, hi]
  have hids : doc.idsBelow n.key = n.key :: kids.keys := by rw [idsBelow_of_node hn, hsub]
  rw [envelopedC14n_eq hparse, envelopedC14n_eq hparse',
    canonicalizeDoc_sameView t.mode t.inclusivePrefixes (envelopedNodeSet_settings _ _ _ _)]
  rw [htop]
  refine .replaceNode true doc.nodup_top hn hi ?_ (h.dark hids ?_) (h.dark hids' ?_)
  · -- a node outside the signature is shown as the input set showed it
    intro i hmi hni
    refine ⟨?_, ?_⟩
    · have h1 : i ∉ n.key :: kids.keys := hsub ▸ hni
      have h2 := hout i hmi hni
      unfold isVisible envelopedNodeSet
      dsimp only
      rw [containsId_removeSubtree (h.setType doc), containsId_removeSubtree (h.setType doc'),
        hids, hids']
      cases nodeSet with
      | none => simp [NodeSet.all, hmi, h2.1, h1, h2.2]
      | some s => simp [h1, h2.2]
    · intro p
      unfold showsNs envelopedNodeSet
      cases nodeSet <;> simp [NodeSet.all]
  · intro i hm
    exact Or.inl (hsub ▸ hm)
  · -- an index of the new content is one of the old signature, or is free
    intro i hm
    by_cases hs : i ∈ n.subtreeKeys
    · exact Or.inl hs
    · refine Or.inr ?_
      intro hdoc
      rcases List.mem_cons.mp hdoc with hdoc | hdoc
      · -- the document node's index is taken in the edited copy too
        have hmem' : i ∈ doc'.top.keys := by
          obtain ⟨before, after, _, h2⟩ :=
            Forest.keys_replaceNode doc.nodup_top hn hi
              { e with attributes := attributes, namespaceDeclarations := decls } kids'
          rw [htop, h2]
          simp only [List.mem_append]
          exact Or.inl (Or.inr hm)
        exact doc'.root_not_mem (by rw [hroot, ← hdoc]; exact hmem')
      · exact (hout i hdoc hs).2 hm

/-! ## When it fails -/

/-- A parser that knows two texts. -/
def twoTexts (doc doc' : Document) : TransformLibs :=
  .ofParser (fun text => if text = "" then .ok doc else .ok doc')

theorem EnvelopedNoninterference.text_eq {doc : Document} {n : Node} {nodeSet : Option NodeSet}
    {t : C14nTransform} (h : EnvelopedNoninterference doc n nodeSet t) {doc' : Document}
    (hrep : ReplacesContent doc n doc') :
    canonicalText doc t.mode (some (envelopedNodeSet n.key doc nodeSet)) t.inclusivePrefixes
      = canonicalText doc' t.mode (some (envelopedNodeSet n.key doc' nodeSet))
          t.inclusivePrefixes := by
  have hd : (twoTexts doc doc').parse "" = .ok doc := rfl
  have hd' : (twoTexts doc doc').parse "x" = .ok doc' := rfl
  have heq := h (twoTexts doc doc') "" "x" doc' hd hd' hrep
  rw [envelopedC14n_eq hd, envelopedC14n_eq hd'] at heq
  simp only [Except.ok.injEq, TransformData.binary.injEq] at heq
  exact canonicalizeDoc_eq_iff.mp heq

/-- New contents with ids of their own make a document. -/
theorem nodup_replaceNode {doc : Document} {n : Node} (hn : n ∈ doc.descendants) {e : Element}
    {kids : Nodes} (hi : n.item = .node e kids) (e' : Element) {kids' : Nodes}
    (hk : kids'.keys.Nodup)
    (hout : ∀ i ∈ kids'.keys, i ≠ n.key ∧ (i ∈ n.subtreeKeys ∨ i ∉ doc.root :: doc.top.keys)) :
    (doc.root :: (doc.top.replaceNode n.key e' kids').keys).Nodup := by
  obtain ⟨before, after, h1, h2⟩ := Forest.keys_replaceNode doc.nodup_top hn hi e' kids'
  have hnodup := doc.nodup
  have hkey : n.key ∈ n.subtreeKeys := List.mem_cons_self
  rw [h1] at hnodup hout
  rw [h2]
  simp only [List.nodup_cons, List.nodup_append, List.mem_append, List.mem_cons, not_or] at *
  grind

/-- Editing the contents of `n` in a document. -/
theorem exists_replacesContent {doc : Document} {n : Node} (hn : n ∈ doc.descendants)
    {e : Element} {kids : Nodes} (hi : n.item = .node e kids) (decls : List (String × String))
    (kids' : Nodes) (hk : kids'.keys.Nodup)
    (hout : ∀ i ∈ kids'.keys, i ≠ n.key ∧ (i ∈ n.subtreeKeys ∨ i ∉ doc.root :: doc.top.keys)) :
    ∃ doc', ReplacesContent doc n doc'
      ∧ (⟨n.key, n.path, .node { e with attributes := [], namespaceDeclarations := decls } kids'⟩
          : Node) ∈ doc'.descendants := by
  have he : n.element? = some e := by simp [Node.element?, hi]
  refine ⟨⟨doc.root, _, nodup_replaceNode hn hi
    { e with attributes := [], namespaceDeclarations := decls } hk hout⟩,
    ⟨e, [], decls, kids', he, rfl, rfl⟩, ?_⟩
  exact Forest.mem_cursors_replaceNode doc.nodup_top hn hi _ kids'

/-- A string of the given length. -/
def filler (n : Nat) : String := String.ofList (List.replicate n 'a')

@[simp] theorem length_filler (n : Nat) : (filler n).length = n := by
  simp [filler]

theorem filler_isEmpty (n : Nat) : (filler (n + 1)).isEmpty = false := by
  rw [← Bool.not_eq_true, String.isEmpty_iff]
  intro h
  have := congrArg String.length h
  simp at this

/-- An inverted set lets the new contents in. -/
theorem EnvelopedNoninterference.not_invert {doc : Document} {n : Node} {s : NodeSet}
    {t : C14nTransform} (h : EnvelopedNoninterference doc n (some s) t)
    (hn : n ∈ doc.descendants) {e : Element} {kids : Nodes} (hi : n.item = .node e kids) :
    s.setType ≠ .invert := by
  intro hinv
  obtain ⟨j, hj⟩ := Infinite.exists_notMem_finset (doc.root :: doc.top.keys).toFinset
  rw [List.mem_toFinset] at hj
  have hjn : j ≠ n.key := by
    intro he
    exact hj (List.mem_cons_of_mem _ (he ▸ Document.mem_descendants_key hn))
  let size := (canonicalText doc t.mode (some (envelopedNodeSet n.key doc (some s)))
    t.inclusivePrefixes).length
  -- a text longer than all that was written
  have hout : ∀ i ∈ (Forest.leaf j (.text (filler (size + 1))) .nil : Nodes).keys,
      i ≠ n.key ∧ (i ∈ n.subtreeKeys ∨ i ∉ doc.root :: doc.top.keys) := by
    intro i hm
    rw [Forest.keys_leaf, Forest.keys_nil, List.mem_singleton] at hm
    subst hm
    exact ⟨hjn, Or.inr hj⟩
  obtain ⟨doc', hrep, hmem⟩ := exists_replacesContent hn hi [] _ (by simp) hout
  have hvis : isVisible (some (envelopedNodeSet n.key doc' (some s))) j = true := by
    rw [isVisible, envelopedNodeSet, Option.getD_some, containsId_removeSubtree_invert hinv,
      idsBelow_of_node hmem]
    simp [Forest.Cursor.subtreeKeys, Forest.Cursor.kids]
  have hlen := length_le_of_text t.mode t.inclusivePrefixes hmem rfl hvis
  rw [← h.text_eq hrep, length_filler] at hlen
  exact absurd hlen (Nat.not_succ_le_self _)

/-- The contents of the signature can be made to declare any binding at any index that is
free for them, always below the same elements and with the same set left by the transform. -/
theorem exists_declares {doc : Document} {n : Node} (hn : n ∈ doc.descendants) {e : Element}
    {kids : Nodes} (hi : n.item = .node e kids) {s : NodeSet} (hs : s.setType ≠ .invert)
    {i : NodeId} (hfree : i ∈ n.subtreeKeys ∨ i ∉ doc.root :: doc.top.keys) (p : String) :
    ∃ path left, isVisible (some left) i = false
      ∧ ∀ uri, ∃ doc' e' kids', ReplacesContent doc n doc'
        ∧ (⟨i, path, .node e' kids'⟩ : Node) ∈ doc'.descendants
        ∧ e'.namespaceDeclarations = [(p, uri)] ∧ envelopedNodeSet n.key doc' (some s) = left := by
  by_cases hin : i = n.key
  · -- the signature itself declares the prefix
    subst hin
    refine ⟨n.path, { s with nodes := s.nodes \ [n.key].toFinset }, ?_, ?_⟩
    · rw [isVisible, NodeSet.containsId_of_ne_invert (by exact hs)]
      simp
    · intro uri
      obtain ⟨doc', hrep, hmem⟩ :=
        exists_replacesContent hn hi [(p, uri)] .nil (by simp) (by simp)
      refine ⟨doc', _, _, hrep, hmem, rfl, ?_⟩
      rw [envelopedNodeSet, Option.getD_some, removeSubtree_eq, idsBelow_of_node hmem]
      rfl
  · -- a child of the signature at the free index
    refine ⟨(n.key, { e with attributes := [], namespaceDeclarations := [] }) :: n.path,
      { s with nodes := s.nodes \ [n.key, i].toFinset }, ?_, ?_⟩
    · rw [isVisible, NodeSet.containsId_of_ne_invert (by exact hs)]
      simp
    · intro uri
      have hout : ∀ j ∈ (Forest.node i ⟨e.name, [], [(p, uri)]⟩ .nil .nil : Nodes).keys,
          j ≠ n.key ∧ (j ∈ n.subtreeKeys ∨ j ∉ doc.root :: doc.top.keys) := by
        intro j hm
        simp only [Forest.keys_node, Forest.keys_nil, List.append_nil, List.mem_singleton] at hm
        subst hm
        exact ⟨hin, hfree⟩
      obtain ⟨doc', hrep, hmem⟩ := exists_replacesContent hn hi [] _ (by simp) hout
      refine ⟨doc', ⟨e.name, [], [(p, uri)]⟩, .nil, hrep,
        Forest.mem_cursors_descendants hmem ?_, rfl, ?_⟩
      · simp [Forest.Cursor.descendants, Forest.Cursor.kids, Forest.Cursor.kidsPath,
          Forest.cursors]
      · rw [envelopedNodeSet, Option.getD_some, removeSubtree_eq, idsBelow_of_node hmem]
        simp [Forest.Cursor.subtreeKeys, Forest.Cursor.kids]

/-- A visible namespace node inside the signature, or where its contents may go, is written. -/
theorem EnvelopedNoninterference.not_visible {doc : Document} {n : Node} {s : NodeSet}
    {t : C14nTransform} (h : EnvelopedNoninterference doc n (some s) t)
    (hn : n ∈ doc.descendants) {e : Element} {kids : Nodes} (hi : n.item = .node e kids)
    (hs : s.setType ≠ .invert) (hf : s.hasNsVisible = true) {i : NodeId}
    (hfree : i ∈ n.subtreeKeys ∨ i ∉ doc.root :: doc.top.keys) {p : String}
    (hp : floats t.mode t.inclusivePrefixes p = true) : s.isNsVisible i p = false := by
  by_contra hvis
  rw [Bool.not_eq_false] at hvis
  obtain ⟨path, left, hleft, hall⟩ := exists_declares hn hi hs hfree p
  let size := (canonicalText doc t.mode (some (envelopedNodeSet n.key doc (some s)))
    t.inclusivePrefixes).length
  let carried := carriedAt t.mode (some left) t.inclusivePrefixes path
  -- a binding that is news at that place is written, so it cannot be longer than everything
  have hshort : ∀ k, size ≤ k → carried[p]? = some (filler (k + 1)) := by
    intro k hk
    by_contra hnew
    obtain ⟨doc', e', kids', hrep, hmem, hdecl, hset⟩ := hall (filler (k + 1))
    have hf' : hasNsFilter (some left) = true := by
      rw [← hset]
      simpa [hasNsFilter, envelopedNodeSet] using hf
    have hs' : showsNs (some left) i p = true := by
      rw [← hset]
      simpa [showsNs, envelopedNodeSet] using hvis
    have hlen := length_le_of_float hmem rfl hleft hf' hdecl hp hs' (filler_isEmpty k) hnew
    rw [← hset, ← h.text_eq hrep, length_filler] at hlen
    exact absurd (Nat.lt_of_lt_of_le hlen hk) (Nat.lt_irrefl k)
  have h1 := hshort size le_rfl
  have h2 := hshort (size + 1) (Nat.le_succ _)
  rw [h1, Option.some.injEq] at h2
  have := congrArg String.length h2
  simp at this

/-- **When the transform keeps the signature out.** For an element `n` of a document, an input
node set and a canonicalization: replacing what is inside `n` never changes the octets exactly
when the set is not inverted and shows no namespace node inside `n` that floats. -/
theorem enveloped_noninterference_iff (doc : Document) (n : Node) (hn : n ∈ doc.descendants)
    (he : n.element?.isSome) (nodeSet : Option NodeSet) (t : C14nTransform) :
    EnvelopedNoninterference doc n nodeSet t ↔ LeavesSignatureOut doc n nodeSet t := by
  refine ⟨?_, fun h => h.noninterference hn⟩
  intro h s hs
  subst hs
  obtain ⟨id, path, item⟩ := n
  cases item with
  | leaf k => simp [Node.element?] at he
  | node e kids =>
      have hinv := h.not_invert hn rfl
      refine ⟨hinv, ?_⟩
      intro hf i hfree p hp
      exact h.not_visible hn rfl hinv hf hfree hp

/-- `<doc><ds:Signature xmlns:x="uri"/></doc>`, the prefix `ds` bound by `doc`. -/
def sampleSigned (uri : String) : Document where
  root := 0
  top := .node 1 ⟨⟨none, "doc", none⟩, [], [("ds", Ns.DSIG)]⟩
    (.node 2 ⟨⟨some "ds", "Signature", some Ns.DSIG⟩, [], [("x", uri)]⟩ .nil .nil) .nil
  nodup := by
    show [0, 1, 2].Nodup
    decide

def sampleSignature (uri : String) : Node :=
  ⟨2, [(1, ⟨⟨none, "doc", none⟩, [], [("ds", Ns.DSIG)]⟩)],
    .node ⟨⟨some "ds", "Signature", some Ns.DSIG⟩, [], [("x", uri)]⟩ .nil⟩

/-- All nodes, and the namespace nodes of prefix `x`: what the filter `name() != 'ds'` leaves. -/
def sampleFiltered : NodeSet :=
  ⟨{1, 2}, .normal, some (fun i p => if i = 2 ∧ p = "x" then some true else some false), false⟩

/-- The exclusive form asks for no prefix but those of its list. -/
theorem enveloped_noninterference_iff_sample :
    EnvelopedNoninterference (sampleSigned "urn:1") (sampleSignature "urn:1") (some sampleFiltered)
      ⟨.exclusive, ["y"]⟩ := by
  refine (enveloped_noninterference_iff _ _ (by decide) rfl _ _).mpr ?_
  intro s hs
  cases hs
  refine ⟨by decide, fun _ i _ p hp => ?_⟩
  have hlisted : ¬ p = "" ∧ p = "y" := by
    simpa [C14nMode.isExclusive, Exclusive.inPrefixList] using (Bool.and_eq_true_iff.mp hp).2
  rw [hlisted.2]
  simp [NodeSet.isNsVisible, sampleFiltered]

/-- A declaration inside the signature reaches the octets. -/
theorem enveloped_noninterference_fails :
    ¬ EnvelopedNoninterference (sampleSigned "urn:1") (sampleSignature "urn:1")
        (some sampleFiltered) ⟨.inclusive, []⟩ := by
  intro h
  have hrep : ReplacesContent (sampleSigned "urn:1") (sampleSignature "urn:1")
      (sampleSigned "urn:2") :=
    ⟨⟨⟨some "ds", "Signature", some Ns.DSIG⟩, [], [("x", "urn:1")]⟩, [], [("x", "urn:2")], .nil,
      rfl, rfl, by decide⟩
  exact absurd (h.text_eq hrep) (by decide +kernel)

end Bergshamra
