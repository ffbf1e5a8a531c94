import Bergshamra.Proof.Restrict
import Bergshamra.Proof.IdLookup

/-!
# The nodes at which an expression holds

XPath evaluates an expression at every node of the input node-set and keeps the
nodes at which it is true. `SelectsWhere` says that a node set is what is kept,
for expressions that ask only about the elements above a node: of the nodes of
the tree, of the document node, of the namespace nodes, which have the elements
above their own element and that element above them, and of the attributes.
-/

namespace Bergshamra

/-- Is the namespace node in the set? Without a visibility map it is there with its element. -/
def containsNsNode (s : Option NodeSet) (id : NodeId) (p : String) : Bool :=
  if hasNsFilter s then showsNs s id p else isVisible s id

/-- `r` holds the nodes of the input at which `test` is true; `atRoot` is its value at the document
node. -/
structure SelectsWhere (doc : Document) (input : Option NodeSet) (test : Node → Prop)
    (atRoot : Prop) (r : NodeSet) : Prop where
  nodes : ∀ n ∈ doc.descendants,
    (r.containsId n.key = true ↔ isVisible input n.key = true ∧ test n)
  root : r.containsId doc.root = true ↔ isVisible input doc.root = true ∧ atRoot
  namespaces : ∀ n ∈ doc.descendants, ∀ p, doc.HasNsNode n.key p →
    (containsNsNode (some r) n.key p = true ↔ containsNsNode input n.key p = true ∧ test n)
  attributes : r.excludesAttrs = input.any NodeSet.excludesAttrs

/-- `ancestor-or-self::` with a name test, at a node. -/
def UnderNamed (nsUri localName : String) (n : Node) : Prop :=
  n.elements.any (fun e => e.isNamed nsUri localName) = true

/-- **Under an element of a name** is below one of the elements of that name. -/
theorem underNamed_iff {doc : Document} {nsUri localName : String} {n : Node}
    (hn : n ∈ doc.descendants) :
    UnderNamed nsUri localName n
      ↔ ∃ s ∈ doc.descendants, s.isNamed nsUri localName = true ∧ n.key ∈ s.subtreeKeys := by
  let test (e : Element) : Bool := e.isNamed nsUri localName
  have hsub := mem_subtreesOf_iff (q := fun es => es.head?.any test = true)
    (fun m => mem_filter_element m) hn
  rw [exists_suffix_iff] at hsub
  refine hsub.symm.trans ?_
  simp only [subtreesOf, NodeSet.fromIds, List.mem_toFinset, List.mem_flatMap, List.mem_filter]
  constructor
  · rintro ⟨s, ⟨hs, hname⟩, hk⟩
    exact ⟨s, hs, hname, hk⟩
  · rintro ⟨s, hs, hname, hk⟩
    exact ⟨s, ⟨hs, hname⟩, hk⟩

end Bergshamra
