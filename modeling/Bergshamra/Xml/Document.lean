import Bergshamra.Core
import Bergshamra.Lib.Forest

/-!
# The document tree

The tree the XML parser hands out, as the rest of the code sees it. Text, CDATA
sections, comments and processing instructions are leaves; elements are nodes.
A `NodeId` is the bare index the parser gives a node, and the document node has
an index too. Indices are only promised to be distinct.

The code asks the tree for `parent`, `children`, `element` and `node_kind` of an
id. A `Node` is an id together with the answers: loops that walk `parent` up to
the root are folds over `path`, loops over `children` are recursions on `kids`.
-/

namespace Bergshamra

/-- `NodeId::index`. -/
abbrev NodeId := Nat

/-- A qualified name with its resolved namespace. -/
structure QName where
  pfx : Option String
  localName : String
  namespaceUri : Option String
deriving DecidableEq, Repr

/-- `namespace_uri.as_deref().unwrap_or("")`. -/
def QName.uri (q : QName) : String := q.namespaceUri.getD ""

/-- An attribute; namespace declarations are kept apart from these. -/
structure Attribute where
  name : QName
  value : String
deriving DecidableEq, Repr

/-- A start tag. -/
structure Element where
  name : QName
  attributes : List Attribute
  namespaceDeclarations : List (String × String)
deriving DecidableEq, Repr

/-- The local name and namespace the code compares elements with. -/
def Element.isNamed (e : Element) (nsUri localName : String) : Bool :=
  e.name.localName == localName && e.name.uri == nsUri

/-- The kinds of node that have no children. -/
inductive LeafKind where
  | text (t : String)
  | cdata (t : String)
  | comment (t : String)
  | pi (target : String) (data : Option String)
deriving DecidableEq, Repr

/-- `matches!(kind, Comment(_))`. -/
def LeafKind.isComment : LeafKind → Bool
  | .comment _ => true
  | _ => false

/-- The text of a text or CDATA node. -/
def LeafKind.text? : LeafKind → Option String
  | .text t => some t
  | .cdata t => some t
  | _ => none

/-- A row of sibling nodes. -/
abbrev Nodes := Forest NodeId Element LeafKind

/-- A node with its ancestors (nearest first) and what lies below it. -/
abbrev Node := Forest.Cursor NodeId Element LeafKind

/-- A parsed document: the document node's id and the row below it. -/
structure Document where
  root : NodeId
  top : Nodes
  /-- Every node has an id of its own. -/
  nodup : (root :: top.keys).Nodup

namespace Document

/-- The index of every node, the document node's first. -/
def ids (doc : Document) : List NodeId := doc.root :: doc.top.keys

/-- `descendants(root)`: every node below the document node, in document order. -/
def descendants (doc : Document) : List Node := doc.top.cursors []

/-- `children(root)`. -/
def children (doc : Document) : List Node := doc.top.row []

/-- The node with the given index, when there is one below the document node. -/
def node? (doc : Document) (id : NodeId) : Option Node :=
  doc.descendants.find? (fun n => n.key == id)

/-- `document_element()`. -/
def documentElement (doc : Document) : Option Node :=
  doc.children.find? (fun n => match n.item with | .node _ _ => true | .leaf _ => false)

theorem nodup_top (doc : Document) : doc.top.keys.Nodup := (List.nodup_cons.mp doc.nodup).2

theorem root_not_mem (doc : Document) : doc.root ∉ doc.top.keys :=
  (List.nodup_cons.mp doc.nodup).1

theorem nodup_descendants (doc : Document) : doc.descendants.Nodup := by
  have hkeys := doc.nodup_top
  rw [← Forest.cursors_keys []] at hkeys
  exact List.Nodup.of_map _ hkeys

theorem mem_descendants_key {doc : Document} {n : Node} (h : n ∈ doc.descendants) :
    n.key ∈ doc.top.keys := Forest.mem_cursors_key h

/-- Looking a node up by its own index finds that node. -/
theorem node?_key {doc : Document} {n : Node} (h : n ∈ doc.descendants) :
    doc.node? n.key = some n := by
  unfold node?
  cases hf : doc.descendants.find? (fun m => m.key == n.key) with
  | none =>
      have := List.find?_eq_none.mp hf n h
      simp at this
  | some m =>
      have hm : m ∈ doc.descendants := List.mem_of_find?_eq_some hf
      have hk : m.key = n.key := by simpa using List.find?_some hf
      rw [Forest.cursor_eq_of_key doc.nodup_top hm h hk]

theorem mem_of_node? {doc : Document} {id : NodeId} {n : Node} (h : doc.node? id = some n) :
    n ∈ doc.descendants ∧ n.key = id :=
  ⟨List.mem_of_find?_eq_some h, by simpa using List.find?_some h⟩

end Document

namespace Node

/-- `doc.element(id)`. -/
def element? (n : Node) : Option Element :=
  match n.item with
  | .node e _ => some e
  | .leaf _ => none

/-- `doc.node_kind(id)` of a node without children. -/
def leaf? (n : Node) : Option LeafKind :=
  match n.item with
  | .node _ _ => none
  | .leaf k => some k

/-- `doc.parent(id)`; `none` stands for the document node, which has no element. -/
def parentElement? (n : Node) : Option (NodeId × Element) := n.path.head?

/-- Is the node an element with this namespace and local name? -/
def isNamed (n : Node) (nsUri localName : String) : Bool :=
  n.element?.any (fun e => e.isNamed nsUri localName)

/-- `element_text`: the text of the first text or CDATA child. -/
def elementText (n : Node) : Option String :=
  n.children.findSome? (fun c : Node => c.leaf?.bind LeafKind.text?)

/-- `text_content_deep`: the text of every text and CDATA node below. -/
def textContentDeep (n : Node) : String :=
  String.join (n.descendants.filterMap (fun c : Node => c.leaf?.bind LeafKind.text?))

/-- `find_child_element`. -/
def findChildElement (n : Node) (nsUri localName : String) : Option Node :=
  n.children.find? (fun c : Node => c.isNamed nsUri localName)

/-- `find_child_elements`. -/
def findChildElements (n : Node) (nsUri localName : String) : List Node :=
  n.children.filter (fun c : Node => c.isNamed nsUri localName)

end Node

/-- `find_element`: the first element of the document with this name. -/
def Document.findElement (doc : Document) (nsUri localName : String) : Option Node :=
  doc.descendants.find? (fun n : Node => n.isNamed nsUri localName)

namespace Node

theorem isNamed_iff {n : Node} {nsUri localName : String} :
    n.isNamed nsUri localName = true
      ↔ ∃ e, n.element? = some e ∧ e.isNamed nsUri localName = true := by
  unfold Node.isNamed
  cases n.element? <;> simp

theorem findChildElement_some {n c : Node} {nsUri localName : String}
    (h : n.findChildElement nsUri localName = some c) :
    c ∈ n.children ∧ ∃ e, c.element? = some e ∧ e.isNamed nsUri localName = true := by
  unfold Node.findChildElement at h
  have hp := List.find?_some h
  exact ⟨List.mem_of_find?_eq_some h, isNamed_iff.mp hp⟩

theorem mem_findChildElements {n c : Node} {nsUri localName : String}
    (h : c ∈ n.findChildElements nsUri localName) :
    c ∈ n.children ∧ ∃ e, c.element? = some e ∧ e.isNamed nsUri localName = true := by
  obtain ⟨hc, hp⟩ := List.mem_filter.mp h
  exact ⟨hc, isNamed_iff.mp hp⟩

/-- A child's chain starts with its parent. -/
theorem path_of_child {n c : Node} (h : c ∈ n.children) {e : Element} (he : n.element? = some e) :
    c.path = (n.key, e) :: n.path := by
  obtain ⟨key, path, item⟩ := n
  cases item with
  | leaf k => simp [Node.element?] at he
  | node e' kids =>
      have hp := Forest.row_path h
      rw [hp]
      simp only [Node.element?, Option.some.injEq] at he
      rw [← he]
      rfl

end Node

/-- What is on a node's chain is an element of the document that has the node below it. -/
theorem Document.exists_ancestor {doc : Document} {n : Node} (hn : n ∈ doc.descendants)
    {a : NodeId × Element} (ha : a ∈ n.path) :
    ∃ m ∈ doc.descendants, m.key = a.1 ∧ m.element?.isSome = true ∧ n ∈ m.descendants := by
  rcases Forest.descendant_of_mem_path hn ha with hmem | ⟨m, hm, hk, hd⟩
  · simp at hmem
  · obtain ⟨e, kids, hi⟩ := Forest.Cursor.item_of_descendant hd
    exact ⟨m, hm, hk, by simp [Node.element?, hi], hd⟩

/-- An element has one local name. -/
theorem Element.not_isNamed {e : Element} {nsUri nsUri' a b : String}
    (h : e.isNamed nsUri a = true) (hab : a ≠ b) : e.isNamed nsUri' b = false := by
  simp only [Element.isNamed, Bool.and_eq_true, beq_iff_eq, Bool.and_eq_false_iff,
    beq_eq_false_iff_ne] at h ⊢
  exact Or.inl (by rw [h.1]; exact hab)

theorem Document.findElement_some {doc : Document} {n : Node} {nsUri localName : String}
    (h : doc.findElement nsUri localName = some n) :
    n ∈ doc.descendants ∧ ∃ e, n.element? = some e ∧ e.isNamed nsUri localName = true := by
  unfold Document.findElement at h
  have hp := List.find?_some h
  exact ⟨List.mem_of_find?_eq_some h, Node.isNamed_iff.mp hp⟩

/-- What the code takes from the XML parser's crate. -/
structure Uppsala where
  /-- `uppsala::parse`. -/
  parse : String → Except String Document
  /-- `Element::get_attribute`. -/
  getAttribute : Element → String → Option String

end Bergshamra
