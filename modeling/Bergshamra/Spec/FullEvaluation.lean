import Bergshamra.Dsig.XPathFilter
import Bergshamra.Proof.WrittenTree

/-!
# Evaluating an expression at every node of the XPath data model

The tree of XPath 1.0 has namespace nodes and attribute nodes below its elements.
A node set that a boolean expression selects holds some of the nodes of all three
kinds, and the canonical form of such a set (Canonical XML 1.0, section 2.3) is
written from all three: the namespace axis and the attribute axis of an element
are processed whether or not the element itself is in the set, and an element
whose parent is left out is given the `xml:*` attributes of its ancestors that it
does not have itself, in the set or not.

The namespace axis is processed as the code does it for a set with a visibility
map; what the code has no place for are attribute nodes one by one.
-/

namespace Bergshamra

/-- An attribute node, with the element it belongs to and what is above that. -/
structure AttrNode where
  attr : Attribute
  parent : Element
  above : List Element

/-- `name()` at an attribute node. -/
def attributeQName (a : Attribute) : String :=
  match a.name.pfx with
  | some p => if p.isEmpty then a.name.localName else p ++ ":" ++ a.name.localName
  | none => a.name.localName

/-- The truth of an expression at an attribute node: it is no element and no text, it has no
attributes and no namespace nodes, and its parent is the element it belongs to. -/
def evalXPathBoolAttr (n : AttrNode) : XPathBoolExpr → Bool
  | .true => true
  | .ancestorOrSelf nsUri localName => (n.parent :: n.above).any (matchesName nsUri localName)
  | .selfText => false
  | .hasAttributes => false
  | .selfElement _ _ => false
  | .not inner => !evalXPathBoolAttr n inner
  | .and left right => evalXPathBoolAttr n left && evalXPathBoolAttr n right
  | .or left right => evalXPathBoolAttr n left || evalXPathBoolAttr n right
  | .nameEq s => attributeQName n.attr == s
  | .nameNeq s => attributeQName n.attr != s
  | .namespaceUriEq s => n.attr.name.uri == s
  | .namespaceUriNeq s => n.attr.name.uri != s
  | .parentIs nsUri localName => matchesName nsUri localName n.parent
  | .stringSelfEqNsUriParent => n.attr.value == n.parent.name.uri
  | .isNotParentNsNode => true
  | .isParentNsNode => false
  -- the attribute, its element, the elements above and the root node
  | .depthOdd => (n.above.length + 3) % 2 == 1

/-- The tree nodes at which an expression is true. -/
def selected (doc : Document) (expr : XPathBoolExpr) : NodeSet :=
  NodeSet.fromIds (filterNodes doc none (fun n => evalXPathBool n expr)) .normal

/-- Is the expression true at an attribute of the element `e` below `above`? -/
def attributeSelected (expr : XPathBoolExpr) (above : List Element) (e : Element)
    (a : Attribute) : Bool :=
  evalXPathBoolAttr ⟨a, e, above⟩ expr

namespace FullEvaluation

/-- The tree nodes and the namespace nodes at which an expression is true. -/
def nodeSet (doc : Document) (expr : XPathBoolExpr) : NodeSet :=
  (selected doc expr).setNsVisible (nsVisibleOf doc expr)

/-- The attributes of an element at which the expression is true. -/
def shownAttrs (expr : XPathBoolExpr) (above : List Element) (e : Element) : List Attr :=
  sortAttrs ((e.attributes.filter (attributeSelected expr above e)).map Inclusive.attrOf)

/-- The attribute axis of an element that is in the set. -/
def attrsToRender (doc : Document) (expr : XPathBoolExpr) (path : List (NodeId × Element))
    (e : Element) : List Attr :=
  let above := path.map Prod.snd
  let own := sortAttrs (e.attributes.map Inclusive.attrOf)
  if Inclusive.parentNotVisible (some (nodeSet doc expr)) path then
    sortAttrs (shownAttrs expr above e ++ Inclusive.collectInheritedXmlAttrs above own)
  else sortAttrs (shownAttrs expr above e)

/-- What is written of the nodes at which the expression is true. -/
def writer (doc : Document) (expr : XPathBoolExpr) (withComments : Bool) : ElementWriter :=
  let walk := Inclusive.writer ⟨withComments, some (nodeSet doc expr), false⟩
  { walk with
    tag := fun path i e =>
      { walk.tag path i e with attrs := attrsToRender doc expr path e }
    loose := fun path i e =>
      walk.loose path i e ++ (shownAttrs expr (path.map Prod.snd) e).flatMap Attr.render }

/-- **The canonical form of the nodes at which an expression is true.** -/
def canonicalForm (doc : Document) (expr : XPathBoolExpr) (withComments : Bool) : ByteArray :=
  (String.ofList (WrittenTree.chars ((writer doc expr withComments).write [] false doc.top))).toUTF8

end FullEvaluation

end Bergshamra
