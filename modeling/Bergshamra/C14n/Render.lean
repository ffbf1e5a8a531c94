import Bergshamra.Xml.NodeSet
import Bergshamra.C14n.Namespaces
import Mathlib.Data.List.Sort

/-!
# What both canonicalizers write

Escaping, namespace declarations and attributes with their sort orders, and the
nodes without children. The output buffer only ever receives the UTF-8 bytes of
strings, so it is modelled as the characters written; the encoding is applied
once at the end.
-/

namespace Bergshamra

/-! ## Escaping -/

/-- One character of `escape_text`. -/
def escapeTextChar (c : Char) : List Char :=
  match c with
  | '&' => "&amp;".toList
  | '<' => "&lt;".toList
  | '>' => "&gt;".toList
  | '\r' => "&#xD;".toList
  | _ => [c]

/-- `escape_text`. -/
def escapeText (s : String) : List Char := s.toList.flatMap escapeTextChar

/-- One character of `escape_attr`. -/
def escapeAttrChar (c : Char) : List Char :=
  match c with
  | '&' => "&amp;".toList
  | '<' => "&lt;".toList
  | '"' => "&quot;".toList
  | '\t' => "&#x9;".toList
  | '\n' => "&#xA;".toList
  | '\r' => "&#xD;".toList
  | _ => [c]

/-- `escape_attr`. -/
def escapeAttr (s : String) : List Char := s.toList.flatMap escapeAttrChar

/-- `escape_pi`. -/
def escapePi (s : String) : List Char :=
  s.toList.flatMap (fun c => if c = '\r' then "&#xD;".toList else [c])

/-! ## Namespace declarations and attributes -/

/-- A namespace declaration to be rendered; the default one has the prefix `""`. -/
structure NsDecl where
  pfx : String
  uri : String
deriving DecidableEq, Repr

/-- `NsDecl::render`. -/
def NsDecl.render (d : NsDecl) : List Char :=
  if d.pfx.isEmpty then " xmlns=\"".toList ++ escapeAttr d.uri ++ ['"']
  else " xmlns:".toList ++ d.pfx.toList ++ "=\"".toList ++ escapeAttr d.uri ++ ['"']

/-- `NsDecl::cmp`: the default declaration first, then by prefix. -/
def NsDecl.cmp (a b : NsDecl) : Ordering :=
  match a.pfx.isEmpty, b.pfx.isEmpty with
  | true, false => .lt
  | false, true => .gt
  | _, _ => compare a.pfx b.pfx

/-- The order `ns_decls.sort()` sorts by. -/
abbrev NsDecl.le (a b : NsDecl) : Prop := NsDecl.cmp a b ≠ .gt

/-- An attribute to be rendered. -/
structure Attr where
  nsUri : String
  localName : String
  qualifiedName : String
  value : String
deriving DecidableEq, Repr

/-- `Attr::render`. -/
def Attr.render (a : Attr) : List Char :=
  ' ' :: (a.qualifiedName.toList ++ "=\"".toList ++ escapeAttr a.value ++ ['"'])

/-- `Attr::cmp`: un-namespaced ones first by local name, then by (URI, local name). -/
def Attr.cmp (a b : Attr) : Ordering :=
  match a.nsUri.isEmpty, b.nsUri.isEmpty with
  | true, true => compare a.localName b.localName
  | true, false => .lt
  | false, true => .gt
  | false, false => (compare a.nsUri b.nsUri).then (compare a.localName b.localName)

/-- The order `attrs.sort()` sorts by. -/
abbrev Attr.le (a b : Attr) : Prop := Attr.cmp a b ≠ .gt

/-- `ns_decls.sort()`. -/
def sortNsDecls (ds : List NsDecl) : List NsDecl := ds.insertionSort NsDecl.le

/-- `attrs.sort()`. -/
def sortAttrs (as : List Attr) : List Attr := as.insertionSort Attr.le

/-- `qualified_element_name`. -/
def qualifiedElementName (e : Element) : List Char :=
  match e.name.pfx with
  | some p => p.toList ++ ':' :: e.name.localName.toList
  | none => e.name.localName.toList

/-- `<name`, the declarations, the attributes, `>`. -/
def renderStartTag (e : Element) (decls : List NsDecl) (attrs : List Attr) : List Char :=
  '<' :: (qualifiedElementName e ++ decls.flatMap NsDecl.render ++ attrs.flatMap Attr.render
    ++ ['>'])

/-- `</name>`. -/
def renderEndTag (e : Element) : List Char := "</".toList ++ qualifiedElementName e ++ ['>']

/-! ## Nodes without children -/

/-- `is_visible`: without a node set every node is. -/
def isVisible (nodeSet : Option NodeSet) (id : NodeId) : Bool :=
  match nodeSet with
  | none => true
  | some ns => ns.containsId id

/-- Is there a namespace visibility map? -/
def hasNsFilter (nodeSet : Option NodeSet) : Bool := nodeSet.any NodeSet.hasNsVisible

/-- Restrict the in-scope namespaces to the visible namespace nodes, when they are filtered. -/
def visibleNamespaces (nodeSet : Option NodeSet) (id : NodeId) (current : NsMap) : NsMap :=
  match nodeSet with
  | none => current
  | some ns => if ns.hasNsVisible then current.filter (fun p _ => ns.isNsVisible id p) else current

/-- Where a node stands: is its parent the document node, and does an element come
before or after it among its siblings? -/
structure Place where
  parentIsRoot : Bool
  hasPrecedingElement : Bool
  hasFollowingElement : Bool

/-- The newline before a comment or instruction that follows the document element. -/
def Place.before (p : Place) : List Char :=
  if p.parentIsRoot && p.hasPrecedingElement then ['\n'] else []

/-- The newline after a comment or instruction that precedes the document element. -/
def Place.after (p : Place) : List Char :=
  if p.parentIsRoot && p.hasFollowingElement then ['\n'] else []

/-- The data of a processing instruction, after a blank; nothing when it is empty. -/
def renderPiData : Option String → List Char
  | some value => if value.isEmpty then [] else ' ' :: escapePi value
  | none => []

/-- The arms of `process_node` for text, CDATA, comments and processing instructions,
for a node that `is_visible`. The two canonicalizers have the same text here. -/
def processLeaf (withComments : Bool) (place : Place) : LeafKind → List Char
  | .text t => escapeText t
  | .cdata t => escapeText t
  | .comment t =>
      if withComments then
        place.before ++ "<!--".toList ++ t.toList ++ "-->".toList ++ place.after
      else []
  | .pi target data =>
      place.before ++ "<?".toList ++ target.toList ++ renderPiData data ++ "?>".toList
        ++ place.after

theorem isVisible_none (id : NodeId) : isVisible none id = true := rfl

theorem visibleNamespaces_of_not_filter {nodeSet : Option NodeSet}
    (h : hasNsFilter nodeSet = false) (id : NodeId) (current : NsMap) :
    visibleNamespaces nodeSet id current = current := by
  unfold visibleNamespaces
  cases nodeSet with
  | none => rfl
  | some ns => exact if_neg (by simpa [hasNsFilter] using h)

end Bergshamra
