import Bergshamra.C14n.Render
import Bergshamra.Lib.Text

/-!
# Inclusive canonicalization

`C14nContext::process_node` and `process_element`, for Canonical XML 1.0 and,
with `c14n11Mode`, 1.1. The recursion is on the row of siblings; `path` holds
the elements above it (nearest first), which is what the source reaches through
`parent`, and `inherited` the declarations in force from the output ancestors.
-/

namespace Bergshamra

structure C14nContext where
  withComments : Bool
  nodeSet : Option NodeSet
  c14n11Mode : Bool

namespace Inclusive

/-! ## Namespace axis -/

/-- The visible bindings that differ from the inherited ones. `xml` is never written, and
`xmlns=""` is not written where no ancestor had a default namespace to undeclare. -/
def changedDecls (inherited visibleNs : NsMap) : List NsDecl :=
  visibleNs.toList.filterMap (fun d =>
    if d.1 = "xml" then none
    else if inherited[d.1]? = some d.2 then none
    else if d.2.isEmpty && inherited[d.1]?.isNone then none
    else some ⟨d.1, d.2⟩)

/-- `xmlns=""` where the namespace filter hides a default namespace that is in force. -/
def undeclaredDefault (inherited visibleNs : NsMap) : List NsDecl :=
  if inherited[""]?.any (fun uri => !uri.isEmpty) && visibleNs[""]?.isNone then [⟨"", ""⟩] else []

/-- The declarations of a visible element. -/
def nsDecls (filtered : Bool) (inherited visibleNs : NsMap) : List NsDecl :=
  sortNsDecls (changedDecls inherited visibleNs
    ++ (if filtered then undeclaredDefault inherited visibleNs else []))

/-- What the children of a visible element inherit. -/
def childNs (filtered : Bool) (inherited visibleNs : NsMap) : NsMap :=
  (visibleNs.erase "xml").toList.foldl (fun cn d => cn.insert d.1 d.2)
    (if filtered then ∅ else inherited)

/-! ## Attribute axis -/

/-- `find_attr_prefix`. -/
def findAttrPrefix (a : Attribute) : Option String :=
  match a.name.namespaceUri with
  | some uri => if uri = Ns.XML then some "xml" else a.name.pfx
  | none => none

/-- An attribute as it will be written. -/
def attrOf (a : Attribute) : Attr where
  nsUri := a.name.uri
  localName := a.name.localName
  qualifiedName :=
    match findAttrPrefix a with
    | some p => p ++ ":" ++ a.name.localName
    | none => a.name.localName
  value := a.value

/-- The `xml:*` attributes of the ancestors, the nearest value of each. -/
def inheritedXml (ancestors : List Element) : NsMap :=
  (ancestors.flatMap Element.attributes).foldl
    (fun m a =>
      if a.name.namespaceUri = some Ns.XML ∧ m[a.name.localName]? = none then
        m.insert a.name.localName a.value
      else m) ∅

/-- `collect_inherited_xml_attrs`. -/
def collectInheritedXmlAttrs (ancestors : List Element) (existing : List Attr) : List Attr :=
  (inheritedXml ancestors).toList.filterMap (fun d =>
    if existing.any (fun a => a.nsUri == Ns.XML && a.localName == d.1) then none
    else some ⟨Ns.XML, d.1, "xml:" ++ d.1, d.2⟩)

/-- `parse_uri_components`: scheme with its colon, authority with its slashes, path. -/
def parseUriComponents (uri : List Char) : List Char × List Char × List Char :=
  let (scheme, rest) :=
    match Text.splitOnce "://".toList uri with
    | some (before, after) => (before ++ [':'], "//".toList ++ after)
    | none => ([], uri)
  match Text.stripPrefix? "//".toList rest with
  | some stripped =>
      (scheme, "//".toList ++ stripped.takeWhile (fun c => c != '/'),
        stripped.dropWhile (fun c => c != '/'))
  | none => (scheme, [], rest)

/-- `resolve_uri_reference`. -/
def resolveUriReference (base reference : List Char) : List Char :=
  if Text.containsSub "://".toList reference then reference
  else
    let (scheme, authority, basePath) := parseUriComponents base
    if Text.startsWith ['/'] reference then scheme ++ authority ++ reference
    else if reference.isEmpty then base
    else
      let merged :=
        if authority.isEmpty && basePath.isEmpty then '/' :: reference
        else Text.uptoLast '/' basePath ++ reference
      scheme ++ authority ++ merged

/-- The element's own `xml:base`, if it has one. -/
def xmlBase? (e : Element) : Option String :=
  (e.attributes.find? (fun a => a.name.namespaceUri == some Ns.XML
    && a.name.localName == "base")).map Attribute.value

/-- `compute_absolute_base_uri`: `chain` is the element and its ancestors, nearest first. -/
def computeAbsoluteBaseUri (chain : List Element) : List Char :=
  (chain.reverse.filterMap xmlBase?).foldl
    (fun absolute base =>
      if absolute.isEmpty then base.toList else resolveUriReference absolute base.toList) []

/-- Is this the attribute `xml:base`? -/
def isXmlBase (a : Attr) : Bool := a.nsUri == Ns.XML && a.localName == "base"

/-- Give the first `xml:base` the value `base`. -/
def replaceXmlBase (base : String) : List Attr → List Attr
  | [] => []
  | a :: as => if isXmlBase a then { a with value := base } :: as else a :: replaceXmlBase base as

/-- The C14N 1.1 step: rewrite or add `xml:base`. -/
def absolutizeBase (absBase : List Char) (attrs : List Attr) : List Attr :=
  if absBase.isEmpty then attrs
  else if attrs.any isXmlBase then replaceXmlBase (String.ofList absBase) attrs
  else attrs ++ [⟨Ns.XML, "base", "xml:base", String.ofList absBase⟩]

/-- Is the parent the document node, or an element outside the node set? -/
def parentNotVisible (nodeSet : Option NodeSet) (path : List (NodeId × Element)) : Bool :=
  match path with
  | [] => true
  | p :: _ => !isVisible nodeSet p.1

/-- The attributes of a visible element. -/
def attrsToRender (ctx : C14nContext) (path : List (NodeId × Element)) (e : Element) : List Attr :=
  let excluded := ctx.nodeSet.any NodeSet.excludesAttrs
  let own := sortAttrs (if excluded then [] else e.attributes.map attrOf)
  let ancestors := path.map Prod.snd
  -- a subset root inherits the `xml:*` attributes its omitted ancestors would have written
  if ctx.nodeSet.isSome && !excluded && parentNotVisible ctx.nodeSet path then
    let attrs := own ++ collectInheritedXmlAttrs ancestors own
    sortAttrs (if ctx.c14n11Mode then absolutizeBase (computeAbsoluteBaseUri (e :: ancestors)) attrs
      else attrs)
  else sortAttrs own

/-! ## The walk -/

/-- The bindings `process_element` works with at an element. -/
def visibleNs (ctx : C14nContext) (id : NodeId) (path : List (NodeId × Element)) (e : Element) :
    NsMap :=
  visibleNamespaces ctx.nodeSet id (collectInscopeNamespaces (e :: path.map Prod.snd))

/-- `process_node` on each sibling of a row in turn. -/
def processNodes (ctx : C14nContext) (path : List (NodeId × Element)) (preceding : Bool)
    (inherited : NsMap) : Nodes → List Char
  | .nil => []
  | .leaf id k rest =>
      (if isVisible ctx.nodeSet id then
        processLeaf ctx.withComments ⟨path.isEmpty, preceding, rest.hasNode⟩ k
       else [])
        ++ processNodes ctx path preceding inherited rest
  | .node id e kids rest =>
      (if isVisible ctx.nodeSet id then
        renderStartTag e (nsDecls (hasNsFilter ctx.nodeSet) inherited (visibleNs ctx id path e))
            (attrsToRender ctx path e)
          ++ processNodes ctx ((id, e) :: path) false
            (childNs (hasNsFilter ctx.nodeSet) inherited (visibleNs ctx id path e)) kids
          ++ renderEndTag e
       else
        -- an element outside the set still writes its visible namespace nodes, as bare text
        (if hasNsFilter ctx.nodeSet then
          (sortNsDecls (changedDecls inherited (visibleNs ctx id path e))).flatMap NsDecl.render
         else [])
          ++ processNodes ctx ((id, e) :: path) false inherited kids)
        ++ processNodes ctx path true inherited rest

/-- `canonicalize_with_options`, before the characters are encoded. -/
def canonicalizeWithOptions (doc : Document) (withComments : Bool) (nodeSet : Option NodeSet)
    (c14n11Mode : Bool) : List Char :=
  processNodes ⟨withComments, nodeSet, c14n11Mode⟩ [] false ∅ doc.top

/-- `childNs`, prefix by prefix. -/
theorem getElem?_childNs (filtered : Bool) (inherited visibleNs : NsMap) (p : String) :
    (childNs filtered inherited visibleNs)[p]?
      = match (visibleNs.erase "xml")[p]? with
        | some uri => some uri
        | none => (if filtered then (∅ : NsMap) else inherited)[p]? := by
  unfold childNs
  have hs : OrdMap.KeyedStep (fun (m : NsMap) (k v : String) => m.insert k v)
      (fun _ v => some v) :=
    ⟨fun m k v => by simp, fun m k v p h => OrdMap.getElem?_insert_ne m v h⟩
  rw [OrdMap.getElem?_overlay hs]
  cases (visibleNs.erase "xml")[p]? <;> rfl

end Inclusive

end Bergshamra
