import Bergshamra.C14n.Render
import Mathlib.Data.List.Dedup

/-!
# Exclusive canonicalization

`ExcC14nContext::process_node` and `process_element`. Only the prefixes an
element visibly utilizes (its own, those of its attributes, those of the
PrefixList) are declared, and `rendered` records what the output ancestors have
declared so far.
-/

namespace Bergshamra

structure ExcC14nContext where
  withComments : Bool
  nodeSet : Option NodeSet
  /-- The PrefixList; `#default` stands for the default namespace. -/
  inclusivePrefixes : List String

namespace Exclusive

/-- `get_element_prefix`. -/
def getElementPrefix (e : Element) : String := e.name.pfx.getD ""

/-- `get_attr_prefix`. -/
def getAttrPrefix (a : Attribute) : Option String :=
  match a.name.namespaceUri with
  | some uri => if uri = Ns.XML then some "xml" else some (a.name.pfx.getD "")
  | none => none

/-- The prefixes an element visibly utilizes, each once. -/
def utilizedPrefixes (inclusivePrefixes : List String) (e : Element) : List String :=
  (getElementPrefix e
    :: (e.attributes.filterMap getAttrPrefix).filter (fun p => !p.isEmpty)
    ++ inclusivePrefixes.map (fun p => if p = "#default" then "" else p)).dedup

/-- The declaration rendered for one utilized prefix, if any. -/
def nsDeclFor (rendered visibleNs : NsMap) (p : String) : Option NsDecl :=
  if p = "xml" then none
  else
    match visibleNs[p]? with
    | some uri => if rendered[p]? = some uri then none else some ⟨p, uri⟩
    | none =>
        if p.isEmpty && rendered[""]?.any (fun uri => !uri.isEmpty) then some ⟨"", ""⟩ else none

/-- The declarations of a visible element. -/
def nsDecls (rendered visibleNs : NsMap) (utilized : List String) : List NsDecl :=
  sortNsDecls (utilized.filterMap (nsDeclFor rendered visibleNs))

/-- What the children of a visible element find rendered. -/
def childRendered (filtered : Bool) (rendered visibleNs : NsMap) (utilized : List String) :
    NsMap :=
  let inserted := (nsDecls rendered visibleNs utilized).foldl
    (fun m d => m.insert d.pfx d.uri) rendered
  -- a utilized prefix whose namespace node is hidden breaks the rendering chain
  if filtered then
    utilized.foldl
      (fun m p => if p = "xml" ∨ visibleNs[p]?.isSome then m else m.erase p) inserted
  else inserted

/-- An attribute as it will be written. -/
def attrOf (a : Attribute) : Attr where
  nsUri := a.name.uri
  localName := a.name.localName
  qualifiedName :=
    match getAttrPrefix a with
    | some p => if p.isEmpty then a.name.localName else p ++ ":" ++ a.name.localName
    | none => a.name.localName
  value := a.value

/-- The attributes of a visible element. -/
def attrsToRender (e : Element) : List Attr := sortAttrs (e.attributes.map attrOf)

/-- Is the prefix named by the PrefixList? -/
def inPrefixList (inclusivePrefixes : List String) (p : String) : Bool :=
  if p.isEmpty then inclusivePrefixes.contains "#default" else inclusivePrefixes.contains p

/-- The declarations an element outside the node set still writes for the PrefixList. -/
def floatingDecls (inclusivePrefixes : List String) (rendered visibleNs : NsMap) : List NsDecl :=
  sortNsDecls (visibleNs.toList.filterMap (fun d =>
    if d.1 = "xml" ∨ inPrefixList inclusivePrefixes d.1 = false ∨ rendered[d.1]? = some d.2
    then none else some ⟨d.1, d.2⟩))

/-- The bindings `process_element` works with at an element. -/
def visibleNs (ctx : ExcC14nContext) (id : NodeId) (path : List (NodeId × Element)) (e : Element) :
    NsMap :=
  visibleNamespaces ctx.nodeSet id (collectInscopeNamespaces (e :: path.map Prod.snd))

/-- `process_node` on each sibling of a row in turn. -/
def processNodes (ctx : ExcC14nContext) (path : List (NodeId × Element)) (preceding : Bool)
    (rendered : NsMap) : Nodes → List Char
  | .nil => []
  | .leaf id k rest =>
      (if isVisible ctx.nodeSet id then
        processLeaf ctx.withComments ⟨path.isEmpty, preceding, rest.hasNode⟩ k
       else [])
        ++ processNodes ctx path preceding rendered rest
  | .node id e kids rest =>
      (if isVisible ctx.nodeSet id then
        renderStartTag e
            (nsDecls rendered (visibleNs ctx id path e) (utilizedPrefixes ctx.inclusivePrefixes e))
            (attrsToRender e)
          ++ processNodes ctx ((id, e) :: path) false
            (childRendered (hasNsFilter ctx.nodeSet) rendered (visibleNs ctx id path e)
              (utilizedPrefixes ctx.inclusivePrefixes e)) kids
          ++ renderEndTag e
       else
        (if hasNsFilter ctx.nodeSet && !ctx.inclusivePrefixes.isEmpty then
          (floatingDecls ctx.inclusivePrefixes rendered (visibleNs ctx id path e)).flatMap
            NsDecl.render
         else [])
          ++ processNodes ctx ((id, e) :: path) false rendered kids)
        ++ processNodes ctx path true rendered rest

/-- `canonicalize` of `exclusive.rs`, before the characters are encoded. -/
def canonicalize (doc : Document) (withComments : Bool) (nodeSet : Option NodeSet)
    (inclusivePrefixes : List String) : List Char :=
  processNodes ⟨withComments, nodeSet, inclusivePrefixes⟩ [] false ∅ doc.top

end Exclusive

end Bergshamra
