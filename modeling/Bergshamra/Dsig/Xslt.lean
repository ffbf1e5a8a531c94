import Bergshamra.Transforms.Pipeline

/-!
# The XSLT transform

`apply_xslt_transform` and its small processor. `xslt_apply_templates_to_node`
and `xslt_execute_body` call each other, the first on a node of the input, the
second on a node of a template. Whatever a template does, it only ever applies
templates to children of the node it was entered with. So the outputs of a row
of siblings are computed from those of the rows below them (`applyTemplates`),
and a template body is a recursion of its own over the outputs of the children
(`executeBody`).
-/

namespace Bergshamra

namespace Xslt

/-- Is the element one of XSLT's, of this name? -/
def isXsl (e : Element) (localName : String) : Bool :=
  e.name.namespaceUri == some Ns.XSL && e.name.localName == localName

/-- What the processor reads from the stylesheet before it starts. -/
structure Stylesheet where
  templates : List Node
  defaultNs : Option String
  stripSet : List String

/-- Does a `match` attribute name the element? The forms are `name` and `parent/name`. -/
def matchAttrNames (matchAttr : List Char) (parentName : Option String) (localName : String) :
    Bool :=
  if matchAttr.contains '/' then
    match Text.splitOn '/' matchAttr with
    | [parent, child] => parentName.any (fun p => p.toList == parent) && localName.toList == child
    | _ => false
  else matchAttr == localName.toList

/-- The `match` attribute of a template. -/
def matchAttrOf (up : Uppsala) (template : Node) : List Char :=
  ((template.element?.bind (fun e => up.getAttribute e "match")).getD "").toList

/-- `find_matching_template`. -/
def findMatchingTemplate (up : Uppsala) (templates : List Node) (path : List (NodeId × Element))
    (e : Element) : Option Node :=
  templates.find? (fun t =>
    matchAttrNames (matchAttrOf up t) (path.head?.map (fun p => p.2.name.localName))
      e.name.localName)

/-- `xslt_node_matches_select`, at an element. -/
def nodeMatchesSelect (e : Element) (select : String) : Bool :=
  if select = "@*|node()" ∨ select = "node()|@*" then true
  else (Text.splitOn '/' select.toList).getLast? == some e.name.localName.toList

/-- `xslt_eval_value_of`. -/
def evalValueOf (n : Node) (select : String) : String :=
  match n.children.find? (fun c : Node =>
      c.element?.any (fun e => e.name.localName == select)) with
  | some c => c.elementText.getD ""
  | none => ""

/-- `u8::is_ascii_whitespace`. -/
def isAsciiWhitespace (c : Char) : Bool :=
  c == ' ' || c == '\t' || c == '\n' || c == '\r' || c == Char.ofNat 0xC

/-- The default rule for a node without children: text is copied, unless it is blank and its
parent strips blanks. -/
def leafOutput (st : Stylesheet) (path : List (NodeId × Element)) (k : LeafKind) : List Char :=
  match k.text? with
  | none => []
  | some t =>
      let parentName := (path.head?.map (fun p => p.2.name.localName)).getD ""
      if st.stripSet.contains parentName && t.toList.all isAsciiWhitespace then []
      else escapeText t

/-- ` name="value"`, the value escaped. -/
def renderAttribute (name value : String) : List Char :=
  ' ' :: (name.toList ++ "=\"".toList ++ escapeAttr value ++ ['"'])

/-- A namespace declaration as `xsl:copy` writes it. -/
def renderDeclaration (d : String × String) : List Char :=
  renderAttribute (if d.1.isEmpty then "xmlns" else "xmlns:" ++ d.1) d.2

/-- `<name`, what follows it, `>`, the content, `</name>`. -/
def renderElement (localName : String) (attrs content : List Char) : List Char :=
  '<' :: (localName.toList ++ attrs ++ ['>'] ++ content ++ "</".toList ++ localName.toList ++ ['>'])

/-- What `xsl:copy` writes for the context node. -/
def copyContext (context : Node) (content : List Char) : List Char :=
  match context.item with
  | .node e _ =>
      renderElement e.name.localName
        (e.namespaceDeclarations.flatMap renderDeclaration
          ++ e.attributes.flatMap (fun a => renderAttribute a.name.localName a.value)) content
  | .leaf k => (k.text?.map escapeText).getD []

/-- The attributes of a literal result element. -/
def literalAttributes (st : Stylesheet) (e : Element) : List Char :=
  (match st.defaultNs with
    | some dns =>
        if e.name.namespaceUri = none ∨ e.name.namespaceUri = some dns then
          renderAttribute "xmlns" dns
        else []
    | none => [])
    ++ e.attributes.flatMap (fun a => renderAttribute a.name.localName a.value)

/-- What `xsl:apply-templates` writes: `below` holds the context's children with their outputs. -/
def applyBelow (select : Option String) (below : List (Node × List Char)) : List Char :=
  match select with
  | some sel =>
      below.flatMap (fun p => if p.1.element?.any (fun e => nodeMatchesSelect e sel) then p.2 else [])
  | none => below.flatMap Prod.snd

/-- `xslt_execute_body`, over the row of nodes of the body. -/
def executeBody (up : Uppsala) (st : Stylesheet) (context : Node)
    (below : List (Node × List Char)) : Nodes → List Char
  | .nil => []
  | .leaf _ k rest =>
      (match k.text? with
        | some t => if Text.trim t.toList = [] then [] else escapeText t
        | none => [])
        ++ executeBody up st context below rest
  | .node _ e kids rest =>
      (if e.name.namespaceUri = some Ns.XSL then
        if e.name.localName = "apply-templates" then applyBelow (up.getAttribute e "select") below
        else if e.name.localName = "value-of" then
          ((up.getAttribute e "select").map (fun sel => escapeText (evalValueOf context sel))).getD []
        else if e.name.localName = "copy" then
          copyContext context (executeBody up st context below kids)
        else []
       else
        renderElement e.name.localName (literalAttributes st e)
          (executeBody up st context below kids))
        ++ executeBody up st context below rest

/-- `xslt_apply_templates_to_node` on each sibling of a row, with the node it was applied to. -/
def applyTemplates (up : Uppsala) (st : Stylesheet) (path : List (NodeId × Element)) :
    Nodes → List (Node × List Char)
  | .nil => []
  | .leaf i k rest =>
      (⟨i, path, .leaf k⟩, leafOutput st path k) :: applyTemplates up st path rest
  | .node i e kids rest =>
      let below := applyTemplates up st ((i, e) :: path) kids
      let output :=
        match findMatchingTemplate up st.templates path e with
        | some template => executeBody up st ⟨i, path, .node e kids⟩ below template.kids
        | none => below.flatMap Prod.snd
      (⟨i, path, .node e kids⟩, output) :: applyTemplates up st path rest

/-- The stylesheet's parts. -/
def stylesheetOf (up : Uppsala) (stylesheet : Node) : Stylesheet where
  templates :=
    stylesheet.children.filter (fun c : Node => c.element?.any (fun e => isXsl e "template"))
  defaultNs :=
    stylesheet.element?.bind (fun e =>
      (e.namespaceDeclarations.find? (fun d => d.1.isEmpty)).map Prod.snd)
  stripSet :=
    (stylesheet.children.filterMap (fun c : Node =>
      c.element?.bind (fun e =>
        if isXsl e "strip-space" then up.getAttribute e "elements" else none))).flatMap
      (fun s => (Text.splitWhitespace s.toList).map String.ofList)

/-- Is the stylesheet taken for the identity transformation? -/
def isIdentity (up : Uppsala) (st : Stylesheet) : Bool :=
  match st.templates with
  | [template] =>
      let matchAttr := matchAttrOf up template
      (matchAttr == "@*|node()".toList || matchAttr == "node()|@*".toList)
        && template.children.any (fun c : Node => c.element?.any (fun e => isXsl e "copy"))
  | _ => false

/-- The output for a document whose document element is the first node of its row. -/
def outputOf (up : Uppsala) (st : Stylesheet) (doc : Document) : Except Error (List Char) :=
  match (applyTemplates up st [] doc.top).find? (fun p => p.1.element?.isSome) with
  | some p => .ok p.2
  | none => .error .panics

/-- `apply_minimal_xslt`. -/
def applyMinimalXslt (lib : TransformLibs) (data : TransformData) (st : Stylesheet) :
    Except Error TransformData := do
  let xmlText ← inputText lib (fun e => .transform ("XSLT input not UTF-8: " ++ e)) data
  match lib.parse xmlText with
  | .error e => .error (.transform ("XSLT input XML parse: " ++ e))
  | .ok doc => do
      let output ← outputOf lib.toUppsala st doc
      .ok (.binary (String.ofList output).toUTF8)

end Xslt

/-- `apply_xslt_transform`. -/
def applyXsltTransform (lib : TransformLibs) (data : TransformData) (transformNode : Node) :
    Except Error TransformData :=
  match transformNode.children.find? (fun c : Node =>
      c.element?.any (fun e => Xslt.isXsl e "stylesheet")) with
  | none => .error (.missingElement "xsl:stylesheet in XSLT transform")
  | some stylesheet =>
      let st := Xslt.stylesheetOf lib.toUppsala stylesheet
      if Xslt.isIdentity lib.toUppsala st then .ok data
      else Xslt.applyMinimalXslt lib data st

end Bergshamra
