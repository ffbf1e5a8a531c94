import Bergshamra.Dsig.Xslt
import Bergshamra.Lib.TemplateRule
import Bergshamra.Proof.Content

/-!
# The identity shortcut

`apply_xslt_transform` hands its input through when the stylesheet has one
template, the template matches every node and attribute, and there is some
`xsl:copy` in it. What the template does besides, and what stands in the
`xsl:copy`, it does not look at. Here such a template is read as XSLT 1.0 reads
it, over the nodes XPath sees in the input, and the shortcut is right exactly
when one pass of the template gives every node back.
-/

namespace Bergshamra

namespace Xslt

/-! ## The input as XPath sees it -/

/-- An expanded name. -/
abbrev ExpandedName := Option String × String

/-- The expanded name of an element and its namespace nodes. -/
structure Head where
  name : ExpandedName
  namespaces : List (String × String)
deriving DecidableEq

def expandedName (q : QName) : ExpandedName := (q.namespaceUri, q.localName)

/-- An element below `chain`. -/
def headOf (chain : List Element) (e : Element) : Head where
  name := expandedName e.name
  namespaces := (Exclusive.collectInscopeNamespaces (e :: chain)).toList

def attributeOf (a : Attribute) : ExpandedName × List Char := (expandedName a.name, a.value.toList)

abbrev Label := TemplateRule.Label Head ExpandedName

abbrev Focus := TemplateRule.Focus Head ExpandedName

def labelOf (chain : List Element) (e : Element) : Label where
  head := headOf chain e
  attributes := (e.attributes.map attributeOf).foldl TemplateRule.addAttribute ∅

/-- The tree of a row; adjacent pieces of text run together. -/
def treeOf (chain : List Element) : Nodes → TemplateRule.Row Head ExpandedName
  | .nil => .nil
  | .leaf _ k rest => pushLeaves k.content (treeOf chain rest)
  | .node _ e kids rest => .node () (labelOf chain e) (treeOf (e :: chain) kids) (treeOf chain rest)

/-- A node of the input: an index, what encloses it, and what it is. A text has the index of its
first piece, an attribute that of its element. -/
structure ContextNode where
  key : NodeId
  path : List (NodeId × Element)
  focus : Focus

/-- A text collected so far, with its index. -/
abbrev Pending := NodeId × List Char

def Pending.extend (p : Pending) (i : NodeId) (t : List Char) : Pending :=
  if p.2 = [] then (i, t) else (p.1, p.2 ++ t)

/-- The text node of a collected text, if there is any text. -/
def Pending.flush (path : List (NodeId × Element)) (p : Pending) : List ContextNode :=
  if p.2 = [] then [] else [⟨p.1, path, .text p.2⟩]

def elementContext (path : List (NodeId × Element)) (i : NodeId) (e : Element) (kids : Nodes) :
    ContextNode :=
  ⟨i, path, .element (labelOf (path.map Prod.snd) e) (treeOf (e :: path.map Prod.snd) kids)⟩

def attributeContexts (path : List (NodeId × Element)) (i : NodeId) (e : Element) :
    List ContextNode :=
  e.attributes.map (fun a => ⟨i, (i, e) :: path, .attr (attributeOf a)⟩)

/-- The nodes of a row itself. -/
def rowContexts (path : List (NodeId × Element)) : Pending → Nodes → List ContextNode
  | p, .nil => p.flush path
  | p, .leaf i k rest =>
      match k.text? with
      | some t => rowContexts path (p.extend i t.toList) rest
      | none =>
          p.flush path
            ++ (k.content.map (fun l => ⟨i, path, .leaf l⟩) ++ rowContexts path (0, []) rest)
  | p, .node i e kids rest =>
      p.flush path ++ elementContext path i e kids :: rowContexts path (0, []) rest

/-- The nodes of a row and of the rows below it. -/
def deepContexts (path : List (NodeId × Element)) : Pending → Nodes → List ContextNode
  | p, .nil => p.flush path
  | p, .leaf i k rest =>
      match k.text? with
      | some t => deepContexts path (p.extend i t.toList) rest
      | none =>
          p.flush path
            ++ (k.content.map (fun l => ⟨i, path, .leaf l⟩) ++ deepContexts path (0, []) rest)
  | p, .node i e kids rest =>
      p.flush path ++ elementContext path i e kids ::
        (attributeContexts path i e ++ deepContexts ((i, e) :: path) (0, []) kids
          ++ deepContexts path (0, []) rest)

def rootContext (doc : Document) : ContextNode := ⟨doc.root, [], .root (treeOf [] doc.top)⟩

/-- Every node and every attribute of the document. -/
def contexts (doc : Document) : List ContextNode :=
  rootContext doc :: deepContexts [] (0, []) doc.top

/-- A node of the document, as XPath sees it. -/
abbrev XPathNode (doc : Document) := { c : ContextNode // c ∈ contexts doc }

/-! ## The template as XSLT sees it -/

/-- What has to be evaluated: an `xsl:apply-templates` with what it contains, the `select` of an
`xsl:value-of`, and the value of an attribute of a literal element. -/
inductive Expression where
  | selection (instruction : Element) (sorts : Nodes)
  | value (select : String)
  | template (value : String)

abbrev Body := TemplateRule.Body Head ExpandedName (Option String) Expression

/-- An attribute of an XSLT element. -/
def instructionAttribute (e : Element) (name : String) : Option String :=
  (e.attributes.find? (fun a => a.name.namespaceUri.isNone && a.name.localName == name)).map
    Attribute.value

/-- Does `xml:space` keep blank text below the elements `chain` (nearest first)? -/
def preservesSpace (chain : List Element) : Bool :=
  chain.findSome? (fun e =>
    (e.attributes.find? (fun a =>
      a.name.namespaceUri == some Ns.XML && a.name.localName == "space")).map Attribute.value)
    == some "preserve"

/-- White space of XML. -/
def isXmlSpace (c : Char) : Bool := c == ' ' || c == '\t' || c == '\n' || c == '\r'

/-- A text of the template; a blank one is stripped. -/
def textInstruction (chain : List Element) (s : List Char) (rest : Body) : Body :=
  if s.all isXmlSpace && !preservesSpace chain then rest else .text s rest

/-- The text of a row. -/
def textOfRow : Nodes → List Char
  | .nil => []
  | .leaf _ k rest => ((k.text?.map String.toList).getD []) ++ textOfRow rest
  | .node _ _ _ rest => textOfRow rest

/-- The instructions of a row of a template, below the elements `chain`. Other elements of XSLT
write nothing, as in `xslt_execute_body`. -/
def bodyOf (chain : List Element) : List Char → Nodes → Body
  | s, .nil => textInstruction chain s .nil
  | s, .leaf _ k rest =>
      match k.text? with
      | some t => bodyOf chain (s ++ t.toList) rest
      | none => textInstruction chain s (bodyOf chain [] rest)
  | s, .node _ e kids rest =>
      textInstruction chain s
        (if e.name.namespaceUri = some Ns.XSL then
          if e.name.localName = "copy" then
            .copy (bodyOf (e :: chain) [] kids) (bodyOf chain [] rest)
          else if e.name.localName = "apply-templates" then
            .apply (.selection e kids) (instructionAttribute e "mode") (bodyOf chain [] rest)
          else if e.name.localName = "value-of" then
            .valueOf (.value ((instructionAttribute e "select").getD "")) (bodyOf chain [] rest)
          else if e.name.localName = "text" then .text (textOfRow kids) (bodyOf chain [] rest)
          else bodyOf chain [] rest
         else
          .literal ⟨expandedName e.name, (headOf chain e).namespaces.filter (fun d => d.2 != Ns.XSL)⟩
            ((e.attributes.filter (fun a => a.name.namespaceUri != some Ns.XSL)).map
              (fun a => (expandedName a.name, .template a.value)))
            (bodyOf (e :: chain) [] kids) (bodyOf chain [] rest))

/-- The rule of a template. -/
def ruleOf (template : Node) : TemplateRule.Rule Head ExpandedName (Option String) Expression where
  mode := template.element?.bind (fun e => instructionAttribute e "mode")
  body := bodyOf (template.kidsPath.map Prod.snd) [] template.kids

/-- What XPath answers about a document. -/
structure XPathRules (doc : Document) where
  /-- The nodes an instruction selects at a node, in the order they are processed in. -/
  select : Expression → XPathNode doc → List (XPathNode doc)
  /-- The string an expression stands for at a node. -/
  string : Expression → XPathNode doc → List Char

/-! ## The document is a source tree -/

theorem writtenRow_pushLeaves (ls : List Markup.Leaf) (r : TemplateRule.Row Head ExpandedName) :
    TemplateRule.writtenRow (pushLeaves ls r)
      = ls.map TemplateRule.Written.leaf ++ TemplateRule.writtenRow r := by
  induction ls with
  | nil => rfl
  | cons l ls ih => exact congrArg (TemplateRule.Written.leaf l :: ·) ih

theorem content_of_text {k : LeafKind} {t : String} (h : k.text? = some t) :
    k.content = t.toList.map .char := by
  cases k with
  | text s =>
      cases h
      rfl
  | cdata s =>
      cases h
      rfl
  | comment s => cases h
  | pi target data => cases h

theorem flush_written (path : List (NodeId × Element)) (p : Pending) :
    (p.flush path).flatMap (fun c => c.focus.written) = TemplateRule.chars p.2 := by
  unfold Pending.flush
  split
  · rename_i hp
    rw [hp]
    rfl
  · exact List.append_nil _

theorem extend_text (p : Pending) (i : NodeId) (t : List Char) :
    (p.extend i t).2 = p.2 ++ t := by
  unfold Pending.extend
  split
  · rename_i hp
    rw [hp, List.nil_append]
  · rfl

/-- The nodes of a row, written one after another, are the row's tree. -/
theorem rowContexts_written (path : List (NodeId × Element)) (p : Pending) (row : Nodes) :
    (rowContexts path p row).flatMap (fun c => c.focus.written)
      = TemplateRule.chars p.2 ++ TemplateRule.writtenRow (treeOf (path.map Prod.snd) row) := by
  induction row generalizing p with
  | nil =>
      rw [rowContexts, flush_written]
      exact (List.append_nil _).symm
  | leaf i k rest ih =>
      rw [rowContexts, treeOf, writtenRow_pushLeaves]
      cases hk : k.text? with
      | some t =>
          have hchars : k.content.map TemplateRule.Written.leaf
              = (TemplateRule.chars t.toList : List (TemplateRule.Written Head ExpandedName)) := by
            rw [content_of_text hk, TemplateRule.chars, List.map_map]
            rfl
          show (rowContexts path (p.extend i t.toList) rest).flatMap _ = _
          rw [ih, extend_text, hchars, TemplateRule.chars, List.map_append, List.append_assoc]
          rfl
      | none =>
          have hleaves : (k.content.map (fun l => (⟨i, path, .leaf l⟩ : ContextNode))).flatMap
              (fun c => c.focus.written) = k.content.map TemplateRule.Written.leaf := by
            rw [List.flatMap_map]
            exact List.map_eq_flatMap.symm
          show (p.flush path ++ (_ ++ rowContexts path (0, []) rest)).flatMap _ = _
          rw [List.flatMap_append, List.flatMap_append, flush_written, ih, hleaves]
          rfl
  | node i e kids rest ihk ihr =>
      rw [rowContexts, List.flatMap_append, List.flatMap_cons, flush_written, ihr]
      rfl

theorem rowContexts_subset (path : List (NodeId × Element)) (p : Pending) (row : Nodes)
    {c : ContextNode} (hc : c ∈ rowContexts path p row) : c ∈ deepContexts path p row := by
  induction row generalizing p with
  | nil => exact hc
  | leaf i k rest ih =>
      rw [rowContexts] at hc
      rw [deepContexts]
      cases hk : k.text? with
      | some t =>
          rw [hk] at hc
          exact ih _ hc
      | none =>
          rw [hk] at hc
          rcases List.mem_append.mp hc with hc | hc
          · exact List.mem_append_left _ hc
          rcases List.mem_append.mp hc with hc | hc
          · exact List.mem_append_right _ (List.mem_append_left _ hc)
          · exact List.mem_append_right _ (List.mem_append_right _ (ih _ hc))
  | node i e kids rest ihk ihr =>
      rw [rowContexts] at hc
      rw [deepContexts]
      rcases List.mem_append.mp hc with hc | hc
      · exact List.mem_append_left _ hc
      rcases List.mem_cons.mp hc with rfl | hc
      · exact List.mem_append_right _ List.mem_cons_self
      · exact List.mem_append_right _
          (List.mem_cons_of_mem _ (List.mem_append_right _ (ihr _ hc)))

/-- Below the root there is no other root, and no empty text. -/
def IsBelowRoot (c : ContextNode) : Prop := c.focus.isRoot = false ∧ c.focus.written ≠ []

theorem flush_belowRoot {path : List (NodeId × Element)} {p : Pending} {c : ContextNode}
    (hc : c ∈ p.flush path) : IsBelowRoot c := by
  unfold Pending.flush at hc
  split at hc
  · cases hc
  · rename_i hp
    rw [List.mem_singleton] at hc
    subst hc
    exact ⟨rfl, fun h => hp (TemplateRule.chars_eq_nil.mp h)⟩

theorem deepContexts_belowRoot {path : List (NodeId × Element)} {p : Pending} {row : Nodes}
    {c : ContextNode} (hc : c ∈ deepContexts path p row) : IsBelowRoot c := by
  induction row generalizing path p with
  | nil => exact flush_belowRoot hc
  | leaf i k rest ih =>
      rw [deepContexts] at hc
      cases hk : k.text? with
      | some t =>
          rw [hk] at hc
          exact ih hc
      | none =>
          rw [hk] at hc
          rcases List.mem_append.mp hc with hc | hc
          · exact flush_belowRoot hc
          rcases List.mem_append.mp hc with hc | hc
          · obtain ⟨l, -, rfl⟩ := List.mem_map.mp hc
            exact ⟨rfl, List.cons_ne_nil _ _⟩
          · exact ih hc
  | node i e kids rest ihk ihr =>
      rw [deepContexts] at hc
      rcases List.mem_append.mp hc with hc | hc
      · exact flush_belowRoot hc
      rcases List.mem_cons.mp hc with rfl | hc
      · exact ⟨rfl, List.cons_ne_nil _ _⟩
      rcases List.mem_append.mp hc with hc | hc
      · rcases List.mem_append.mp hc with hc | hc
        · obtain ⟨a, -, rfl⟩ := List.mem_map.mp hc
          exact ⟨rfl, List.cons_ne_nil _ _⟩
        · exact ihk hc
      · exact ihr hc

/-- A row with an element in it is not text alone. -/
theorem writtenRow_ne_chars {chain : List Element} {row : Nodes} (h : row.hasNode = true)
    (s : List Char) : TemplateRule.writtenRow (treeOf chain row) ≠ TemplateRule.chars s := by
  induction row generalizing s with
  | nil => cases h
  | leaf i k rest ih =>
      intro heq
      rw [treeOf, writtenRow_pushLeaves] at heq
      obtain ⟨s₁, s₂, rfl, -, h₂⟩ := List.append_eq_map_iff.mp heq
      exact ih h s₂ h₂.symm
  | node i e kids rest =>
      intro heq
      cases s with
      | nil => cases heq
      | cons c s =>
          have hhead := (List.cons.inj heq).1
          cases hhead

variable {doc : Document}

theorem mem_contexts_cases {c : ContextNode} (hc : c ∈ contexts doc) :
    c = rootContext doc ∨ IsBelowRoot c := by
  rcases List.mem_cons.mp hc with rfl | hc
  · exact Or.inl rfl
  · exact Or.inr (deepContexts_belowRoot hc)

theorem mem_contexts_of_row {c : ContextNode} (hc : c ∈ rowContexts [] (0, []) doc.top) :
    c ∈ contexts doc :=
  List.mem_cons_of_mem _ (rowContexts_subset [] (0, []) doc.top hc)

/-- The nodes below the root. -/
def topContexts (doc : Document) : List (XPathNode doc) :=
  (rowContexts [] (0, []) doc.top).attach.map (fun c => ⟨c.1, mem_contexts_of_row c.2⟩)

theorem topContexts_written (doc : Document) :
    (topContexts doc).flatMap (fun c => c.1.focus.written)
      = TemplateRule.writtenRow (treeOf [] doc.top) := by
  have hrow := rowContexts_written [] (0, []) doc.top
  rw [← List.attach_map_subtype_val (rowContexts [] (0, []) doc.top), List.flatMap_map] at hrow
  rw [topContexts, List.flatMap_map]
  exact hrow

theorem topContexts_belowRoot {c : XPathNode doc} (hc : c ∈ topContexts doc) :
    IsBelowRoot c.1 := by
  obtain ⟨d, -, rfl⟩ := List.mem_map.mp hc
  exact deepContexts_belowRoot (rowContexts_subset [] (0, []) doc.top d.2)

/-- **The input of a stylesheet**, with the answers XPath gives about it. -/
def source (doc : Document) (hdoc : doc.top.hasNode = true) (xpath : XPathRules doc) :
    TemplateRule.Source (XPathNode doc) Head ExpandedName Expression where
  focus c := c.1.focus
  children _ := topContexts doc
  select := xpath.select
  string := xpath.string
  written_ne_nil c := by
    rcases mem_contexts_cases c.2 with h | h
    · rw [h]
      exact writtenRow_ne_chars hdoc []
    · exact h.2
  root_children c row hc := by
    rcases mem_contexts_cases c.2 with h | h
    · rw [h] at hc
      cases hc
      exact topContexts_written doc
    · have hroot := h.1
      rw [hc] at hroot
      cases hroot
  child_not_root c row m hc hm := (topContexts_belowRoot hm).1

/-! ## The shortcut -/

/-- The shortcut is taken, by a stylesheet with this one template. -/
structure TakesShortcut (up : Uppsala) (transformNode stylesheet template : Node) : Prop where
  found : transformNode.children.find? (fun c : Node =>
    c.element?.any (fun e => isXsl e "stylesheet")) = some stylesheet
  templates : (stylesheetOf up stylesheet).templates = [template]
  identity : isIdentity up (stylesheetOf up stylesheet) = true

/-- The `xsl:copy` that is looked for is one of the template's own instructions. -/
theorem hasCopy_bodyOf {chain : List Element} {s : List Char} {path : List (NodeId × Element)}
    {row : Nodes}
    (h : (row.row path).any (fun c : Node => c.element?.any (fun e => isXsl e "copy")) = true) :
    (bodyOf chain s row).hasCopy = true := by
  have htext : ∀ (s : List Char) (rest : Body), rest.hasCopy = true →
      (textInstruction chain s rest).hasCopy = true := by
    intro s rest hrest
    unfold textInstruction
    split
    · exact hrest
    · exact hrest
  induction row generalizing s with
  | nil => cases h
  | leaf i k rest ih =>
      rw [bodyOf]
      cases hk : k.text? with
      | some t => exact ih h
      | none => exact htext s _ (ih h)
  | node i e kids rest ihk ihr =>
      rw [bodyOf]
      refine htext s _ ?_
      rw [Forest.row, List.any_cons, Bool.or_eq_true] at h
      by_cases hxsl : e.name.namespaceUri = some Ns.XSL
      · rw [if_pos hxsl]
        by_cases hcopy : e.name.localName = "copy"
        · rw [if_pos hcopy]
          rfl
        · rw [if_neg hcopy]
          -- this element is not the one, so a later one is
          have hrest : (bodyOf chain [] rest).hasCopy = true := by
            rcases h with h | h
            · have he : isXsl e "copy" = true := h
              simp [isXsl, hcopy] at he
            · exact ihr h
          split
          · exact hrest
          · split
            · exact hrest
            · split
              · exact hrest
              · exact hrest
      · rw [if_neg hxsl]
        rcases h with h | h
        · have he : isXsl e "copy" = true := h
          simp [isXsl, hxsl] at he
        · exact ihr h

theorem TakesShortcut.hasCopy {up : Uppsala} {transformNode stylesheet template : Node}
    (h : TakesShortcut up transformNode stylesheet template) :
    (ruleOf template).body.hasCopy = true := by
  have hid := h.identity
  unfold isIdentity at hid
  rw [h.templates] at hid
  exact hasCopy_bodyOf (Bool.and_eq_true_iff.mp hid).2

theorem TakesShortcut.unchanged {lib : TransformLibs} {transformNode stylesheet template : Node}
    (h : TakesShortcut lib.toUppsala transformNode stylesheet template) (data : TransformData) :
    applyXsltTransform lib data transformNode = .ok data := by
  unfold applyXsltTransform
  rw [h.found]
  exact if_pos h.identity

/-- The document under the template's rule, starting as XSLT starts, in no mode. -/
def TransformsToItself (doc : Document) (hdoc : doc.top.hasNode = true) (xpath : XPathRules doc)
    (template : Node) : Prop :=
  TemplateRule.IsIdentity (source doc hdoc xpath) (ruleOf template) none
    ⟨rootContext doc, List.mem_cons_self⟩

/-- **The shortcut is right exactly for templates that pass every node through.** -/
theorem identity_shortcut_iff (lib : TransformLibs) (transformNode stylesheet template : Node)
    (h : TakesShortcut lib.toUppsala transformNode stylesheet template) (doc : Document)
    (hdoc : doc.top.hasNode = true) (xpath : XPathRules doc) :
    (∀ data, applyXsltTransform lib data transformNode = .ok data)
      ∧ (TransformsToItself doc hdoc xpath template ↔ (ruleOf template).mode = none
          ∧ ∀ n : XPathNode doc, n.1.focus.isRoot = false →
              TemplateRule.PassesThrough (source doc hdoc xpath) (ruleOf template).mode
                (ruleOf template).body n) :=
  ⟨h.unchanged, TemplateRule.isIdentity_iff h.hasCopy (writtenRow_ne_chars hdoc)⟩

namespace IdentitySample

def xslElement (localName : String) (attributes : List Attribute) : Element :=
  ⟨⟨some "xsl", localName, some Ns.XSL⟩, attributes, []⟩

def plainAttr (name value : String) : Attribute := ⟨⟨none, name, none⟩, value⟩

def matchAll : String := "@*|node()"

/-- `<xsl:template match="@*|node()"><xsl:copy>content</xsl:copy></xsl:template>` -/
def transformElement : Element := ⟨⟨none, "Transform", some Ns.DSIG⟩, [], []⟩

def templateElement : Element := xslElement "template" [plainAttr "match" matchAll]

def stylesheetElement : Element := xslElement "stylesheet" []

def templateKids (content : Nodes) : Nodes := .node 3 (xslElement "copy" []) content .nil

def template (content : Nodes) : Node :=
  ⟨2, [(1, stylesheetElement), (0, transformElement)],
    .node templateElement (templateKids content)⟩

def stylesheet (content : Nodes) : Node :=
  ⟨1, [(0, transformElement)],
    .node stylesheetElement (.node 2 templateElement (templateKids content) .nil)⟩

def transformNode (content : Nodes) : Node :=
  ⟨0, [], .node (transformElement)
    (.node 1 stylesheetElement (.node 2 templateElement (templateKids content) .nil) .nil)⟩

/-- `<xsl:apply-templates select="@*|node()"/>` -/
def applyAll : Nodes :=
  .node 4 (xslElement "apply-templates" [plainAttr "select" matchAll]) .nil .nil

def libs : TransformLibs := .ofParser (fun _ => .error "not a document")

theorem takesShortcut (content : Nodes) : TakesShortcut libs.toUppsala (transformNode content)
    (stylesheet content) (template content) where
  found := rfl
  templates := rfl
  identity := by
    have hmatch : matchAttrOf libs.toUppsala (template content) = "@*|node()".toList := rfl
    have htemplates : (stylesheetOf libs.toUppsala (stylesheet content)).templates
        = [template content] := rfl
    rw [isIdentity, htemplates]
    show ((_ == _ || _) && _) = true
    rw [hmatch, beq_self_eq_true, Bool.true_or, Bool.true_and]
    rfl

def inputTag : Element := ⟨⟨none, "a", none⟩, [plainAttr "b" "c"], []⟩

/-- `<a b="c">x</a>` -/
def input : Document where
  root := 0
  top := .node 1 inputTag (.leaf 2 (.text "x") .nil) .nil
  nodup := by decide

def inputElement : ContextNode := elementContext [] 1 inputTag (.leaf 2 (.text "x") .nil)

/-- XPath for `@*|node()`: the nodes directly below. -/
def rules : XPathRules input where
  select _ n := (contexts input).attach.filter (fun d =>
    d.1.path.map Prod.fst == n.1.key :: n.1.path.map Prod.fst)
  string _ _ := []

/-- `<xsl:copy><xsl:apply-templates select="@*|node()"/></xsl:copy>` is the identity. -/
theorem identity_shortcut_sample : TransformsToItself input rfl rules (template applyAll) := by
  refine (identity_shortcut_iff libs (transformNode applyAll) (stylesheet applyAll)
    (template applyAll) (takesShortcut applyAll) input rfl rules).2.mpr ⟨rfl, fun n hn => ?_⟩
  refine ⟨trivial, trivial, fun label kids hfocus => ?_⟩
  obtain ⟨c, hc⟩ := n
  have hcases : c = rootContext input ∨ c = inputElement
      ∨ c ∈ attributeContexts [] 1 inputTag ∨ c = ⟨2, [(1, inputTag)], .text ['x']⟩ := by
    simpa [contexts, input, inputElement, deepContexts, Pending.flush, Pending.extend,
      LeafKind.text?] using hc
  rcases hcases with rfl | rfl | hattr | rfl
  · cases hfocus
  · cases hfocus
    rfl
  · obtain ⟨a, -, rfl⟩ := List.mem_map.mp hattr
    cases hfocus
  · cases hfocus

/-- `<xsl:copy/>` takes the shortcut too. -/
theorem empty_copy_takes_shortcut :
    TakesShortcut libs.toUppsala (transformNode .nil) (stylesheet .nil) (template .nil)
      ∧ ¬ TransformsToItself input rfl rules (template .nil) := by
  refine ⟨takesShortcut .nil, fun h => ?_⟩
  have hpass := TemplateRule.reproduces_iff (takesShortcut .nil).hasCopy |>.mp h.nodes
  have hmem : inputElement ∈ contexts input := by
    simp [contexts, input, inputElement, deepContexts, Pending.flush]
  have hin := (hpass ⟨_, hmem⟩ rfl).inside _ _ rfl
  -- the empty copy writes no children
  have hkids := congrArg Prod.snd (Option.some.inj hin)
  cases hkids

end IdentitySample

end Xslt

end Bergshamra
