import Bergshamra.Dsig.XPathExpr
import Bergshamra.Transforms.Pipeline
import Bergshamra.Xml.XPath

/-!
# The XPath transform

`apply_xpath_transform`. The expression is read from the document that contains
the transform; the filter runs over the parse of the text that flows through the
chain. Expressions recognized as the enveloped-signature pattern, and the
`here()` part of the compound pattern, refer to nodes of the first document by
index in the second.
-/

namespace Bergshamra

/-- The XML of a transform's input; octets are read as a text, with no node set. -/
def xmlInput (lib : TransformLibs) (mapErr : String → Error) :
    TransformData → Except Error (String × Option NodeSet)
  | .xml xmlText nodeSet => .ok (xmlText, nodeSet)
  | .binary bytes => do
      let text ← fromUtf8 lib mapErr bytes
      .ok (text, none)

/-- `uppsala::parse(&xml_text).map_err(|e| Error::XmlParse(..))`. -/
def parseXml (lib : TransformLibs) (xmlText : String) : Except Error Document :=
  match lib.parse xmlText with
  | .error e => .error (.xmlParse e)
  | .ok doc => .ok doc

/-- The ids of the nodes of the input set that pass a test. -/
def filterNodes (doc : Document) (nodeSet : Option NodeSet) (keep : Node → Bool) :
    Finset NodeId :=
  ((doc.descendants.filter (fun n : Node => isVisible nodeSet n.key && keep n)).map
    Forest.Cursor.key).toFinset

/-- `collect_inscope_namespaces_raw`; it has the text of the exclusive canonicalizer's. -/
def collectInscopeNamespacesRaw (chain : List Element) : NsMap :=
  Exclusive.collectInscopeNamespaces chain

/-- The map that `apply_parsed_xpath_filter` builds: one entry for each namespace in scope at
each element of the document. -/
def nsVisibleOf (doc : Document) (expr : XPathBoolExpr) : NsVisible := fun id p =>
  match doc.node? id with
  | none => none
  | some n =>
      match n.element? with
      | none => none
      | some e =>
          (collectInscopeNamespacesRaw (e :: n.path.map Prod.snd))[p]?.map (fun uri =>
            evalXPathBoolNs ⟨p, uri, e, n.path.map Prod.snd⟩ expr)

/-- The node set `apply_parsed_xpath_filter` leaves. -/
def parsedXPathNodeSet (doc : Document) (nodeSet : Option NodeSet) (expr : XPathBoolExpr) :
    NodeSet :=
  let resultNs :=
    NodeSet.fromIds (filterNodes doc nodeSet (fun n => evalXPathBool n expr)) .normal
  -- `@*`: the elements are in the set, their attribute nodes are not
  let resultNs := if expr = .hasAttributes then resultNs.setExcludeAttrs true else resultNs
  if exprReferencesNsNodes expr then resultNs.setNsVisible (nsVisibleOf doc expr) else resultNs

/-- `apply_parsed_xpath_filter`. -/
def applyParsedXPathFilter (lib : TransformLibs) (data : TransformData) (expr : XPathBoolExpr) :
    Except Error TransformData := do
  let (xmlText, inputNs) ←
    xmlInput lib (fun e => .xmlParse ("XPath transform: invalid UTF-8: " ++ e)) data
  let doc ← parseXml lib xmlText
  .ok (.xml xmlText (some (parsedXPathNodeSet doc inputNs expr)))

/-! ## Expressions recognized as the enveloped-signature transform -/

/-- Is the prefix declared as the signature namespace on the element or above it? -/
def declaresDsig (xpathNode : Node) (pfx : List Char) : Bool :=
  xpathNode.selfPath.any (fun a =>
    a.2.namespaceDeclarations.any (fun d => d.1 == String.ofList pfx && d.2 == Ns.DSIG))

/-- `is_enveloped_xpath`: `not(ancestor-or-self::P:Signature)`. The two ends are tested before
either is cut off; in a text where they overlap the slice between them ends before it starts. -/
def isEnvelopedXPath (expr : List Char) (xpathNode : Node) : Except Error Bool :=
  let expr := Text.trim expr
  let front := "not(ancestor-or-self::".toList
  let back := ":Signature)".toList
  if !Text.startsWith front expr || !Text.endsWith back expr then .ok false
  else if expr.length < front.length + back.length then .error .panics
  else
    .ok (declaresDsig xpathNode
      ((expr.drop front.length).take (expr.length - front.length - back.length)))

/-- `is_enveloped_xpath_here`:
`count(ancestor-or-self::P:Signature | here()/ancestor::P:Signature[1]) > count(…)`. -/
def isEnvelopedXPathHere (expr : List Char) (xpathNode : Node) : Bool :=
  match Text.stripPrefix? "count(ancestor-or-self::".toList (Text.normalizeSpace expr) with
  | none => false
  | some rest =>
      match Text.splitOnce ":Signature | here()/ancestor::".toList rest with
      | none => false
      | some (pfx, after) =>
          if after = pfx ++ ":Signature[1]) > count(ancestor-or-self::".toList ++ pfx
              ++ ":Signature)".toList then
            declaresDsig xpathNode pfx
          else false

/-! ## The compound pattern -/

/-- `parse_here_exclude_pattern`. -/
def parseHereExcludePattern (expr : List Char) (xpathNode : Node) : Option (String × String) :=
  match Text.stripPrefix? "count(ancestor-or-self::".toList expr with
  | none => none
  | some rest =>
      match Text.splitOnce " | here()/ancestor::".toList rest with
      | none => none
      | some (name, after) =>
          if after = name ++ "[1]) > count(ancestor-or-self::".toList ++ name ++ [')'] then
            resolvePrefixedName name xpathNode
          else none

/-- `A and B or C` with `A` an ancestor's name, `B` the name of the element whose nearest
instance around `here()` is left out, and `C` an id whose subtree is let in. -/
structure CompoundFilter where
  a : String × String
  b : String × String
  id : String

/-- The pattern matching of `try_compound_xpath_filter`. -/
def parseCompound (expr : List Char) (xpathNode : Node) : Option CompoundFilter := do
  let (leftPart, rightPart) ←
    Text.splitOnce (" or count(ancestor-or-self::node() | id(".toList ++ [apostrophe]) expr
  let idValue ←
    Text.stripSuffix? (apostrophe :: ")) = count(ancestor-or-self::node())".toList) rightPart
  let (partA, partB) ← Text.splitOnce " and ".toList leftPart
  let aName ← Text.stripPrefix? "ancestor-or-self::".toList (Text.trim partA)
  let a ← resolvePrefixedName aName xpathNode
  let b ← parseHereExcludePattern (Text.trim partB) xpathNode
  some ⟨a, b, String.ofList idValue⟩

/-- `is_descendant_of_index`: the index is met on the way up to the document node. -/
def isDescendantOfIndex (doc : Document) (n : Node) (target : NodeId) : Bool :=
  n.key == target || n.path.any (fun a => a.1 == target) || doc.root == target

/-- `find_ancestor_by_name_idx`. -/
def findAncestorByNameIdx (n : Node) (nsUri localName : String) : Option NodeId :=
  (n.selfPath.find? (fun a => a.2.isNamed nsUri localName)).map Prod.fst

/-- The test of the compound filter at a node of `doc`: `here?` is the index of the element left
out, `id?` that of the element let in. -/
def compoundKeeps (c : CompoundFilter) (doc : Document) (here? id? : Option NodeId) (n : Node) :
    Bool :=
  let a := n.selfPath.any (fun x => x.2.isNamed c.a.1 c.a.2)
  let b := match here? with
    | some i => !isDescendantOfIndex doc n i
    | none => true
  let c := match id? with
    | some i => isDescendantOfIndex doc n i
    | none => false
  (a && b) || c

/-- The attribute names that are ids when no others are named. -/
def defaultIdAttrs : List String := ["Id", "ID", "id", "AssertionID"]

/-- The part of `try_compound_xpath_filter` after the pattern has matched. -/
def applyCompoundFilter (lib : TransformLibs) (data : TransformData) (c : CompoundFilter)
    (xpathNode : Node) : Except Error TransformData := do
  let (xmlText, inputNs) ← xmlInput lib (fun e => .xmlParse ("XPath: invalid UTF-8: " ++ e)) data
  let innerDoc ← parseXml lib xmlText
  let idMap ← buildIdMap lib.toUppsala innerDoc defaultIdAttrs
  let here? := findAncestorByNameIdx xpathNode c.b.1 c.b.2
  let id? := (idMap.get? c.id).map Forest.Cursor.key
  .ok (.xml xmlText (some (NodeSet.fromIds
    (filterNodes innerDoc inputNs (compoundKeeps c innerDoc here? id?)) .normal)))

/-! ## The transform -/

/-- The `<XPath>` child, whatever its namespace. -/
def xpathChild? (transformNode : Node) : Option Node :=
  transformNode.children.find? (fun c : Node => c.element?.any (fun e => e.name.localName == "XPath"))

/-- What `apply_xpath_transform` makes of an expression. -/
inductive XPathFilter where
  /-- Taken for the enveloped-signature transform. -/
  | enveloped
  | parsed (expr : XPathBoolExpr)
  | compound (c : CompoundFilter)

/-- The choice `apply_xpath_transform` makes. -/
def classifyXPath (expr : List Char) (xpathNode : Node) : Except Error XPathFilter := do
  let enveloped ← isEnvelopedXPath expr xpathNode
  if enveloped || isEnvelopedXPathHere expr xpathNode then .ok .enveloped
  else
    match parseXPathBoolExpr expr xpathNode with
    | some parsed => .ok (.parsed parsed)
    | none =>
        match parseCompound expr xpathNode with
        | some c => .ok (.compound c)
        | none => .error (.unsupportedAlgorithm
            ("XPath expression not supported: " ++ String.ofList expr))

/-- The expression, with white space normalized. -/
def xpathExprOf (xpathNode : Node) : List Char :=
  Text.normalizeSpace (Text.trim (xpathNode.elementText.getD "").toList)

/-- The filter, applied. -/
def applyXPathFilter (lib : TransformLibs) (data : TransformData) (filter : XPathFilter)
    (xpathNode : Node) (sigNode : NodeId) : Except Error TransformData :=
  match filter with
  | .enveloped => EnvelopedSignatureTransform.execute lib sigNode data
  | .parsed expr => applyParsedXPathFilter lib data expr
  | .compound c => applyCompoundFilter lib data c xpathNode

/-- `apply_xpath_transform`. -/
def applyXPathTransform (lib : TransformLibs) (data : TransformData) (transformNode : Node)
    (sigNode : NodeId) : Except Error TransformData :=
  match xpathChild? transformNode with
  | none => .error (.missingElement "XPath expression element")
  | some xpathNode => do
      let filter ← classifyXPath (xpathExprOf xpathNode) xpathNode
      applyXPathFilter lib data filter xpathNode sigNode

/-! ## What the filters leave -/

theorem parseXml_ok {lib : TransformLibs} {xmlText : String} {doc : Document} :
    parseXml lib xmlText = .ok doc ↔ lib.parse xmlText = .ok doc := by
  unfold parseXml
  cases lib.parse xmlText <;> simp

theorem xmlInput_ok {lib : TransformLibs} {mapErr : String → Error} {data : TransformData}
    {input : String × Option NodeSet} :
    xmlInput lib mapErr data = .ok input ↔ data.asXml? = some input := by
  cases data with
  | xml xmlText nodeSet => simp [xmlInput, TransformData.asXml?]
  | binary bytes => simp [xmlInput, TransformData.asXml?, bind_eq_ok, fromUtf8_ok]

theorem applyParsedXPathFilter_ok {lib : TransformLibs} {data result : TransformData}
    {expr : XPathBoolExpr} :
    applyParsedXPathFilter lib data expr = .ok result
      ↔ ∃ xmlText nodeSet doc, data.asXml? = some (xmlText, nodeSet)
        ∧ lib.parse xmlText = .ok doc
        ∧ result = .xml xmlText (some (parsedXPathNodeSet doc nodeSet expr)) := by
  simp only [applyParsedXPathFilter, bind_eq_ok, xmlInput_ok, parseXml_ok, Prod.exists,
    Except.ok.injEq, eq_comm (a := result), exists_and_left]

/-- The compound filter, with the id map it reads. -/
theorem applyCompoundFilter_ok {lib : TransformLibs} {data result : TransformData}
    {c : CompoundFilter} {xpathNode : Node} :
    applyCompoundFilter lib data c xpathNode = .ok result
      ↔ ∃ xmlText nodeSet doc idMap, data.asXml? = some (xmlText, nodeSet)
        ∧ lib.parse xmlText = .ok doc
        ∧ buildIdMap lib.toUppsala doc defaultIdAttrs = .ok idMap
        ∧ result = .xml xmlText (some (NodeSet.fromIds
            (filterNodes doc nodeSet (compoundKeeps c doc
              (findAncestorByNameIdx xpathNode c.b.1 c.b.2)
              ((idMap.get? c.id).map Forest.Cursor.key))) .normal)) := by
  simp only [applyCompoundFilter, bind_eq_ok, xmlInput_ok, parseXml_ok, Prod.exists,
    Except.ok.injEq, eq_comm (a := result), exists_and_left]

theorem applyXPathTransform_ok {lib : TransformLibs} {data result : TransformData}
    {transformNode : Node} {sigNode : NodeId} :
    applyXPathTransform lib data transformNode sigNode = .ok result
      ↔ ∃ xpathNode filter, xpathChild? transformNode = some xpathNode
        ∧ classifyXPath (xpathExprOf xpathNode) xpathNode = .ok filter
        ∧ applyXPathFilter lib data filter xpathNode sigNode = .ok result := by
  unfold applyXPathTransform
  cases hx : xpathChild? transformNode with
  | none => simp
  | some xpathNode => simp [bind_eq_ok]

/-- Walking up meets an index exactly from the nodes that `remove_subtree` would remove. -/
theorem isDescendantOfIndex_iff {doc : Document} {n : Node} (hn : n ∈ doc.descendants)
    (target : NodeId) :
    isDescendantOfIndex doc n target = true ↔ n.key ∈ doc.idsBelow target := by
  have hmem := Document.mem_descendants_key hn
  unfold isDescendantOfIndex Document.idsBelow
  by_cases hroot : target = doc.root
  · simp [hroot, hmem]
  · rw [if_neg hroot]
    have hne : ¬ doc.root = target := fun h => hroot h.symm
    cases ht : doc.node? target with
    | some m =>
        obtain ⟨hm, rfl⟩ := Document.mem_of_node? ht
        have hiff := Forest.mem_subtreeKeys_iff doc.nodup_top hm hn
        simpa [hne, List.mem_map] using hiff.symm
    | none =>
        have hpath : ∀ a ∈ n.path, a.1 ≠ target := by
          intro a ha hk
          rcases Forest.descendant_of_mem_path hn ha with h | ⟨c, hc, hck, _⟩
          · simp at h
          · have := Document.node?_key hc
            rw [hck, hk, ht] at this
            simp at this
        simp only [Bool.or_eq_true, beq_iff_eq, List.any_eq_true, List.mem_singleton, hne, or_false]
        constructor
        · rintro (h | ⟨a, ha, hk⟩)
          · exact h
          · exact absurd hk (hpath a ha)
        · exact Or.inl

/-- The three parts of the compound filter's test. -/
theorem compoundKeeps_apply (f : CompoundFilter) (doc : Document) (here? id? : Option NodeId)
    (n : Node) :
    compoundKeeps f doc here? id? n
      = ((n.selfPath.any (fun x => x.2.isNamed f.a.1 f.a.2)
          && here?.all (fun i => !isDescendantOfIndex doc n i))
        || id?.any (fun i => isDescendantOfIndex doc n i)) := by
  cases here? <;> cases id? <;> rfl

theorem mem_filterNodes {doc : Document} {nodeSet : Option NodeSet} {keep : Node → Bool}
    {id : NodeId} :
    id ∈ filterNodes doc nodeSet keep
      ↔ ∃ n ∈ doc.descendants, n.key = id ∧ isVisible nodeSet n.key = true ∧ keep n = true := by
  unfold filterNodes
  simp only [List.mem_toFinset, List.mem_map, List.mem_filter, Bool.and_eq_true]
  constructor
  · rintro ⟨n, ⟨hn, hv, hk⟩, rfl⟩
    exact ⟨n, hn, rfl, hv, hk⟩
  · rintro ⟨n, hn, rfl, hv, hk⟩
    exact ⟨n, ⟨hn, hv, hk⟩, rfl⟩

theorem parsedXPathNodeSet_nodes (doc : Document) (nodeSet : Option NodeSet)
    (expr : XPathBoolExpr) :
    (parsedXPathNodeSet doc nodeSet expr).nodes
      = filterNodes doc nodeSet (fun n => evalXPathBool n expr) := by
  unfold parsedXPathNodeSet
  dsimp only
  split <;> split <;> rfl

theorem parsedXPathNodeSet_setType (doc : Document) (nodeSet : Option NodeSet)
    (expr : XPathBoolExpr) : (parsedXPathNodeSet doc nodeSet expr).setType = .normal := by
  unfold parsedXPathNodeSet
  dsimp only
  split <;> split <;> rfl

theorem parsedXPathNodeSet_nsVisible (doc : Document) (nodeSet : Option NodeSet)
    (expr : XPathBoolExpr) :
    (parsedXPathNodeSet doc nodeSet expr).nsVisible
      = if exprReferencesNsNodes expr then some (nsVisibleOf doc expr) else none := by
  unfold parsedXPathNodeSet
  dsimp only
  split <;> split <;> rfl

theorem parsedXPathNodeSet_excludeAttrs (doc : Document) (nodeSet : Option NodeSet)
    (expr : XPathBoolExpr) :
    (parsedXPathNodeSet doc nodeSet expr).excludeAttrs = decide (expr = .hasAttributes) := by
  unfold parsedXPathNodeSet
  dsimp only
  split <;> split <;> simp_all [NodeSet.fromIds, NodeSet.setExcludeAttrs, NodeSet.setNsVisible]

end Bergshamra
