import Bergshamra.Dsig.XPathFilter
import Bergshamra.Dsig.Filter2
import Bergshamra.Dsig.Xslt

/-!
# One transform

`apply_transform` and the transforms that have no module of their own. The
transform element, and the Signature whose index is handed down, belong to the
document that is verified or signed; the data may by then belong to another one.
-/

namespace Bergshamra

/-- `read_inclusive_prefixes`. -/
def readInclusivePrefixes (up : Uppsala) (n : Node) : List String :=
  ((n.children.findSome? (fun c : Node =>
    c.element?.bind (fun e =>
      if e.name.localName = "InclusiveNamespaces" then
        (up.getAttribute e "PrefixList").map (fun list =>
          (Text.splitWhitespace list.toList).map String.ofList)
      else none))).getD [])

/-! ## XPointer -/

/-- The `<XPointer>` child, whatever its namespace. -/
def xpointerChild? (transformNode : Node) : Option Node :=
  transformNode.children.find? (fun c : Node =>
    c.element?.any (fun e => e.name.localName == "XPointer"))

/-- The id that the transform element points at. -/
def xpointerIdOf (transformNode : Node) : Except Error String :=
  match xpointerChild? transformNode with
  | none => .error (.missingElement "XPointer expression element")
  | some xpointerNode =>
      let expr := String.ofList (Text.trim (xpointerNode.elementText.getD "").toList)
      match parseXPointerId expr with
      | some id => .ok id
      | none => .error (.unsupportedAlgorithm ("XPointer expression not supported: " ++ expr))

/-- The element that an id names in a document, among the default id attributes. -/
def resolveDefaultId (up : Uppsala) (doc : Document) (id : String) : Except Error Node := do
  let idMap ← buildIdMap up doc defaultIdAttrs
  resolveId idMap id

/-- The subtree of the target, comments included, met with the input set if there is one. -/
def xpointerNodeSet (target : Node) : Option NodeSet → NodeSet
  | some existing => existing.intersection (NodeSet.treeWithComments target)
  | none => NodeSet.treeWithComments target

/-- `apply_xpointer_transform`. -/
def applyXPointerTransform (lib : TransformLibs) (data : TransformData) (transformNode : Node) :
    Except Error TransformData := do
  let id ← xpointerIdOf transformNode
  match data with
  | .binary _ => .ok data
  | .xml xmlText nodeSet =>
      match lib.parse xmlText with
      | .error e => .error (.xmlParse e)
      | .ok innerDoc => do
          let target ← resolveDefaultId lib.toUppsala innerDoc id
          .ok (.xml xmlText (some (xpointerNodeSet target nodeSet)))

theorem applyXPointerTransform_xml {lib : TransformLibs} {xmlText : String} {doc : Document}
    (h : lib.parse xmlText = .ok doc) {nodeSet : Option NodeSet} {transformNode : Node}
    {result : TransformData} :
    applyXPointerTransform lib (.xml xmlText nodeSet) transformNode = .ok result
      ↔ ∃ id target, xpointerIdOf transformNode = .ok id
        ∧ resolveDefaultId lib.toUppsala doc id = .ok target
        ∧ result = .xml xmlText (some (xpointerNodeSet target nodeSet)) := by
  simp only [applyXPointerTransform, bind_eq_ok, h, Except.ok.injEq, eq_comm (a := result),
    exists_and_left]

/-! ## Relationships -/

/-- `RelInfo`; the target mode is written out even where it is the default. -/
structure RelInfo where
  id : String
  target : String
  relType : String
  targetMode : String
deriving DecidableEq, Repr

/-- The values of one attribute on the reference elements of one name. -/
def referenceValues (up : Uppsala) (transformNode : Node) (localName attrName : String) :
    List String :=
  transformNode.children.filterMap (fun c : Node =>
    c.element?.bind (fun e =>
      if e.isNamed Ns.RELATIONSHIP_REFERENCE localName then up.getAttribute e attrName else none))

/-- The relationship an element states. -/
def relInfoOf (up : Uppsala) (e : Element) : RelInfo where
  id := (up.getAttribute e "Id").getD ""
  target := (up.getAttribute e "Target").getD ""
  relType := (up.getAttribute e "Type").getD ""
  targetMode := (up.getAttribute e "TargetMode").getD "Internal"

/-- The relationships below an element that the references select, in document order. -/
def selectedRels (up : Uppsala) (sourceIds sourceTypes : List String) (root : Node) :
    List RelInfo :=
  (root.children.filterMap (fun c : Node =>
    c.element?.bind (fun e =>
      if e.isNamed Ns.RELATIONSHIPS "Relationship" then some (relInfoOf up e) else none))).filter
    (fun r => sourceIds.contains r.id || sourceTypes.contains r.relType)

/-- The order `rels.sort_by` sorts by. -/
abbrev RelInfo.le (a b : RelInfo) : Prop := a.id ≤ b.id

/-- The attributes of a relationship, as they are written. -/
def RelInfo.attrs (r : RelInfo) : List (String × String) :=
  [("Id", r.id), ("Target", r.target), ("TargetMode", r.targetMode), ("Type", r.relType)]

/-- The output of the transform for the selected relationships. -/
def writeRelationships (lib : TransformLibs) (rels : List RelInfo) : String :=
  lib.startElement "Relationships" [("xmlns", Ns.RELATIONSHIPS)]
    ++ String.join (rels.map (fun r => lib.emptyElementExpanded "Relationship" r.attrs))
    ++ lib.endElement "Relationships"

/-- `apply_relationship_transform`. -/
def applyRelationshipTransform (lib : TransformLibs) (data : TransformData)
    (transformNode : Node) : Except Error TransformData := do
  let sourceIds := referenceValues lib.toUppsala transformNode "RelationshipReference" "SourceId"
  let sourceTypes :=
    referenceValues lib.toUppsala transformNode "RelationshipsGroupReference" "SourceType"
  let xmlText ← inputText lib (fun e => .transform ("Relationship input not UTF-8: " ++ e)) data
  match lib.parse xmlText with
  | .error e => .error (.transform ("Relationship XML parse: " ++ e))
  | .ok doc =>
      match doc.documentElement with
      | none => .error .panics
      | some root =>
          let rels := (selectedRels lib.toUppsala sourceIds sourceTypes root).insertionSort RelInfo.le
          .ok (.binary (writeRelationships lib rels).toUTF8)

/-! ## The choice -/

/-- `apply_transform`. -/
def applyTransform (lib : TransformLibs) (uri : String) (data : TransformData)
    (transformNode : Node) (sigNode : NodeId) : Except Error TransformData :=
  if uri = Algorithm.ENVELOPED_SIGNATURE then
    EnvelopedSignatureTransform.execute lib sigNode data
  else
    match C14nMode.fromUri uri with
    | some mode =>
        C14nTransform.execute lib ⟨mode, readInclusivePrefixes lib.toUppsala transformNode⟩ data
    | none =>
        if uri = Algorithm.BASE64 then Base64DecodeTransform.execute lib data
        else if uri = Algorithm.XPATH then applyXPathTransform lib data transformNode sigNode
        else if uri = Algorithm.XPOINTER then applyXPointerTransform lib data transformNode
        else if uri = Algorithm.XPATH2 then applyXPathFilter2Transform lib data transformNode
        else if uri = Algorithm.RELATIONSHIP then applyRelationshipTransform lib data transformNode
        else if uri = Algorithm.XSLT then applyXsltTransform lib data transformNode
        else .error (.unsupportedAlgorithm ("transform: " ++ uri))

section

variable (lib : TransformLibs) (data : TransformData) (transformNode : Node) (sigNode : NodeId)

theorem applyTransform_enveloped :
    applyTransform lib Algorithm.ENVELOPED_SIGNATURE data transformNode sigNode
      = EnvelopedSignatureTransform.execute lib sigNode data := rfl

theorem applyTransform_c14n (mode : C14nMode) :
    applyTransform lib mode.uri data transformNode sigNode
      = C14nTransform.execute lib ⟨mode, readInclusivePrefixes lib.toUppsala transformNode⟩
          data := by
  cases mode <;> rfl

theorem applyTransform_base64 :
    applyTransform lib Algorithm.BASE64 data transformNode sigNode
      = Base64DecodeTransform.execute lib data := rfl

theorem applyTransform_xpath :
    applyTransform lib Algorithm.XPATH data transformNode sigNode
      = applyXPathTransform lib data transformNode sigNode := rfl

theorem applyTransform_xpointer :
    applyTransform lib Algorithm.XPOINTER data transformNode sigNode
      = applyXPointerTransform lib data transformNode := rfl

theorem applyTransform_xpath2 :
    applyTransform lib Algorithm.XPATH2 data transformNode sigNode
      = applyXPathFilter2Transform lib data transformNode := rfl

theorem applyTransform_relationship :
    applyTransform lib Algorithm.RELATIONSHIP data transformNode sigNode
      = applyRelationshipTransform lib data transformNode := rfl

theorem applyTransform_xslt :
    applyTransform lib Algorithm.XSLT data transformNode sigNode
      = applyXsltTransform lib data transformNode := rfl

end

/-! ## What a step can return -/

/-- The set type is the one every set of a chain has. -/
def NormalInput (nodeSet : Option NodeSet) : Prop := ∀ s, nodeSet = some s → s.setType = .normal

/-- What a transform makes of its data: octets, the data itself, or the text it was given with a
node set over its parse. -/
inductive StepResult (lib : TransformLibs) (data : TransformData) : TransformData → Prop
  | octets (bytes : ByteArray) : StepResult lib data (.binary bytes)
  | unchanged : StepResult lib data data
  | filtered {xmlText : String} {input : Option NodeSet} {doc : Document} {out : NodeSet}
      (hx : data.asXml? = some (xmlText, input)) (hdoc : lib.parse xmlText = .ok doc)
      (hout : NormalInput input → out.setType = .normal) :
      StepResult lib data (.xml xmlText (some out))

/-! What makes octets of its data. -/

theorem C14nTransform.execute_octets {lib : TransformLibs} {t : C14nTransform}
    {data result : TransformData} (h : t.execute lib data = .ok result) :
    ∃ bytes, result = .binary bytes := by
  cases data with
  | xml xmlText nodeSet =>
      rw [C14nTransform.execute, bind_eq_ok] at h
      obtain ⟨bytes, _, hr⟩ := h
      exact ⟨bytes, (Except.ok.inj hr).symm⟩
  | binary bytes =>
      rw [C14nTransform.execute, bind_eq_ok] at h
      obtain ⟨text, _, h⟩ := h
      rw [bind_eq_ok] at h
      obtain ⟨bytes, _, hr⟩ := h
      exact ⟨bytes, (Except.ok.inj hr).symm⟩

theorem Base64DecodeTransform.execute_octets {lib : TransformLibs} {data result : TransformData}
    (h : Base64DecodeTransform.execute lib data = .ok result) : ∃ bytes, result = .binary bytes := by
  rw [Base64DecodeTransform.execute, bind_eq_ok] at h
  obtain ⟨text, _, h⟩ := h
  dsimp only at h
  split at h
  · simp at h
  · exact ⟨_, (Except.ok.inj h).symm⟩

theorem applyRelationshipTransform_octets {lib : TransformLibs} {data result : TransformData}
    {transformNode : Node} (h : applyRelationshipTransform lib data transformNode = .ok result) :
    ∃ bytes, result = .binary bytes := by
  rw [applyRelationshipTransform, bind_eq_ok] at h
  obtain ⟨xmlText, _, h⟩ := h
  split at h
  · simp at h
  · split at h
    · simp at h
    · exact ⟨_, (Except.ok.inj h).symm⟩

/-- The XSLT transform returns its input, or octets. -/
theorem applyXsltTransform_ok {lib : TransformLibs} {data result : TransformData}
    {transformNode : Node} (h : applyXsltTransform lib data transformNode = .ok result) :
    result = data ∨ ∃ bytes, result = .binary bytes := by
  unfold applyXsltTransform at h
  split at h
  · simp at h
  · dsimp only at h
    split at h
    · exact Or.inl (Except.ok.inj h).symm
    · rw [Xslt.applyMinimalXslt, bind_eq_ok] at h
      obtain ⟨xmlText, _, h⟩ := h
      split at h
      · simp at h
      · rw [bind_eq_ok] at h
        obtain ⟨output, _, hr⟩ := h
        exact Or.inr ⟨_, (Except.ok.inj hr).symm⟩

/-! What returns a node set. -/

theorem EnvelopedSignatureTransform.execute_result {lib : TransformLibs} {sigNode : NodeId}
    {data result : TransformData}
    (h : EnvelopedSignatureTransform.execute lib sigNode data = .ok result) :
    StepResult lib data result := by
  cases data with
  | binary bytes => simp [EnvelopedSignatureTransform.execute] at h
  | xml xmlText nodeSet =>
      cases hdoc : lib.parse xmlText with
      | error e => simp [EnvelopedSignatureTransform.execute, hdoc] at h
      | ok doc =>
          rw [EnvelopedSignatureTransform.execute_xml hdoc, Except.ok.injEq] at h
          subst h
          refine .filtered rfl hdoc (fun hn => ?_)
          rw [envelopedNodeSet, removeSubtree_eq]
          cases nodeSet with
          | none => rfl
          | some s => exact hn s rfl

theorem applyXPathTransform_result {lib : TransformLibs} {data result : TransformData}
    {transformNode : Node} {sigNode : NodeId}
    (h : applyXPathTransform lib data transformNode sigNode = .ok result) :
    StepResult lib data result := by
  rw [applyXPathTransform_ok] at h
  obtain ⟨xpathNode, filter, _, _, h⟩ := h
  cases filter with
  | enveloped => exact EnvelopedSignatureTransform.execute_result h
  | parsed expr =>
      rw [applyXPathFilter, applyParsedXPathFilter_ok] at h
      obtain ⟨xmlText, nodeSet, doc, hx, hdoc, rfl⟩ := h
      exact .filtered hx hdoc (fun _ => parsedXPathNodeSet_setType doc nodeSet expr)
  | compound c =>
      rw [applyXPathFilter, applyCompoundFilter_ok] at h
      obtain ⟨xmlText, nodeSet, doc, idMap, hx, hdoc, _, rfl⟩ := h
      exact .filtered hx hdoc (fun _ => rfl)

theorem applyXPointerTransform_result {lib : TransformLibs} {data result : TransformData}
    {transformNode : Node} (h : applyXPointerTransform lib data transformNode = .ok result) :
    StepResult lib data result := by
  cases data with
  | binary bytes =>
      rw [applyXPointerTransform, bind_eq_ok] at h
      obtain ⟨id, _, hr⟩ := h
      cases hr
      exact .unchanged
  | xml xmlText nodeSet =>
      cases hdoc : lib.parse xmlText with
      | error e =>
          rw [applyXPointerTransform, bind_eq_ok] at h
          simp [hdoc] at h
      | ok doc =>
          rw [applyXPointerTransform_xml hdoc] at h
          obtain ⟨id, target, _, _, rfl⟩ := h
          refine .filtered rfl hdoc (fun _ => ?_)
          cases nodeSet <;> rfl

theorem applyXPathFilter2Transform_result {lib : TransformLibs} {data result : TransformData}
    {transformNode : Node} (h : applyXPathFilter2Transform lib data transformNode = .ok result) :
    StepResult lib data result := by
  cases data with
  | binary bytes =>
      cases h
      exact .unchanged
  | xml xmlText nodeSet =>
      cases hdoc : lib.parse xmlText with
      | error e => simp [applyXPathFilter2Transform, hdoc] at h
      | ok doc =>
          rw [applyXPathFilter2Transform_xml hdoc] at h
          obtain ⟨filterNs, _, rfl⟩ := h
          exact .filtered rfl hdoc (fun _ => rfl)

theorem StepResult.of_octets {lib : TransformLibs} {data result : TransformData}
    (h : ∃ bytes, result = .binary bytes) : StepResult lib data result := by
  obtain ⟨bytes, rfl⟩ := h
  exact .octets bytes

/-- **What a step can do to the data.** -/
theorem applyTransform_result {lib : TransformLibs} {uri : String} {data result : TransformData}
    {transformNode : Node} {sigNode : NodeId}
    (h : applyTransform lib uri data transformNode sigNode = .ok result) :
    StepResult lib data result := by
  unfold applyTransform at h
  split at h
  · exact EnvelopedSignatureTransform.execute_result h
  · split at h
    · exact .of_octets (C14nTransform.execute_octets h)
    · split at h
      · exact .of_octets (Base64DecodeTransform.execute_octets h)
      · split at h
        · exact applyXPathTransform_result h
        · split at h
          · exact applyXPointerTransform_result h
          · split at h
            · exact applyXPathFilter2Transform_result h
            · split at h
              · exact .of_octets (applyRelationshipTransform_octets h)
              · split at h
                · rcases applyXsltTransform_ok h with rfl | ho
                  · exact .unchanged
                  · exact .of_octets ho
                · simp at h

end Bergshamra
