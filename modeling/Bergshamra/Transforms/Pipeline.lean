import Bergshamra.C14n.Canonicalize

/-!
# The data a transform chain passes on

A transform takes XML, as a text with an optional node set over its parse, or
octets. The text is parsed again by every transform that needs the tree; the
node set refers to that tree by index.
-/

namespace Bergshamra

/-- What the transforms take from other crates. -/
structure TransformLibs extends Uppsala where
  /-- The text of the error `str::from_utf8` returns. -/
  utf8Error : ByteArray → String
  /-- `STANDARD.decode`. -/
  base64Decode : String → Except String ByteArray
  /-- What `XmlWriter::start_element` appends. -/
  startElement : String → List (String × String) → String
  /-- What `XmlWriter::empty_element_expanded` appends. -/
  emptyElementExpanded : String → List (String × String) → String
  /-- What `XmlWriter::end_element` appends. -/
  endElement : String → String

/-- Libraries around a given parser, for inputs whose attributes have no prefix and whose
transforms decode nothing. -/
def TransformLibs.ofParser (parse : String → Except String Document) : TransformLibs where
  parse := parse
  getAttribute e name :=
    (e.attributes.find? (fun a => a.name.localName == name)).map Attribute.value
  utf8Error _ := "invalid utf-8 sequence"
  base64Decode _ := .error "invalid symbol"
  startElement name _ := "<" ++ name ++ ">"
  emptyElementExpanded name _ := "<" ++ name ++ "></" ++ name ++ ">"
  endElement name := "</" ++ name ++ ">"

inductive TransformData where
  | xml (xmlText : String) (nodeSet : Option NodeSet)
  | binary (data : ByteArray)

/-- `std::str::from_utf8` and `map_err`. -/
def fromUtf8 (lib : TransformLibs) (mapErr : String → Error) (data : ByteArray) :
    Except Error String :=
  match String.fromUTF8? data with
  | some s => .ok s
  | none => .error (mapErr (lib.utf8Error data))

theorem fromUtf8_ok {lib : TransformLibs} {mapErr : String → Error} {data : ByteArray}
    {text : String} : fromUtf8 lib mapErr data = .ok text ↔ String.fromUTF8? data = some text := by
  unfold fromUtf8
  cases String.fromUTF8? data <;> simp

/-- The text of the input, without its node set. -/
def inputText (lib : TransformLibs) (mapErr : String → Error) : TransformData → Except Error String
  | .xml xmlText _ => .ok xmlText
  | .binary bytes => fromUtf8 lib mapErr bytes

/-- The text and the node set that a transform which parses its input works on. -/
def TransformData.asXml? : TransformData → Option (String × Option NodeSet)
  | .xml xmlText nodeSet => some (xmlText, nodeSet)
  | .binary data => (String.fromUTF8? data).map (fun text => (text, none))

/-- `TransformData::to_binary`. -/
def TransformData.toBinary (lib : TransformLibs) : TransformData → Except Error ByteArray
  | .binary data => .ok data
  | .xml xmlText nodeSet => canonicalize lib.toUppsala xmlText .inclusive nodeSet []

/-- `C14nTransform`. -/
structure C14nTransform where
  mode : C14nMode
  inclusivePrefixes : List String

/-- `C14nTransform::execute`. -/
def C14nTransform.execute (lib : TransformLibs) (t : C14nTransform) :
    TransformData → Except Error TransformData
  | .xml xmlText nodeSet => do
      let bytes ← canonicalize lib.toUppsala xmlText t.mode nodeSet t.inclusivePrefixes
      .ok (.binary bytes)
  | .binary data => do
      let text ← fromUtf8 lib (fun e => .transform ("invalid UTF-8: " ++ e)) data
      let bytes ← canonicalize lib.toUppsala text t.mode none t.inclusivePrefixes
      .ok (.binary bytes)

/-! ## Base64 -/

/-- `extract_text_content`. -/
def extractTextContent (lib : TransformLibs) (xmlText : String) (nodeSet : Option NodeSet) :
    Except Error String :=
  match lib.parse xmlText with
  | .error e => .error (.transform ("base64: XML parse: " ++ e))
  | .ok doc => .ok (String.join (doc.descendants.filterMap (fun n : Node =>
      if isVisible nodeSet n.key then n.leaf?.bind LeafKind.text? else none)))

/-- The text that is decoded. -/
def base64Input (lib : TransformLibs) : TransformData → Except Error String
  | .binary data => fromUtf8 lib (fun e => .transform ("base64 input not UTF-8: " ++ e)) data
  | .xml xmlText nodeSet => extractTextContent lib xmlText nodeSet

/-- `Base64DecodeTransform::execute`. -/
def Base64DecodeTransform.execute (lib : TransformLibs) (input : TransformData) :
    Except Error TransformData := do
  let text ← base64Input lib input
  let cleaned := String.ofList (text.toList.filter (fun c => !Text.isWhitespace c))
  match lib.base64Decode cleaned with
  | .error e => .error (.base64 ("decode error: " ++ e))
  | .ok decoded => .ok (.binary decoded)

/-! ## Enveloped signature -/

/-- The ids that `remove_subtree` removes: `id`, and whatever the tree has below it. -/
def Document.idsBelow (doc : Document) (id : NodeId) : List NodeId :=
  if id = doc.root then id :: doc.top.keys
  else
    match doc.node? id with
    | some n => n.subtreeKeys
    | none => [id]

/-- `remove_subtree`. -/
def removeSubtree (id : NodeId) (doc : Document) (ns : NodeSet) : NodeSet :=
  (doc.idsBelow id).foldl NodeSet.removeId ns

/-- The node set `EnvelopedSignatureTransform` leaves. -/
def envelopedNodeSet (sigId : NodeId) (doc : Document) (nodeSet : Option NodeSet) : NodeSet :=
  removeSubtree sigId doc (nodeSet.getD (NodeSet.all doc))

/-- `EnvelopedSignatureTransform::execute`. -/
def EnvelopedSignatureTransform.execute (lib : TransformLibs) (signatureNodeIndex : NodeId) :
    TransformData → Except Error TransformData
  | .binary _ => .error (.transform "enveloped-signature transform requires XML input")
  | .xml xmlText nodeSet =>
      match lib.parse xmlText with
      | .error e => .error (.xmlParse e)
      | .ok doc => .ok (.xml xmlText (some (envelopedNodeSet signatureNodeIndex doc nodeSet)))

/-! ## What each step returns on a text that parses -/

theorem canonicalize_ok {up : Uppsala} {xmlText : String} {doc : Document}
    (h : up.parse xmlText = .ok doc) (mode : C14nMode) (nodeSet : Option NodeSet)
    (inclusivePrefixes : List String) :
    canonicalize up xmlText mode nodeSet inclusivePrefixes
      = .ok (canonicalizeDoc doc mode nodeSet inclusivePrefixes) := by
  rw [canonicalize, h]

theorem C14nTransform.execute_xml {lib : TransformLibs} {xmlText : String} {doc : Document}
    (h : lib.parse xmlText = .ok doc) (t : C14nTransform) (nodeSet : Option NodeSet) :
    t.execute lib (.xml xmlText nodeSet)
      = .ok (.binary (canonicalizeDoc doc t.mode nodeSet t.inclusivePrefixes)) := by
  rw [C14nTransform.execute, canonicalize_ok h]
  rfl

theorem EnvelopedSignatureTransform.execute_xml {lib : TransformLibs} {xmlText : String}
    {doc : Document} (h : lib.parse xmlText = .ok doc) (sigId : NodeId)
    (nodeSet : Option NodeSet) :
    EnvelopedSignatureTransform.execute lib sigId (.xml xmlText nodeSet)
      = .ok (.xml xmlText (some (envelopedNodeSet sigId doc nodeSet))) := by
  rw [EnvelopedSignatureTransform.execute, h]

/-! ## What removal leaves -/

theorem foldl_removeId_nodes (ids : List NodeId) (s : NodeSet) :
    ids.foldl NodeSet.removeId s = { s with nodes := s.nodes \ ids.toFinset } := by
  induction ids generalizing s with
  | nil => simp
  | cons i ids ih =>
      rw [List.foldl_cons, ih, NodeSet.removeId]
      congr 1
      ext j
      simp only [Finset.mem_sdiff, Finset.mem_erase, List.mem_toFinset, List.mem_cons]
      tauto

theorem removeSubtree_eq (id : NodeId) (doc : Document) (ns : NodeSet) :
    removeSubtree id doc ns = { ns with nodes := ns.nodes \ (doc.idsBelow id).toFinset } :=
  foldl_removeId_nodes _ ns

/-- Removal does not touch the visibility of namespace nodes. -/
@[simp] theorem isNsVisible_removeSubtree (id : NodeId) (doc : Document) (ns : NodeSet)
    (j : NodeId) (p : String) :
    (removeSubtree id doc ns).isNsVisible j p = ns.isNsVisible j p := by
  rw [removeSubtree_eq]
  rfl

@[simp] theorem hasNsVisible_removeSubtree (id : NodeId) (doc : Document) (ns : NodeSet) :
    (removeSubtree id doc ns).hasNsVisible = ns.hasNsVisible := by
  rw [removeSubtree_eq]
  rfl

@[simp] theorem excludesAttrs_removeSubtree (id : NodeId) (doc : Document) (ns : NodeSet) :
    (removeSubtree id doc ns).excludesAttrs = ns.excludesAttrs := by
  rw [removeSubtree_eq]
  rfl

/-- In a set that is not inverted, removal removes; elsewhere the set is what it was. -/
theorem containsId_removeSubtree {ns : NodeSet} (h : ns.setType ≠ .invert) (id : NodeId)
    (doc : Document) (j : NodeId) :
    (removeSubtree id doc ns).containsId j
      = (ns.containsId j && decide (j ∉ doc.idsBelow id)) := by
  rw [removeSubtree_eq, NodeSet.containsId_of_ne_invert (by exact h),
    NodeSet.containsId_of_ne_invert h]
  simp

/-- In an inverted set, removing ids from the list makes them members. -/
theorem containsId_removeSubtree_invert {ns : NodeSet} (h : ns.setType = .invert) (id : NodeId)
    (doc : Document) (j : NodeId) :
    (removeSubtree id doc ns).containsId j
      = (ns.containsId j || decide (j ∈ doc.idsBelow id)) := by
  rw [removeSubtree_eq, NodeSet.containsId_of_invert (by exact h),
    NodeSet.containsId_of_invert h]
  by_cases hj : j ∈ doc.idsBelow id
  · simp [hj]
  · simp [hj]

theorem idsBelow_of_node {doc : Document} {n : Node} (h : n ∈ doc.descendants) :
    doc.idsBelow n.key = n.subtreeKeys := by
  have hne : n.key ≠ doc.root := by
    intro he
    have := Document.mem_descendants_key h
    rw [he] at this
    exact doc.root_not_mem this
  rw [Document.idsBelow, if_neg hne, Document.node?_key h]

end Bergshamra
