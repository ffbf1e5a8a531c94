import Bergshamra.Dsig.Verify
import Bergshamra.Enc.Encrypt

/-!
# Signing

`sign.rs`: the map of ids, which is not the one of `verify.rs` (it finds
`xml:id` by its namespace), the elements of a template that signing fills in,
and the loop over the References. An element is filled in by text: its place in
the text of the template is overwritten with a tag made anew.
-/

namespace Bergshamra

/-- The parser's crate, with the lookup of an attribute by namespace and local name. -/
structure UppsalaNs extends Uppsala where
  /-- `Element::get_attribute_ns`. -/
  getAttributeNs : Element → String → String → Option String

/-- `X509Info`. -/
structure X509Info where
  subjectName : Option String
  issuerName : Option String
  serialNumber : Option String
  skiB64 : Option String

/-- What signing takes from outside. -/
structure SignLibs extends DsigLibs, UppsalaNs where
  /-- `Document::node_range` in the parse of a text: byte positions in that text. -/
  nodeRange : String → Node → Option (Nat × Nat)
  /-- `STANDARD.encode`. -/
  base64Encode : ByteArray → String
  /-- What `XmlWriter::text` appends. -/
  writeText : String → String
  /-- What `XmlWriter::empty_element` appends. -/
  emptyElement : String → List (String × String) → String
  /-- `n` and `e` of an RSA key, as `to_bytes_be` has them. -/
  rsaNumbers : KeyBlob → ByteArray × ByteArray
  /-- `p`, `q`, `g` and `y` of a DSA key. -/
  dsaNumbers : KeyBlob → ByteArray × ByteArray × ByteArray × ByteArray
  /-- `to_encoded_point(false)`. -/
  ecPoint : KeyBlob → ByteArray
  /-- `KeyData::to_spki_der`. -/
  toSpkiDer : KeyData → Option ByteArray
  /-- `extract_x509_info`. -/
  extractX509Info : ByteArray → X509Info

namespace Sign

/-- The id values of an element. -/
def idValues (up : UppsalaNs) (attrNames : List String) (e : Element) : List String :=
  attrNames.filterMap (up.getAttribute e)
    ++ (up.getAttributeNs e "http://www.w3.org/XML/1998/namespace" "id").toList

/-- `build_id_map` of `sign.rs`. -/
def buildIdMap (up : UppsalaNs) (doc : Document) (attrNames : List String) : Except Error IdMap :=
  insertIds [] (entriesBy (idValues up attrNames) doc)

/-! ## Tags -/

/-- `extract_tag_prefix`, the same as `extract_prefix` of `encrypt.rs`. -/
def extractTagPrefix (xmlFragment : String) (localName : String) : String :=
  extractPrefix xmlFragment.toList localName

/-- `extract_open_tag`. -/
def extractOpenTag (rawXml : String) : String :=
  match Text.splitOnce "/>".toList rawXml.toList with
  | some (before, _) => String.ofList before ++ ">"
  | none =>
      match Text.splitOnce ['>'] rawXml.toList with
      | some (before, _) => String.ofList before ++ ">"
      | none => rawXml

/-- An element that holds one text. -/
def elementWithText (lib : SignLibs) (tag content : String) : String :=
  lib.startElement tag [] ++ lib.writeText content ++ lib.endElement tag

/-- An element that holds markup. -/
def elementWithRaw (lib : SignLibs) (tag content : String) : String :=
  lib.startElement tag [] ++ content ++ lib.endElement tag

/-! ## Overwriting an element -/

/-- `node_range(id).unwrap()`. -/
def rangeOf (lib : SignLibs) (xml : String) (n : Node) : Except Error (Nat × Nat) :=
  match lib.nodeRange xml n with
  | some range => .ok range
  | none => .error .panics

/-- `&xml[range]`, `&xml[..range.start]` and `&xml[range.end..]`, put together with another text in
the middle. -/
def overwrite (xml : String) (range : Nat × Nat) (replacement : String) : Except Error String := do
  let front ← sliceStr xml 0 range.1
  let back ← sliceStr xml range.2 xml.utf8ByteSize
  .ok (front ++ replacement ++ back)

/-- Does `replace_first_empty_element` take this node? -/
def isEmptyElement (localName : String) (n : Node) : Bool :=
  n.element?.any (fun e => e.name.localName == localName
      && (e.name.uri.isEmpty || e.name.uri == Ns.DSIG))
    && (trimStr n.textContentDeep).isEmpty

/-- The element that `replace_first_empty_element` overwrites. -/
def firstEmptyElement (doc : Document) (localName : String) : Option Node :=
  doc.descendants.find? (isEmptyElement localName)

/-- `replace_first_empty_element`. -/
def replaceFirstEmptyElement (lib : SignLibs) (xml localName newContent : String) :
    Except Error String :=
  match lib.parse xml with
  | .error _ => .ok xml
  | .ok doc =>
      match firstEmptyElement doc localName with
      | none => .ok xml
      | some n => do
          let range ← rangeOf lib xml n
          let original ← sliceStr xml range.1 range.2
          let tag := pname (extractTagPrefix original localName) localName
          overwrite xml range (elementWithText lib tag newContent)

/-- `uppsala::parse`, with the error that signing makes of it. -/
def parseXml (lib : SignLibs) (xml : String) : Except Error Document :=
  match lib.parse xml with
  | .ok doc => .ok doc
  | .error e => .error (.xmlParse e)

/-- Has the node a child that is an element? -/
def hasElementChild (n : Node) : Bool := n.children.any (fun c : Node => c.element?.isSome)

/-- Is there neither an element nor a text in the node? -/
def isUnfilled (n : Node) : Bool :=
  !hasElementChild n && (trimStr n.textContentDeep).isEmpty

/-! ## X509Data -/

/-- The certificates of a chain, each in an element of its own. -/
def certificates (lib : SignLibs) (certTag : String) (x509Chain : List ByteArray) : String :=
  String.join (x509Chain.map (fun der => elementWithText lib certTag (lib.base64Encode der)))

/-- The tag of an X509Data that is filled with certificates: without a prefix where the text of
the element declares the prefix. -/
def dataTag (original pfx : String) : String :=
  if pfx ≠ "" ∧ Text.containsSub ("xmlns:" ++ pfx ++ "=").toList original.toList then "X509Data"
  else pname pfx "X509Data"

/-- What takes the place of a child of the X509Data; nothing for the children that are left. -/
def childReplacement (lib : SignLibs) (firstCertDer : ByteArray) (info : X509Info)
    (localName pfx : String) : Option String :=
  if localName = "X509Certificate" then
    some (elementWithText lib (pname pfx "X509Certificate") (lib.base64Encode firstCertDer))
  else if localName = "X509SubjectName" then
    info.subjectName.map (elementWithText lib (pname pfx "X509SubjectName"))
  else if localName = "X509IssuerSerial" then
    match info.issuerName, info.serialNumber with
    | some issuer, some serial =>
        some (elementWithRaw lib (pname pfx "X509IssuerSerial")
          (elementWithText lib (pname pfx "X509IssuerName") issuer
            ++ elementWithText lib (pname pfx "X509SerialNumber") serial))
    | _, _ => none
  else if localName = "X509SKI" then info.skiB64.map (elementWithText lib (pname pfx "X509SKI"))
  else none

/-- One turn of the loop over the children of the X509Data; `xml` is the text that was parsed. -/
def populateChild (lib : SignLibs) (xml : String) (firstCertDer : ByteArray) (info : X509Info)
    (result : String) (child : Node) : Except Error String :=
  match child.element? with
  | none => .error .panics
  | some e =>
      if (trimStr child.textContentDeep).isEmpty then do
        let range ← rangeOf lib xml child
        let raw ← sliceStr result range.1 range.2
        match childReplacement lib firstCertDer info e.name.localName
            (extractTagPrefix raw e.name.localName) with
        | some replacement => overwrite result range replacement
        | none => .ok result
      else .ok result

/-- The elements among the children, the last one first. `sort_by` on the start of the range asks
for the range of each; that of siblings is ordered as they are. -/
def childrenToProcess (x509Data : Node) : List Node :=
  (x509Data.children.filter (fun c : Node => c.element?.isSome)).reverse

/-- `populate_x509_data`. -/
def populateX509Data (lib : SignLibs) (xml : String) (x509Chain : List ByteArray) :
    Except Error String := do
  let doc ← parseXml lib xml
  match doc.findElement Ns.DSIG "X509Data" with
  | none => .ok xml
  | some x509Data =>
      if hasElementChild x509Data then
        match x509Chain with
        | [] => .ok xml
        | firstCertDer :: _ =>
            (childrenToProcess x509Data).foldlM
              (populateChild lib xml firstCertDer (lib.extractX509Info firstCertDer)) xml
      else do
        let range ← rangeOf lib xml x509Data
        let original ← sliceStr xml range.1 range.2
        let pfx := extractTagPrefix original "X509Data"
        overwrite xml range (elementWithRaw lib (dataTag original pfx)
          (certificates lib (pname pfx "X509Certificate") x509Chain))

/-! ## Key values -/

/-- An element that holds the base64 of some bytes. -/
def numberElement (lib : SignLibs) (tag : String) (number : ByteArray) : String :=
  elementWithText lib tag (lib.base64Encode number)

/-- `build_ec_key_value_xml`. -/
def buildEcKeyValueXml (lib : SignLibs) (point : ByteArray) (curveUri : String) : String :=
  lib.startElement "ECKeyValue" [("xmlns", Ns.DSIG11)]
    ++ (lib.emptyElement "NamedCurve" [("URI", curveUri)] ++ numberElement lib "PublicKey" point)
    ++ lib.endElement "ECKeyValue"

/-- The text of a DHKeyValue; it brings its prefix along. -/
def dhKeyValueXml (lib : SignLibs) (p g : ByteArray) (q : Option ByteArray)
    (publicKey : ByteArray) : String :=
  lib.startElement "xenc:DHKeyValue" [("xmlns:xenc", Ns.ENC)]
    ++ (numberElement lib "xenc:P" p ++ (q.map (numberElement lib "xenc:Q")).getD ""
      ++ numberElement lib "xenc:Generator" g ++ numberElement lib "xenc:Public" publicKey)
    ++ lib.endElement "xenc:DHKeyValue"

/-- `KeyData::to_key_value_xml`. -/
def toKeyValueXml (lib : SignLibs) (dsigPrefix : String) : KeyData → Option String
  | .rsa _ pub =>
      let (n, e) := lib.rsaNumbers pub
      some (elementWithRaw lib (pname dsigPrefix "RSAKeyValue")
        (numberElement lib (pname dsigPrefix "Modulus") n
          ++ numberElement lib (pname dsigPrefix "Exponent") e))
  | .ecP256 _ pub => some (buildEcKeyValueXml lib (lib.ecPoint pub) "urn:oid:1.2.840.10045.3.1.7")
  | .ecP384 _ pub => some (buildEcKeyValueXml lib (lib.ecPoint pub) "urn:oid:1.3.132.0.34")
  | .ecP521 _ pub => some (buildEcKeyValueXml lib (lib.ecPoint pub) "urn:oid:1.3.132.0.35")
  | .dsa _ pub =>
      let (p, q, g, y) := lib.dsaNumbers pub
      some (elementWithRaw lib (pname dsigPrefix "DSAKeyValue")
        (numberElement lib (pname dsigPrefix "P") p ++ numberElement lib (pname dsigPrefix "Q") q
          ++ numberElement lib (pname dsigPrefix "G") g
          ++ numberElement lib (pname dsigPrefix "Y") y))
  | .dh p g q _ publicKey => some (dhKeyValueXml lib p g q publicKey)
  | .x25519 _ pub =>
      some (buildEcKeyValueXml lib pub "urn:ietf:params:xml:ns:keyprov:curve:x25519")
  | _ => none

/-- `populate_key_value`. -/
def populateKeyValue (lib : SignLibs) (xml : String) (keyData : KeyData) : Except Error String := do
  let doc ← parseXml lib xml
  match doc.findElement Ns.DSIG "KeyValue" with
  | none => .ok xml
  | some keyValue =>
      if isUnfilled keyValue then do
        let range ← rangeOf lib xml keyValue
        let original ← sliceStr xml range.1 range.2
        let pfx := extractTagPrefix original "KeyValue"
        match toKeyValueXml lib pfx keyData with
        | none => .ok xml
        | some innerXml => overwrite xml range (elementWithRaw lib (pname pfx "KeyValue") innerXml)
      else .ok xml

/-- `populate_der_encoded_key_value`. -/
def populateDerEncodedKeyValue (lib : SignLibs) (xml : String) (keyData : KeyData) :
    Except Error String := do
  let doc ← parseXml lib xml
  match doc.findElement Ns.DSIG11 "DEREncodedKeyValue" with
  | none => .ok xml
  | some dek =>
      if isUnfilled dek then
        match lib.toSpkiDer keyData with
        | none => .ok xml
        | some spkiDer => do
            let range ← rangeOf lib xml dek
            let rawTag ← sliceStr xml range.1 range.2
            let pfx := extractTagPrefix rawTag "DEREncodedKeyValue"
            overwrite xml range (extractOpenTag rawTag ++ lib.base64Encode spkiDer
              ++ "</" ++ pname pfx "DEREncodedKeyValue" ++ ">")
      else .ok xml

/-! ## The References -/

/-- The base64 of the digest of one Reference. -/
def referenceDigest (lib : SignLibs) (res : Resources) (doc : Document) (idMap : IdMap)
    (xml : String) (sigNode : NodeId) (reference : Node) : Except Error String := do
  let digestUri ← algorithmOf lib.toUppsala reference "DigestMethod"
  let resolved ← signReferenceData lib.toDsigLibs res doc idMap xml
    (referenceUri lib.toUppsala reference)
  let bytes ← referenceOctets lib.toTransformLibs sigNode reference resolved.data
  let computed ← lib.digest digestUri bytes
  .ok (lib.base64Encode computed)

/-- The text of the DigestValue of a Reference; it may be missing. -/
def digestValueText (reference : Node) : String :=
  ((reference.findChildElement Ns.DSIG "DigestValue").map Node.textContentDeep).getD ""

/-- The body of the loop for one Reference of the current document. -/
def fillReference (lib : SignLibs) (res : Resources) (doc : Document) (idMap : IdMap)
    (xml : String) (sigNode : NodeId) (reference : Node) : Except Error String :=
  if startsWithStr "cid:" (referenceUri lib.toUppsala reference) then .ok xml
  else do
    let digestB64 ← referenceDigest lib res doc idMap xml sigNode reference
    if (trimStr (digestValueText reference)).isEmpty then
      replaceFirstEmptyElement lib xml "DigestValue" digestB64
    else .ok xml

/-- One turn of the loop: the text is parsed again, and the Reference is found by its number. -/
def signReference (lib : SignLibs) (res : Resources) (idAttrs : List String) (refIdx : Nat)
    (xml : String) : Except Error String := do
  let doc ← parseXml lib xml
  let idMap ← buildIdMap lib.toUppsalaNs doc idAttrs
  let sigNode ← requireElement doc Ns.DSIG "Signature"
  let signedInfo ← requireChild sigNode Ns.DSIG "SignedInfo" "SignedInfo"
  match (signedInfo.findChildElements Ns.DSIG "Reference")[refIdx]? with
  | none => .error .panics
  | some reference => fillReference lib res doc idMap xml sigNode.key reference

/-- The loop, from a Reference on. -/
def signReferences (lib : SignLibs) (res : Resources) (idAttrs : List String) (refIdx : Nat)
    (xml : String) : Nat → Except Error String
  | 0 => .ok xml
  | n + 1 => do
      let next ← signReference lib res idAttrs refIdx xml
      signReferences lib res idAttrs (refIdx + 1) next n

/-- `sign` as far as the end of the loop: the text with the digests filled in. -/
def signDigests (lib : SignLibs) (res : Resources) (extraIdAttrs : List String)
    (templateXml : String) : Except Error String := do
  let doc ← parseXml lib templateXml
  let _ ← buildIdMap lib.toUppsalaNs doc (defaultIdAttrs ++ extraIdAttrs)
  let sigNode ← requireElement doc Ns.DSIG "Signature"
  let signedInfo ← requireChild sigNode Ns.DSIG "SignedInfo" "SignedInfo"
  let c14nUri ← algorithmOf lib.toUppsala signedInfo "CanonicalizationMethod"
  let _ ← c14nModeOf c14nUri
  let _ ← algorithmOf lib.toUppsala signedInfo "SignatureMethod"
  signReferences lib res (defaultIdAttrs ++ extraIdAttrs) 0 templateXml
    (signedInfo.findChildElements Ns.DSIG "Reference").length

end Sign

end Bergshamra
