import Bergshamra.Dsig.KeyResolution
import Bergshamra.Crypto.Signature
import Bergshamra.Keys.X509

/-!
# Verification

`verify`, check by check in the order of the source. A check ends the run in
one of two ways: with an error, or with the verdict that the signature is
invalid.
-/

namespace Bergshamra

/-- `hsm_verifier`: the algorithm it is set to, and its `verify`. -/
structure HsmVerifier where
  /-- The algorithm's name. -/
  algorithm : String
  /-- `kryptering_algorithm_uri` of the algorithm. -/
  algorithmUri : Option String
  verify : ByteArray → ByteArray → Except Error Bool

structure DsigContext where
  keysManager : KeysManager
  idAttrs : List String
  urlMaps : List (String × String)
  hmacMinOutLen : Nat
  baseDir : Option String
  insecure : Bool
  verifyKeys : Bool
  verificationTime : Option String
  skipTimeChecks : Bool
  enabledKeyDataX509 : Bool
  trustedKeysOnly : Bool
  strictVerification : Bool
  hsmVerifier : Option HsmVerifier

/-- Where external resources are. -/
def DsigContext.resources (ctx : DsigContext) : Resources := ⟨ctx.urlMaps, ctx.baseDir⟩

/-- The attributes that are ids. -/
def DsigContext.allIdAttrs (ctx : DsigContext) : List String := defaultIdAttrs ++ ctx.idAttrs

structure VerifiedKeyInfo where
  algorithm : String
  keyName : Option String
  x509Chain : List ByteArray

/-- The fields of `VerifyResult::Valid`. -/
structure ValidSignature where
  signatureNode : Node
  references : List VerifiedReference
  keyInfo : VerifiedKeyInfo

inductive VerifyResult where
  | valid (result : ValidSignature)
  | invalid (reason : String)

/-- How a check ends the run. -/
inductive Stop where
  | error (e : Error)
  | invalid (reason : String)

/-- The `?` on a result. -/
def orStop {α : Type} (r : Except Error α) : Except Stop α := r.mapError .error

theorem orStop_ok {α : Type} {r : Except Error α} {a : α} : orStop r = .ok a ↔ r = .ok a := by
  cases r <;> simp [orStop, Except.mapError]

/-- What verification takes from outside. -/
structure VerifyLibs extends KeyResolutionLibs, SignatureLibs

/-! ## SignedInfo -/

/-- An element of the document that has to be there. -/
def requireElement (doc : Document) (nsUri localName : String) : Except Error Node :=
  match doc.findElement nsUri localName with
  | some n => .ok n
  | none => .error (.missingElement localName)

/-- The canonicalization mode of a CanonicalizationMethod. -/
def c14nModeOf (uri : String) : Except Error C14nMode :=
  match C14nMode.fromUri uri with
  | some mode => .ok mode
  | none => .error (.unsupportedAlgorithm ("C14N: " ++ uri))

/-- The first text of an optional parameter of the SignatureMethod. -/
def parameterText (n : Node) : String := trimStr (n.elementText.getD "")

/-- The largest `usize`. -/
def usizeMax : Nat := 2 ^ 64 - 1

/-- Parse HMACOutputLength, and check it. -/
def parseHmacOutputLength (ctx : DsigContext) (text : String) : Except Stop Nat :=
  match parseUnsigned? usizeMax text.toList with
  | none => .error (.error (.xmlStructure "invalid HMACOutputLength value"))
  | some bits =>
      if bits % 8 ≠ 0 then .error (.invalid "HMACOutputLength must be a multiple of 8")
      else if 0 < ctx.hmacMinOutLen ∧ bits < ctx.hmacMinOutLen then
        .error (.invalid ("HMACOutputLength " ++ toString bits ++ " bits is below minimum "
          ++ toString ctx.hmacMinOutLen ++ " bits (CVE-2009-0217)"))
      else .ok bits

/-- HMACOutputLength, for the algorithms that have it. -/
def hmacOutputLength (ctx : DsigContext) (sigMethod : Node) (uri : String) :
    Except Stop (Option Nat) :=
  if isHmacAlgorithm uri then
    match sigMethod.findChildElement Ns.DSIG "HMACOutputLength" with
    | none => .ok none
    | some n => (parseHmacOutputLength ctx (parameterText n)).map some
  else .ok none

/-- The context string of a post-quantum algorithm. -/
def pqContext (lib : TransformLibs) (sigMethod : Node) (uri : String) :
    Except Error (Option ByteArray) :=
  if isPqAlgorithm uri then
    match (sigMethod.findChildElement Ns.XMLSEC_PQ "MLDSAContextString").or
        (sigMethod.findChildElement Ns.XMLSEC_PQ "SLHDSAContextString") with
    | none => .ok none
    | some n =>
        if parameterText n = "" then .ok none
        else
          match lib.base64Decode (parameterText n) with
          | .ok decoded => .ok (some decoded)
          | .error e => .error (.base64 ("PQ context string: " ++ e))
  else .ok none

/-- What is read of a Signature before its References. -/
structure SignatureParts where
  sigNode : Node
  signedInfo : Node
  c14nMode : C14nMode
  inclusivePrefixes : List String
  sigMethodUri : String
  hmacBits : Option Nat
  pqContext : Option ByteArray

/-- The prefixes of the CanonicalizationMethod. -/
def c14nPrefixes (up : Uppsala) (signedInfo : Node) : List String :=
  ((signedInfo.findChildElement Ns.DSIG "CanonicalizationMethod").map
    (readInclusivePrefixes up)).getD []

/-- The parameters of the SignatureMethod. -/
def signatureParameters (lib : TransformLibs) (ctx : DsigContext) (signedInfo : Node)
    (uri : String) : Except Stop (Option Nat × Option ByteArray) :=
  match signedInfo.findChildElement Ns.DSIG "SignatureMethod" with
  | none => .error (.error (.missingElement "SignatureMethod"))
  | some sigMethod => do
      let hmacBits ← hmacOutputLength ctx sigMethod uri
      let context ← orStop (pqContext lib sigMethod uri)
      .ok (hmacBits, context)

/-- The start of `verify`, after the id map. -/
def readSignature (lib : TransformLibs) (ctx : DsigContext) (doc : Document) :
    Except Stop SignatureParts := do
  let sigNode ← orStop (requireElement doc Ns.DSIG "Signature")
  let signedInfo ← orStop (requireChild sigNode Ns.DSIG "SignedInfo" "SignedInfo")
  let c14nUri ← orStop (algorithmOf lib.toUppsala signedInfo "CanonicalizationMethod")
  let mode ← orStop (c14nModeOf c14nUri)
  let sigMethodUri ← orStop (algorithmOf lib.toUppsala signedInfo "SignatureMethod")
  let params ← signatureParameters lib ctx signedInfo sigMethodUri
  .ok ⟨sigNode, signedInfo, mode, c14nPrefixes lib.toUppsala signedInfo, sigMethodUri,
    params.1, params.2⟩

theorem readSignature_ok {lib : TransformLibs} {ctx : DsigContext} {doc : Document}
    {parts : SignatureParts} (h : readSignature lib ctx doc = .ok parts) :
    doc.findElement Ns.DSIG "Signature" = some parts.sigNode
      ∧ parts.sigNode.findChildElement Ns.DSIG "SignedInfo" = some parts.signedInfo := by
  simp only [readSignature, bind_eq_ok, orStop_ok] at h
  obtain ⟨sigNode, hsig, signedInfo, hsi, _, _, _, _, _, _, _, _, h⟩ := h
  cases h
  constructor
  · unfold requireElement at hsig
    split at hsig
    · rename_i hf
      rw [hf, Except.ok.inj hsig]
    · simp at hsig
  · unfold requireChild at hsi
    split at hsi
    · rename_i hf
      rw [hf, Except.ok.inj hsi]
    · simp at hsi

/-! ## References -/

/-- The loop over the References. -/
def verifyReferences (lib : DsigLibs) (res : Resources) (doc : Document) (idMap : IdMap)
    (xml : String) (sigNode : NodeId) : List Node → Except Stop (List VerifiedReference)
  | [] => .ok []
  | reference :: rest => do
      let r ← orStop (verifyReference lib res doc idMap xml sigNode reference)
      match r.1 with
      | some reason => .error (.invalid ("Reference digest failed: " ++ reason))
      | none => do
          let vrefs ← verifyReferences lib res doc idMap xml sigNode rest
          .ok (r.2 :: vrefs)

/-- With no verdict against it, every Reference was verified. -/
theorem verifyReferences_ok {lib : DsigLibs} {res : Resources} {doc : Document} {idMap : IdMap}
    {xml : String} {sigNode : NodeId} {refs : List Node} {vrefs : List VerifiedReference}
    (h : verifyReferences lib res doc idMap xml sigNode refs = .ok vrefs) :
    ∀ reference ∈ refs, ∃ vref ∈ vrefs,
      verifyReference lib res doc idMap xml sigNode reference = .ok (none, vref) := by
  induction refs generalizing vrefs with
  | nil => simp
  | cons first rest ih =>
      rw [verifyReferences, bind_eq_ok] at h
      obtain ⟨⟨reason, vref⟩, hr, h⟩ := h
      rw [orStop_ok] at hr
      cases reason with
      | some reason => simp at h
      | none =>
          obtain ⟨tail, htail, h⟩ := bind_eq_ok.mp h
          cases h
          intro reference hmem
          rcases List.mem_cons.mp hmem with rfl | hmem
          · exact ⟨vref, List.mem_cons_self, hr⟩
          · obtain ⟨v, hv, hvr⟩ := ih htail reference hmem
            exact ⟨v, List.mem_cons_of_mem _ hv, hvr⟩

/-- The positions that a target may have. -/
def positionAllowed (doc : Document) (sigNode target : Node) : Bool :=
  doc.documentElement.any (fun d => d.key == target.key)
    || isAncestorOrSelf target sigNode || isSibling doc target sigNode

/-- `validate_reference_position`. -/
def validateReferencePosition (doc : Document) (sigNode target : Node) : Except Error Unit :=
  if positionAllowed doc sigNode target then .ok ()
  else .error (.xmlStructure ("strict mode: reference target is not an ancestor, sibling, or "
    ++ "document element relative to Signature (possible XSW attack)"))

/-- The position of one verified Reference, if it has a target. -/
def checkPosition (doc : Document) (sigNode : Node) (vref : VerifiedReference) :
    Except Error Unit :=
  match vref.resolvedNode with
  | none => .ok ()
  | some target => validateReferencePosition doc sigNode target

/-- Strict mode. -/
def checkPositions (ctx : DsigContext) (doc : Document) (sigNode : Node)
    (vrefs : List VerifiedReference) : Except Error Unit :=
  if ctx.strictVerification then vrefs.forM (checkPosition doc sigNode) else .ok ()

/-- In strict mode every target has an allowed position. -/
theorem checkPositions_ok {ctx : DsigContext} {doc : Document} {sigNode : Node}
    {vrefs : List VerifiedReference} (hstrict : ctx.strictVerification = true)
    (h : checkPositions ctx doc sigNode vrefs = .ok ()) {vref : VerifiedReference}
    (hv : vref ∈ vrefs) {target : Node} (ht : vref.resolvedNode = some target) :
    positionAllowed doc sigNode target = true := by
  rw [checkPositions, if_pos hstrict, forM_eq_ok] at h
  have := h vref hv
  rw [checkPosition, ht] at this
  dsimp only at this
  unfold validateReferencePosition at this
  split at this
  · rename_i hp
    exact hp
  · simp at this

/-! ## SignatureValue -/

/-- The octets that are signed. -/
def canonicalSignedInfo (doc : Document) (parts : SignatureParts) : ByteArray :=
  canonicalizeDoc doc parts.c14nMode (some (NodeSet.treeWithoutComments parts.signedInfo))
    parts.inclusivePrefixes

/-- The decoded SignatureValue. -/
def signatureValue (lib : TransformLibs) (sigNode : Node) : Except Error ByteArray :=
  match sigNode.findChildElement Ns.DSIG "SignatureValue" with
  | none => .error (.missingElement "SignatureValue")
  | some n =>
      match lib.base64Decode (withoutWhitespace (trimStr (n.elementText.getD ""))) with
      | .ok value => .ok value
      | .error e => .error (.base64 ("SignatureValue: " ++ e))

/-- A declared HMACOutputLength is the length of the value. -/
def checkLength (hmacBits : Option Nat) (sigValue : ByteArray) : Except Stop Unit :=
  match hmacBits with
  | none => .ok ()
  | some bits =>
      if sigValue.size = bits / 8 then .ok ()
      else .error (.invalid ("SignatureValue length " ++ toString sigValue.size
        ++ " bytes does not match HMACOutputLength " ++ toString bits ++ " bits ("
        ++ toString (bits / 8) ++ " bytes)"))

/-! ## Keys -/

/-- The key that the signature is verified with. -/
def chooseKey (lib : KeyResolutionLibs) (ctx : DsigContext) (idMap : IdMap) (sigNode : Node) :
    Except Error ChosenKey :=
  let keyInfo := sigNode.findChildElement Ns.DSIG "KeyInfo"
  if ctx.trustedKeysOnly then trustedKey lib ctx.keysManager idMap keyInfo
  else documentKey lib ctx.resources ctx.keysManager idMap keyInfo

/-- The configuration of the check of certificates. -/
def DsigContext.certConfig (ctx : DsigContext) : CertValidationConfig where
  trustedCerts := ctx.keysManager.trustedCerts
  untrustedCerts := ctx.keysManager.untrustedCerts
  crls := ctx.keysManager.crls
  verificationTime := ctx.verificationTime
  skipTimeChecks := ctx.skipTimeChecks

/-- `needs_x509_validation`. -/
def needsX509Validation (ctx : DsigContext) (chosen : ChosenKey) : Bool :=
  ctx.enabledKeyDataX509 && chosen.fromX509
    || ctx.verifyKeys && chosen.fromManager && !chosen.key.x509Chain.isEmpty

/-- Step 4b: the certificate that is validated as the leaf, the first of the chain. -/
def leafToValidate (ctx : DsigContext) (chosen : ChosenKey) : Option ByteArray :=
  if !ctx.insecure && needsX509Validation ctx chosen then chosen.key.x509Chain.head? else none

def checkCertificates (lib : KeyLibs) (ctx : DsigContext) (chosen : ChosenKey) :
    Except Error Unit :=
  match leafToValidate ctx chosen with
  | none => .ok ()
  | some leafDer => validateCertChain lib leafDer chosen.key.x509Chain ctx.certConfig

/-- The comparison of the signature with a software key. -/
def checkSignature (lib : SignatureLibs) (parts : SignatureParts) (key : Key)
    (signed sigValue : ByteArray) : Except Error Bool :=
  match key.toSigningKey with
  | none => .error (.key "no signing key available")
  | some signingKey => do
      let sigAlg ← fromUriWithContext lib parts.sigMethodUri parts.pqContext
      match parts.hmacBits with
      | some bits => sigAlg.verifyTruncated signingKey signed sigValue (bits / 8)
      | none => sigAlg.verify signingKey signed sigValue

/-- The verdict of a software key. -/
def softwareVerdict (lib : VerifyLibs) (ctx : DsigContext) (idMap : IdMap) (parts : SignatureParts)
    (signed sigValue : ByteArray) : Except Stop VerifiedKeyInfo := do
  let chosen ← orStop (chooseKey lib.toKeyResolutionLibs ctx idMap parts.sigNode)
  orStop (checkCertificates lib.toKeyLibs ctx chosen)
  let valid ← orStop (checkSignature lib.toSignatureLibs parts chosen.key signed sigValue)
  if valid then
    .ok ⟨chosen.key.data.algorithmName, chosen.key.name, chosen.key.x509Chain⟩
  else .error (.invalid "signature value verification failed")

theorem softwareVerdict_ok {lib : VerifyLibs} {ctx : DsigContext} {idMap : IdMap}
    {parts : SignatureParts} {signed sigValue : ByteArray} {info : VerifiedKeyInfo} :
    softwareVerdict lib ctx idMap parts signed sigValue = .ok info
      ↔ ∃ chosen, chooseKey lib.toKeyResolutionLibs ctx idMap parts.sigNode = .ok chosen
        ∧ checkCertificates lib.toKeyLibs ctx chosen = .ok ()
        ∧ checkSignature lib.toSignatureLibs parts chosen.key signed sigValue = .ok true
        ∧ info = ⟨chosen.key.data.algorithmName, chosen.key.name, chosen.key.x509Chain⟩ := by
  simp only [softwareVerdict, bind_eq_ok, orStop_ok]
  constructor
  · rintro ⟨chosen, hk, ⟨⟩, hc, valid, hv, h⟩
    cases valid with
    | false => simp at h
    | true => exact ⟨chosen, hk, hc, hv, (Except.ok.inj h).symm⟩
  · rintro ⟨chosen, hk, hc, hv, rfl⟩
    exact ⟨chosen, hk, (), hc, true, hv, rfl⟩

/-- The verdict of an HSM. -/
def hsmVerdict (hsm : HsmVerifier) (parts : SignatureParts) (signed sigValue : ByteArray) :
    Except Stop VerifiedKeyInfo :=
  if hsm.algorithmUri ≠ some parts.sigMethodUri then
    .error (.invalid ("SignatureMethod " ++ parts.sigMethodUri
      ++ " does not match HSM verifier algorithm " ++ hsm.algorithm ++ " (URI "
      ++ hsm.algorithmUri.getD "<unmapped>" ++ ")"))
  else do
    let valid ← orStop (hsm.verify signed sigValue)
    if valid then .ok ⟨hsm.algorithm, none, []⟩
    else .error (.invalid "signature value verification failed (HSM)")

/-- The verdict on a SignatureValue. -/
def signatureVerdict (lib : VerifyLibs) (ctx : DsigContext) (idMap : IdMap)
    (parts : SignatureParts) (signed sigValue : ByteArray) : Except Stop VerifiedKeyInfo :=
  match ctx.hsmVerifier with
  | some hsm => hsmVerdict hsm parts signed sigValue
  | none => softwareVerdict lib ctx idMap parts signed sigValue

/-! ## The whole -/

/-- `verify` on a document that parses. -/
def verifyDocument (lib : VerifyLibs) (ctx : DsigContext) (xml : String) (doc : Document) :
    Except Stop ValidSignature := do
  let idMap ← orStop (buildIdMap lib.toUppsala doc ctx.allIdAttrs)
  let parts ← readSignature lib.toTransformLibs ctx doc
  let vrefs ← verifyReferences lib.toDsigLibs ctx.resources doc idMap xml parts.sigNode.key
    (parts.signedInfo.findChildElements Ns.DSIG "Reference")
  orStop (checkPositions ctx doc parts.sigNode vrefs)
  let sigValue ← orStop (signatureValue lib.toTransformLibs parts.sigNode)
  checkLength parts.hmacBits sigValue
  let keyInfo ← signatureVerdict lib ctx idMap parts (canonicalSignedInfo doc parts) sigValue
  .ok ⟨parts.sigNode, vrefs, keyInfo⟩

theorem verifyDocument_ok {lib : VerifyLibs} {ctx : DsigContext} {xml : String} {doc : Document}
    {result : ValidSignature} :
    verifyDocument lib ctx xml doc = .ok result
      ↔ ∃ idMap parts vrefs sigValue keyInfo,
        buildIdMap lib.toUppsala doc ctx.allIdAttrs = .ok idMap
        ∧ readSignature lib.toTransformLibs ctx doc = .ok parts
        ∧ verifyReferences lib.toDsigLibs ctx.resources doc idMap xml parts.sigNode.key
            (parts.signedInfo.findChildElements Ns.DSIG "Reference") = .ok vrefs
        ∧ checkPositions ctx doc parts.sigNode vrefs = .ok ()
        ∧ signatureValue lib.toTransformLibs parts.sigNode = .ok sigValue
        ∧ checkLength parts.hmacBits sigValue = .ok ()
        ∧ signatureVerdict lib ctx idMap parts (canonicalSignedInfo doc parts) sigValue
            = .ok keyInfo
        ∧ result = ⟨parts.sigNode, vrefs, keyInfo⟩ := by
  simp only [verifyDocument, bind_eq_ok, orStop_ok]
  constructor
  · rintro ⟨idMap, hid, parts, hp, vrefs, hv, ⟨⟩, hpos, sigValue, hs, ⟨⟩, hl, keyInfo, hk, h⟩
    exact ⟨idMap, parts, vrefs, sigValue, keyInfo, hid, hp, hv, hpos, hs, hl, hk,
      (Except.ok.inj h).symm⟩
  · rintro ⟨idMap, parts, vrefs, sigValue, keyInfo, hid, hp, hv, hpos, hs, hl, hk, rfl⟩
    exact ⟨idMap, hid, parts, hp, vrefs, hv, (), hpos, sigValue, hs, (), hl, keyInfo, hk, rfl⟩

/-- `verify`. -/
def verify (lib : VerifyLibs) (ctx : DsigContext) (xml : String) : Except Error VerifyResult :=
  match lib.parse xml with
  | .error e => .error (.xmlParse e)
  | .ok doc =>
      match verifyDocument lib ctx xml doc with
      | .ok result => .ok (.valid result)
      | .error (.invalid reason) => .ok (.invalid reason)
      | .error (.error e) => .error e

theorem verify_valid {lib : VerifyLibs} {ctx : DsigContext} {xml : String}
    {result : ValidSignature} :
    verify lib ctx xml = .ok (.valid result)
      ↔ ∃ doc, lib.parse xml = .ok doc ∧ verifyDocument lib ctx xml doc = .ok result := by
  unfold verify
  cases lib.parse xml with
  | error e => simp
  | ok doc =>
      simp only [Except.ok.injEq, exists_eq_left']
      split <;> simp_all

/-! ## Libraries for samples -/

/-- The value of a base64 digit. -/
def base64Digit (c : Char) : Option Nat :=
  if c.isUpper then some (c.toNat - 'A'.toNat)
  else if c.isLower then some (c.toNat - 'a'.toNat + 26)
  else if c.isDigit then some (c.toNat - '0'.toNat + 52)
  else if c = '+' then some 62
  else if c = '/' then some 63
  else none

/-- Base64 of a single octet. -/
def decodeOctet (text : String) : Except String ByteArray :=
  match text.toList with
  | [a, b, '=', '='] =>
      match base64Digit a, base64Digit b with
      | some x, some y => .ok ⟨#[UInt8.ofNat (4 * x + y / 16)]⟩
      | _, _ => .error "invalid symbol"
  | _ => .error "invalid symbol"

/-- Libraries around a given parser, for documents whose values are single octets. There are no
files and no chains of certificates; a digest is the octet 0, a MAC the octet 1. -/
def VerifyLibs.ofParser (parse : String → Except String Document) : VerifyLibs where
  toTransformLibs := { TransformLibs.ofParser parse with base64Decode := decodeOctet }
  digest _ _ := .ok ⟨#[0]⟩
  readFile _ := .error "not found"
  pathExists _ := false
  joinPath base path := base ++ "/" ++ path
  parseCertificate _ := .error "not a certificate"
  basicConstraintsCa _ := none
  certKey _ := none
  spkiKey _ := none
  retrievedKey _ := none
  rsaPublicKey _ _ := .error "not a key"
  dsaPublicKey _ _ _ _ := .error "not a key"
  ecPublicKey _ _ := .error "not a key"
  parseCrl _ := .ok none
  addTrusted _ := .ok ()
  trustContains anchors der := anchors.contains der
  verifySelfSigned _ := .ok ()
  buildChain _ _ _ := .error "no chain"
  verifyChain _ _ _ := .error "no chain"
  dateTime _ _ _ _ _ _ := .error "invalid"
  now := .ok 50
  keyWrap _ := .error (.unsupportedAlgorithm "key wrap")
  keyTransport _ _ := .error (.unsupportedAlgorithm "key transport")
  pathAncestors _ := []
  computeHmac _ _ _ := ⟨#[1]⟩
  constantTimeEq a b := a == b
  hmacVerifyTruncated _ _ _ sig expectedLen := sig == ⟨#[1]⟩ && expectedLen == 1
  primitive _ _ := .error (.unsupportedAlgorithm "signature algorithm")
  legacyAlgorithms := false

/-- A context with these keys and no other settings. -/
def DsigContext.ofManager (keysManager : KeysManager) : DsigContext where
  keysManager := keysManager
  idAttrs := []
  urlMaps := []
  hmacMinOutLen := 0
  baseDir := none
  insecure := false
  verifyKeys := false
  verificationTime := none
  skipTimeChecks := false
  enabledKeyDataX509 := false
  trustedKeysOnly := false
  strictVerification := false
  hsmVerifier := none

namespace Sample

def element (localName : String) (attributes : List Attribute) : Element :=
  ⟨⟨none, localName, some Ns.DSIG⟩, attributes, []⟩

def attr (name value : String) : Attribute := ⟨⟨none, name, none⟩, value⟩

/-- An element around a text. -/
def textElement (id : NodeId) (localName text : String) (rest : Nodes) : Nodes :=
  .node id (element localName []) (.leaf (id + 1) (.text text) .nil) rest

def method (id : NodeId) (localName uri : String) (rest : Nodes) : Nodes :=
  .node id (element localName [attr "Algorithm" uri]) .nil rest

end Sample

end Bergshamra
