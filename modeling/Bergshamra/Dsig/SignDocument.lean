import Bergshamra.Dsig.Sign
import Mathlib.Data.List.Sort

/-!
# The whole of `sign`

What comes after the loop over the References: the canonical SignedInfo is
signed, by a hardware module or by the first key of the manager, the
SignatureValue is filled in, and with a software key the elements of the KeyInfo
are filled in too. The session key goes into every EncryptedKey whose CipherValue
is empty; all of them are replaced in one text, the last one first.
-/

namespace Bergshamra

/-- `hsm_signer`: the algorithm it is set to, and its `sign`. -/
structure HsmSigner where
  /-- The algorithm's name. -/
  algorithm : String
  /-- `kryptering_algorithm_uri` of the algorithm. -/
  algorithmUri : Option String
  sign : ByteArray → Except Error ByteArray

/-- `DsigContext`, with the signer that only `sign` reads. -/
structure SigningContext extends DsigContext where
  hsmSigner : Option HsmSigner

/-- What the whole of signing takes from outside. -/
structure SigningLibs extends SignLibs, SignatureLibs where
  /-- `wrap` of the key wrap that a URI stands for: the wrapping key, and the key to wrap. -/
  wrapKey : String → ByteArray → ByteArray → Except Error ByteArray

namespace Sign

/-! ## The signature -/

/-- What is read of the template before the References. -/
structure TemplateParts where
  c14nMode : C14nMode
  inclusivePrefixes : List String
  sigMethodUri : String
  /-- The number of References. -/
  refCount : Nat
deriving DecidableEq

/-- The start of `sign`. -/
def readTemplate (lib : SignLibs) (idAttrs : List String) (templateXml : String) :
    Except Error TemplateParts := do
  let doc ← parseXml lib templateXml
  let _ ← buildIdMap lib.toUppsalaNs doc idAttrs
  let sigNode ← requireElement doc Ns.DSIG "Signature"
  let signedInfo ← requireChild sigNode Ns.DSIG "SignedInfo" "SignedInfo"
  let c14nUri ← algorithmOf lib.toUppsala signedInfo "CanonicalizationMethod"
  let mode ← c14nModeOf c14nUri
  let sigMethodUri ← algorithmOf lib.toUppsala signedInfo "SignatureMethod"
  .ok ⟨mode, c14nPrefixes lib.toUppsala signedInfo, sigMethodUri,
    (signedInfo.findChildElements Ns.DSIG "Reference").length⟩

/-- The context string of a post-quantum algorithm, as `sign` reads it. -/
def pqContext (lib : TransformLibs) (sigMethod : Node) (uri : String) :
    Except Error (Option ByteArray) :=
  if isPqAlgorithm uri then
    match (sigMethod.findChildElement Ns.XMLSEC_PQ "MLDSAContextString").or
        (sigMethod.findChildElement Ns.XMLSEC_PQ "SLHDSAContextString") with
    | none => .ok none
    | some n =>
        let b64 := trimStr n.textContentDeep
        if b64.isEmpty then .ok none
        else
          match lib.base64Decode b64 with
          | .ok decoded => .ok (some decoded)
          | .error e => .error (.base64 ("PQ context string: " ++ e))
  else .ok none

/-- A MAC is cut to the HMACOutputLength, where that is a whole number of octets below its
length. -/
def truncateHmac (sigMethod : Node) (uri : String) (sig : ByteArray) : ByteArray :=
  if isHmacAlgorithm uri then
    match sigMethod.findChildElement Ns.DSIG "HMACOutputLength" with
    | none => sig
    | some hmacLen =>
        match parseUnsigned? usizeMax (trimStr hmacLen.textContentDeep).toList with
        | none => sig
        | some bits => if bits % 8 = 0 ∧ bits / 8 < sig.size then sig.extract 0 (bits / 8) else sig
  else sig

/-- The signature of a software key. -/
def softwareSignature (lib : SigningLibs) (keysManager : KeysManager) (signedInfo : Node)
    (uri : String) (signed : ByteArray) : Except Error ByteArray := do
  let key ← keysManager.firstKey
  match key.toSigningKey with
  | none => .error (.key "no signing key")
  | some signingKey => do
      let sigMethod ← requireChild signedInfo Ns.DSIG "SignatureMethod" "SignatureMethod"
      let context ← pqContext lib.toTransformLibs sigMethod uri
      let sigAlg ← fromUriWithContext lib.toSignatureLibs uri context
      let sig ← sigAlg.sign signingKey signed
      .ok (truncateHmac sigMethod uri sig)

/-- The signature of a hardware module, which has to be set to the algorithm of the template. -/
def hsmSignature (hsm : HsmSigner) (uri : String) (signed : ByteArray) : Except Error ByteArray :=
  if hsm.algorithmUri ≠ some uri then
    .error (.unsupportedAlgorithm ("HSM signer algorithm " ++ hsm.algorithm ++ " (URI "
      ++ hsm.algorithmUri.getD "<unmapped>" ++ ") does not match the template's SignatureMethod "
      ++ uri))
  else hsm.sign signed

/-- The octets that `sign` signs, in a text with the digests filled in. -/
def signedOctets (doc : Document) (parts : TemplateParts) (signedInfo : Node) : ByteArray :=
  canonicalizeDoc doc parts.c14nMode (some (NodeSet.treeWithoutComments signedInfo))
    parts.inclusivePrefixes

/-- The value of the signature of a text with the digests filled in. -/
def computeSignature (lib : SigningLibs) (ctx : SigningContext) (parts : TemplateParts)
    (xml : String) : Except Error ByteArray := do
  let doc ← parseXml lib.toSignLibs xml
  let sigNode ← requireElement doc Ns.DSIG "Signature"
  let signedInfo ← requireChild sigNode Ns.DSIG "SignedInfo" "SignedInfo"
  let signed := signedOctets doc parts signedInfo
  match ctx.hsmSigner with
  | some hsm => hsmSignature hsm parts.sigMethodUri signed
  | none => softwareSignature lib ctx.keysManager signedInfo parts.sigMethodUri signed

/-! ## The session key -/

/-- Is this an EncryptedKey, with the namespace or without one? -/
def isEncryptedKey (n : Node) : Bool :=
  n.element?.any (fun e =>
    e.name.localName == "EncryptedKey" && (e.name.uri == Ns.ENC || e.name.uri.isEmpty))

/-- `find_descendant_element_by_local`. -/
def findDescendantByLocal (n : Node) (localName : String) : Option Node :=
  n.descendants.find? (fun d : Node => d.element?.any (fun e => e.name.localName == localName))

/-- The key that an EncryptedKey names, if the manager has it. -/
def wrappingKey (manager : KeysManager) (encryptedKey : Node) : Option Key :=
  (encryptedKey.findChildElement Ns.DSIG "KeyInfo").bind fun keyInfo =>
    (keyInfo.findChildElement Ns.DSIG "KeyName").bind fun keyName =>
      if (trimStr keyName.textContentDeep).isEmpty then none
      else manager.findByName (trimStr keyName.textContentDeep)

/-- What an EncryptedKey that is to be filled in brings along: its CipherValue, the algorithm and
the bytes of the wrapping key. -/
structure WrapTask where
  cipherValue : Node
  algUri : String
  kekBytes : ByteArray

/-- The `continue`s of the loop: what an element leads to, if it is not passed over. -/
def wrapTask (up : Uppsala) (manager : KeysManager) (n : Node) : Option WrapTask :=
  if isEncryptedKey n then
    (findDescendantByLocal n "CipherValue").bind fun cipherValue =>
      if (trimStr cipherValue.textContentDeep).isEmpty then
        (n.findChildElement Ns.ENC "EncryptionMethod").bind fun encMethod =>
          (encMethod.element?.bind (fun e => up.getAttribute e "Algorithm")).bind fun algUri =>
            (wrappingKey manager n).bind fun wrapKey =>
              wrapKey.symmetricKeyBytes.map fun kekBytes => ⟨cipherValue, algUri, kekBytes⟩
      else none
  else none

/-- `keywrap::from_uri` and `wrap`. -/
def wrapSession (lib : SigningLibs) (uri : String) (kekBytes sessionBytes : ByteArray) :
    Except Error ByteArray :=
  if keyWrapAlgorithms.contains uri then lib.wrapKey uri kekBytes sessionBytes
  else .error (.unsupportedAlgorithm ("key wrap: " ++ uri))

/-- `format_cipher_value_element_range`, of the text in the range. -/
def formatCipherValue (rawTag b64Content : String) : String :=
  extractOpenTag rawTag ++ "\n          " ++ b64Content ++ "\n        " ++ "</"
    ++ pname (extractTagPrefix rawTag "CipherValue") "CipherValue" ++ ">"

/-- A range of a text and what takes its place. -/
abbrev Replacement := (Nat × Nat) × String

/-- What is recorded for one EncryptedKey. -/
def wrapReplacement (lib : SigningLibs) (xml : String) (sessionBytes : ByteArray)
    (task : WrapTask) : Except Error Replacement := do
  let wrapped ← wrapSession lib task.algUri task.kekBytes sessionBytes
  let range ← rangeOf lib.toSignLibs xml task.cipherValue
  let rawTag ← sliceStr xml range.1 range.2
  .ok (range, formatCipherValue rawTag (lib.base64Encode wrapped))

/-- The order of `sort_by_key(Reverse(start))`. -/
abbrev laterFirst (a b : Replacement) : Prop := b.1.1 ≤ a.1.1

/-- The loop that applies the replacements. -/
def applyReplacements (xml : String) (replacements : List Replacement) : Except Error String :=
  (replacements.insertionSort laterFirst).foldlM (fun result r => overwrite result r.1 r.2) xml

/-- `encrypt_session_key_in_template`. -/
def encryptSessionKeyInTemplate (lib : SigningLibs) (xml : String) (signingKey : Key)
    (manager : KeysManager) : Except Error String :=
  match signingKey.symmetricKeyBytes with
  | none => .ok xml
  | some sessionBytes => do
      let doc ← parseXml lib.toSignLibs xml
      let replacements ← (doc.descendants.filterMap (wrapTask lib.toUppsala manager)).mapM
        (wrapReplacement lib xml sessionBytes)
      applyReplacements xml replacements

/-! ## The whole -/

/-- The chain of the key, where there is one. -/
def populateChain (lib : SigningLibs) (key : Key) (xml : String) : Except Error String :=
  if key.x509Chain.isEmpty then .ok xml else populateX509Data lib.toSignLibs xml key.x509Chain

/-- The elements of the KeyInfo that a software key fills in. -/
def populateKeyInfo (lib : SigningLibs) (manager : KeysManager) (key : Key) (xml : String) :
    Except Error String := do
  let xml ← populateChain lib key xml
  let xml ← populateKeyValue lib.toSignLibs xml key.data
  let xml ← populateDerEncodedKeyValue lib.toSignLibs xml key.data
  encryptSessionKeyInTemplate lib xml key manager

/-- `sign`. -/
def sign (lib : SigningLibs) (ctx : SigningContext) (templateXml : String) :
    Except Error String := do
  let parts ← readTemplate lib.toSignLibs ctx.allIdAttrs templateXml
  let digested ← signReferences lib.toSignLibs ctx.resources ctx.allIdAttrs 0 templateXml
    parts.refCount
  let signature ← computeSignature lib ctx parts digested
  let signed ← replaceFirstEmptyElement lib.toSignLibs digested "SignatureValue"
    (lib.base64Encode signature)
  match ctx.hsmSigner with
  | some _ => .ok signed
  | none => do
      let key ← ctx.keysManager.firstKey
      populateKeyInfo lib ctx.keysManager key signed

/-- The loop of `sign` is the one of `signDigests`. -/
theorem signDigests_eq (lib : SignLibs) (res : Resources) (extraIdAttrs : List String)
    (templateXml : String) :
    signDigests lib res extraIdAttrs templateXml
      = (do
        let parts ← readTemplate lib (defaultIdAttrs ++ extraIdAttrs) templateXml
        signReferences lib res (defaultIdAttrs ++ extraIdAttrs) 0 templateXml parts.refCount) := by
  simp only [signDigests, readTemplate, bind_assoc]
  rfl

end Sign

end Bergshamra
