import Bergshamra.Dsig.Reference
import Bergshamra.Keys.KeyInfo

/-!
# Finding the key

The ways from a KeyInfo to a key that `verify.rs` adds to the reading of inline
keys: a reference to another KeyInfo, an EncryptedKey, and a RetrievalMethod to
a file or to an X509Data of the document.
-/

namespace Bergshamra

/-- `OaepParams`. -/
structure OaepParams where
  digestUri : Option String
  mgfUri : Option String
  oaepParams : Option ByteArray

/-- What the search for a key takes from outside. -/
structure KeyResolutionLibs extends DsigLibs, KeyLibs where
  /-- `keywrap::from_uri`, and `unwrap` with a key and the wrapped bytes. -/
  keyWrap : String → Except Error (ByteArray → ByteArray → Except Error ByteArray)
  /-- `keytransport::from_uri_with_params`, and `decrypt` with a private key and the bytes. -/
  keyTransport : String → OaepParams → Except Error (KeyBlob → ByteArray → Except Error ByteArray)
  /-- The proper ancestors of a path, nearest first (`Path::parent`). -/
  pathAncestors : String → List String

/-! ## References to a KeyInfo -/

/-- `resolve_key_info_reference`. -/
def resolveKeyInfoReference (up : Uppsala) (keyInfo : Node) (idMap : IdMap) : Option Node :=
  keyInfo.children.findSome? (fun child : Node =>
    child.element?.bind (fun e =>
      if e.isNamed Ns.DSIG11 "KeyInfoReference" then
        (up.getAttribute e "URI").bind (fun uri =>
          (parseSameDocumentRef uri).bind (fun fragment => idMap.get? fragment))
      else none))

/-! ## EncryptedKey -/

/-- `resolve_kek_from_key_info`. -/
def resolveKekFromKeyInfo (ekKeyInfo : Option Node) (manager : KeysManager) : Except Error Key :=
  let named := ekKeyInfo.bind (fun ki =>
    ki.children.findSome? (fun child : Node =>
      if child.isNamed Ns.DSIG "KeyName" then
        let name := trimStr (child.elementText.getD "")
        if name = "" then none else manager.findByName name
      else none))
  match named with
  | some key => .ok key
  | none => manager.firstKey

/-- What one child of an EncryptionMethod sets. -/
def oaepParam (lib : TransformLibs) (params : OaepParams) (child : Node) : OaepParams :=
  let algorithm := child.element?.bind (fun e => lib.getAttribute e "Algorithm")
  if child.isNamed Ns.DSIG "DigestMethod" || child.isNamed Ns.ENC "DigestMethod" then
    { params with digestUri := algorithm.or params.digestUri }
  else if child.isNamed Ns.ENC11 "MGF" || child.isNamed Ns.ENC "MGF" then
    { params with mgfUri := algorithm.or params.mgfUri }
  else if child.element?.any (fun e => e.name.localName == "OAEPparams") then
    match child.elementText with
    | none => params
    | some text =>
        match lib.base64Decode (withoutWhitespace (trimStr text)) with
        | .error _ => params
        | .ok bytes => { params with oaepParams := some bytes }
  else params

/-- `read_oaep_params`. -/
def readOaepParams (lib : TransformLibs) (encMethod : Node) : OaepParams :=
  encMethod.children.foldl (oaepParam lib) ⟨none, none, none⟩

/-- The size of the key that an AES key wrap is named after. -/
def expectedKekSize (encUri : String) : Option Nat :=
  if encUri = Algorithm.KW_AES128 then some 16
  else if encUri = Algorithm.KW_AES192 then some 24
  else if encUri = Algorithm.KW_AES256 then some 32
  else none

def symmetricBytes (key : Key) (msg : String) : Except Error ByteArray :=
  match key.symmetricKeyBytes with
  | some bytes => .ok bytes
  | none => .error (.key msg)

/-- The key bytes for an AES key wrap: another AES key of the right size, where there is one. -/
def aesKek (kek : ByteArray) (size : Nat) (manager : KeysManager) : Except Error ByteArray :=
  if kek.size = size then .ok kek
  else
    match manager.findAesBySize size with
    | some sized => symmetricBytes sized "AES key has no bytes"
    | none => .ok kek

/-- The RSA private key of the manager. -/
def transportKey (manager : KeysManager) : Except Error KeyBlob :=
  match manager.findRsaPrivate.or manager.findRsa with
  | none => .error (.key "no RSA key for EncryptedKey decryption")
  | some key =>
      match key.rsaPrivateKey with
      | none => .error (.key "RSA private key required for key transport")
      | some priv => .ok priv

/-- The session key inside an EncryptedKey. -/
def sessionKeyBytes (lib : KeyResolutionLibs) (encUri : String) (encMethod : Node)
    (ekKeyInfo : Option Node) (manager : KeysManager) (cipher : ByteArray) :
    Except Error ByteArray :=
  match expectedKekSize encUri with
  | some size => do
      let unwrap ← lib.keyWrap encUri
      let kek ← resolveKekFromKeyInfo ekKeyInfo manager
      let bytes ← symmetricBytes kek "KEK has no symmetric key bytes"
      let bytes ← aesKek bytes size manager
      unwrap bytes cipher
  | none =>
      if encUri = Algorithm.KW_TRIPLEDES then do
        let unwrap ← lib.keyWrap encUri
        let kek ← resolveKekFromKeyInfo ekKeyInfo manager
        let bytes ← symmetricBytes kek "no symmetric key for 3DES key unwrap"
        unwrap bytes cipher
      else if encUri = Algorithm.RSA_PKCS1 ∨ encUri = Algorithm.RSA_OAEP
          ∨ encUri = Algorithm.RSA_OAEP_ENC11 then do
        let decrypt ← lib.keyTransport encUri (readOaepParams lib.toTransformLibs encMethod)
        let priv ← transportKey manager
        decrypt priv cipher
      else .error (.unsupportedAlgorithm ("EncryptedKey method: " ++ encUri))

/-- A child element that has to be there. -/
def requireChild (parent : Node) (nsUri localName msg : String) : Except Error Node :=
  match parent.findChildElement nsUri localName with
  | some n => .ok n
  | none => .error (.missingElement msg)

/-- The `Algorithm` of an EncryptionMethod. -/
def encryptionUri (up : Uppsala) (encMethod : Node) : Except Error String :=
  match encMethod.element?.bind (fun e => up.getAttribute e "Algorithm") with
  | some uri => .ok uri
  | none => .error (.missingAttribute "Algorithm on EncryptedKey EncryptionMethod")

/-- The ciphertext of an EncryptedKey. -/
def cipherBytes (lib : TransformLibs) (encKey : Node) : Except Error ByteArray := do
  let cipherData ← requireChild encKey Ns.ENC "CipherData" "CipherData on EncryptedKey"
  let cipherValue ← requireChild cipherData Ns.ENC "CipherValue" "CipherValue on EncryptedKey"
  match lib.base64Decode (withoutWhitespace (trimStr (cipherValue.elementText.getD ""))) with
  | .ok bytes => .ok bytes
  | .error e => .error (.base64 ("EncryptedKey CipherValue: " ++ e))

/-- `try_unwrap_encrypted_key`. -/
def tryUnwrapEncryptedKey (lib : KeyResolutionLibs) (keyInfo : Node) (manager : KeysManager) :
    Except Error Key :=
  match keyInfo.findChildElement Ns.ENC "EncryptedKey" with
  | none => .error (.key "no EncryptedKey found")
  | some encKey => do
      let encMethod ←
        requireChild encKey Ns.ENC "EncryptionMethod" "EncryptionMethod on EncryptedKey"
      let encUri ← encryptionUri lib.toUppsala encMethod
      let cipher ← cipherBytes lib.toTransformLibs encKey
      let bytes ← sessionKeyBytes lib encUri encMethod
        (encKey.findChildElement Ns.DSIG "KeyInfo") manager cipher
      .ok (.new (.hmac bytes) .any)

/-! ## RetrievalMethod -/

/-- What a RetrievalMethod leads to: a key, no key at all, or the next one. -/
inductive Retrieved where
  | key (k : Key)
  | noKey
  | next

/-- The loop over the children of a KeyInfo. -/
def firstRetrieved (step : Node → Retrieved) : List Node → Option Key
  | [] => none
  | child :: rest =>
      match step child with
      | .key k => some k
      | .noKey => none
      | .next => firstRetrieved step rest

/-- The algorithms whose keys a RetrievalMethod can lead to: RSA, DSA, EC and Ed25519. -/
def retrievableAlgorithms : List String :=
  ["1.2.840.113549.1.1.1", "1.2.840.10040.4.1", "1.2.840.10045.2.1", "1.3.101.112"]

/-- The key of a retrieved certificate, which becomes the chain. -/
def keyOfRetrieved (lib : KeyLibs) (certDer : ByteArray) : Retrieved :=
  match lib.parseCertificate certDer with
  | .error _ => .noKey
  | .ok cert =>
      if retrievableAlgorithms.contains cert.algorithmOid then
        match lib.retrievedKey cert with
        | none => .noKey
        | some keyData => .key ⟨none, keyData, .verify, [certDer]⟩
      else .next

/-- A child that is a RetrievalMethod of this type, and its URI. -/
def retrievalUri? (up : Uppsala) (type : String) (child : Node) : Option String :=
  if child.isDsigOrPlain "RetrievalMethod" then
    child.element?.bind (fun e =>
      if (up.getAttribute e "Type").getD "" = type then some ((up.getAttribute e "URI").getD "")
      else none)
  else none

/-- The file that a URL map gives a URI. -/
def mappedPath (lib : KeyResolutionLibs) (uri : String) (m : String × String) : Option String :=
  if uri = m.1 then some m.2
  else
    match Text.stripPrefix? m.1.toList uri.toList with
    | none => none
    | some suffix =>
        let full := lib.joinPath m.2 (String.ofList (suffix.dropWhile (fun c => c == '/')))
        if lib.pathExists full then some full else none

/-- `resolve_retrieval_uri`. -/
def resolveRetrievalUri (lib : KeyResolutionLibs) (uri : String) (res : Resources) :
    Option String :=
  match res.urlMaps.findSome? (mappedPath lib uri) with
  | some path => some path
  | none =>
      let bases := res.baseDir.toList.flatMap (fun base => base :: lib.pathAncestors base)
      match (bases.map (fun base => lib.joinPath base uri)).find? lib.pathExists with
      | some path => some path
      | none => if lib.pathExists uri then some uri else none

/-- One turn of `try_resolve_retrieval_method`. -/
def retrieveFromFile (lib : KeyResolutionLibs) (res : Resources) (child : Node) : Retrieved :=
  match retrievalUri? lib.toUppsala "http://www.w3.org/2000/09/xmldsig#rawX509Certificate" child with
  | none => .next
  | some uri =>
      match resolveRetrievalUri lib uri res with
      | none => .noKey
      | some path =>
          match lib.readFile path with
          | .error _ => .noKey
          | .ok certDer => keyOfRetrieved lib.toKeyLibs certDer

/-- `try_resolve_retrieval_method`. -/
def tryResolveRetrievalMethod (lib : KeyResolutionLibs) (keyInfo : Node) (res : Resources) :
    Option Key :=
  firstRetrieved (retrieveFromFile lib res) keyInfo.children

/-- The X509Data that a target is or contains. -/
def x509DataOf (target : Node) : Option Node :=
  if target.isNamed Ns.DSIG "X509Data" then some target
  else target.descendants.find? (fun n : Node => n.isNamed Ns.DSIG "X509Data")

/-- The first certificate of an X509Data, read from its first text node. -/
def firstCertificateDer (lib : TransformLibs) (x509Data : Node) : Option ByteArray :=
  (x509Data.findChildElement Ns.DSIG "X509Certificate").bind (fun n =>
    (lib.base64Decode (withoutWhitespace (trimStr (n.elementText.getD "")))).toOption)

/-- One turn of `try_resolve_retrieval_method_inline`. -/
def retrieveFromDocument (lib : KeyResolutionLibs) (idMap : IdMap) (child : Node) : Retrieved :=
  match (retrievalUri? lib.toUppsala "http://www.w3.org/2000/09/xmldsig#X509Data" child).bind
      parseSameDocumentRef with
  | none => .next
  | some id =>
      match ((idMap.get? id).bind x509DataOf).bind (firstCertificateDer lib.toTransformLibs) with
      | none => .noKey
      | some certDer => keyOfRetrieved lib.toKeyLibs certDer

/-- `try_resolve_retrieval_method_inline`. -/
def tryResolveRetrievalMethodInline (lib : KeyResolutionLibs) (keyInfo : Node) (idMap : IdMap) :
    Option Key :=
  firstRetrieved (retrieveFromDocument lib idMap) keyInfo.children

/-! ## The key of a verification -/

/-- The key that a KeyInfo carries or leads to. -/
def inlineKey (lib : KeyResolutionLibs) (res : Resources) (manager : KeysManager) (idMap : IdMap)
    (keyInfo : Node) : Except Error (Option Key) :=
  orTry (extractKeyValue lib.toKeyLibs keyInfo)
    (orTry (attempt (tryUnwrapEncryptedKey lib keyInfo manager))
      (.ok ((tryResolveRetrievalMethod lib keyInfo res).or
        (tryResolveRetrievalMethodInline lib keyInfo idMap))))

/-- A key with where it came from: `key_from_x509` and `key_from_manager`. -/
structure ChosenKey where
  key : Key
  fromX509 : Bool
  fromManager : Bool

/-- A key of the manager. -/
def ChosenKey.ofManager (key : Key) : ChosenKey := ⟨key, false, true⟩

/-- A key of the document: one with certificates came from one of them. -/
def ChosenKey.inDocument (key : Key) : ChosenKey := ⟨key, !key.x509Chain.isEmpty, false⟩

/-- The KeyInfo that is read: the one referred to, if the Signature's own refers to one. -/
def effectiveKeyInfo (up : Uppsala) (keyInfo : Node) (idMap : IdMap) : Node :=
  (resolveKeyInfoReference up keyInfo idMap).getD keyInfo

/-- The key where only the manager's keys are trusted. -/
def trustedKey (lib : KeyResolutionLibs) (manager : KeysManager) (idMap : IdMap)
    (keyInfo : Option Node) : Except Error ChosenKey :=
  match keyInfo with
  | none => manager.firstKey.map .ofManager
  | some ki => do
      let found ← attempt
        (resolveKeyInfo lib.toKeyLibs (effectiveKeyInfo lib.toUppsala ki idMap) manager)
      match found with
      | some key => .ok (.ofManager key)
      | none => manager.firstKey.map .ofManager

/-- The key where a KeyInfo may carry one. -/
def documentKey (lib : KeyResolutionLibs) (res : Resources) (manager : KeysManager)
    (idMap : IdMap) (keyInfo : Option Node) : Except Error ChosenKey :=
  match keyInfo with
  | none => manager.firstKey.map .ofManager
  | some ki => do
      let effectiveKi := effectiveKeyInfo lib.toUppsala ki idMap
      let extracted ← inlineKey lib res manager idMap effectiveKi
      match extracted with
      | some key => .ok (.inDocument key)
      | none => (resolveKeyInfo lib.toKeyLibs effectiveKi manager).map .ofManager

end Bergshamra
