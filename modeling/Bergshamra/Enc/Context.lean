import Bergshamra.Dsig.KeyResolution
import Bergshamra.Keys.X509

/-!
# The encryption context

The keys and settings that encryption and decryption work with, and what they
take from other crates. Keys that stay in a hardware module are functions on
bytes here, each with the algorithms it is bound to.
-/

namespace Bergshamra

/-- A key in a hardware module, and the algorithms it may be used for. -/
structure HsmKey where
  run : ByteArray → Except Error ByteArray
  algorithms : List String

/-- `EncContext`. -/
structure EncContext where
  keysManager : KeysManager
  idAttrs : List String
  disableCipherReference : Bool
  hsmDecryptor : Option HsmKey
  hsmKeyUnwrapper : Option HsmKey
  hsmEncryptor : Option HsmKey
  hsmKeyWrapper : Option HsmKey

/-- `EncContext::new`. -/
def EncContext.new (keysManager : KeysManager) : EncContext where
  keysManager := keysManager
  idAttrs := []
  disableCipherReference := false
  hsmDecryptor := none
  hsmKeyUnwrapper := none
  hsmEncryptor := none
  hsmKeyWrapper := none

/-- `ensure_hsm_binding`, for a key that is configured. -/
def ensureHsmBinding (key : HsmKey) (encUri bindingName : String) : Except Error Unit :=
  if key.algorithms.contains encUri then .ok ()
  else
    let allowed := if key.algorithms = [] then "<none>" else ", ".intercalate key.algorithms
    .error (.unsupportedAlgorithm (bindingName ++ " is not bound to EncryptionMethod " ++ encUri
      ++ " (allowed: " ++ allowed ++ ")"))

/-! ## Libraries -/

/-- `ConcatKdfParams`. -/
structure ConcatKdfParams where
  digestUri : Option String
  algorithmId : Option ByteArray
  partyUInfo : Option ByteArray
  partyVInfo : Option ByteArray

/-- `Pbkdf2Params`. -/
structure Pbkdf2Params where
  prfUri : String
  salt : ByteArray
  iterationCount : Nat
  keyLength : Nat

/-- `HkdfParams`. -/
structure HkdfParams where
  prfUri : Option String
  salt : Option ByteArray
  info : Option ByteArray
  keyLengthBits : Nat

/-- An algorithm that seals bytes under a key, and opens them again. -/
structure Sealing (encKey decKey : Type) where
  encrypt : encKey → ByteArray → Except Error ByteArray
  decrypt : decKey → ByteArray → Except Error ByteArray

/-- The curves of ECDH. -/
inductive Curve where
  | p256
  | p384
  | p521
deriving DecidableEq

/-- What encryption and decryption take from other crates. -/
structure EncLibs extends TransformLibs where
  /-- `Document::node_range` in the parse of a text: byte positions in that text. -/
  nodeRange : String → Node → Option (Nat × Nat)
  /-- `Document::text_content`. -/
  textContent : Node → Option String
  /-- `STANDARD.encode`. -/
  base64Encode : ByteArray → String
  /-- `String::from_utf8_lossy`. -/
  fromUtf8Lossy : ByteArray → String
  /-- What `XmlWriter::text` appends. -/
  writeText : String → String
  /-- `encrypt` and `decrypt` of the cipher that a URI stands for, with a key. -/
  cipher : String → Sealing ByteArray ByteArray
  /-- `wrap` and `unwrap` of the key wrap that a URI stands for, with a key. -/
  keyWrap : String → Sealing ByteArray ByteArray
  /-- `keytransport::from_uri_with_params`. -/
  keyTransport : String → OaepParams → Except Error (Sealing KeyBlob KeyBlob)
  /-- `concat_kdf` of a secret and the length of the key. -/
  concatKdf : ByteArray → Nat → ConcatKdfParams → Except Error ByteArray
  /-- `pbkdf2_derive`. -/
  pbkdf2Derive : ByteArray → Pbkdf2Params → Except Error ByteArray
  /-- `hkdf_derive` of a secret and the length of the key. -/
  hkdfDerive : ByteArray → Nat → HkdfParams → Except Error ByteArray
  /-- `ecdh_p256` and its siblings, of a public and a private key. -/
  ecdh : Curve → ByteArray → KeyBlob → Except Error ByteArray
  /-- `ecdh_x25519` of a public and a private key. -/
  ecdhX25519 : ByteArray → ByteArray → Except Error ByteArray
  /-- `dh_compute` of the other's public key, one's own private key, p and q. -/
  dhCompute : ByteArray → ByteArray → ByteArray → ByteArray → Except Error ByteArray
  /-- The uncompressed point of a public key. -/
  encodedPoint : Curve → KeyBlob → ByteArray
  /-- `KeyData::to_key_value_xml`. -/
  toKeyValueXml : KeyData → String → Option String
  /-- `fill_bytes` of a vector of some length. -/
  randomBytes : Nat → ByteArray

/-- The algorithms of `cipher::from_uri`. -/
def cipherAlgorithms : List String :=
  [Algorithm.AES128_CBC, Algorithm.AES192_CBC, Algorithm.AES256_CBC, Algorithm.AES128_GCM,
    Algorithm.AES192_GCM, Algorithm.AES256_GCM, Algorithm.TRIPLEDES_CBC]

/-- `cipher::from_uri`. -/
def cipherFromUri (lib : EncLibs) (uri : String) : Except Error (Sealing ByteArray ByteArray) :=
  if cipherAlgorithms.contains uri then .ok (lib.cipher uri)
  else .error (.unsupportedAlgorithm ("cipher: " ++ uri))

/-- The algorithms of `keywrap::from_uri`. -/
def keyWrapAlgorithms : List String :=
  [Algorithm.KW_AES128, Algorithm.KW_AES192, Algorithm.KW_AES256, Algorithm.KW_TRIPLEDES]

/-- `keywrap::from_uri`. -/
def keyWrapFromUri (lib : EncLibs) (uri : String) : Except Error (Sealing ByteArray ByteArray) :=
  if keyWrapAlgorithms.contains uri then .ok (lib.keyWrap uri)
  else .error (.unsupportedAlgorithm ("key wrap: " ++ uri))

/-- The algorithms of RSA key transport. -/
def keyTransportAlgorithms : List String :=
  [Algorithm.RSA_PKCS1, Algorithm.RSA_OAEP, Algorithm.RSA_OAEP_ENC11]

/-- `key_length_for_algorithm`. -/
def keyLengthForAlgorithm (uri : String) : Nat :=
  if uri = Algorithm.AES128_CBC ∨ uri = Algorithm.AES128_GCM then 16
  else if uri = Algorithm.AES192_CBC ∨ uri = Algorithm.AES192_GCM then 24
  else if uri = Algorithm.AES256_CBC ∨ uri = Algorithm.AES256_GCM then 32
  else if uri = Algorithm.TRIPLEDES_CBC then 24
  else 32

/-! ## Reading keys and attributes -/

/-- `get_attribute` of an element node. -/
def attributeOf (up : Uppsala) (n : Node) (name : String) : Option String :=
  n.element?.bind (fun e => up.getAttribute e name)

/-- The text of an element, trimmed. -/
def trimmedText (n : Node) : String := trimStr n.textContentDeep

/-- `find_child_element_any_ns`. -/
def findChildElementAnyNs (n : Node) (localName : String) : Option Node :=
  n.children.find? (fun c : Node => c.element?.any (fun e => e.name.localName == localName))

/-- The key that a `KeyName` child names. -/
def namedKey (manager : KeysManager) (n : Node) : Option Key :=
  (n.findChildElement Ns.DSIG "KeyName").bind (fun keyName =>
    let name := trimmedText keyName
    if name = "" then none else manager.findByName name)

/-- The bytes of an optional symmetric key. -/
def bytesOr (bytes : Option ByteArray) (e : Error) : Except Error ByteArray :=
  match bytes with
  | some b => .ok b
  | none => .error e

/-- An element that has to be there. -/
def required (n : Option Node) (msg : String) : Except Error Node :=
  match n with
  | some n => .ok n
  | none => .error (.missingElement msg)

/-- `&s[start..stop]` of a string. -/
def sliceStr (s : String) (start stop : Nat) : Except Error String :=
  (byteSlice s.toList start stop).map String.ofList

end Bergshamra
