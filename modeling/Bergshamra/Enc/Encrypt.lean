import Bergshamra.Enc.Decrypt

/-!
# Encryption

`encrypt.rs`. The content key is the first that a child of the KeyInfo gives, or
the first key of the manager; the ciphertext takes the place of the CipherValue
in the text of the template, and the key is then sealed into every EncryptedKey
whose CipherValue is empty.
-/

namespace Bergshamra

/-! ## The content key -/

/-- `generate_session_key`. -/
def generateSessionKey (lib : EncLibs) (encUri : String) : Except Error ByteArray :=
  if cipherAlgorithms.contains encUri then .ok (lib.randomBytes (keyLengthForAlgorithm encUri))
  else .error (.unsupportedAlgorithm ("cannot determine key size for: " ++ encUri))

/-- The loop over the KeyInfo: the first key that a child gives, or the last error of a
DerivedKey. -/
def tryTemplateKeys (lib : EncLibs) (ctx : EncContext) (encUri : String) (err : Option Error) :
    List Node → Except Error (Option ByteArray)
  | [] =>
      match err with
      | some e => .error e
      | none => .ok none
  | child :: rest =>
      match keyNameBytes ctx.keysManager child with
      | some bytes => .ok (some bytes)
      | none =>
          if child.isNamed Ns.ENC "EncryptedKey" then (generateSessionKey lib encUri).map some
          else if child.isNamed Ns.ENC11 "DerivedKey" then
            match resolveDerivedKey lib ctx child encUri with
            | .ok key => .ok (some key)
            | .error .panics => .error .panics
            | .error e => tryTemplateKeys lib ctx encUri (some e) rest
          else tryTemplateKeys lib ctx encUri err rest

/-- The first key of the manager, or a session key when that is not symmetric. -/
def firstOrSessionKey (lib : EncLibs) (ctx : EncContext) (encUri : String) :
    Except Error ByteArray := do
  let key ← ctx.keysManager.firstKey
  match key.symmetricKeyBytes with
  | some bytes => .ok bytes
  | none => generateSessionKey lib encUri

/-- `resolve_encryption_key`. -/
def resolveEncryptionKey (lib : EncLibs) (ctx : EncContext) (encData : Node) (encUri : String) :
    Except Error ByteArray :=
  match encData.findChildElement Ns.DSIG "KeyInfo" with
  | none => firstOrSessionKey lib ctx encUri
  | some keyInfo => do
      match ← tryTemplateKeys lib ctx encUri none keyInfo.children with
      | some key => .ok key
      | none => firstOrSessionKey lib ctx encUri

/-! ## Filling an element -/

/-- `pname`. -/
def pname (pfx localName : String) : String :=
  if pfx = "" then localName else pfx ++ ":" ++ localName

/-- `extract_prefix`. -/
def extractPrefix (xmlFragment : List Char) (localName : String) : String :=
  match Text.splitOnce [':'] (xmlFragment.dropWhile (fun c => c == '<')) with
  | some (pfx, after) =>
      if Text.startsWith localName.toList after then String.ofList pfx else ""
  | none => ""

/-- The prefix of the element that takes the place of a CipherValue: none where the old one
declared it itself. -/
def effectivePrefix (cvXml : List Char) : String :=
  let pfx := extractPrefix cvXml "CipherValue"
  if pfx = "" then ""
  else if Text.containsSub ("xmlns:" ++ pfx ++ "=").toList cvXml then ""
  else pfx

/-- The element that takes the place of a CipherValue. -/
def filledCipherValue (lib : EncLibs) (cvXml : List Char) (b64 : String) : String :=
  let tag := pname (effectivePrefix cvXml) "CipherValue"
  lib.startElement tag [] ++ lib.writeText b64 ++ lib.endElement tag

/-- `replacen(pattern, replacement, 1)`. -/
def replaceFirst (s pattern replacement : String) : String :=
  match Text.splitOnce pattern.toList s.toList with
  | some (before, after) => String.ofList before ++ replacement ++ String.ofList after
  | none => s

/-- `&xml[range]` of a node of the parse of `text`. -/
def nodeXml (lib : EncLibs) (text xml : String) (n : Node) : Except Error String :=
  match lib.nodeRange text n with
  | none => .error .panics
  | some (start, stop) => sliceStr xml start stop

/-! ## Session keys -/

/-- `resolve_encrypted_key_rsa`. -/
def resolveEncryptedKeyRsa (manager : KeysManager) (encKey : Node) : Except Error Key :=
  let named := ((encKey.findChildElement Ns.DSIG "KeyInfo").bind (namedKey manager)).filter
    (fun k => k.rsaPublicKey.isSome)
  match named.or manager.findRsa with
  | some key => .ok key
  | none => .error (.key "no RSA key for EncryptedKey")

/-- `fill_originator_key_value`; `text` is the text that was parsed, `xml` the one that is
filled. -/
def fillOriginatorKeyValue (lib : EncLibs) (ctx : EncContext) (text : String) (encKey : Node)
    (xml : String) : Except Error String :=
  match agreementMethod? encKey with
  | none => .ok xml
  | some agreement =>
      match (agreement.findChildElement Ns.ENC "OriginatorKeyInfo").bind
          (fun oki => oki.findChildElement Ns.DSIG "KeyValue") with
      | none => .ok xml
      | some keyValue => do
          let originator ← resolveOriginatorKey ctx.keysManager agreement
          match lib.toKeyValueXml originator.data "" with
          | none => .error (.key "originator key has no KeyValue XML representation")
          | some content => do
              let kvXml ← nodeXml lib text xml keyValue
              let tag := pname (extractPrefix kvXml.toList "KeyValue") "KeyValue"
              .ok (replaceFirst xml kvXml (lib.startElement tag [] ++ content ++ lib.endElement tag))

/-- Seal a session key by the method of an EncryptedKey; the text changes where the originator's
key is filled in. -/
def sealSessionKey (lib : EncLibs) (ctx : EncContext) (text : String) (encKey encMethod : Node)
    (encUri : String) (sessionKey : ByteArray) (result : String) :
    Except Error (String × ByteArray) :=
  if keyTransportAlgorithms.contains encUri then
    match ctx.hsmEncryptor with
    | some hsm => do
        ensureHsmBinding hsm encUri "HSM encryptor"
        let sealed ← hsm.run sessionKey
        .ok (result, sealed)
    | none => do
        let transport ← lib.keyTransport encUri (encReadOaepParams lib.toTransformLibs encMethod)
        let rsaKey ← resolveEncryptedKeyRsa ctx.keysManager encKey
        let pub ← bytesOr rsaKey.rsaPublicKey (.key "RSA public key required")
        let sealed ← transport.encrypt pub sessionKey
        .ok (result, sealed)
  else
    match expectedKekSize encUri with
    | some size =>
        match ctx.hsmKeyWrapper with
        | some hsm => do
            ensureHsmBinding hsm encUri "HSM key wrapper"
            let sealed ← hsm.run sessionKey
            .ok (result, sealed)
        | none => do
            let kw ← keyWrapFromUri lib encUri
            match ← resolveAgreementMethodEncrypt lib ctx encKey size with
            | some kek => do
                let result ← fillOriginatorKeyValue lib ctx text encKey result
                let sealed ← kw.encrypt kek sessionKey
                .ok (result, sealed)
            | none => do
                let kek ← staticAesKek ctx.keysManager size "no AES key for key wrap"
                let sealed ← kw.encrypt kek sessionKey
                .ok (result, sealed)
    | none =>
        if encUri = Algorithm.KW_TRIPLEDES then do
          let kw ← keyWrapFromUri lib encUri
          let kek ← staticDes3Kek ctx.keysManager "no key for 3DES key wrap"
            "no symmetric key for 3DES key wrap"
          let sealed ← kw.encrypt kek sessionKey
          .ok (result, sealed)
        else if cipherAlgorithms.contains encUri then do
          let cipher ← cipherFromUri lib encUri
          let kek ← resolveEncryptedKeyKek ctx.keysManager encKey
            "no symmetric key for EncryptedKey cipher encryption"
          let sealed ← cipher.encrypt kek sessionKey
          .ok (result, sealed)
        else .error (.unsupportedAlgorithm ("EncryptedKey method: " ++ encUri))

/-- The EncryptionMethod, its algorithm and the CipherValue of an EncryptedKey that is to be
filled. -/
def emptyEncryptedKey? (up : Uppsala) (n : Node) : Option (Node × String × Node) :=
  if n.isNamed Ns.ENC "EncryptedKey" then
    (n.findChildElement Ns.ENC "EncryptionMethod").bind (fun encMethod =>
      (attributeOf up encMethod "Algorithm").bind (fun encUri =>
        (n.findChildElement Ns.ENC "CipherData").bind (fun cipherData =>
          (cipherData.findChildElement Ns.ENC "CipherValue").bind (fun cipherValue =>
            if trimmedText cipherValue = "" then some (encMethod, encUri, cipherValue)
            else none))))
  else none

/-- One turn of the loop of `encrypt_session_key`, over the nodes of the parse of `xml`. -/
def fillSessionKey (lib : EncLibs) (ctx : EncContext) (xml : String) (sessionKey : ByteArray)
    (result : String) (n : Node) : Except Error String :=
  match emptyEncryptedKey? lib.toUppsala n with
  | none => .ok result
  | some (encMethod, encUri, cipherValue) => do
      let (result, sealed) ← sealSessionKey lib ctx xml n encMethod encUri sessionKey result
      let cvXml ← nodeXml lib xml xml cipherValue
      .ok (replaceFirst result cvXml
        (filledCipherValue lib cvXml.toList (lib.base64Encode sealed)))

/-- `encrypt_session_key`. -/
def encryptSessionKey (lib : EncLibs) (ctx : EncContext) (xml : String) (sessionKey : ByteArray) :
    Except Error String :=
  match lib.parse xml with
  | .error e => .error (.xmlParse e)
  | .ok doc => doc.descendants.foldlM (fillSessionKey lib ctx xml sessionKey) xml

/-! ## The document -/

/-- `encrypt`. -/
def encrypt (lib : EncLibs) (ctx : EncContext) (templateXml : String) (data : ByteArray) :
    Except Error String :=
  match lib.parse templateXml with
  | .error e => .error (.xmlParse e)
  | .ok doc => do
      let encData ← required (doc.findElement Ns.ENC "EncryptedData") "EncryptedData"
      let encMethod ← required (encData.findChildElement Ns.ENC "EncryptionMethod")
        "EncryptionMethod"
      match attributeOf lib.toUppsala encMethod "Algorithm" with
      | none => .error (.missingAttribute "Algorithm on EncryptionMethod")
      | some encUri => do
          let keyBytes ← resolveEncryptionKey lib ctx encData encUri
          let cipher ← cipherFromUri lib encUri
          let ciphertext ← cipher.encrypt keyBytes data
          let cipherData ← required (encData.findChildElement Ns.ENC "CipherData") "CipherData"
          let cipherValue ←
            required (cipherData.findChildElement Ns.ENC "CipherValue") "CipherValue"
          match lib.nodeRange templateXml cipherValue with
          | none => .error .panics
          | some (start, stop) => do
              let cvXml ← sliceStr templateXml start stop
              let front ← sliceStr templateXml 0 start
              let back ← sliceStr templateXml stop templateXml.utf8ByteSize
              let filled := filledCipherValue lib cvXml.toList (lib.base64Encode ciphertext)
              encryptSessionKey lib ctx (front ++ filled ++ back) keyBytes

end Bergshamra
