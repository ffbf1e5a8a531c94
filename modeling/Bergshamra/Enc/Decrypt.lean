import Bergshamra.Enc.Agreement
import Bergshamra.Enc.Replace

/-!
# Decryption

`decrypt.rs`. Its map of ids keeps the last of the elements with one value. The
key comes from an EncryptedKey or a DerivedKey of the KeyInfo, then from a name
or a RetrievalMethod, then it is the first key; an EncryptedKey is opened with a
key of the manager that its algorithm decides on.
-/

namespace Bergshamra

namespace Decrypt

/-- The id values of an element. -/
def idValues (up : Uppsala) (attrNames : List String) (e : Element) : List String :=
  attrNames.filterMap (up.getAttribute e)

/-- `build_id_map` of `decrypt.rs`. -/
def buildIdMap (up : Uppsala) (doc : Document) (attrNames : List String) : IdMap :=
  (entriesBy (idValues up attrNames) doc).foldl IdMap.insert []

end Decrypt

/-! ## The ciphertext -/

/-- `parse_attr_predicate`. -/
def parseAttrPredicate (pred attrName : List Char) : Option (List Char) :=
  (Text.stripPrefix? "[@".toList pred).bind (fun s =>
    (Text.stripSuffix? [']'] s).bind (fun inner =>
      (Text.stripPrefix? attrName inner).bind (fun s =>
        (Text.stripPrefix? ['='] s).bind (fun rest =>
          ((Text.stripPrefix? ['"'] rest).bind (Text.stripSuffix? ['"'])).or
            ((Text.stripPrefix? [apostrophe] rest).bind (Text.stripSuffix? [apostrophe]))))))

/-- `resolve_prefix_on_element`. -/
def resolvePrefixOnElement (n : Node) (pfx : String) : Option String :=
  n.selfPath.findSome? (fun a =>
    (a.2.namespaceDeclarations.find? (fun d => d.1 == pfx)).map Prod.snd)

/-- The element that the predicate of a CipherReference's XPath leads to. -/
def cipherRefTarget (up : Uppsala) (doc : Document) (idMap : IdMap) (xpath : Node)
    (namePart predPart : List Char) : Option Node :=
  let name := (Text.splitOnce [':'] namePart).getD ([], namePart)
  let nsUri :=
    if name.1 = [] then "" else (resolvePrefixOnElement xpath (String.ofList name.1)).getD ""
  let localName := String.ofList name.2
  let idValue := (parseAttrPredicate predPart "Id".toList).map String.ofList
  let byId := (idValue.bind idMap.get?).filter (fun n : Node => n.isNamed nsUri localName)
  byId.or (doc.descendants.find? (fun n : Node => n.isNamed nsUri localName
    && idValue.all (fun id => (attributeOf up n "Id").getD "" == id)))

/-- `apply_cipher_ref_xpath`. -/
def applyCipherRefXPath (up : Uppsala) (doc : Document) (idMap : IdMap) (transform : Node) :
    Except Error ByteArray := do
  let xpath ← required (findChildElementAnyNs transform "XPath")
    "XPath in CipherReference transform"
  let text := trimmedText xpath
  let unsupported :=
    Error.unsupportedAlgorithm ("CipherReference XPath expression not supported: " ++ text)
  match (Text.stripPrefix? "self::text()[parent::".toList text.toList).bind
      (Text.stripSuffix? [']']) with
  | none => .error unsupported
  | some rest =>
      match Text.splitOnce ['['] rest with
      | none => .error unsupported
      | some (namePart, pred) =>
          match cipherRefTarget up doc idMap xpath namePart ('[' :: pred) with
          | some n => .ok n.textContentDeep.toUTF8
          | none => .error (.transform
              ("CipherReference XPath: no matching element for " ++ text))

/-- One child of the Transforms of a CipherReference. -/
def cipherRefTransform (lib : EncLibs) (doc : Document)
    (idMap : IdMap) (data : ByteArray) (child : Node) : Except Error ByteArray :=
  if child.element?.any (fun e => e.name.localName == "Transform") then
    let alg := (attributeOf lib.toUppsala child "Algorithm").getD ""
    if alg = Algorithm.BASE64 then
      match lib.base64Decode (withoutWhitespace (lib.fromUtf8Lossy data)) with
      | .ok bytes => .ok bytes
      | .error e => .error (.base64 ("CipherReference base64 transform: " ++ e))
    else if alg = Algorithm.XPATH then applyCipherRefXPath lib.toUppsala doc idMap child
    else .error (.unsupportedAlgorithm ("CipherReference transform: " ++ alg))
  else .ok data

/-- The text that the URI of a CipherReference leads to. -/
def cipherRefText (lib : EncLibs) (doc : Document) (idMap : IdMap) (uri : String) : Except Error String :=
  if uri = "" then
    .ok (String.join (doc.descendants.filterMap lib.textContent))
  else
    match parseSameDocumentRef uri with
    | some id =>
        match idMap.get? id with
        | some target => .ok target.textContentDeep
        | none => .error (.invalidUri ("cannot resolve CipherReference #" ++ id))
    | none => .error (.unsupportedAlgorithm
        ("CipherReference with non-fragment URI not supported: " ++ uri))

/-- `resolve_cipher_reference`. -/
def resolveCipherReference (lib : EncLibs) (doc : Document) (cipherRef : Node) (idMap : IdMap) :
    Except Error ByteArray :=
  match attributeOf lib.toUppsala cipherRef "URI" with
  | none => .error (.missingAttribute "URI on CipherReference")
  | some uri => do
      let text ← cipherRefText lib doc idMap uri
      let transforms := (cipherRef.findChildElement Ns.ENC "Transforms").or
        (cipherRef.findChildElement Ns.DSIG "Transforms")
      match transforms with
      | none => .ok text.toUTF8
      | some transforms =>
          transforms.children.foldlM (cipherRefTransform lib doc idMap) text.toUTF8

/-- `read_cipher_data`. -/
def readCipherData (lib : EncLibs) (ctx : EncContext) (doc : Document) (cipherData : Node)
    (idMap : IdMap) : Except Error ByteArray :=
  match cipherData.findChildElement Ns.ENC "CipherValue" with
  | some cipherValue =>
      match lib.base64Decode (withoutWhitespace (trimmedText cipherValue)) with
      | .ok bytes => .ok bytes
      | .error e => .error (.base64 ("CipherValue: " ++ e))
  | none =>
      match cipherData.findChildElement Ns.ENC "CipherReference" with
      | some cipherRef =>
          if ctx.disableCipherReference then
            .error (.other "CipherReference resolution is disabled")
          else resolveCipherReference lib doc cipherRef idMap
      | none => .error (.missingElement "CipherValue or CipherReference")

/-! ## EncryptedKey -/

/-- What one child of an EncryptionMethod sets. -/
def encOaepParam (lib : TransformLibs) (params : OaepParams) (child : Node) : OaepParams :=
  match child.element? with
  | none => params
  | some e =>
      let algorithm := lib.getAttribute e "Algorithm"
      if e.isNamed Ns.DSIG "DigestMethod" || e.isNamed Ns.ENC "DigestMethod" then
        { params with digestUri := algorithm.or params.digestUri }
      else if e.isNamed Ns.ENC11 "MGF" || e.isNamed Ns.ENC "MGF" then
        { params with mgfUri := algorithm.or params.mgfUri }
      else if e.name.localName = "OAEPparams" then
        let clean := withoutWhitespace (trimmedText child)
        if clean = "" then params
        else
          match lib.base64Decode clean with
          | .ok bytes => { params with oaepParams := some bytes }
          | .error _ => params
      else params

/-- `read_oaep_params` of `decrypt.rs` and of `encrypt.rs`. -/
def encReadOaepParams (lib : TransformLibs) (encMethod : Node) : OaepParams :=
  encMethod.children.foldl (encOaepParam lib) ⟨none, none, none⟩

/-- `resolve_encrypted_key_kek` of both sides; `msg` is the error of the side. -/
def resolveEncryptedKeyKek (manager : KeysManager) (encKey : Node) (msg : String) :
    Except Error ByteArray :=
  let named := (encKey.findChildElement Ns.DSIG "KeyInfo").bind (fun ki =>
    (namedKey manager ki).bind Key.symmetricKeyBytes)
  match named with
  | some bytes => .ok bytes
  | none => do
      let key ← manager.firstKey
      bytesOr key.symmetricKeyBytes (.key msg)

/-- The AES key for a key wrap: one of the right size, or any. -/
def staticAesKek (manager : KeysManager) (size : Nat) (msg : String) : Except Error ByteArray :=
  match (manager.findAesBySize size).or manager.findAes with
  | none => .error (.key msg)
  | some key => bytesOr key.symmetricKeyBytes (.key "AES key has no bytes")

/-- The key for a 3DES key wrap: a 3DES key, or the first. -/
def staticDes3Kek (manager : KeysManager) (missing noBytes : String) : Except Error ByteArray :=
  match manager.findDes3.or manager.keys.head? with
  | none => .error (.key missing)
  | some key => bytesOr key.symmetricKeyBytes (.key noBytes)

/-- Open a ciphertext by the method of an EncryptedKey. -/
def openSessionKey (lib : EncLibs) (ctx : EncContext) (encKey encMethod : Node) (encUri : String)
    (cipherBytes : ByteArray) : Except Error ByteArray :=
  if keyTransportAlgorithms.contains encUri then
    match ctx.hsmDecryptor with
    | some hsm => do
        ensureHsmBinding hsm encUri "HSM decryptor"
        hsm.run cipherBytes
    | none => do
        let transport ← lib.keyTransport encUri (encReadOaepParams lib.toTransformLibs encMethod)
        let priv ← transportKey ctx.keysManager
        transport.decrypt priv cipherBytes
  else
    match expectedKekSize encUri with
    | some size =>
        match ctx.hsmKeyUnwrapper with
        | some hsm => do
            ensureHsmBinding hsm encUri "HSM key unwrapper"
            hsm.run cipherBytes
        | none => do
            let kw ← keyWrapFromUri lib encUri
            match ← resolveAgreementMethodKek lib ctx encKey size with
            | some kek => kw.decrypt kek cipherBytes
            | none => do
                let kek ← staticAesKek ctx.keysManager size "no AES key for key unwrap"
                kw.decrypt kek cipherBytes
    | none =>
        if encUri = Algorithm.KW_TRIPLEDES then do
          let kw ← keyWrapFromUri lib encUri
          let kek ← staticDes3Kek ctx.keysManager "no symmetric key for 3DES key unwrap"
            "no symmetric key for 3DES key unwrap"
          kw.decrypt kek cipherBytes
        else if cipherAlgorithms.contains encUri then do
          let cipher ← cipherFromUri lib encUri
          let kek ← resolveEncryptedKeyKek ctx.keysManager encKey
            "no symmetric key for EncryptedKey cipher decryption"
          cipher.decrypt kek cipherBytes
        else .error (.unsupportedAlgorithm ("EncryptedKey method: " ++ encUri))

/-- `decrypt_encrypted_key`. -/
def decryptEncryptedKey (lib : EncLibs) (ctx : EncContext) (doc : Document) (encKey : Node)
    (idMap : IdMap) : Except Error ByteArray := do
  let encMethod ← required (encKey.findChildElement Ns.ENC "EncryptionMethod")
    "EncryptionMethod on EncryptedKey"
  match attributeOf lib.toUppsala encMethod "Algorithm" with
  | none => .error (.missingAttribute "Algorithm on EncryptedKey EncryptionMethod")
  | some encUri => do
      let cipherData ← required (encKey.findChildElement Ns.ENC "CipherData")
        "CipherData on EncryptedKey"
      let cipherBytes ← readCipherData lib ctx doc cipherData idMap
      openSessionKey lib ctx encKey encMethod encUri cipherBytes

/-! ## The decryption key -/

/-- The last error of an EncryptedKey, and that of a DerivedKey. -/
structure KeyErrors where
  encrypted : Option Error
  derived : Option Error

/-- The first loop over the KeyInfo: the key of the first EncryptedKey or DerivedKey that has one,
or the errors. -/
def tryChildKeys (lib : EncLibs) (ctx : EncContext) (doc : Document) (idMap : IdMap)
    (encUri : String) (errs : KeyErrors) : List Node → Except Error (ByteArray ⊕ KeyErrors)
  | [] => .ok (.inr errs)
  | child :: rest =>
      if child.isNamed Ns.ENC "EncryptedKey" then
        match decryptEncryptedKey lib ctx doc child idMap with
        | .ok key => .ok (.inl key)
        | .error .panics => .error .panics
        | .error e => tryChildKeys lib ctx doc idMap encUri { errs with encrypted := some e } rest
      else if child.isNamed Ns.ENC11 "DerivedKey" then
        match resolveDerivedKey lib ctx child encUri with
        | .ok key => .ok (.inl key)
        | .error .panics => .error .panics
        | .error e => tryChildKeys lib ctx doc idMap encUri { errs with derived := some e } rest
      else tryChildKeys lib ctx doc idMap encUri errs rest

/-- The symmetric key that a KeyName child names. -/
def keyNameBytes (manager : KeysManager) (child : Node) : Option ByteArray :=
  if child.isNamed Ns.DSIG "KeyName" then
    let name := trimmedText child
    if name = "" then none else (manager.findByName name).bind Key.symmetricKeyBytes
  else none

/-- The element that a RetrievalMethod child for an EncryptedKey leads to. -/
def retrievedEncryptedKey (up : Uppsala) (idMap : IdMap) (child : Node) : Option Node :=
  if child.isNamed Ns.DSIG "RetrievalMethod" then
    (attributeOf up child "URI").bind (fun uri =>
      (attributeOf up child "Type").bind (fun type =>
        if Text.containsSub "EncryptedKey".toList type.toList then
          (parseSameDocumentRef uri).bind idMap.get?
        else none))
  else none

/-- The second loop over the KeyInfo: names and references. -/
def tryNamesAndReferences (lib : EncLibs) (ctx : EncContext) (doc : Document) (idMap : IdMap) :
    List Node → Except Error (Option ByteArray)
  | [] => .ok none
  | child :: rest =>
      match keyNameBytes ctx.keysManager child with
      | some bytes => .ok (some bytes)
      | none =>
          match retrievedEncryptedKey lib.toUppsala idMap child with
          | some target => (decryptEncryptedKey lib ctx doc target idMap).map some
          | none => tryNamesAndReferences lib ctx doc idMap rest

/-- The first key of the manager, when it is symmetric. -/
def firstSymmetricKey (manager : KeysManager) : Except Error ByteArray := do
  let key ← manager.firstKey
  bytesOr key.symmetricKeyBytes (.key "no suitable decryption key found")

/-- `resolve_decryption_key`. -/
def resolveDecryptionKey (lib : EncLibs) (ctx : EncContext) (doc : Document) (encData : Node)
    (idMap : IdMap) (encUri : String) : Except Error ByteArray :=
  match encData.findChildElement Ns.DSIG "KeyInfo" with
  | none => firstSymmetricKey ctx.keysManager
  | some keyInfo => do
      match ← tryChildKeys lib ctx doc idMap encUri ⟨none, none⟩ keyInfo.children with
      | .inl key => .ok key
      | .inr errs =>
          match ← tryNamesAndReferences lib ctx doc idMap keyInfo.children with
          | some key => .ok key
          | none =>
              match errs.encrypted.or errs.derived with
              | some e => .error e
              | none => firstSymmetricKey ctx.keysManager

/-! ## The document -/

/-- `decrypt_to_bytes`. -/
def decryptToBytes (lib : EncLibs) (ctx : EncContext) (xml : String) :
    Except Error (List UInt8) :=
  match lib.parse xml with
  | .error e => .error (.xmlParse e)
  | .ok doc => do
      let idMap := Decrypt.buildIdMap lib.toUppsala doc
        (["Id", "ID", "id", "AssertionID"] ++ ctx.idAttrs)
      let encData ← required (doc.findElement Ns.ENC "EncryptedData") "EncryptedData"
      let encType := (attributeOf lib.toUppsala encData "Type").getD ""
      let encMethod ← required (encData.findChildElement Ns.ENC "EncryptionMethod")
        "EncryptionMethod"
      match attributeOf lib.toUppsala encMethod "Algorithm" with
      | none => .error (.missingAttribute "Algorithm on EncryptionMethod")
      | some encUri => do
          let keyBytes ← resolveDecryptionKey lib ctx doc encData idMap encUri
          let cipherData ← required (encData.findChildElement Ns.ENC "CipherData") "CipherData"
          let cipherBytes ← readCipherData lib ctx doc cipherData idMap
          -- a longer key is cut to the size that the cipher takes
          let effectiveKey := keyBytes.extract 0 (min (keyLengthForAlgorithm encUri) keyBytes.size)
          let cipher ← cipherFromUri lib encUri
          let plaintext ← cipher.decrypt effectiveKey cipherBytes
          let result ← replaceEncryptedDataBytes lib xml encData encType plaintext.data.toList
          .ok (maybeConvertEncoding result)

/-- `decrypt`. -/
def decrypt (lib : EncLibs) (ctx : EncContext) (xml : String) : Except Error String := do
  let bytes ← decryptToBytes lib ctx xml
  fromUtf8 lib.toTransformLibs (fun e => .decryption ("plaintext is not valid UTF-8: " ++ e))
    ⟨bytes.toArray⟩

end Bergshamra
