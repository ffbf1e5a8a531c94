import Bergshamra.Enc.Derive

/-!
# Key agreement

The key-encryption key that an `AgreementMethod` in the KeyInfo of an
EncryptedKey leads to: on the decrypting side from the recipient's private key
and the originator's public key in the document, on the encrypting side from the
originator's private key and the recipient's public key in the manager.
-/

namespace Bergshamra

/-- The `AgreementMethod` of an EncryptedKey. -/
def agreementMethod? (encKey : Node) : Option Node :=
  (encKey.findChildElement Ns.DSIG "KeyInfo").bind
    (fun ki => ki.findChildElement Ns.ENC "AgreementMethod")

/-! ## Keys of the two parties -/

/-- A DH key with its private half. -/
def Key.isDhPrivate (k : Key) : Bool :=
  match k.data with
  | .dh _ _ _ (some _) _ => true
  | _ => false

/-- An X25519 key with its private half. -/
def Key.isX25519Private (k : Key) : Bool :=
  match k.data with
  | .x25519 (some _) _ => true
  | _ => false

/-- The curve, the private half and the public half of an EC key. -/
def Key.ec? (k : Key) : Option (Curve × Option KeyBlob × KeyBlob) :=
  match k.data with
  | .ecP256 priv pub => some (.p256, priv, pub)
  | .ecP384 priv pub => some (.p384, priv, pub)
  | .ecP521 priv pub => some (.p521, priv, pub)
  | _ => none

/-- An EC key with its private half. -/
def Key.isEcPrivate (k : Key) : Bool := k.ec?.any (fun c => c.2.1.isSome)

/-- The first EC key of each curve is looked at, and only that one. -/
def KeysManager.findEcPrivate (m : KeysManager) : Option Key :=
  ((m.findEcP256.filter Key.isEcPrivate).or (m.findEcP384.filter Key.isEcPrivate)).or
    (m.findEcP521.filter Key.isEcPrivate)

/-- `resolve_recipient_key`: the recipient's private key. -/
def resolveRecipientKey (manager : KeysManager) (agreement : Node) : Except Error Key :=
  let named := (agreement.findChildElement Ns.ENC "RecipientKeyInfo").bind (namedKey manager)
  let found := named.or ((manager.findDh.filter Key.isDhPrivate).or
    ((manager.findX25519.filter Key.isX25519Private).or manager.findEcPrivate))
  match found with
  | some key => .ok key
  | none => .error (.key "no private key for key agreement")

/-- `resolve_originator_key`: the originator's private key. -/
def resolveOriginatorKey (manager : KeysManager) (agreement : Node) : Except Error Key :=
  let named := (agreement.findChildElement Ns.ENC "OriginatorKeyInfo").bind (namedKey manager)
  match named.or ((manager.findDh.filter Key.isDhPrivate).or manager.findEcPrivate) with
  | some key => .ok key
  | none => .error (.key "no private key for key agreement originator")

/-- `resolve_recipient_public_key`. -/
def resolveRecipientPublicKey (manager : KeysManager) (agreement : Node) : Except Error Key :=
  match (agreement.findChildElement Ns.ENC "RecipientKeyInfo").bind (namedKey manager) with
  | some key => .ok key
  | none => .error (.key "no public key for key agreement recipient")

/-- `ec_public_key_bytes`. -/
def Key.ecPublicKeyBytes (lib : EncLibs) (k : Key) : Option ByteArray :=
  k.ec?.map (fun c => lib.encodedPoint c.1 c.2.2)

/-! ## The originator's public key in the document -/

/-- The decoded text of an element that may not be empty. -/
def publicValue (lib : EncLibs) (n : Node) (missing what : String) : Except Error ByteArray :=
  if trimmedText n = "" then .error (.missingElement missing)
  else
    match lib.base64Decode (withoutLineBreaks n.textContentDeep) with
    | .ok bytes => .ok bytes
    | .error e => .error (.base64 (what ++ e))

/-- A child of one of two namespaces. -/
def childOfEither (n : Node) (ns₁ ns₂ localName : String) : Option Node :=
  n.children.find? (fun c : Node => c.isNamed ns₁ localName || c.isNamed ns₂ localName)

/-- `extract_ec_public_key_bytes`. -/
def extractEcPublicKeyBytes (lib : EncLibs) (keyInfo : Node) : Except Error ByteArray := do
  let keyValue ← required (keyInfo.findChildElement Ns.DSIG "KeyValue")
    "KeyValue in OriginatorKeyInfo"
  let ecKeyValue ← required (childOfEither keyValue Ns.DSIG11 Ns.DSIG "ECKeyValue") "ECKeyValue"
  let publicKey ← required (findChildElementAnyNs ecKeyValue "PublicKey")
    "PublicKey in ECKeyValue"
  publicValue lib publicKey "PublicKey in ECKeyValue" "EC PublicKey: "

/-- `extract_dh_public_key_from_xml`. -/
def extractDhPublicKeyFromXml (lib : EncLibs) (keyInfo : Node) : Except Error ByteArray := do
  let keyValue ← required (keyInfo.findChildElement Ns.DSIG "KeyValue")
    "KeyValue in OriginatorKeyInfo"
  let dhKeyValue ← required (childOfEither keyValue Ns.ENC Ns.DSIG "DHKeyValue") "DHKeyValue"
  let publicNode ← required (findChildElementAnyNs dhKeyValue "Public") "Public in DHKeyValue"
  publicValue lib publicNode "Public in DHKeyValue" "DH Public: "

/-! ## From the shared secret to the key -/

/-- The ECDH secret of a private key and the encoded point of another. -/
def ecdhSecret (lib : EncLibs) (key : Key) (publicBytes : ByteArray) (msg : String) :
    Except Error ByteArray :=
  match key.ec? with
  | some (curve, some priv, _) => lib.ecdh curve publicBytes priv
  | _ => .error (.key msg)

/-- The subgroup order has to be there. -/
def dhSecret (lib : EncLibs) (otherPublic priv p : ByteArray) (q : Option ByteArray) :
    Except Error ByteArray := do
  let q ← bytesOr q (.key "DH subgroup order q is required for DH-ES")
  lib.dhCompute otherPublic priv p q

/-- The key that the KeyDerivationMethod of an agreement makes of the secret; HKDF is known on the
decrypting side only. Without a method it is the beginning of the secret. -/
def agreedKey (lib : EncLibs) (agreement : Node) (secret : ByteArray) (kekLen : Nat)
    (hkdf : Bool) : Except Error ByteArray :=
  match agreement.findChildElement Ns.ENC11 "KeyDerivationMethod" with
  | none => .ok (secret.extract 0 (min kekLen secret.size))
  | some kdm =>
      let kdfUri := (attributeOf lib.toUppsala kdm "Algorithm").getD ""
      if kdfUri = Algorithm.CONCAT_KDF then do
        let params ← parseConcatKdfParams lib.toUppsala kdm
        lib.concatKdf secret kekLen params
      else if kdfUri = Algorithm.PBKDF2 then do
        let params ← parsePbkdf2Params lib kdm kekLen
        lib.pbkdf2Derive secret params
      else if hkdf ∧ kdfUri = Algorithm.HKDF then do
        let params ← parseHkdfParams lib kdm kekLen
        lib.hkdfDerive secret kekLen params
      else .error (.unsupportedAlgorithm ("key derivation: " ++ kdfUri))

/-- The secret of the recipient. -/
def recipientSecret (lib : EncLibs) (ctx : EncContext) (agreement originatorKeyInfo : Node)
    (agreementAlg : String) : Except Error ByteArray :=
  if agreementAlg = Algorithm.ECDH_ES then do
    let originatorPublic ← extractEcPublicKeyBytes lib originatorKeyInfo
    let recipient ← resolveRecipientKey ctx.keysManager agreement
    ecdhSecret lib recipient originatorPublic "recipient key is not an EC private key"
  else if agreementAlg = Algorithm.DH_ES then do
    let originatorPublic ← extractDhPublicKeyFromXml lib originatorKeyInfo
    let recipient ← resolveRecipientKey ctx.keysManager agreement
    match recipient.data with
    | .dh p _ q (some x) _ => dhSecret lib originatorPublic x p q
    | _ => .error (.key "recipient key is not a DH private key")
  else if agreementAlg = Algorithm.X25519 then do
    let originatorPublic ← extractEcPublicKeyBytes lib originatorKeyInfo
    if originatorPublic.size ≠ 32 then
      .error (.key ("X25519 public key must be 32 bytes, got "
        ++ toString originatorPublic.size))
    else do
      let recipient ← resolveRecipientKey ctx.keysManager agreement
      match recipient.data with
      | .x25519 (some priv) _ => lib.ecdhX25519 originatorPublic priv
      | _ => .error (.key "recipient key is not an X25519 private key")
  else .error (.unsupportedAlgorithm ("key agreement: " ++ agreementAlg))

/-- `resolve_agreement_method_kek`. -/
def resolveAgreementMethodKek (lib : EncLibs) (ctx : EncContext) (encKey : Node) (kekLen : Nat) :
    Except Error (Option ByteArray) :=
  match agreementMethod? encKey with
  | none => .ok none
  | some agreement => do
      let agreementAlg := (attributeOf lib.toUppsala agreement "Algorithm").getD ""
      let originatorKeyInfo ←
        required (agreement.findChildElement Ns.ENC "OriginatorKeyInfo") "OriginatorKeyInfo"
      let secret ← recipientSecret lib ctx agreement originatorKeyInfo agreementAlg
      let kek ← agreedKey lib agreement secret kekLen true
      .ok (some kek)

/-- The secret of the originator. -/
def originatorSecret (lib : EncLibs) (originator recipient : Key) (agreementAlg : String) :
    Except Error ByteArray :=
  if agreementAlg = Algorithm.ECDH_ES then do
    let recipientPublic ← bytesOr (recipient.ecPublicKeyBytes lib)
      (.key "recipient key has no EC public key bytes")
    ecdhSecret lib originator recipientPublic "originator key is not an EC private key"
  else if agreementAlg = Algorithm.DH_ES then
    match originator.data, recipient.data with
    | .dh p _ q (some x) _, .dh _ _ _ _ recipientPublic => dhSecret lib recipientPublic x p q
    | _, _ => .error (.key "originator must be DH private key and recipient DH public key")
  else .error (.unsupportedAlgorithm ("key agreement: " ++ agreementAlg))

/-- `resolve_agreement_method_encrypt`. -/
def resolveAgreementMethodEncrypt (lib : EncLibs) (ctx : EncContext) (encKey : Node)
    (kekLen : Nat) : Except Error (Option ByteArray) :=
  match agreementMethod? encKey with
  | none => .ok none
  | some agreement => do
      let agreementAlg := (attributeOf lib.toUppsala agreement "Algorithm").getD ""
      let originator ← resolveOriginatorKey ctx.keysManager agreement
      let recipient ← resolveRecipientPublicKey ctx.keysManager agreement
      let secret ← originatorSecret lib originator recipient agreementAlg
      let kek ← agreedKey lib agreement secret kekLen false
      .ok (some kek)

end Bergshamra
