import Bergshamra.Enc.Context

/-!
# Derived keys

`resolve_derived_key` and the parameters of the key derivation functions, as
`decrypt.rs` reads them; encryption uses the same functions.
-/

namespace Bergshamra

/-! ## Hexadecimal parameters -/

/-- The value of a hexadecimal digit. -/
def hexDigit? (c : Char) : Option Nat :=
  if c.isDigit then some (c.toNat - '0'.toNat)
  else if 'a'.toNat ≤ c.toNat ∧ c.toNat ≤ 'f'.toNat then some (c.toNat - 'a'.toNat + 10)
  else if 'A'.toNat ≤ c.toNat ∧ c.toNat ≤ 'F'.toNat then some (c.toNat - 'A'.toNat + 10)
  else none

/-- `u8::from_str_radix` of two characters; a plus sign may stand first. -/
def hexPair? (c d : Char) : Option UInt8 :=
  if c = '+' then (hexDigit? d).map UInt8.ofNat
  else (hexDigit? c).bind (fun h => (hexDigit? d).map (fun l => UInt8.ofNat (16 * h + l)))

/-- The slices of two bytes; one that ends inside a character is a fault. -/
def hexBytes (e : Error) : List Char → Except Error (List UInt8)
  | [] => .ok []
  | [c] => if c.utf8Size = 2 then .error e else .error .panics
  | c :: d :: s =>
      if c.utf8Size = 1 ∧ d.utf8Size = 1 then
        match hexPair? c d with
        | none => .error e
        | some b => do
            let bs ← hexBytes e s
            .ok (b :: bs)
      else if c.utf8Size = 2 then .error e
      else .error .panics

/-- `hex_decode`. -/
def hexDecode (s : String) : Except Error ByteArray := do
  let s := Text.trim s.toList
  let hexStr := (Text.stripPrefix? "0x".toList s).getD s
  let even := if (String.ofList hexStr).utf8ByteSize % 2 ≠ 0 then '0' :: hexStr else hexStr
  let bs ← hexBytes (.other ("invalid hex: " ++ String.ofList s)) even
  .ok ⟨bs.toArray⟩

/-- `hex_decode_strip_pad`. -/
def hexDecodeStripPad (s : String) : Except Error ByteArray := do
  let bytes ← hexDecode s
  if bytes.size > 1 then .ok (bytes.extract 1 bytes.size) else .ok bytes

/-- An attribute in hexadecimal; one that does not decode is dropped. -/
def hexAttribute (up : Uppsala) (n : Node) (name : String) : Except Error (Option ByteArray) :=
  match attributeOf up n name with
  | none => .ok none
  | some s => attempt (hexDecodeStripPad s)

/-! ## Parameters -/

/-- `parse_concat_kdf_params`. -/
def parseConcatKdfParams (up : Uppsala) (kdMethod : Node) : Except Error ConcatKdfParams :=
  match kdMethod.findChildElement Ns.ENC11 "ConcatKDFParams" with
  | none => .ok ⟨none, none, none, none⟩
  | some params => do
      let algorithmId ← hexAttribute up params "AlgorithmID"
      let partyUInfo ← hexAttribute up params "PartyUInfo"
      let partyVInfo ← hexAttribute up params "PartyVInfo"
      let digestUri := (params.findChildElement Ns.DSIG "DigestMethod").bind
        (fun dm => attributeOf up dm "Algorithm")
      .ok ⟨digestUri, algorithmId, partyUInfo, partyVInfo⟩

/-- The decoded salt of PBKDF2-params. -/
def pbkdf2Salt (lib : EncLibs) (params : Node) : Except Error ByteArray := do
  let salt ← required (params.findChildElement Ns.ENC11 "Salt") "Salt in PBKDF2-params"
  let specified ← required (salt.findChildElement Ns.ENC11 "Specified") "Specified in Salt"
  match lib.base64Decode (withoutWhitespace (trimmedText specified)) with
  | .ok bytes => .ok bytes
  | .error e => .error (.base64 ("PBKDF2 salt: " ++ e))

/-- `parse_pbkdf2_params`. -/
def parsePbkdf2Params (lib : EncLibs) (kdMethod : Node) (defaultKeyLen : Nat) :
    Except Error Pbkdf2Params := do
  let params ← required (kdMethod.findChildElement Ns.ENC11 "PBKDF2-params") "PBKDF2-params"
  let salt ← pbkdf2Salt lib params
  let iterCount ← required (params.findChildElement Ns.ENC11 "IterationCount")
    "IterationCount in PBKDF2-params"
  let iterationCount ←
    match parseUnsigned? (2 ^ 32 - 1) (trimmedText iterCount).toList with
    | some n => Except.ok n
    | none => .error (.xmlStructure "invalid IterationCount")
  let keyLength :=
    match params.findChildElement Ns.ENC11 "KeyLength" with
    | some kl => (parseUnsigned? (2 ^ 64 - 1) (trimmedText kl).toList).getD defaultKeyLen
    | none => defaultKeyLen
  let prf ← required (params.findChildElement Ns.ENC11 "PRF") "PRF in PBKDF2-params"
  match attributeOf lib.toUppsala prf "Algorithm" with
  | none => .error (.missingAttribute "Algorithm on PRF")
  | some prfUri => .ok ⟨prfUri, salt, iterationCount, keyLength⟩

/-- A child of the HKDF parameters, in their own namespace or in any. -/
def hkdfChild (n : Node) (localName : String) : Option Node :=
  (n.findChildElement Ns.DSIG_MORE localName).or (findChildElementAnyNs n localName)

/-- An optional parameter in Base64; one that is empty or does not decode is dropped. -/
def hkdfBytes (lib : EncLibs) (n : Node) : Option ByteArray :=
  if trimmedText n = "" then none
  else (lib.base64Decode (withoutWhitespace (trimmedText n))).toOption

/-- `parse_hkdf_params`. -/
def parseHkdfParams (lib : EncLibs) (kdMethod : Node) (defaultKeyLen : Nat) :
    Except Error HkdfParams := do
  let params ← required (hkdfChild kdMethod "HKDFParams") "HKDFParams"
  let prfUri := ((hkdfChild params "PRF").bind
    (fun prf => attributeOf lib.toUppsala prf "Algorithm")).getD Algorithm.HMAC_SHA256
  let salt := ((hkdfChild params "Salt").bind (fun salt => hkdfChild salt "Specified")).bind
    (hkdfBytes lib)
  let info := (hkdfChild params "Info").bind (hkdfBytes lib)
  let keyLengthBits := ((hkdfChild params "KeyLength").bind (fun kl =>
    parseUnsigned? (2 ^ 32 - 1) (trimmedText kl).toList)).getD (defaultKeyLen * 8 % 2 ^ 32)
  .ok ⟨some prfUri, salt, info, keyLengthBits⟩

/-! ## DerivedKey -/

/-- The bytes of the master key that a DerivedKey names, or of the first key. -/
def masterKeyBytes (manager : KeysManager) (derivedKey : Node) : Except Error ByteArray :=
  let name := ((derivedKey.findChildElement Ns.ENC11 "MasterKeyName").map trimmedText).getD ""
  if name ≠ "" then
    match manager.findByName name with
    | some key =>
        bytesOr key.symmetricKeyBytes (.key ("master key '" ++ name ++ "' has no symmetric data"))
    | none => .error (.keyNotFound ("master key '" ++ name ++ "' not found"))
  else do
    let key ← manager.firstKey
    bytesOr key.symmetricKeyBytes (.key "no master key for DerivedKey")

/-- `resolve_derived_key`. -/
def resolveDerivedKey (lib : EncLibs) (ctx : EncContext) (derivedKey : Node) (encUri : String) :
    Except Error ByteArray := do
  let master ← masterKeyBytes ctx.keysManager derivedKey
  let kdMethod ← required (derivedKey.findChildElement Ns.ENC11 "KeyDerivationMethod")
    "KeyDerivationMethod"
  match attributeOf lib.toUppsala kdMethod "Algorithm" with
  | none => .error (.missingAttribute "Algorithm on KeyDerivationMethod")
  | some kdAlg =>
      let keyLen := keyLengthForAlgorithm encUri
      if kdAlg = Algorithm.CONCAT_KDF then do
        let params ← parseConcatKdfParams lib.toUppsala kdMethod
        lib.concatKdf master keyLen params
      else if kdAlg = Algorithm.PBKDF2 then do
        let params ← parsePbkdf2Params lib kdMethod keyLen
        lib.pbkdf2Derive master params
      else .error (.unsupportedAlgorithm ("key derivation method: " ++ kdAlg))

end Bergshamra
