import Bergshamra.Keys.Key
import Bergshamra.Xml.XPath
import Mathlib.Data.Nat.Digits.Defs

/-!
# Reading KeyInfo

`keyinfo.rs`: the keys that a KeyInfo element carries, and the keys of the
manager that it names. Texts are read here with `textContentDeep`, whatever
lies between their pieces.
-/

namespace Bergshamra

/-! ## Elements -/

/-- The first child element with this local name, in any namespace. -/
def Node.findLocalNamed (n : Node) (localName : String) : Option Node :=
  n.children.find? (fun c : Node => c.element?.any (fun e => e.name.localName == localName))

/-- Elements of the signature namespace, or of none. -/
def Node.isDsigOrPlain (n : Node) (localName : String) : Bool :=
  n.isNamed Ns.DSIG localName || n.isNamed "" localName

/-- An element's text without white space, decoded. -/
def decodedContent (lib : TransformLibs) (n : Node) : Except String ByteArray :=
  lib.base64Decode (withoutWhitespace (trimStr n.textContentDeep))

/-! ## Numbers -/

def hexDigit (c : Char) : Nat :=
  if c.isDigit then c.toNat - '0'.toNat
  else if 'a' ≤ c then c.toNat - 'a'.toNat + 10
  else c.toNat - 'A'.toNat + 10

def isHexDigit (c : Char) : Bool :=
  c.isDigit || ('a' ≤ c && c ≤ 'f') || ('A' ≤ c && c ≤ 'F')

/-- The pairs of hex digits; nothing where the last slice is past the end. -/
def hexPairs : List Char → Option (List UInt8)
  | [] => some []
  | [_] => none
  | a :: b :: s => (hexPairs s).map (UInt8.ofNat (16 * hexDigit a + hexDigit b) :: ·)

/-- The text of the error for a value that is neither base64 nor hex. -/
def invalidSymbol (clean : List Char) : Option String :=
  (Text.splitBytes (min (String.ofList clean).utf8ByteSize 20) clean).map (fun p =>
    "Invalid symbol at position 0 for " ++ String.ofList p.1)

/-- `decode_crypto_binary`; nothing where a slice fails. -/
def decodeCryptoBinary (lib : TransformLibs) (text : String) : Option (Except String ByteArray) :=
  let clean := withoutWhitespace (trimStr text)
  if clean = "" then some (.error "empty value")
  else
    match lib.base64Decode clean with
    | .ok bytes => some (.ok bytes)
    | .error _ =>
        if clean.utf8ByteSize ≥ 2 ∧ clean.toList.all isHexDigit then
          (hexPairs clean.toList).map (fun bytes => .ok ⟨bytes.toArray⟩)
        else (invalidSymbol clean.toList).map .error

/-- A number in the child element with this name. -/
def cryptoBinary (lib : TransformLibs) (parent : Node) (localName : String) :
    Except Error ByteArray :=
  match parent.findLocalNamed localName with
  | none => .error (.missingElement localName)
  | some n =>
      match decodeCryptoBinary lib n.textContentDeep with
      | none => .error .panics
      | some (.error e) => .error (.base64 (localName ++ ": " ++ e))
      | some (.ok bytes) => .ok bytes

/-! ## KeyValue -/

/-- `parse_rsa_key_value`. Both elements are looked for before either is decoded. -/
def parseRsaKeyValue (lib : KeyLibs) (keyValue : Node) : Except Error Key :=
  match keyValue.findChildElement Ns.DSIG "RSAKeyValue" with
  | none => .error (.missingElement "RSAKeyValue")
  | some rsaKv =>
      if rsaKv.findLocalNamed "Modulus" = none then .error (.missingElement "Modulus")
      else if rsaKv.findLocalNamed "Exponent" = none then .error (.missingElement "Exponent")
      else do
        let modulus ← cryptoBinary lib.toTransformLibs rsaKv "Modulus"
        let exponent ← cryptoBinary lib.toTransformLibs rsaKv "Exponent"
        match lib.rsaPublicKey modulus exponent with
        | .error e => .error (.key ("invalid RSA public key: " ++ e))
        | .ok pub => .ok (.new (.rsa none pub) .verify)

/-- `decode_elem` of `parse_dsa_key_value`. -/
def decodeElem (lib : TransformLibs) (dsaKv : Node) (name : String) : Except Error ByteArray :=
  match dsaKv.findLocalNamed name with
  | none => .error (.missingElement name)
  | some n =>
      match decodedContent lib n with
      | .error e => .error (.base64 (name ++ ": " ++ e))
      | .ok bytes => .ok bytes

/-- `parse_dsa_key_value`. -/
def parseDsaKeyValue (lib : KeyLibs) (keyValue : Node) : Except Error Key :=
  match keyValue.findChildElement Ns.DSIG "DSAKeyValue" with
  | none => .error (.missingElement "DSAKeyValue")
  | some dsaKv => do
      let p ← decodeElem lib.toTransformLibs dsaKv "P"
      let q ← decodeElem lib.toTransformLibs dsaKv "Q"
      let g ← decodeElem lib.toTransformLibs dsaKv "G"
      let y ← decodeElem lib.toTransformLibs dsaKv "Y"
      match lib.dsaPublicKey p q g y with
      | .error e => .error (.key e)
      | .ok pub => .ok (.new (.dsa none pub) .verify)

/-- The key of a point on the curve. -/
def ecKeyData (lib : KeyLibs) (curveUri : String) (point : ByteArray) : Except Error KeyData :=
  let build (mk : KeyBlob → KeyData) : Except Error KeyData :=
    match lib.ecPublicKey curveUri point with
    | .error e => .error (.key e)
    | .ok pub => .ok (mk pub)
  if curveUri = "urn:oid:1.2.840.10045.3.1.7" then build (.ecP256 none)
  else if curveUri = "urn:oid:1.3.132.0.34" then build (.ecP384 none)
  else if curveUri = "urn:oid:1.3.132.0.35" then build (.ecP521 none)
  else .error (.unsupportedAlgorithm ("EC curve: " ++ curveUri))

/-- `replace(['\n', '\r', ' '], "")` of a trimmed text. -/
def withoutLineBreaks (s : String) : String :=
  String.ofList ((Text.trim s.toList).filter (fun c => c != '\n' && c != '\r' && c != ' '))

/-- `parse_ec_key_value`. -/
def parseEcKeyValue (lib : KeyLibs) (keyValue : Node) : Except Error Key :=
  match keyValue.children.find? (fun c : Node =>
      c.isNamed Ns.DSIG11 "ECKeyValue" || c.isNamed Ns.DSIG "ECKeyValue") with
  | none => .error (.missingElement "ECKeyValue")
  | some ecKv =>
      match ecKv.findLocalNamed "NamedCurve" with
      | none => .error (.missingElement "NamedCurve")
      | some namedCurve =>
          match namedCurve.element?.bind (fun e => lib.getAttribute e "URI") with
          | none => .error (.missingAttribute "URI on NamedCurve")
          | some curveUri =>
              match ecKv.findLocalNamed "PublicKey" with
              | none => .error (.missingElement "PublicKey")
              | some publicKey =>
                  match lib.base64Decode (withoutLineBreaks publicKey.textContentDeep) with
                  | .error e => .error (.base64 ("EC PublicKey: " ++ e))
                  | .ok point => (ecKeyData lib curveUri point).map (Key.new · .verify)

/-! ## Certificates -/

/-- `load_x509_cert_der`. -/
def loadX509CertDer (lib : KeyLibs) (data : ByteArray) : Except Error Key :=
  match lib.parseCertificate data with
  | .error e => .error (.key ("failed to parse X.509 certificate: " ++ e))
  | .ok cert =>
      match lib.certKey cert.subjectPublicKeyInfo with
      | none => .error (.key "unsupported public key algorithm in X.509 certificate")
      | some keyData => .ok ⟨none, keyData, .verify, [data]⟩

/-- `load_spki_der`. -/
def loadSpkiDer (lib : KeyLibs) (spki : ByteArray) : Except Error Key :=
  match lib.spkiKey spki with
  | none => .error (.key "unsupported public key algorithm in SPKI DER")
  | some keyData => .ok (.new keyData .verify)

structure ParsedCert where
  cert : Certificate
  /-- The raw DER bytes. -/
  der : ByteArray

/-- `ParsedCert::is_ca`: the first BasicConstraints that can be read decides. -/
def ParsedCert.isCa (lib : KeyLibs) (c : ParsedCert) : Bool :=
  (c.cert.extensions.findSome? (fun ext =>
    if ext.1 == "2.5.29.19" then lib.basicConstraintsCa ext.2 else none)).getD false

/-- `certs[i].is_ca()`. -/
def isCaAt (lib : KeyLibs) (certs : List ParsedCert) (i : Nat) : Bool :=
  certs[i]?.any (fun c => c.isCa lib)

/-- `is_issuer_of_other[i]`. -/
def isIssuerOfOther (certs : List ParsedCert) (i : Nat) : Bool :=
  (List.range certs.length).any (fun j =>
    i != j && (certs[i]?.map (fun c => c.cert.subject)) == (certs[j]?.map (fun c => c.cert.issuer)))

/-- `(0..certs.len()).filter(..)`. -/
def candidates (certs : List ParsedCert) (p : Nat → Bool) : List Nat :=
  (List.range certs.length).filter p

/-- `find_leaf_cert`. -/
def findLeafCert (lib : KeyLibs) (certs : List ParsedCert) : Nat :=
  if certs.length ≤ 1 then 0
  else
    let strategy1 := candidates certs (fun i => !isCaAt lib certs i && !isIssuerOfOther certs i)
    match strategy1 with
    | [i] => i
    | _ =>
        let strategy2 :=
          if strategy1 = [] then candidates certs (fun i => !isIssuerOfOther certs i)
          else strategy1
        match strategy2 with
        | [i] => i
        | _ =>
            let strategy3 :=
              if strategy2 = [] then candidates certs (fun i => !isCaAt lib certs i)
              else strategy2
            -- one candidate or several: the last one
            match strategy3.getLast? with
            | some i => i
            | none => certs.length - 1

/-- The certificates of an X509Data element that decode and parse. -/
def parsedCerts (lib : KeyLibs) (x509Data : Node) : List ParsedCert :=
  (x509Data.children.filter (fun c : Node =>
    c.element?.any (fun e => e.name.localName == "X509Certificate"))).filterMap (fun c : Node =>
      match decodedContent lib.toTransformLibs c with
      | .error _ => none
      | .ok der =>
          match lib.parseCertificate der with
          | .error _ => none
          | .ok cert => some ⟨cert, der⟩)

/-- The certificate that is taken for the leaf. -/
def leafCert (lib : KeyLibs) (x509Data : Node) : Option ParsedCert :=
  (parsedCerts lib x509Data)[findLeafCert lib (parsedCerts lib x509Data)]?

/-- `extract_x509_certificate`: the key of the leaf, with all certificates as its chain. -/
def extractX509Certificate (lib : KeyLibs) (x509Data : Node) : Option Key :=
  match leafCert lib x509Data with
  | none => none
  | some leaf =>
      match loadX509CertDer lib leaf.der with
      | .error _ => none
      | .ok key => some { key with x509Chain := (parsedCerts lib x509Data).map ParsedCert.der }

theorem extractX509Certificate_some {lib : KeyLibs} {x509Data : Node} {key : Key} :
    extractX509Certificate lib x509Data = some key
      ↔ ∃ leaf loaded, leafCert lib x509Data = some leaf ∧ loadX509CertDer lib leaf.der = .ok loaded
        ∧ key = { loaded with x509Chain := (parsedCerts lib x509Data).map ParsedCert.der } := by
  unfold extractX509Certificate
  cases leafCert lib x509Data with
  | none => simp
  | some leaf =>
      cases hl : loadX509CertDer lib leaf.der with
      | error e => simp [hl]
      | ok loaded => simp [hl, eq_comm (a := key)]

/-- `parse_der_encoded_key_value`. -/
def parseDerEncodedKeyValue (lib : KeyLibs) (n : Node) : Option Key :=
  if withoutWhitespace (trimStr n.textContentDeep) = "" then none
  else
    match decodedContent lib.toTransformLibs n with
    | .error _ => none
    | .ok der => (loadSpkiDer lib der).toOption

/-! ## KeyInfo -/

/-- The key of a KeyValue: RSA, then EC, then DSA. -/
def keyOfKeyValue (lib : KeyLibs) (child : Node) : Except Error (Option Key) :=
  orTry (attempt (parseRsaKeyValue lib child))
    (orTry (attempt (parseEcKeyValue lib child)) (attempt (parseDsaKeyValue lib child)))

/-- What one child of a KeyInfo contributes to `extract_key_value`. -/
def extractFromChild (lib : KeyLibs) (child : Node) : Except Error (Option Key) :=
  if child.isDsigOrPlain "KeyValue" then keyOfKeyValue lib child
  else if child.isDsigOrPlain "X509Data" then .ok (extractX509Certificate lib child)
  else if child.isNamed Ns.DSIG11 "DEREncodedKeyValue" then
    .ok (parseDerEncodedKeyValue lib child)
  else .ok none

/-- The first child that contributes a key. -/
def firstExtracted (lib : KeyLibs) : List Node → Except Error (Option Key)
  | [] => .ok none
  | child :: rest => orTry (extractFromChild lib child) (firstExtracted lib rest)

/-- `extract_key_value`. -/
def extractKeyValue (lib : KeyLibs) (keyInfo : Node) : Except Error (Option Key) :=
  firstExtracted lib keyInfo.children

/-- Children that contribute no key are passed over. -/
theorem firstExtracted_append {lib : KeyLibs} {before rest : List Node}
    (h : firstExtracted lib before = .ok none) :
    firstExtracted lib (before ++ rest) = firstExtracted lib rest := by
  induction before with
  | nil => rfl
  | cons child before ih =>
      rw [firstExtracted] at h
      cases hc : extractFromChild lib child with
      | error e => simp [hc, orTry] at h
      | ok found =>
          cases found with
          | some key => simp [hc, orTry] at h
          | none =>
              rw [hc] at h
              rw [List.cons_append, firstExtracted, hc]
              exact ih h

/-! ## Keys of the manager -/

/-- One pass over the decimal digits, least significant first: times `m`, plus `carry`. -/
def carryDigits (m : Nat) : Nat → List Nat → List Nat
  | carry, [] => Nat.digits 10 carry
  | carry, d :: ds => (d * m + carry) % 10 :: carryDigits m ((d * m + carry) / 10) ds

/-- `format_serial_decimal`. -/
def formatSerialDecimal (bytes : List UInt8) : String :=
  if bytes = [] then "0"
  else
    let digits := bytes.foldl (fun result byte =>
      carryDigits 1 byte.toNat (carryDigits 256 0 result)) [0]
    let text := (digits.reverse.map Nat.digitChar).dropWhile (fun c => c == '0')
    if text = [] then "0" else String.ofList text

/-- `find_key_by_serial`. -/
def findKeyBySerial (lib : KeyLibs) (manager : KeysManager) (serialText : String) : Option Key :=
  manager.keys.find? (fun key =>
    match key.x509Chain with
    | [] => false
    | certDer :: _ =>
        match lib.parseCertificate certDer with
        | .error _ => false
        | .ok cert => formatSerialDecimal cert.serialNumber.toList == serialText)

/-- The key that a KeyName names. -/
def keyByKeyName (manager : KeysManager) (child : Node) : Option Key :=
  if child.isNamed Ns.DSIG "KeyName" then
    let name := trimStr child.textContentDeep
    if name = "" then none else manager.findByName name
  else none

/-- The key that an X509IssuerSerial names, by the serial number. -/
def keyByIssuerSerial (lib : KeyLibs) (manager : KeysManager) (issuerSerial : Node) : Option Key :=
  if issuerSerial.element?.any (fun e => e.name.localName == "X509IssuerSerial") then
    let serialText := trimStr
      (((issuerSerial.findLocalNamed "X509SerialNumber").map Node.textContentDeep).getD "")
    if serialText = "" then none else findKeyBySerial lib manager serialText
  else none

/-- The key that an X509Data names. -/
def keyByX509Data (lib : KeyLibs) (manager : KeysManager) (child : Node) : Option Key :=
  if child.isDsigOrPlain "X509Data" then
    child.children.findSome? (keyByIssuerSerial lib manager)
  else none

/-- `resolve_key_info`. The keys in KeyValue elements are parsed and not used. -/
def resolveKeyInfo (lib : KeyLibs) (keyInfo : Node) (manager : KeysManager) : Except Error Key :=
  match keyInfo.children.findSome? (keyByKeyName manager) with
  | some key => .ok key
  | none =>
      match keyInfo.children.findSome? (keyByX509Data lib manager) with
      | some key => .ok key
      | none => do
          let keyValues := keyInfo.children.filter (fun c : Node => c.isDsigOrPlain "KeyValue")
          keyValues.forM (fun c => do let _ ← attempt (parseRsaKeyValue lib c))
          manager.firstKey

end Bergshamra
