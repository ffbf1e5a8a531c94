import Bergshamra.Transforms.Pipeline

/-!
# Keys

`key.rs` and `manager.rs`. The key types of the cryptographic crates are only
passed around here; a `KeyBlob` stands for such a value by its encoding.
-/

namespace Bergshamra

/-- A key type of a cryptographic crate, by its encoding. -/
abbrev KeyBlob := ByteArray

/-- `PqAlgorithm`. -/
inductive PqAlgorithm where
  | mlDsa44
  | mlDsa65
  | mlDsa87
  | slhDsaSha2_128f
  | slhDsaSha2_128s
  | slhDsaSha2_192f
  | slhDsaSha2_192s
  | slhDsaSha2_256f
  | slhDsaSha2_256s
deriving DecidableEq

/-- `PqAlgorithm::name`. -/
def PqAlgorithm.name : PqAlgorithm → String
  | .mlDsa44 => "ML-DSA-44"
  | .mlDsa65 => "ML-DSA-65"
  | .mlDsa87 => "ML-DSA-87"
  | .slhDsaSha2_128f => "SLH-DSA-SHA2-128f"
  | .slhDsaSha2_128s => "SLH-DSA-SHA2-128s"
  | .slhDsaSha2_192f => "SLH-DSA-SHA2-192f"
  | .slhDsaSha2_192s => "SLH-DSA-SHA2-192s"
  | .slhDsaSha2_256f => "SLH-DSA-SHA2-256f"
  | .slhDsaSha2_256s => "SLH-DSA-SHA2-256s"

inductive KeyData where
  | rsa (priv : Option KeyBlob) (pub : KeyBlob)
  | ecP256 (priv : Option KeyBlob) (pub : KeyBlob)
  | ecP384 (priv : Option KeyBlob) (pub : KeyBlob)
  | ecP521 (priv : Option KeyBlob) (pub : KeyBlob)
  | dsa (priv : Option KeyBlob) (pub : KeyBlob)
  | dh (p g : ByteArray) (q privateKey : Option ByteArray) (publicKey : ByteArray)
  | ed25519 (priv : Option KeyBlob) (pub : KeyBlob)
  | x25519 (priv : Option ByteArray) (pub : ByteArray)
  | hmac (k : ByteArray)
  | aes (k : ByteArray)
  | des3 (k : ByteArray)
  | postQuantum (algorithm : PqAlgorithm) (privateDer : Option ByteArray) (publicDer : ByteArray)
deriving DecidableEq

/-- `KeyData::algorithm_name`. -/
def KeyData.algorithmName : KeyData → String
  | .rsa _ _ => "RSA"
  | .ecP256 _ _ => "EC-P256"
  | .ecP384 _ _ => "EC-P384"
  | .ecP521 _ _ => "EC-P521"
  | .dsa _ _ => "DSA"
  | .dh _ _ _ _ _ => "DH"
  | .ed25519 _ _ => "Ed25519"
  | .x25519 _ _ => "X25519"
  | .hmac _ => "HMAC"
  | .aes _ => "AES"
  | .des3 _ => "3DES"
  | .postQuantum algorithm _ _ => algorithm.name

inductive KeyUsage where
  | sign
  | verify
  | encrypt
  | decrypt
  | any
deriving DecidableEq

structure Key where
  name : Option String
  data : KeyData
  usage : KeyUsage
  /-- The certificate chain, DER-encoded. -/
  x509Chain : List ByteArray

/-- `Key::new`. -/
def Key.new (data : KeyData) (usage : KeyUsage) : Key := ⟨none, data, usage, []⟩

/-- `SigningKey`. -/
inductive SigningKey where
  | rsa (k : KeyBlob)
  | rsaPublic (k : KeyBlob)
  | ecP256 (k : KeyBlob)
  | ecP256Public (k : KeyBlob)
  | ecP384 (k : KeyBlob)
  | ecP384Public (k : KeyBlob)
  | ecP521 (k : KeyBlob)
  | ecP521Public (k : KeyBlob)
  | dsa (k : KeyBlob)
  | dsaPublic (k : KeyBlob)
  | ed25519 (k : KeyBlob)
  | ed25519Public (k : KeyBlob)
  | hmac (k : ByteArray)
  | postQuantum (algorithm : PqAlgorithm) (privateDer : Option ByteArray) (publicDer : ByteArray)

/-- `Key::to_signing_key`. -/
def Key.toSigningKey (k : Key) : Option SigningKey :=
  match k.data with
  | .rsa (some priv) _ => some (.rsa priv)
  | .rsa none pub => some (.rsaPublic pub)
  | .ecP256 (some priv) _ => some (.ecP256 priv)
  | .ecP256 none pub => some (.ecP256Public pub)
  | .ecP384 (some priv) _ => some (.ecP384 priv)
  | .ecP384 none pub => some (.ecP384Public pub)
  | .ecP521 (some priv) _ => some (.ecP521 priv)
  | .ecP521 none pub => some (.ecP521Public pub)
  | .dsa (some priv) _ => some (.dsa priv)
  | .dsa none pub => some (.dsaPublic pub)
  | .ed25519 (some priv) _ => some (.ed25519 priv)
  | .ed25519 none pub => some (.ed25519Public pub)
  | .hmac k => some (.hmac k)
  | .postQuantum algorithm privateDer publicDer => some (.postQuantum algorithm privateDer publicDer)
  | .dh _ _ _ _ _ | .x25519 _ _ | .aes _ | .des3 _ => none

/-- `Key::symmetric_key_bytes`. -/
def Key.symmetricKeyBytes (k : Key) : Option ByteArray :=
  match k.data with
  | .hmac k | .aes k | .des3 k => some k
  | .rsa _ _ | .ecP256 _ _ | .ecP384 _ _ | .ecP521 _ _ | .dsa _ _ | .dh _ _ _ _ _ | .ed25519 _ _
  | .x25519 _ _ | .postQuantum _ _ _ => none

/-- `Key::rsa_private_key`. -/
def Key.rsaPrivateKey (k : Key) : Option KeyBlob :=
  match k.data with
  | .rsa priv _ => priv
  | _ => none

/-- `Key::rsa_public_key`. -/
def Key.rsaPublicKey (k : Key) : Option KeyBlob :=
  match k.data with
  | .rsa _ pub => some pub
  | _ => none

structure KeysManager where
  keys : List Key
  trustedCerts : List ByteArray
  untrustedCerts : List ByteArray
  crls : List ByteArray

namespace KeysManager

/-- `find_by_name`. -/
def findByName (m : KeysManager) (name : String) : Option Key :=
  m.keys.find? (fun k => k.name == some name)

/-- `find_aes_by_size`. -/
def findAesBySize (m : KeysManager) (size : Nat) : Option Key :=
  m.keys.find? (fun k =>
    match k.data with
    | .aes bytes => bytes.size == size
    | _ => false)

/-- `find_rsa`. -/
def findRsa (m : KeysManager) : Option Key :=
  m.keys.find? (fun k =>
    match k.data with
    | .rsa _ _ => true
    | _ => false)

/-- `find_rsa_private`. -/
def findRsaPrivate (m : KeysManager) : Option Key :=
  m.keys.find? (fun k => k.rsaPrivateKey.isSome)

/-- `find_aes`. -/
def findAes (m : KeysManager) : Option Key :=
  m.keys.find? (fun k =>
    match k.data with
    | .aes _ => true
    | _ => false)

/-- `find_des3`. -/
def findDes3 (m : KeysManager) : Option Key :=
  m.keys.find? (fun k =>
    match k.data with
    | .des3 _ => true
    | _ => false)

/-- `find_dh`. -/
def findDh (m : KeysManager) : Option Key :=
  m.keys.find? (fun k =>
    match k.data with
    | .dh _ _ _ _ _ => true
    | _ => false)

/-- `find_x25519`. -/
def findX25519 (m : KeysManager) : Option Key :=
  m.keys.find? (fun k =>
    match k.data with
    | .x25519 _ _ => true
    | _ => false)

/-- `find_ec_p256`. -/
def findEcP256 (m : KeysManager) : Option Key :=
  m.keys.find? (fun k =>
    match k.data with
    | .ecP256 _ _ => true
    | _ => false)

/-- `find_ec_p384`. -/
def findEcP384 (m : KeysManager) : Option Key :=
  m.keys.find? (fun k =>
    match k.data with
    | .ecP384 _ _ => true
    | _ => false)

/-- `find_ec_p521`. -/
def findEcP521 (m : KeysManager) : Option Key :=
  m.keys.find? (fun k =>
    match k.data with
    | .ecP521 _ _ => true
    | _ => false)

/-- `first_key`. -/
def firstKey (m : KeysManager) : Except Error Key :=
  match m.keys with
  | k :: _ => .ok k
  | [] => .error (.keyNotFound "no keys in manager")

end KeysManager

/-! ## Certificates -/

/-- What is read of a parsed certificate. -/
structure Certificate where
  /-- The subject, DER-encoded. -/
  subject : ByteArray
  /-- The issuer, DER-encoded. -/
  issuer : ByteArray
  /-- The bytes of the serial number. -/
  serialNumber : ByteArray
  /-- Extensions: the identifier in dotted form, and the value. -/
  extensions : List (String × ByteArray)
  /-- The SubjectPublicKeyInfo, DER-encoded. -/
  subjectPublicKeyInfo : ByteArray
  /-- The identifier of the public key's algorithm, in dotted form. -/
  algorithmOid : String
  notBefore : Nat
  notAfter : Nat

/-- An entry of a revocation list. -/
structure RevokedCert where
  serialNumber : ByteArray
  revocationDate : Nat

/-- What the key code takes from other crates. Points in time are seconds. -/
structure KeyLibs extends TransformLibs where
  /-- `Certificate::from_der`. -/
  parseCertificate : ByteArray → Except String Certificate
  /-- `BasicConstraints::from_der`, the flag `ca`. -/
  basicConstraintsCa : ByteArray → Option Bool
  /-- The decoders that `load_x509_cert_der` tries on a SubjectPublicKeyInfo. -/
  certKey : ByteArray → Option KeyData
  /-- The decoders that `load_spki_der` tries. -/
  spkiKey : ByteArray → Option KeyData
  /-- The decoders for one algorithm that a RetrievalMethod uses, `none` where they fail. -/
  retrievedKey : Certificate → Option KeyData
  /-- `RsaPublicKey::new` of modulus and exponent. -/
  rsaPublicKey : ByteArray → ByteArray → Except String KeyBlob
  /-- `dsa::VerifyingKey::from_components` of p, q, g and y. -/
  dsaPublicKey : ByteArray → ByteArray → ByteArray → ByteArray → Except String KeyBlob
  /-- The key of an encoded point of a curve given by its URN. -/
  ecPublicKey : String → ByteArray → Except String KeyBlob
  /-- `CertificateList::from_der`: the revoked certificates, if there are any. -/
  parseCrl : ByteArray → Except String (Option (List RevokedCert))
  /-- `TrustStore::add_der_certificate`: the error, if it fails. -/
  addTrusted : ByteArray → Except String Unit
  /-- `TrustStore::contains_der`. -/
  trustContains : List ByteArray → ByteArray → Bool
  /-- `verify_certificate_signature_with_policy` of a certificate by itself. -/
  verifySelfSigned : Certificate → Except String Unit
  /-- `build_chain_from_pool_with_policy`, with the anchors of a trust store. -/
  buildChain : Certificate → List Certificate → List ByteArray → Except String (List Certificate)
  /-- `TrustStore::verify_chain`, at a time if one is given. -/
  verifyChain : List ByteArray → List Certificate → Option Nat → Except String Unit
  /-- `der::DateTime::new` of year, month, day, hour, minute and second. -/
  dateTime : Nat → Nat → Nat → Nat → Nat → Nat → Except String Nat
  /-- `SystemTime::now`, converted. -/
  now : Except Error Nat

end Bergshamra
