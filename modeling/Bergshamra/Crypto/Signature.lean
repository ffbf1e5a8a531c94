import Bergshamra.Keys.Key

/-!
# Signature algorithms

`sign.rs` of the crypto crate: which algorithm a SignatureMethod names. HMAC is
the one algorithm with a comparison of its own; the others verify with another
crate's primitive, and a truncated signature only if it has the full length.
-/

namespace Bergshamra

/-- The two operations of a primitive. -/
structure SignaturePrimitive where
  sign : SigningKey → ByteArray → Except Error ByteArray
  verify : SigningKey → ByteArray → ByteArray → Except Error Bool

structure SignatureAlgorithm extends SignaturePrimitive where
  verifyTruncated : SigningKey → ByteArray → ByteArray → Nat → Except Error Bool

/-- What the algorithms take from other crates; hashes are given by the URI of the HMAC. -/
structure SignatureLibs where
  computeHmac : String → ByteArray → ByteArray → ByteArray
  constantTimeEq : ByteArray → ByteArray → Bool
  hmacVerifyTruncated : String → ByteArray → ByteArray → ByteArray → Nat → Bool
  /-- The algorithms other than HMAC, with the context string. -/
  primitive : String → Option ByteArray → Except Error SignaturePrimitive
  /-- The feature `legacy-algorithms`. -/
  legacyAlgorithms : Bool

/-- `hmac_hash_output_bits`. -/
def hmacHashOutputBits (uri : String) : Option Nat :=
  if uri = Algorithm.HMAC_SHA1 then some 160
  else if uri = Algorithm.HMAC_SHA224 then some 224
  else if uri = Algorithm.HMAC_SHA256 then some 256
  else if uri = Algorithm.HMAC_SHA384 then some 384
  else if uri = Algorithm.HMAC_SHA512 then some 512
  else if uri = Algorithm.HMAC_MD5 then some 128
  else if uri = Algorithm.HMAC_RIPEMD160 then some 160
  else none

/-- `is_hmac_algorithm`. -/
def isHmacAlgorithm (uri : String) : Bool := (hmacHashOutputBits uri).isSome

/-- `is_pq_algorithm`. -/
def isPqAlgorithm (uri : String) : Bool :=
  [Algorithm.ML_DSA_44, Algorithm.ML_DSA_65, Algorithm.ML_DSA_87, Algorithm.SLH_DSA_SHA2_128F,
    Algorithm.SLH_DSA_SHA2_128S, Algorithm.SLH_DSA_SHA2_192F, Algorithm.SLH_DSA_SHA2_192S,
    Algorithm.SLH_DSA_SHA2_256F, Algorithm.SLH_DSA_SHA2_256S].contains uri

/-- The key of a MAC. -/
def hmacKey : SigningKey → Except Error ByteArray
  | .hmac k => .ok k
  | _ => .error (.key "HMAC key required")

/-- `HmacSign`. -/
def hmacSign (lib : SignatureLibs) (uri : String) : SignatureAlgorithm where
  sign key data := (hmacKey key).map (fun k => lib.computeHmac uri k data)
  verify key data sig :=
    (hmacKey key).map (fun k => lib.constantTimeEq (lib.computeHmac uri k data) sig)
  verifyTruncated key data sig expectedLen :=
    (hmacKey key).map (fun k => lib.hmacVerifyTruncated uri k data sig expectedLen)

/-- The default `verify_truncated`. -/
def SignaturePrimitive.toAlgorithm (p : SignaturePrimitive) : SignatureAlgorithm where
  toSignaturePrimitive := p
  verifyTruncated key data sig expectedLen :=
    if sig.size = expectedLen then p.verify key data sig else .ok false

/-- Is the algorithm compiled in? -/
def hmacSupported (lib : SignatureLibs) (uri : String) : Bool :=
  isHmacAlgorithm uri
    && (lib.legacyAlgorithms || !(uri == Algorithm.HMAC_MD5 || uri == Algorithm.HMAC_RIPEMD160))

/-- `from_uri_with_context`. -/
def fromUriWithContext (lib : SignatureLibs) (uri : String) (context : Option ByteArray) :
    Except Error SignatureAlgorithm :=
  if hmacSupported lib uri then .ok (hmacSign lib uri)
  else if isHmacAlgorithm uri then .error (.unsupportedAlgorithm ("signature algorithm: " ++ uri))
  else (lib.primitive uri context).map SignaturePrimitive.toAlgorithm

end Bergshamra
