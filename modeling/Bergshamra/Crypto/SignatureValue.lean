import Bergshamra.Core
import Bergshamra.Lib.BigEndian
import Bergshamra.Lib.Slices

/-!
# Signature values

`sign.rs` of the crypto crate: the bytes of a SignatureValue for ECDSA and DSA,
which are `r` and `s` one after the other. The types of the curves' crates stand
for their two numbers; how a pair of numbers is checked, and how DER is read, is
those crates' own.
-/

namespace Bergshamra

/-- What a slice that may fail makes of a function. -/
def orPanics {α : Type} : Option α → Except Error α
  | some a => .ok a
  | none => .error .panics

/-! ## ECDSA -/

inductive EcdsaCurve where
  | p256
  | p384
  | p521
deriving DecidableEq, Repr

namespace EcdsaCurve

/-- `FIELD`. -/
def field : EcdsaCurve → Nat
  | .p256 => 32
  | .p384 => 48
  | .p521 => 66

def name : EcdsaCurve → String
  | .p256 => "P-256"
  | .p384 => "P-384"
  | .p521 => "P-521"

end EcdsaCurve

/-- What the crates of the curves do. -/
structure EcdsaLibs where
  /-- `Signature::from_scalars`. -/
  fromScalars : EcdsaCurve → List UInt8 → List UInt8 → Except String (Nat × Nat)
  /-- `Signature::from_der`. -/
  fromDer : EcdsaCurve → List UInt8 → Except String (Nat × Nat)
  /-- `Signature::split_bytes`. -/
  splitBytes : EcdsaCurve → Nat × Nat → List UInt8 × List UInt8

/-- One turn of the loop of `normalize_raw_ecdsa`: a component without its leading zeros is put at
the end of its place. -/
def placeComponent (fieldSize : Nat) (out component : List UInt8) (i : Nat) :
    Except Error (List UInt8) :=
  let trimmed :=
    match component.findIdx? (· != 0) with
    | some pos => component.drop pos
    | none => component.drop (component.length - 1)
  if trimmed.length > fieldSize then
    .error (.crypto ("ECDSA component " ++ (if i = 0 then "r" else "s") ++ " too large: "
      ++ toString trimmed.length ++ " bytes (field size " ++ toString fieldSize ++ ")"))
  else
    let offset := i * fieldSize + fieldSize - trimmed.length
    orPanics (Slices.copy? out offset (offset + trimmed.length) trimmed)

/-- `normalize_raw_ecdsa`. -/
def normalizeRawEcdsa (sigBytes : List UInt8) (fieldSize : Nat) : Except Error (List UInt8) :=
  if sigBytes.length % 2 ≠ 0 then
    .error (.crypto ("ECDSA signature has odd length " ++ toString sigBytes.length
      ++ ", cannot split into r||s"))
  else do
    let half := sigBytes.length / 2
    let out ← placeComponent fieldSize (List.replicate (fieldSize * 2) 0) (sigBytes.take half) 0
    placeComponent fieldSize out (sigBytes.drop half) 1

/-- The two halves as scalars. -/
def fromHalves (lib : EcdsaLibs) (curve : EcdsaCurve) (bytes : List UInt8) :
    Except Error (Nat × Nat) :=
  match lib.fromScalars curve (bytes.take curve.field) (bytes.drop curve.field) with
  | .ok sig => .ok sig
  | .error e => .error (.crypto ("invalid " ++ curve.name ++ " signature: " ++ e))

/-- What `xmldsig_to_p256`, `xmldsig_to_p384` and `xmldsig_to_p521` do. -/
def xmldsigToEcdsa (lib : EcdsaLibs) (curve : EcdsaCurve) (sigBytes : List UInt8) :
    Except Error (Nat × Nat) :=
  if sigBytes.length = curve.field * 2 then fromHalves lib curve sigBytes
  else if sigBytes.head? = some 0x30 then
    match lib.fromDer curve sigBytes with
    | .ok sig => .ok sig
    | .error e => .error (.crypto ("invalid " ++ curve.name ++ " DER signature: " ++ e))
  else do
    let normalized ← normalizeRawEcdsa sigBytes curve.field
    fromHalves lib curve normalized

/-- `xmldsig_to_p256`. -/
def xmldsigToP256 (lib : EcdsaLibs) (sigBytes : List UInt8) : Except Error (Nat × Nat) :=
  xmldsigToEcdsa lib .p256 sigBytes

/-- `xmldsig_to_p384`. -/
def xmldsigToP384 (lib : EcdsaLibs) (sigBytes : List UInt8) : Except Error (Nat × Nat) :=
  xmldsigToEcdsa lib .p384 sigBytes

/-- `xmldsig_to_p521`. -/
def xmldsigToP521 (lib : EcdsaLibs) (sigBytes : List UInt8) : Except Error (Nat × Nat) :=
  xmldsigToEcdsa lib .p521 sigBytes

/-- `p256_to_xmldsig`, `p384_to_xmldsig` and `p521_to_xmldsig`. -/
def ecdsaToXmldsig (lib : EcdsaLibs) (curve : EcdsaCurve) (sig : Nat × Nat) : List UInt8 :=
  (lib.splitBytes curve sig).1 ++ (lib.splitBytes curve sig).2

/-! ## DSA -/

/-- What the crates `dsa` and `num-bigint-dig` do; a `BigUint` is its number. -/
structure DsaLibs where
  /-- `BigUint::bits`. -/
  bits : Nat → Nat
  /-- `BigUint::to_bytes_be`. -/
  toBytesBe : Nat → List UInt8
  /-- `BigUint::from_bytes_be`. -/
  fromBytesBe : List UInt8 → Nat
  /-- `Signature::from_components`. -/
  fromComponents : Nat → Nat → Except String (Nat × Nat)

/-- `bits().div_ceil(8)`. -/
def qLen (lib : DsaLibs) (q : Nat) : Nat := (lib.bits q + 7) / 8

/-- Right-align a number in its half of the output. -/
def rightAlign (out : List UInt8) (half qLen : Nat) (bytes : List UInt8) :
    Except Error (List UInt8) := do
  let last ← orPanics (Slices.slice? bytes (bytes.length - qLen) bytes.length)
  orPanics (Slices.copy? out (half * qLen + (qLen - bytes.length)) (half * qLen + qLen) last)

/-- `dsa_sig_to_xmldsig`, with the order of the subgroup. -/
def dsaSigToXmldsig (lib : DsaLibs) (q : Nat) (sig : Nat × Nat) : Except Error (List UInt8) := do
  let out := List.replicate (qLen lib q * 2) 0
  let out ← rightAlign out 0 (qLen lib q) (lib.toBytesBe sig.1)
  rightAlign out 1 (qLen lib q) (lib.toBytesBe sig.2)

/-- `xmldsig_to_dsa`. -/
def xmldsigToDsa (lib : DsaLibs) (q : Nat) (rs : List UInt8) : Except Error (Nat × Nat) :=
  if rs.length ≠ qLen lib q * 2 then
    .error (.crypto ("DSA signature must be " ++ toString (qLen lib q * 2) ++ " bytes (2 * q_len="
      ++ toString (qLen lib q) ++ "), got " ++ toString rs.length))
  else
    match lib.fromComponents (lib.fromBytesBe (rs.take (qLen lib q)))
        (lib.fromBytesBe (rs.drop (qLen lib q))) with
    | .ok sig => .ok sig
    | .error e => .error (.crypto ("invalid DSA signature: " ++ e))

end Bergshamra
