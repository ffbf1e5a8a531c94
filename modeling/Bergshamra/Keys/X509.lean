import Bergshamra.Keys.Key

/-!
# Certificate chain validation

`validate_cert_chain`. The trust store, the search for a chain and its
verification are another crate's; what is decided here is which certificates
they are given, and what happens around them.
-/

namespace Bergshamra

/-- `CertValidationConfig`. -/
structure CertValidationConfig where
  trustedCerts : List ByteArray
  untrustedCerts : List ByteArray
  crls : List ByteArray
  verificationTime : Option String
  skipTimeChecks : Bool

/-! ## Time -/

/-- `&s[start..stop]`. -/
def byteSlice (s : List Char) (start stop : Nat) : Except Error (List Char) :=
  match Text.splitBytes start s with
  | none => .error .panics
  | some (_, rest) =>
      match Text.splitBytes (stop - start) rest with
      | some (slice, _) => if start ≤ stop then .ok slice else .error .panics
      | none => .error .panics

/-- `parse` of an unsigned integer type with the largest value `max`. -/
def parseUnsigned? (max : Nat) (s : List Char) : Option Nat :=
  let digits :=
    match s with
    | '+' :: rest => rest
    | _ => s
  if digits = [] ∨ !digits.all Char.isDigit then none
  else
    let n := digits.foldl (fun n d => 10 * n + (d.toNat - '0'.toNat)) 0
    if n ≤ max then some n else none

/-- One field of a time. -/
def timeField (s : List Char) (start stop max : Nat) (msg : String) : Except Error Nat := do
  let slice ← byteSlice s start stop
  match parseUnsigned? max slice with
  | some n => .ok n
  | none => .error (.certificate (msg ++ String.ofList s))

/-- `parse_verification_time`. -/
def parseVerificationTime (lib : KeyLibs) (s : String) : Except Error Nat := do
  let s := Text.trim s.toList
  if (String.ofList s).utf8ByteSize < 19 then
    .error (.certificate ("invalid verification time format: " ++ String.ofList s))
  else do
    let year ← timeField s 0 4 65535 "invalid year in time: "
    let month ← timeField s 5 7 255 "invalid month in time: "
    let day ← timeField s 8 10 255 "invalid day in time: "
    let hour ← timeField s 11 13 255 "invalid hour in time: "
    let min ← timeField s 14 16 255 "invalid minute in time: "
    let sec ← timeField s 17 19 255 "invalid second in time: "
    match lib.dateTime year month day hour min sec with
    | .ok t => .ok t
    | .error e => .error (.certificate ("invalid verification time: " ++ e))

/-- `resolve_verification_time`. -/
def resolveVerificationTime (lib : KeyLibs) (overrideTime : Option String) : Except Error Nat :=
  match overrideTime with
  | some s => parseVerificationTime lib s
  | none => lib.now

/-- `check_cert_time_validity`; the times are not shown in the errors. -/
def checkCertTimeValidity (cert : Certificate) (verifTime : Nat) : Except Error Unit :=
  if verifTime < cert.notBefore then .error (.certificate "certificate is not yet valid")
  else if verifTime > cert.notAfter then .error (.certificate "certificate has expired")
  else .ok ()

/-! ## Revocation -/

/-- `check_crls`. -/
def checkCrls (lib : KeyLibs) (leaf : Certificate) (crls : List ByteArray)
    (verificationTime : Option String) : Except Error Unit := do
  let verifTime ← resolveVerificationTime lib verificationTime
  crls.forM (fun der =>
    match lib.parseCrl der with
    | .error e => .error (.certificate ("failed to parse CRL: " ++ e))
    | .ok none => .ok ()
    | .ok (some revoked) =>
        if revoked.any (fun r =>
            r.serialNumber == leaf.serialNumber && decide (r.revocationDate ≤ verifTime)) then
          .error (.certificate "certificate has been revoked (found in CRL)")
        else .ok ())

/-! ## The chain -/

/-- Add trusted certificates to the store, until one fails. -/
def addTrustedCerts (lib : KeyLibs) (ders : List ByteArray) : Except Error Unit :=
  ders.forM (fun der =>
    match lib.addTrusted der with
    | .ok () => .ok ()
    | .error e => .error (.certificate ("failed to add trusted cert: " ++ e)))

/-- The certificates that parse. -/
def parsedOf (lib : KeyLibs) (ders : List ByteArray) : List Certificate :=
  ders.filterMap (fun der => (lib.parseCertificate der).toOption)

/-- A leaf that is trusted itself has to have signed itself. -/
def checkTrustedLeaf (lib : KeyLibs) (leaf : Certificate) (validationTime : Option Nat) :
    Except Error Unit :=
  match lib.verifySelfSigned leaf with
  | .error e => .error (.certificate ("self-signature verification failed: " ++ e))
  | .ok () =>
      match validationTime with
      | some time => checkCertTimeValidity leaf time
      | none => .ok ()

/-- The check of a leaf by a chain to the trust store. -/
def checkChain (lib : KeyLibs) (leaf : Certificate) (pool : List Certificate)
    (config : CertValidationConfig) (validationTime : Option Nat) : Except Error Unit :=
  match lib.buildChain leaf pool config.trustedCerts with
  | .error e => .error (.certificate ("cannot build certificate chain: " ++ e))
  | .ok chain =>
      match lib.verifyChain config.trustedCerts chain validationTime with
      | .error e => .error (.certificate e)
      | .ok () =>
          if config.crls = [] then .ok ()
          else checkCrls lib leaf config.crls config.verificationTime

/-- `validate_cert_chain`. -/
def validateCertChain (lib : KeyLibs) (leafDer : ByteArray) (additionalCerts : List ByteArray)
    (config : CertValidationConfig) : Except Error Unit :=
  match lib.parseCertificate leafDer with
  | .error e => .error (.certificate ("failed to parse leaf certificate: " ++ e))
  | .ok leaf => do
      addTrustedCerts lib config.trustedCerts
      if config.trustedCerts = [] then .error (.certificate "no trusted certificates available")
      else do
        let pool := parsedOf lib (additionalCerts.filter (fun der => der != leafDer))
          ++ parsedOf lib config.untrustedCerts
        let validationTime ←
          if config.skipTimeChecks then .ok none
          else (resolveVerificationTime lib config.verificationTime).map some
        if lib.trustContains config.trustedCerts leafDer then
          checkTrustedLeaf lib leaf validationTime
        else checkChain lib leaf pool config validationTime

end Bergshamra
