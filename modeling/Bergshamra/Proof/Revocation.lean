import Bergshamra.Dsig.Verify

/-!
# Revocation lists

`check_crls` compares serial numbers in every list it is given, whoever issued
it, and `validate_cert_chain` only comes to it by way of a chain: a leaf that is
trusted itself is accepted before any list is read. The issuer of a list, which
the code does not look at, is a function of the list here.
-/

namespace Bergshamra

section

variable (lib : KeyLibs) (leafDer : ByteArray) (leaf : Certificate)
  (additionalCerts : List ByteArray) (config : CertValidationConfig)

/-- The list has the serial number of the leaf, with a date at or before the time. -/
def ListsSerial (time : Nat) (crl : ByteArray) : Prop :=
  ∃ entries, lib.parseCrl crl = .ok (some entries)
    ∧ ∃ r ∈ entries, r.serialNumber = leaf.serialNumber ∧ r.revocationDate ≤ time

/-- The list can be read at the verification time and does not have the serial number. -/
def Harmless (crl : ByteArray) : Prop :=
  ∃ time, resolveVerificationTime lib config.verificationTime = .ok time
    ∧ (∃ entries, lib.parseCrl crl = .ok entries) ∧ ¬ ListsSerial lib leaf time crl

/-- No list refuses the leaf. -/
def CrlsPass : Prop := ∀ crl ∈ config.crls, Harmless lib leaf config crl

/-- The trusted certificates are in the store, and there are some. -/
def StoreReady : Prop :=
  addTrustedCerts lib config.trustedCerts = .ok () ∧ config.trustedCerts ≠ []

/-- The time at which certificates have to be valid, if it matters. -/
def validationTime : Except Error (Option Nat) :=
  if config.skipTimeChecks then .ok none
  else (resolveVerificationTime lib config.verificationTime).map some

/-- The leaf is one of the trusted certificates, signed by itself and valid at the time. -/
def AcceptedAsTrusted : Prop :=
  StoreReady lib config ∧ ∃ time, validationTime lib config = .ok time
    ∧ lib.trustContains config.trustedCerts leafDer = true
    ∧ checkTrustedLeaf lib leaf time = .ok ()

/-- The certificates that a chain may be built of. -/
def chainPool : List Certificate :=
  parsedOf lib (additionalCerts.filter (fun der => der != leafDer))
    ++ parsedOf lib config.untrustedCerts

/-- The leaf is not trusted itself, and a chain leads from it to a trusted certificate. -/
def ChainVerifies : Prop :=
  StoreReady lib config ∧ ∃ time, validationTime lib config = .ok time
    ∧ lib.trustContains config.trustedCerts leafDer = false
    ∧ ∃ chain, lib.buildChain leaf (chainPool lib leafDer additionalCerts config)
        config.trustedCerts = .ok chain
      ∧ lib.verifyChain config.trustedCerts chain time = .ok ()

/-- Some list of the leaf's issuer has its serial number, with a date at or before the
verification time. -/
def RevokedByIssuer (crlIssuer : ByteArray → Option ByteArray) : Prop :=
  ∃ crl ∈ config.crls, crlIssuer crl = some leaf.issuer
    ∧ ∃ time, resolveVerificationTime lib config.verificationTime = .ok time
      ∧ ListsSerial lib leaf time crl

end

variable {lib : KeyLibs} {leafDer : ByteArray} {leaf : Certificate}
  {additionalCerts : List ByteArray} {config : CertValidationConfig}

/-! ## The lists -/

theorem checkCrls_ok_iff {crls : List ByteArray} {verificationTime : Option String} :
    checkCrls lib leaf crls verificationTime = .ok ()
      ↔ ∃ time, resolveVerificationTime lib verificationTime = .ok time
        ∧ ∀ crl ∈ crls, (∃ entries, lib.parseCrl crl = .ok entries)
          ∧ ¬ ListsSerial lib leaf time crl := by
  rw [checkCrls, bind_eq_ok]
  refine exists_congr fun time => and_congr_right fun _ => ?_
  rw [forM_eq_ok]
  refine forall₂_congr fun crl _ => ?_
  unfold ListsSerial
  cases hp : lib.parseCrl crl with
  | error e => simp
  | ok entries =>
      cases entries with
      | none => simp
      | some revoked =>
          have hany : revoked.any (fun r => r.serialNumber == leaf.serialNumber
              && decide (r.revocationDate ≤ time)) = true
              ↔ ∃ r ∈ revoked, r.serialNumber = leaf.serialNumber ∧ r.revocationDate ≤ time := by
            simp only [List.any_eq_true, Bool.and_eq_true, octets_beq, decide_eq_true_eq]
          by_cases h : revoked.any (fun r => r.serialNumber == leaf.serialNumber
              && decide (r.revocationDate ≤ time)) = true
          · simp only [if_pos h]
            refine ⟨fun h' => (by cases h'), fun h' => ?_⟩
            exact absurd ⟨revoked, rfl, hany.mp h⟩ h'.2
          · simp only [if_neg h, true_iff]
            refine ⟨⟨_, rfl⟩, fun h' => ?_⟩
            obtain ⟨entries, he, hr⟩ := h'
            obtain rfl := Option.some.inj (Except.ok.inj he)
            exact h (hany.mpr hr)

/-- Without lists nothing is checked, the time included. -/
theorem crls_checked_iff :
    (if config.crls = [] then .ok () else checkCrls lib leaf config.crls config.verificationTime)
        = .ok ()
      ↔ CrlsPass lib leaf config := by
  by_cases hnil : config.crls = []
  · rw [if_pos hnil]
    refine iff_of_true rfl fun crl hc => ?_
    rw [hnil] at hc
    cases hc
  · rw [if_neg hnil, checkCrls_ok_iff]
    constructor
    · intro h crl hc
      obtain ⟨time, ht, hall⟩ := h
      exact ⟨time, ht, hall crl hc⟩
    · intro h
      obtain ⟨crl₀, hc₀⟩ := List.exists_mem_of_ne_nil _ hnil
      obtain ⟨time, ht, -⟩ := h crl₀ hc₀
      refine ⟨time, ht, fun crl hc => ?_⟩
      obtain ⟨time', ht', hpass⟩ := h crl hc
      obtain rfl := Except.ok.inj (ht.symm.trans ht')
      exact hpass

/-! ## The verdict -/

/-- The steps of the validation. -/
theorem validateCertChain_eq (hleaf : lib.parseCertificate leafDer = .ok leaf) :
    validateCertChain lib leafDer additionalCerts config = (do
      addTrustedCerts lib config.trustedCerts
      if config.trustedCerts = [] then .error (.certificate "no trusted certificates available")
      else do
        let time ← validationTime lib config
        if lib.trustContains config.trustedCerts leafDer then checkTrustedLeaf lib leaf time
        else checkChain lib leaf (chainPool lib leafDer additionalCerts config) config time) := by
  unfold validateCertChain validationTime
  rw [hleaf]
  by_cases hskip : config.skipTimeChecks = true
  · simp only [if_pos hskip]
    rfl
  · simp only [if_neg hskip]
    rfl

/-- **What is accepted**: a leaf that is trusted itself, without a look at the lists, or one with a
chain that no list refuses. -/
theorem validateCertChain_ok_iff (hleaf : lib.parseCertificate leafDer = .ok leaf) :
    validateCertChain lib leafDer additionalCerts config = .ok ()
      ↔ AcceptedAsTrusted lib leafDer leaf config
        ∨ ChainVerifies lib leafDer leaf additionalCerts config ∧ CrlsPass lib leaf config := by
  rw [validateCertChain_eq hleaf, bind_eq_ok]
  constructor
  · intro h
    obtain ⟨⟨⟩, hadd, h⟩ := h
    by_cases hnil : config.trustedCerts = []
    · rw [if_pos hnil] at h
      cases h
    · rw [if_neg hnil, bind_eq_ok] at h
      obtain ⟨time, ht, h⟩ := h
      by_cases htrust : lib.trustContains config.trustedCerts leafDer = true
      · rw [if_pos htrust] at h
        exact Or.inl ⟨⟨hadd, hnil⟩, time, ht, htrust, h⟩
      · rw [if_neg htrust, checkChain] at h
        split at h
        next => cases h
        next chain hchain =>
          split at h
          next => cases h
          next hverify =>
            exact Or.inr ⟨⟨⟨hadd, hnil⟩, time, ht, Bool.eq_false_iff.mpr htrust, chain, hchain,
              hverify⟩, crls_checked_iff.mp h⟩
  · intro h
    rcases h with ⟨⟨hadd, hnil⟩, time, ht, htrust, h⟩
      | ⟨⟨⟨hadd, hnil⟩, time, ht, htrust, chain, hchain, hverify⟩, hcrls⟩
    · refine ⟨(), hadd, ?_⟩
      rw [if_neg hnil, bind_eq_ok]
      exact ⟨time, ht, by rw [if_pos htrust, h]⟩
    · refine ⟨(), hadd, ?_⟩
      rw [if_neg hnil, bind_eq_ok]
      refine ⟨time, ht, ?_⟩
      rw [if_neg (Bool.eq_false_iff.mp htrust), checkChain, hchain]
      dsimp only
      rw [hverify]
      exact crls_checked_iff.mpr hcrls

/-- An error of a loop is that of a turn. -/
theorem forM_error {ε α : Type} {f : α → Except ε Unit} {l : List α} {e : ε}
    (h : l.forM f = .error e) : ∃ a ∈ l, f a = .error e := by
  induction l with
  | nil => cases h
  | cons a l ih =>
      rw [List.forM] at h
      cases ha : f a with
      | error e' =>
          rw [ha] at h
          exact ⟨a, List.mem_cons_self, ha.trans h⟩
      | ok u =>
          rw [ha] at h
          obtain ⟨b, hb, hbe⟩ := ih h
          exact ⟨b, List.mem_cons_of_mem a hb, hbe⟩

theorem checkTrustedLeaf_not_panics (time : Option Nat) :
    checkTrustedLeaf lib leaf time ≠ .error .panics := by
  intro h
  unfold checkTrustedLeaf checkCertTimeValidity at h
  split at h
  · cases h
  split at h
  · split at h
    · cases h
    split at h
    · cases h
    · cases h
  · cases h

theorem checkChain_not_panics {pool : List Certificate} {time : Option Nat} {t : Nat}
    (htime : resolveVerificationTime lib config.verificationTime = .ok t) :
    checkChain lib leaf pool config time ≠ .error .panics := by
  intro h
  unfold checkChain checkCrls at h
  rw [htime] at h
  split at h
  · cases h
  split at h
  · cases h
  split at h
  · cases h
  · obtain ⟨crl, -, hcrl⟩ := forM_error h
    split at hcrl
    · cases hcrl
    · cases hcrl
    split at hcrl
    · cases hcrl
    · cases hcrl

/-- At a time that can be read the validation does not panic. -/
theorem validateCertChain_not_panics (hleaf : lib.parseCertificate leafDer = .ok leaf) {t : Nat}
    (htime : resolveVerificationTime lib config.verificationTime = .ok t) :
    validateCertChain lib leafDer additionalCerts config ≠ .error .panics := by
  intro h
  rw [validateCertChain_eq hleaf] at h
  have hval : ∃ time, validationTime lib config = .ok time := by
    unfold validationTime
    rw [htime]
    split
    · exact ⟨_, rfl⟩
    · exact ⟨_, rfl⟩
  obtain ⟨time, ht⟩ := hval
  cases hadd : addTrustedCerts lib config.trustedCerts with
  | error e =>
      rw [hadd] at h
      obtain ⟨der, -, hder⟩ := forM_error hadd
      rw [Except.error.inj h] at hder
      split at hder
      · cases hder
      · cases hder
  | ok u =>
      rw [hadd, ht] at h
      simp only [bind, Except.bind] at h
      by_cases hnil : config.trustedCerts = []
      · rw [if_pos hnil] at h
        cases h
      · rw [if_neg hnil] at h
        by_cases htrust : lib.trustContains config.trustedCerts leafDer = true
        · rw [if_pos htrust] at h
          exact checkTrustedLeaf_not_panics time h
        · rw [if_neg htrust] at h
          exact checkChain_not_panics htime h

/-! ## Revocation -/

/-- A revoked leaf is refused exactly where it is not accepted as one of the trusted
certificates. -/
theorem revoked_refused_iff (hleaf : lib.parseCertificate leafDer = .ok leaf)
    {crlIssuer : ByteArray → Option ByteArray} (hrevoked : RevokedByIssuer lib leaf config crlIssuer) :
    (∃ e, e ≠ .panics ∧ validateCertChain lib leafDer additionalCerts config = .error e)
      ↔ ¬ AcceptedAsTrusted lib leafDer leaf config := by
  obtain ⟨crl, hcrl, -, t, htime, hlists⟩ := hrevoked
  have hblocked : ¬ CrlsPass lib leaf config := by
    intro hpass
    obtain ⟨t', htime', -, hno⟩ := hpass crl hcrl
    obtain rfl := Except.ok.inj (htime.symm.trans htime')
    exact hno hlists
  have hok := @validateCertChain_ok_iff _ _ _ additionalCerts config hleaf
  cases hr : validateCertChain lib leafDer additionalCerts config with
  | ok u =>
      rcases hok.mp hr with hacc | ⟨-, hpass⟩
      · refine iff_of_false ?_ (not_not.mpr hacc)
        intro h
        obtain ⟨e, -, he⟩ := h
        cases he
      · exact absurd hpass hblocked
  | error e =>
      refine iff_of_true ⟨e, ?_, rfl⟩ fun hacc => ?_
      · intro he
        exact validateCertChain_not_panics hleaf htime (hr.trans (congrArg Except.error he))
      · rw [hok.mpr (Or.inl hacc)] at hr
        cases hr

/-- The settings with other lists. -/
def withCrls (config : CertValidationConfig) (crls : List ByteArray) : CertValidationConfig :=
  { config with crls := crls }

/-- One more list leaves the verdict as it is exactly where it does not decide: no chain is looked
at, another list refuses the leaf, or this one is harmless. -/
theorem crl_added_iff (hleaf : lib.parseCertificate leafDer = .ok leaf)
    (front back : List ByteArray) (crl : ByteArray) :
    (validateCertChain lib leafDer additionalCerts (withCrls config (front ++ crl :: back)) = .ok ()
        ↔ validateCertChain lib leafDer additionalCerts (withCrls config (front ++ back)) = .ok ())
      ↔ (ChainVerifies lib leafDer leaf additionalCerts config →
        (∀ other ∈ front ++ back, Harmless lib leaf config other) →
          Harmless lib leaf config crl) := by
  have hverdict : ∀ crls, validateCertChain lib leafDer additionalCerts (withCrls config crls)
      = .ok () ↔ AcceptedAsTrusted lib leafDer leaf config
        ∨ ChainVerifies lib leafDer leaf additionalCerts config
          ∧ ∀ c ∈ crls, Harmless lib leaf config c :=
    fun crls => validateCertChain_ok_iff hleaf
  rw [hverdict, hverdict]
  have hsplit : (∀ c ∈ front ++ crl :: back, Harmless lib leaf config c)
      ↔ Harmless lib leaf config crl ∧ ∀ c ∈ front ++ back, Harmless lib leaf config c := by
    rw [List.forall_mem_append, List.forall_mem_append, List.forall_mem_cons]
    exact and_left_comm
  rw [hsplit]
  constructor
  · intro h hchain hothers
    rcases h.mpr (Or.inr ⟨hchain, hothers⟩) with hacc | ⟨-, hharmless, -⟩
    · -- a leaf is not both trusted itself and checked by a chain
      obtain ⟨-, -, -, htrust, -⟩ := hacc
      obtain ⟨-, -, -, hfalse, -⟩ := hchain
      rw [htrust] at hfalse
      cases hfalse
    · exact hharmless
  · intro h
    refine or_congr_right (and_congr_right fun hchain => ?_)
    exact ⟨And.right, fun hothers => ⟨h hchain hothers, hothers⟩⟩

/-- **Revocation by the issuer's lists, and lists of other issuers.** -/
theorem crl_checking_iff (lib : KeyLibs) (crlIssuer : ByteArray → Option ByteArray)
    (leafDer : ByteArray) (leaf : Certificate) (additionalCerts : List ByteArray)
    (config : CertValidationConfig) (hleaf : lib.parseCertificate leafDer = .ok leaf) :
    (RevokedByIssuer lib leaf config crlIssuer →
      ((∃ e, e ≠ .panics ∧ validateCertChain lib leafDer additionalCerts config = .error e)
        ↔ ¬ AcceptedAsTrusted lib leafDer leaf config))
    ∧ ∀ front crl back issuer, crlIssuer crl = some issuer → issuer ≠ leaf.issuer →
      ((validateCertChain lib leafDer additionalCerts (withCrls config (front ++ crl :: back))
            = .ok ()
          ↔ validateCertChain lib leafDer additionalCerts (withCrls config (front ++ back))
            = .ok ())
        ↔ (ChainVerifies lib leafDer leaf additionalCerts config →
          (∀ other ∈ front ++ back, Harmless lib leaf config other) →
            Harmless lib leaf config crl)) :=
  ⟨revoked_refused_iff hleaf, fun front crl back _ _ _ => crl_added_iff hleaf front back crl⟩

namespace SampleRevocation

def ownDer : ByteArray := ⟨#[1]⟩

def anchorDer : ByteArray := ⟨#[2]⟩

/-- A list of the leaf's issuer with its serial number, and one of another issuer without. -/
def ownCrl : ByteArray := ⟨#[3]⟩

def cleanCrl : ByteArray := ⟨#[4]⟩

/-- A certificate that is its own issuer. -/
def ownCert : Certificate where
  subject := ⟨#[73]⟩
  issuer := ⟨#[73]⟩
  serialNumber := ⟨#[7]⟩
  extensions := []
  subjectPublicKeyInfo := .empty
  algorithmOid := ""
  notBefore := 0
  notAfter := 100

/-- Libraries that know these bytes; every chain verifies, and it is the second 50. -/
def libs : KeyLibs :=
  { (VerifyLibs.ofParser (fun _ => .error "no text is known")).toKeyLibs with
    parseCertificate := fun der => if der = ownDer then .ok ownCert else .error "not a certificate"
    parseCrl := fun der =>
      if der = ownCrl then .ok (some [⟨⟨#[7]⟩, 10⟩])
      else if der = cleanCrl then .ok none
      else .error "not a list"
    buildChain := fun leaf _ _ => .ok [leaf]
    verifyChain := fun _ _ _ => .ok () }

def issuers (crl : ByteArray) : Option ByteArray :=
  if crl = ownCrl then some ⟨#[73]⟩ else if crl = cleanCrl then some ⟨#[74]⟩ else none

def settings (trusted : ByteArray) : CertValidationConfig where
  trustedCerts := [trusted]
  untrustedCerts := []
  crls := [ownCrl]
  verificationTime := none
  skipTimeChecks := false

theorem revoked (trusted : ByteArray) : RevokedByIssuer libs ownCert (settings trusted) issuers :=
  ⟨ownCrl, List.mem_singleton_self _, rfl, 50, rfl, [⟨⟨#[7]⟩, 10⟩], rfl, _,
    List.mem_singleton_self _, rfl, by decide⟩

theorem harmless_clean (trusted : ByteArray) : Harmless libs ownCert (settings trusted) cleanCrl := by
  refine ⟨50, rfl, ⟨none, rfl⟩, fun h => ?_⟩
  obtain ⟨entries, he, -⟩ := h
  cases he

end SampleRevocation

open SampleRevocation

/-- By way of a chain the leaf is refused, and a list without its serial number is no matter. -/
theorem crl_checking_sample :
    (∃ e, e ≠ .panics
        ∧ validateCertChain libs ownDer [] (settings anchorDer) = .error e)
      ∧ (validateCertChain libs ownDer []
            (withCrls (settings anchorDer) ([] ++ cleanCrl :: [])) = .ok ()
          ↔ validateCertChain libs ownDer []
            (withCrls (settings anchorDer) ([] ++ [])) = .ok ()) := by
  have h := crl_checking_iff libs issuers ownDer ownCert []
    (settings anchorDer) rfl
  refine ⟨(h.1 (revoked anchorDer)).mpr ?_,
    (h.2 [] cleanCrl [] ⟨#[74]⟩ rfl (by decide)).mpr fun _ _ => harmless_clean anchorDer⟩
  intro hacc
  obtain ⟨-, -, -, htrust, -⟩ := hacc
  cases htrust

/-- A revoked leaf that is trusted itself is accepted. -/
theorem trusted_leaf_not_revoked :
    ¬ ∀ (lib : KeyLibs) (crlIssuer : ByteArray → Option ByteArray) (leafDer : ByteArray)
      (leaf : Certificate) (additionalCerts : List ByteArray) (config : CertValidationConfig),
      lib.parseCertificate leafDer = .ok leaf →
      (RevokedByIssuer lib leaf config crlIssuer →
        ∃ e, e ≠ .panics ∧ validateCertChain lib leafDer additionalCerts config = .error e)
      ∧ ∀ front crl back issuer, crlIssuer crl = some issuer → issuer ≠ leaf.issuer →
        (validateCertChain lib leafDer additionalCerts (withCrls config (front ++ crl :: back))
            = .ok ()
          ↔ validateCertChain lib leafDer additionalCerts (withCrls config (front ++ back))
            = .ok ()) := by
  intro h
  obtain ⟨e, -, he⟩ := (h libs issuers ownDer ownCert []
    (settings ownDer) rfl).1 (revoked _)
  have hok : validateCertChain libs ownDer []
      (settings ownDer) = .ok () := rfl
  rw [hok] at he
  cases he

end Bergshamra
