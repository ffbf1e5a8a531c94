import Bergshamra.Dsig.Verify
import Bergshamra.Proof.LeafCert

/-!
# The certificate that is validated and the one that verifies

With keys from X509Data, two parts of the verifier look at the same list of
certificates. `findLeafCert` says whose public key the signature is verified
with; the validation takes the first certificate of the list for the leaf. This
file follows an accepting run to both and says when they meet: exactly when the
certificate that outranks the others is the first one of the document.
-/

namespace Bergshamra

/-- The key is the one of this X509Data: nothing before it in the KeyInfo contributes a key. -/
def TakenFrom (lib : KeyLibs) (keyInfo x509Data : Node) (key : Key) : Prop :=
  ∃ before after, keyInfo.children = before ++ x509Data :: after
    ∧ firstExtracted lib before = .ok none ∧ x509Data.isDsigOrPlain "X509Data" = true
    ∧ extractX509Certificate lib x509Data = some key

/-- An accepting run of `verify` with a key from X509Certificate elements, where certificates are
checked. -/
structure X509Run (lib : VerifyLibs) where
  ctx : DsigContext
  secure : ctx.insecure = false
  inlineKeys : ctx.trustedKeysOnly = false
  x509 : ctx.enabledKeyDataX509 = true
  software : ctx.hsmVerifier = none
  xml : String
  doc : Document
  parsed : lib.parse xml = .ok doc
  idMap : IdMap
  ids : buildIdMap lib.toUppsala doc ctx.allIdAttrs = .ok idMap
  parts : SignatureParts
  reads : readSignature lib.toTransformLibs ctx doc = .ok parts
  result : ValidSignature
  valid : verify lib ctx xml = .ok (.valid result)
  keyInfo : Node
  hasKeyInfo : parts.sigNode.findChildElement Ns.DSIG "KeyInfo" = some keyInfo
  x509Data : Node
  key : Key
  taken : TakenFrom lib.toKeyLibs (effectiveKeyInfo lib.toUppsala keyInfo idMap) x509Data key

section

variable {lib : VerifyLibs}

/-- The certificates of a run, in document order. -/
def X509Run.certs (r : X509Run lib) : List ParsedCert := parsedCerts lib.toKeyLibs r.x509Data

/-- This certificate was given to the validation as the leaf, and accepted. -/
def X509Run.Validated (r : X509Run lib) (der : ByteArray) : Prop :=
  leafToValidate r.ctx (.inDocument r.key) = some der
    ∧ validateCertChain lib.toKeyLibs der (r.certs.map ParsedCert.der) r.ctx.certConfig = .ok ()

/-- The key was loaded from this certificate, and the SignatureValue is verified with it. -/
def X509Run.Verifies (r : X509Run lib) (c : ParsedCert) : Prop :=
  leafCert lib.toKeyLibs r.x509Data = some c ∧ ∃ key sigValue,
    loadX509CertDer lib.toKeyLibs c.der = .ok key
      ∧ signatureValue lib.toTransformLibs r.parts.sigNode = .ok sigValue
      ∧ checkSignature lib.toSignatureLibs r.parts key (canonicalSignedInfo r.doc r.parts) sigValue
          = .ok true

/-- The certificate whose public key verifies the signature is the validated one. -/
def X509Run.KeyBound (r : X509Run lib) : Prop :=
  ∃ c, r.Verifies c ∧ r.Validated c.der

/-- The certificate that outranks the others is the first one, or the same certificate again. -/
def FirstIsLeaf (lib : KeyLibs) (certs : List ParsedCert) : Prop :=
  ∃ i c first, Outranks lib certs i ∧ certs[i]? = some c ∧ certs.head? = some first
    ∧ c.der = first.der

/-! ## The key of a run -/

theorem extractKeyValue_of_taken {lib : KeyLibs} {keyInfo x509Data : Node} {key : Key}
    (h : TakenFrom lib keyInfo x509Data key) : extractKeyValue lib keyInfo = .ok (some key) := by
  obtain ⟨before, after, hch, hbefore, hnamed, hkey⟩ := h
  unfold extractKeyValue
  rw [hch, firstExtracted_append hbefore, firstExtracted]
  have hkv : x509Data.isDsigOrPlain "KeyValue" = false := by
    obtain ⟨e, he, hn⟩ : ∃ e, x509Data.element? = some e
        ∧ (e.isNamed Ns.DSIG "X509Data" = true ∨ e.isNamed "" "X509Data" = true) := by
      rcases Bool.or_eq_true _ _ ▸ hnamed with hn | hn
      · obtain ⟨e, he, hn⟩ := Node.isNamed_iff.mp hn
        exact ⟨e, he, Or.inl hn⟩
      · obtain ⟨e, he, hn⟩ := Node.isNamed_iff.mp hn
        exact ⟨e, he, Or.inr hn⟩
    have hnot : ∀ nsUri, e.isNamed nsUri "KeyValue" = false := by
      intro nsUri
      rcases hn with hn | hn
      · exact Element.not_isNamed hn (by decide)
      · exact Element.not_isNamed hn (by decide)
    simp [Node.isDsigOrPlain, Node.isNamed, he, hnot]
  have hchild : extractFromChild lib x509Data = .ok (some key) := by
    rw [extractFromChild, if_neg (by simp [hkv]), if_pos hnamed, hkey]
  rw [hchild]
  rfl

/-- The key of the X509Data is the one that is chosen. -/
theorem X509Run.chosen (r : X509Run lib) :
    chooseKey lib.toKeyResolutionLibs r.ctx r.idMap r.parts.sigNode
      = .ok (.inDocument r.key) := by
  have hinline : inlineKey lib.toKeyResolutionLibs r.ctx.resources r.ctx.keysManager r.idMap
      (effectiveKeyInfo lib.toUppsala r.keyInfo r.idMap) = .ok (some r.key) := by
    unfold inlineKey
    rw [orTry_some]
    exact Or.inl (extractKeyValue_of_taken r.taken)
  unfold chooseKey
  rw [r.inlineKeys, if_neg (by simp), r.hasKeyInfo]
  exact bind_eq_ok.mpr ⟨_, hinline, rfl⟩

/-- The chain is not part of what the signature is checked with. -/
theorem checkSignature_chain (lib : SignatureLibs) (parts : SignatureParts) (key : Key)
    (chain : List ByteArray) (signed sigValue : ByteArray) :
    checkSignature lib parts { key with x509Chain := chain } signed sigValue
      = checkSignature lib parts key signed sigValue := rfl

/-- **What an accepting run did.** The first certificate was validated as the leaf, and the one
taken for the leaf verifies the signature. -/
theorem X509Run.spec (r : X509Run lib) :
    ∃ first leaf, r.certs.head? = some first
      ∧ r.certs[findLeafCert lib.toKeyLibs r.certs]? = some leaf
      ∧ r.Validated first.der ∧ r.Verifies leaf := by
  obtain ⟨doc, hp, hv⟩ := verify_valid.mp r.valid
  obtain rfl := Except.ok.inj (r.parsed.symm.trans hp)
  obtain ⟨idMap, parts, vrefs, sigValue, info, hid, hparts, _, _, hsig, _, hverdict, _⟩ :=
    verifyDocument_ok.mp hv
  obtain rfl := Except.ok.inj (r.ids.symm.trans hid)
  obtain rfl := Except.ok.inj (r.reads.symm.trans hparts)
  unfold signatureVerdict at hverdict
  rw [r.software] at hverdict
  obtain ⟨chosen, hchosen, hcerts, hcheck, _⟩ := softwareVerdict_ok.mp hverdict
  obtain rfl := Except.ok.inj (r.chosen.symm.trans hchosen)
  obtain ⟨_, _, _, _, _, hextract⟩ := r.taken
  obtain ⟨leaf, loaded, hleaf, hload, hkey⟩ := extractX509Certificate_some.mp hextract
  have hchain : r.key.x509Chain = r.certs.map ParsedCert.der := by rw [hkey]; rfl
  obtain ⟨first, rest, hfirst⟩ : ∃ first rest, r.certs = first :: rest := by
    cases hc : r.certs with
    | nil =>
        have hget : r.certs[findLeafCert lib.toKeyLibs r.certs]? = some leaf := hleaf
        rw [hc] at hget
        simp at hget
    | cons first rest => exact ⟨first, rest, rfl⟩
  have hvalidated : leafToValidate r.ctx (.inDocument r.key) = some first.der := by
    unfold leafToValidate needsX509Validation
    simp [ChosenKey.inDocument, r.secure, r.x509, hchain, hfirst]
  refine ⟨first, leaf, by rw [hfirst]; rfl, hleaf, ⟨hvalidated, ?_⟩, hleaf, loaded, sigValue, hload,
    hsig, ?_⟩
  · unfold checkCertificates at hcerts
    rw [hvalidated] at hcerts
    rw [← hchain]
    exact hcerts
  · rw [← checkSignature_chain _ _ _ (r.certs.map ParsedCert.der)]
    have hkey' : { loaded with x509Chain := r.certs.map ParsedCert.der } = r.key := hkey.symm
    rw [hkey']
    exact hcheck

/-- **The key is bound to the validated certificate exactly when the first certificate is the
leaf.** -/
theorem keyBound_iff (lib : VerifyLibs) (r : X509Run lib) :
    r.KeyBound ↔ FirstIsLeaf lib.toKeyLibs r.certs := by
  obtain ⟨first, leaf, hfirst, hleaf, hvalidated, hverifies⟩ := r.spec
  have hne : r.certs ≠ [] := by
    intro h
    rw [h] at hfirst
    simp at hfirst
  constructor
  · rintro ⟨c, ⟨hc, _⟩, hv, _⟩
    obtain rfl := Option.some.inj (hc.symm.trans hverifies.1)
    have hder := Option.some.inj (hv.symm.trans hvalidated.1)
    exact ⟨_, c, first, findLeafCert_outranks hne, hleaf, hfirst, hder⟩
  · rintro ⟨i, c, first', hi, hc, hfirst', hder⟩
    obtain rfl := Option.some.inj (hfirst.symm.trans hfirst')
    rw [← (findLeafCert_eq_iff hne).mpr hi, hleaf] at hc
    obtain rfl := Option.some.inj hc
    exact ⟨leaf, hverifies, hder ▸ hvalidated⟩

end

/-! ## Two certificates -/

namespace SampleBinding

open Sample

/-- A Reference to `#x`. -/
def signedInfoKids : Nodes :=
  method 3 "CanonicalizationMethod" Algorithm.C14N
    (method 4 "SignatureMethod" "http://www.w3.org/2001/04/xmldsig-more#rsa-sha256"
      (.node 5 (element "Reference" [attr "URI" "#x"])
        (method 6 "DigestMethod" "http://www.w3.org/2001/04/xmlenc#sha256"
          (textElement 7 "DigestValue" "AA==" .nil)) .nil))

/-- Two certificates, first the one whose octet is `T` and then the one whose octet is `A`. -/
def x509Kids : Nodes :=
  textElement 13 "X509Certificate" "VA==" (textElement 15 "X509Certificate" "QQ==" .nil)

def keyInfoKids : Nodes := .node 12 (element "X509Data" []) x509Kids .nil

def object : Element := element "Object" [attr "Id" "x"]

def signatureKids : Nodes :=
  .node 2 (element "SignedInfo" []) signedInfoKids
    (textElement 9 "SignatureValue" "AQ=="
      (.node 11 (element "KeyInfo" []) keyInfoKids (.node 17 object .nil .nil)))

def signed : Document where
  root := 0
  top := .node 1 (element "Signature" []) signatureKids .nil
  nodup := by
    show (List.range 18).Nodup
    decide

def sigPath : List (NodeId × Element) := [(1, element "Signature" [])]
def sig : Node := ⟨1, [], .node (element "Signature" []) signatureKids⟩
def signedInfo : Node := ⟨2, sigPath, .node (element "SignedInfo" []) signedInfoKids⟩
def keyInfo : Node := ⟨11, sigPath, .node (element "KeyInfo" []) keyInfoKids⟩
def x509Data : Node :=
  ⟨12, (11, element "KeyInfo" []) :: sigPath, .node (element "X509Data" []) x509Kids⟩
def target : Node := ⟨17, sigPath, .node object .nil⟩

/-- The certificate that the context trusts. -/
def trusted : ByteArray := ⟨#[0x54]⟩

/-- Another one, self-signed as well. -/
def attacker : ByteArray := ⟨#[0x41]⟩

def certificate (der : ByteArray) : Certificate where
  subject := der
  issuer := der
  serialNumber := ⟨#[1]⟩
  extensions := []
  subjectPublicKeyInfo := der
  algorithmOid := "1.2.840.113549.1.1.1"
  notBefore := 0
  notAfter := 100

/-- The signature is one that the key of the second certificate made. -/
def verifyRsa : SigningKey → ByteArray → ByteArray → Except Error Bool
  | .rsaPublic k, _, _ => .ok (k == attacker)
  | _, _, _ => .error (.key "RSA key required")

def lib : VerifyLibs :=
  { VerifyLibs.ofParser (fun _ => .ok signed) with
    parseCertificate := fun der => .ok (certificate der)
    certKey := fun spki => some (.rsa none spki)
    primitive := fun _ _ => .ok ⟨fun _ _ => .error (.key "no private key"), verifyRsa⟩ }

def ctx : DsigContext :=
  { DsigContext.ofManager ⟨[], [trusted], [], []⟩ with enabledKeyDataX509 := true }

def parts : SignatureParts where
  sigNode := sig
  signedInfo := signedInfo
  c14nMode := .inclusive
  inclusivePrefixes := []
  sigMethodUri := "http://www.w3.org/2001/04/xmldsig-more#rsa-sha256"
  hmacBits := none
  pqContext := none

def key : Key := ⟨none, .rsa none attacker, .verify, [trusted, attacker]⟩

def result : ValidSignature :=
  ⟨sig, [⟨"#x", some target, true⟩], ⟨"RSA", none, [trusted, attacker]⟩⟩

def run : X509Run lib where
  ctx := ctx
  secure := rfl
  inlineKeys := rfl
  x509 := rfl
  software := rfl
  xml := ""
  doc := signed
  parsed := rfl
  idMap := [("x", target)]
  ids := by rfl
  parts := parts
  reads := by rfl
  result := result
  valid := by rfl
  keyInfo := keyInfo
  hasKeyInfo := by rfl
  x509Data := x509Data
  key := key
  taken := ⟨[], [], by rfl, rfl, by rfl, by rfl⟩

end SampleBinding

/-- **The key is not always bound to the validated certificate.** The context trusts the first
certificate; the signature is verified with the key of the second. -/
theorem key_not_bound : ¬ ∀ (lib : VerifyLibs) (r : X509Run lib), r.KeyBound := by
  intro h
  obtain ⟨c, ⟨hleaf, _⟩, hvalidated, _⟩ := h _ SampleBinding.run
  have hverifies : leafCert SampleBinding.lib.toKeyLibs SampleBinding.x509Data
      = some ⟨SampleBinding.certificate SampleBinding.attacker, SampleBinding.attacker⟩ := by rfl
  obtain rfl := Option.some.inj (hleaf.symm.trans hverifies)
  have htrusted : leafToValidate SampleBinding.ctx (.inDocument SampleBinding.key)
      = some SampleBinding.trusted := by rfl
  have hder := Option.some.inj (htrusted.symm.trans hvalidated)
  exact absurd hder (by decide)

end Bergshamra
