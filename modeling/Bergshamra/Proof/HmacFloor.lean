import Bergshamra.Dsig.Verify

/-!
# How much of a MAC is compared

A document may declare with HMACOutputLength that its SignatureValue is the first
part of the tag only. Three places have a say in how short that part may be: the
parser of the element, which knows the context's minimum; the check that the
SignatureValue has the declared length; and the comparison, which leaves the
minimum to the others. `hmac_floor_iff` puts them together.
-/

namespace Bergshamra

/-- What is promised of the primitives: a tag is as long as the hash, and a comparison is one. -/
structure HmacLaws (lib : SignatureLibs) : Prop where
  tagBits : ∀ uri bits, hmacHashOutputBits uri = some bits →
    ∀ k data, 8 * (lib.computeHmac uri k data).size = bits
  equal : ∀ a b, lib.constantTimeEq a b = true ↔ a = b
  /-- The value has the length and is a beginning of the tag. -/
  truncated : ∀ uri k data sig n, lib.hmacVerifyTruncated uri k data sig n = true
    ↔ sig.size = n ∧ sig = (lib.computeHmac uri k data).extract 0 n

/-- The value is the first bits of a tag, this many. -/
def ComparesBits (lib : SignatureLibs) (uri : String) (signed sigValue : ByteArray) (bits : Nat) :
    Prop :=
  ∃ k, bits = 8 * sigValue.size ∧ bits ≤ 8 * (lib.computeHmac uri k signed).size
    ∧ sigValue = (lib.computeHmac uri k signed).extract 0 sigValue.size

/-- The fewest bits to compare: the context's minimum, or what the standard asks for. -/
def hmacFloor (ctx : DsigContext) (hashBits : Nat) : Nat :=
  if 0 < ctx.hmacMinOutLen then ctx.hmacMinOutLen else max 80 (hashBits / 2)

/-- The length a SignedInfo declares. -/
def declaredLength (signedInfo : Node) : Option Nat :=
  ((signedInfo.findChildElement Ns.DSIG "SignatureMethod").bind
    (fun m => m.findChildElement Ns.DSIG "HMACOutputLength")).bind
    (fun n => parseUnsigned? usizeMax (parameterText n).toList)

/-- **Where the floor is kept.** -/
def KeepsFloor (ctx : DsigContext) (hashBits : Nat) : Option Nat → Prop
  -- the declared length is checked against a minimum only if the context has one
  | some bits => 0 < ctx.hmacMinOutLen ∨ max 80 (hashBits / 2) ≤ bits
  -- the whole tag is compared, which may be shorter than the minimum
  | none => ctx.hmacMinOutLen ≤ hashBits

section

variable {lib : VerifyLibs} {ctx : DsigContext}

/-- What is left of the declared length after the checks. -/
theorem hmacOutputLength_ok {sigMethod : Node} {uri : String} {hmacBits : Option Nat}
    (hhmac : isHmacAlgorithm uri = true) (h : hmacOutputLength ctx sigMethod uri = .ok hmacBits) :
    hmacBits = (sigMethod.findChildElement Ns.DSIG "HMACOutputLength").bind
        (fun n => parseUnsigned? usizeMax (parameterText n).toList)
      ∧ ∀ bits, hmacBits = some bits → bits % 8 = 0
        ∧ (0 < ctx.hmacMinOutLen → ctx.hmacMinOutLen ≤ bits) := by
  rw [hmacOutputLength, if_pos hhmac] at h
  cases hn : sigMethod.findChildElement Ns.DSIG "HMACOutputLength" with
  | none =>
      rw [hn] at h
      obtain rfl := Except.ok.inj h
      exact ⟨rfl, fun bits hb => by simp at hb⟩
  | some n =>
      rw [hn] at h
      dsimp only at h
      unfold parseHmacOutputLength at h
      cases hp : parseUnsigned? usizeMax (parameterText n).toList with
      | none => simp [hp, Except.map] at h
      | some bits =>
          rw [hp] at h
          dsimp only at h
          by_cases h8 : bits % 8 = 0
          · by_cases hmin : 0 < ctx.hmacMinOutLen ∧ bits < ctx.hmacMinOutLen
            · simp [h8, hmin, Except.map] at h
            · rw [if_neg (by omega), if_neg hmin] at h
              obtain rfl := Except.ok.inj h
              refine ⟨by rw [Option.bind_some, hp], ?_⟩
              intro b hb
              obtain rfl := Option.some.inj hb
              exact ⟨h8, fun hpos => by omega⟩
          · simp [h8, Except.map] at h

theorem readSignature_hmacBits {doc : Document} {parts : SignatureParts}
    (hhmac : isHmacAlgorithm parts.sigMethodUri = true)
    (h : readSignature lib.toTransformLibs ctx doc = .ok parts) :
    parts.hmacBits = declaredLength parts.signedInfo
      ∧ ∀ bits, parts.hmacBits = some bits → bits % 8 = 0
        ∧ (0 < ctx.hmacMinOutLen → ctx.hmacMinOutLen ≤ bits) := by
  simp only [readSignature, bind_eq_ok, orStop_ok] at h
  obtain ⟨_, _, signedInfo, _, _, _, _, _, uri, _, params, hparams, h⟩ := h
  cases h
  unfold signatureParameters at hparams
  cases hm : signedInfo.findChildElement Ns.DSIG "SignatureMethod" with
  | none => simp [hm] at hparams
  | some sigMethod =>
      simp only [hm, bind_eq_ok, orStop_ok] at hparams
      obtain ⟨hmacBits, hbits, _, _, hpair⟩ := hparams
      cases hpair
      obtain ⟨hdeclared, hchecked⟩ := hmacOutputLength_ok hhmac hbits
      exact ⟨by rw [declaredLength, hm, Option.bind_some, hdeclared], hchecked⟩

theorem map_hmacKey_ok {key : SigningKey} {f : ByteArray → Bool}
    (h : (hmacKey key).map f = .ok true) : ∃ k, f k = true := by
  cases hk : hmacKey key with
  | error e => simp [hk, Except.map] at h
  | ok k =>
      rw [hk] at h
      exact ⟨k, Except.ok.inj h⟩

/-- Every hash has whole octets, and sixteen of them or more. -/
theorem hmacHashOutputBits_bounds {uri : String} {bits : Nat}
    (h : hmacHashOutputBits uri = some bits) : bits % 8 = 0 ∧ 128 ≤ bits := by
  unfold hmacHashOutputBits at h
  repeat' split at h
  all_goals simp at h
  all_goals omega

/-- What a comparison with a software key that succeeds has compared. -/
theorem checkSignature_hmac (laws : HmacLaws lib.toSignatureLibs) {parts : SignatureParts}
    {key : Key} {signed sigValue : ByteArray} {hashBits : Nat}
    (hhmac : hmacHashOutputBits parts.sigMethodUri = some hashBits)
    (h : checkSignature lib.toSignatureLibs parts key signed sigValue = .ok true) :
    ComparesBits lib.toSignatureLibs parts.sigMethodUri signed sigValue (8 * sigValue.size)
      ∧ sigValue.size = (parts.hmacBits.getD hashBits) / 8 := by
  have his : isHmacAlgorithm parts.sigMethodUri = true := by rw [isHmacAlgorithm, hhmac]; rfl
  unfold checkSignature at h
  cases hk : key.toSigningKey with
  | none => simp [hk] at h
  | some signingKey =>
      simp only [hk, bind_eq_ok] at h
      obtain ⟨sigAlg, halg, h⟩ := h
      have hsign : sigAlg = hmacSign lib.toSignatureLibs parts.sigMethodUri := by
        unfold fromUriWithContext at halg
        rw [if_pos his] at halg
        split at halg
        · exact (Except.ok.inj halg).symm
        · cases halg
      subst hsign
      cases hb : parts.hmacBits with
      | none =>
          rw [hb] at h
          obtain ⟨k, heq⟩ := map_hmacKey_ok h
          have hval := (laws.equal _ _).mp heq
          have hbits := laws.tagBits _ _ hhmac k signed
          have hsize := congrArg ByteArray.size hval
          refine ⟨⟨k, rfl, by omega, ?_⟩, ?_⟩
          · rw [← hval, ByteArray.extract_zero_size]
          · rw [Option.getD_none]
            omega
      | some bits =>
          rw [hb] at h
          obtain ⟨k, heq⟩ := map_hmacKey_ok h
          obtain ⟨hsize, hval⟩ := (laws.truncated _ _ _ _ _).mp heq
          rw [← hsize] at hval
          have hle := congrArg ByteArray.size hval
          rw [ByteArray.size_extract] at hle
          exact ⟨⟨k, rfl, by omega, hval⟩, by rw [Option.getD_some, hsize]⟩

/-- **When the floor is kept**: exactly where the context has a minimum or the document declares no
less than the standard asks for, and the whole tag is no shorter than the minimum. -/
theorem hmac_floor_iff {xml : String} {doc : Document} {parts : SignatureParts}
    {result : ValidSignature} {hashBits : Nat} (laws : HmacLaws lib.toSignatureLibs)
    (hsoft : ctx.hsmVerifier = none) (hdoc : lib.parse xml = .ok doc)
    (hparts : readSignature lib.toTransformLibs ctx doc = .ok parts)
    (hhmac : hmacHashOutputBits parts.sigMethodUri = some hashBits)
    (hvalid : verify lib ctx xml = .ok (.valid result)) :
    ∃ sigValue bits, signatureValue lib.toTransformLibs parts.sigNode = .ok sigValue
      ∧ ComparesBits lib.toSignatureLibs parts.sigMethodUri (canonicalSignedInfo doc parts)
        sigValue bits
      ∧ (hmacFloor ctx hashBits ≤ bits
        ↔ KeepsFloor ctx hashBits (declaredLength parts.signedInfo)) := by
  obtain ⟨doc', hdoc', hrun⟩ := verify_valid.mp hvalid
  obtain rfl : doc = doc' := by
    rw [hdoc, Except.ok.injEq] at hdoc'
    exact hdoc'
  obtain ⟨idMap, parts', _, sigValue, _, _, hparts', _, _, hsig, _, hverdict, _⟩ :=
    verifyDocument_ok.mp hrun
  obtain rfl : parts = parts' := by
    rw [hparts, Except.ok.injEq] at hparts'
    exact hparts'
  rw [signatureVerdict, hsoft] at hverdict
  obtain ⟨chosen, _, _, hcheck, _⟩ := softwareVerdict_ok.mp hverdict
  -- a value that is accepted has as many octets as are compared
  obtain ⟨hcompares, hsize⟩ := checkSignature_hmac laws hhmac hcheck
  refine ⟨sigValue, 8 * sigValue.size, hsig, hcompares, ?_⟩
  have his : isHmacAlgorithm parts.sigMethodUri = true := by rw [isHmacAlgorithm, hhmac]; rfl
  obtain ⟨hdeclared, hchecked⟩ := readSignature_hmacBits his hparts
  have hhash : hashBits % 8 = 0 ∧ 128 ≤ hashBits := hmacHashOutputBits_bounds hhmac
  rw [← hdeclared, hsize, hmacFloor]
  cases hb : parts.hmacBits with
  | none =>
      rw [Option.getD_none, KeepsFloor]
      split <;> omega
  | some bits =>
      obtain ⟨h8, hmin⟩ := hchecked bits hb
      rw [Option.getD_some, KeepsFloor]
      split
      · rename_i hpos
        have := hmin hpos
        omega
      · omega

end

/-! ## Eight bits -/

namespace SampleHmac

open Sample

/-- A SignatureMethod that declares eight bits of a tag. -/
def signatureMethod (rest : Nodes) : Nodes :=
  .node 5 (element "SignatureMethod" [attr "Algorithm" Algorithm.HMAC_SHA256])
    (textElement 6 "HMACOutputLength" "8" .nil) rest

def signedInfoKids : Nodes :=
  method 4 "CanonicalizationMethod" Algorithm.C14N (signatureMethod .nil)

/-- A Signature without References; its SignatureValue is the octet 1. -/
def signed : Document where
  root := 0
  top := .node 1 (element "Signature" [])
    (.node 2 (element "SignedInfo" []) signedInfoKids (textElement 8 "SignatureValue" "AQ==" .nil))
    .nil
  nodup := by decide

def sig : Node :=
  ⟨1, [], .node (element "Signature" [])
    (.node 2 (element "SignedInfo" []) signedInfoKids (textElement 8 "SignatureValue" "AQ==" .nil))⟩

def signedInfo : Node :=
  ⟨2, [(1, element "Signature" [])], .node (element "SignedInfo" []) signedInfoKids⟩

/-- Tags of ones, as long as the hash. -/
def tag (uri : String) : ByteArray :=
  ⟨Array.replicate ((hmacHashOutputBits uri).getD 0 / 8) 1⟩

def lib : VerifyLibs :=
  { VerifyLibs.ofParser (fun _ => .ok signed) with
    computeHmac := fun uri _ _ => tag uri
    constantTimeEq := fun a b => decide (a = b)
    hmacVerifyTruncated := fun uri _ _ sig n =>
      decide (sig.size = n ∧ sig = (tag uri).extract 0 n) }

/-- One key, and no minimum. -/
def ctx : DsigContext := .ofManager ⟨[.new (.hmac ⟨#[7]⟩) .any], [], [], []⟩

def parts : SignatureParts := ⟨sig, signedInfo, .inclusive, [], Algorithm.HMAC_SHA256, some 8, none⟩

def result : ValidSignature := ⟨sig, [], ⟨"HMAC", none, []⟩⟩

theorem laws : HmacLaws lib.toSignatureLibs where
  tagBits uri bits h k data := by
    have := hmacHashOutputBits_bounds h
    show 8 * (Array.replicate ((hmacHashOutputBits uri).getD 0 / 8) 1).size = bits
    rw [Array.size_replicate, h, Option.getD_some]
    omega
  equal a b := decide_eq_true_iff
  truncated uri k data sig n := decide_eq_true_iff

theorem valid : verify lib ctx "" = .ok (.valid result) := rfl

theorem read : readSignature lib.toTransformLibs ctx signed = .ok parts := rfl

end SampleHmac

theorem hmac_floor_iff_sample :
    SampleHmac.ctx.hsmVerifier = none
      ∧ verify SampleHmac.lib SampleHmac.ctx "" = .ok (.valid SampleHmac.result)
      ∧ ∃ sigValue bits,
        signatureValue SampleHmac.lib.toTransformLibs SampleHmac.sig = .ok sigValue
        ∧ ComparesBits SampleHmac.lib.toSignatureLibs Algorithm.HMAC_SHA256
          (canonicalSignedInfo SampleHmac.signed SampleHmac.parts) sigValue bits
        ∧ (hmacFloor SampleHmac.ctx 256 ≤ bits
          ↔ KeepsFloor SampleHmac.ctx 256 (declaredLength SampleHmac.signedInfo)) :=
  ⟨rfl, SampleHmac.valid, hmac_floor_iff SampleHmac.laws rfl rfl SampleHmac.read rfl
    SampleHmac.valid⟩

/-- A valid HMAC has been compared in as many bits as the floor asks for. -/
def HmacFloorKept : Prop :=
  ∀ (lib : VerifyLibs) (ctx : DsigContext) (xml : String) (doc : Document) (parts : SignatureParts)
    (result : ValidSignature) (hashBits : Nat),
    HmacLaws lib.toSignatureLibs → ctx.hsmVerifier = none → lib.parse xml = .ok doc →
    readSignature lib.toTransformLibs ctx doc = .ok parts →
    hmacHashOutputBits parts.sigMethodUri = some hashBits →
    verify lib ctx xml = .ok (.valid result) →
    ∃ sigValue bits, signatureValue lib.toTransformLibs parts.sigNode = .ok sigValue
      ∧ ComparesBits lib.toSignatureLibs parts.sigMethodUri (canonicalSignedInfo doc parts)
        sigValue bits
      ∧ hmacFloor ctx hashBits ≤ bits

/-- Eight bits make a signature valid. -/
theorem eight_bits_valid : ¬ HmacFloorKept := by
  intro h
  obtain ⟨sigValue, bits, hsig, ⟨_, hbits, _⟩, hfloor⟩ :=
    h SampleHmac.lib SampleHmac.ctx "" SampleHmac.signed SampleHmac.parts SampleHmac.result 256
      SampleHmac.laws rfl rfl SampleHmac.read rfl SampleHmac.valid
  have hvalue : signatureValue SampleHmac.lib.toTransformLibs SampleHmac.parts.sigNode
      = .ok ⟨#[1]⟩ := rfl
  rw [hvalue, Except.ok.injEq] at hsig
  subst hsig
  have hsize : (⟨#[1]⟩ : ByteArray).size = 1 := rfl
  have hneed : hmacFloor SampleHmac.ctx 256 = 128 := rfl
  omega

end Bergshamra
