import Bergshamra.Proof.SignStages
import Bergshamra.Dsig.SignDocument
import Bergshamra.Proof.TableParser
import Bergshamra.Lib.Base64

/-!
# What is signed verifies

`sign` and `verify` on the whole of a document. The run of `sign` goes through
its texts: the digests, the SignatureValue, the KeyInfo. What verification reads
of the SignedInfo besides the References is the same in all of them, and the
octets that are signed are the canonical SignedInfo of the text that is returned.
-/

namespace Bergshamra

open XmlSource

/-- What signing and verification take from outside. -/
structure SignVerifyLibs extends VerifyLibs, SigningLibs

namespace Sign

/-! ## The run of `sign` -/

/-- The texts that `sign` goes through, and the value it computes. -/
structure WholeRun (lib : SigningLibs) (ctx : SigningContext) (template : String)
    (parts : TemplateParts) (texts : Nat → String) (signature : ByteArray)
    (unkeyed signed : String) : Prop where
  read : readTemplate lib.toSignLibs ctx.allIdAttrs template = .ok parts
  digests : Run lib.toSignLibs ctx.resources ctx.allIdAttrs template parts.refCount texts
  computed : computeSignature lib ctx parts (texts parts.refCount) = .ok signature
  value : replaceFirstEmptyElement lib.toSignLibs (texts parts.refCount) "SignatureValue"
    (lib.base64Encode signature) = .ok unkeyed
  keyInfo : ctx.hsmSigner.isSome = true ∧ signed = unkeyed
    ∨ ctx.hsmSigner = none ∧ ∃ key, ctx.keysManager.firstKey = .ok key
      ∧ populateKeyInfo lib ctx.keysManager key unkeyed = .ok signed

/-- What `sign` returns is the end of a run. -/
theorem sign_run {lib : SigningLibs} {ctx : SigningContext} {template signed : String}
    (h : sign lib ctx template = .ok signed) :
    ∃ parts texts signature unkeyed,
      WholeRun lib ctx template parts texts signature unkeyed signed := by
  rw [sign] at h
  obtain ⟨parts, hparts, h⟩ := bind_eq_ok.mp h
  obtain ⟨digested, hdigested, h⟩ := bind_eq_ok.mp h
  obtain ⟨signature, hsignature, h⟩ := bind_eq_ok.mp h
  obtain ⟨unkeyed, hvalue, h⟩ := bind_eq_ok.mp h
  obtain ⟨texts, hstart, hend, hturns⟩ := signReferences_run hdigested
  rw [← hend] at hsignature hvalue
  refine ⟨parts, texts, signature, unkeyed, hparts, ⟨hstart, fun j hj => ?_⟩, hsignature, hvalue, ?_⟩
  · have hturn := hturns j hj
    rw [Nat.zero_add] at hturn
    exact hturn
  · cases hhsm : ctx.hsmSigner with
    | some hsm =>
        rw [hhsm] at h
        cases h
        exact Or.inl ⟨rfl, rfl⟩
    | none =>
        rw [hhsm] at h
        obtain ⟨key, hkey, h⟩ := bind_eq_ok.mp h
        exact Or.inr ⟨rfl, key, hkey, h⟩

/-! ## The methods of the SignedInfo -/

section Methods

variable {lib : SignLibs} {idAttrs : List String} {ks : List NodeId}
  {a b : Stage lib.toDsigLibs idAttrs}

/-- What signing reads of the SignatureMethod: the context, and what it does to a MAC. -/
def methodOf (lib : TransformLibs) (signedInfo : Node) (uri : String) :
    Option (Except Error (Option ByteArray) × (ByteArray → ByteArray)) :=
  (signedInfo.findChildElement Ns.DSIG "SignatureMethod").map fun sigMethod =>
    (pqContext lib sigMethod uri, truncateHmac sigMethod uri)

/-- Two stages with the same methods. -/
structure SameMethods (a b : Stage lib.toDsigLibs idAttrs) : Prop where
  algorithm : ∀ localName, localName ≠ "Reference" →
    algorithmOf lib.toUppsala a.signedInfo localName
      = algorithmOf lib.toUppsala b.signedInfo localName
  prefixes : c14nPrefixes lib.toUppsala a.signedInfo = c14nPrefixes lib.toUppsala b.signedInfo
  parameters : ∀ ctx uri, signatureParameters lib.toTransformLibs ctx a.signedInfo uri
    = signatureParameters lib.toTransformLibs ctx b.signedInfo uri
  method : ∀ uri, methodOf lib.toTransformLibs a.signedInfo uri
    = methodOf lib.toTransformLibs b.signedInfo uri
  count : a.references.length = b.references.length

theorem SameMethods.trans {c : Stage lib.toDsigLibs idAttrs} (h : SameMethods a b)
    (h' : SameMethods b c) : SameMethods a c where
  algorithm name hne := (h.algorithm name hne).trans (h'.algorithm name hne)
  prefixes := h.prefixes.trans h'.prefixes
  parameters ctx uri := (h.parameters ctx uri).trans (h'.parameters ctx uri)
  method uri := (h.method uri).trans (h'.method uri)
  count := h.count.trans h'.count

/-- **Filling in leaves the methods as they are.** -/
theorem sameMethods_next (h : NextStage ks a b) : SameMethods a b := by
  refine ⟨fun name hne => h.algorithmOf_eq hne, h.c14nPrefixes_eq, fun ctx uri => ?_, fun uri => ?_,
    h.references.length_eq⟩
  · rw [signatureParameters, signatureParameters]
    rcases @NextStage.info_part _ _ _ _ _ h "SignatureMethod" (by decide) with
      ⟨hn, hn'⟩ | ⟨c, c', hc, hc', hpair, hout⟩
    · rw [hn, hn']
    · -- verification reads `element_text`, signing reads the whole text: both stay
      have hmac : hmacOutputLength ctx c uri = hmacOutputLength ctx c' uri := by
        rw [hmacOutputLength, hmacOutputLength]
        rcases hpair.child_texts h.refilled hout Ns.DSIG "HMACOutputLength" with
          ⟨hd, hd'⟩ | ⟨d, d', hd, hd', htext, -⟩
        · rw [hd, hd']
        · simp only [hd, hd', htext]
      have hpq : Bergshamra.pqContext lib.toTransformLibs c uri
          = Bergshamra.pqContext lib.toTransformLibs c' uri := by
        rw [Bergshamra.pqContext, Bergshamra.pqContext]
        rcases hpair.child_texts h.refilled hout Ns.XMLSEC_PQ "MLDSAContextString" with
          ⟨hd, hd'⟩ | ⟨d, d', hd, hd', htext, -⟩
        · rw [hd, hd', Option.none_or, Option.none_or]
          rcases hpair.child_texts h.refilled hout Ns.XMLSEC_PQ "SLHDSAContextString" with
            ⟨hd, hd'⟩ | ⟨d, d', hd, hd', htext, -⟩
          · rw [hd, hd']
          · simp only [hd, hd', htext]
        · simp only [hd, hd', Option.some_or, htext]
      simp only [hc, hc', hmac, hpq]
  · rw [methodOf, methodOf]
    rcases @NextStage.info_part _ _ _ _ _ h "SignatureMethod" (by decide) with
      ⟨hn, hn'⟩ | ⟨c, c', hc, hc', hpair, hout⟩
    · rw [hn, hn']
    · have hcut : truncateHmac c uri = truncateHmac c' uri := by
        funext sig
        rw [truncateHmac, truncateHmac]
        rcases hpair.child_texts h.refilled hout Ns.DSIG "HMACOutputLength" with
          ⟨hd, hd'⟩ | ⟨d, d', hd, hd', -, htext⟩
        · rw [hd, hd']
        · simp only [hd, hd', htext]
      have hpq : pqContext lib.toTransformLibs c uri = pqContext lib.toTransformLibs c' uri := by
        rw [pqContext, pqContext]
        rcases hpair.child_texts h.refilled hout Ns.XMLSEC_PQ "MLDSAContextString" with
          ⟨hd, hd'⟩ | ⟨d, d', hd, hd', -, htext⟩
        · rw [hd, hd', Option.none_or, Option.none_or]
          rcases hpair.child_texts h.refilled hout Ns.XMLSEC_PQ "SLHDSAContextString" with
            ⟨hd, hd'⟩ | ⟨d, d', hd, hd', -, htext⟩
          · rw [hd, hd']
          · simp only [hd, hd', htext]
        · simp only [hd, hd', Option.some_or, htext]
      rw [hc, hc', Option.map_some, Option.map_some, hcut, hpq]

theorem sameMethods_from (h : Relation.ReflTransGen FilledFrom a b) : SameMethods a b := by
  induction h with
  | refl => exact ⟨fun _ _ => rfl, rfl, fun _ _ => rfl, fun _ => rfl, rfl⟩
  | tail _ hstep ih =>
      obtain ⟨ks, hnext⟩ := hstep
      exact ih.trans (sameMethods_next hnext)

end Methods

/-! ## The stages of a run -/

section Stages

variable {lex : Lexicon} {lib : SigningLibs} {ctx : SigningContext} {src : Source} {doc : Document}
  {parts : TemplateParts} {texts : Nat → String} {signature : ByteArray} {unkeyed signed : String}

/-- The source with the digests and the SignatureValue. -/
def valuedSource (lex : Lexicon) (lib : SigningLibs) (ctx : SigningContext) (src : Source)
    (doc : Document) (parts : TemplateParts) (texts : Nat → String) (signature : ByteArray) :
    Source :=
  filledSource lex lib.toSignLibs
    (reached lib.toSignLibs src doc
      (digestsOf lib.toSignLibs ctx.resources ctx.allIdAttrs texts) parts.refCount)
    "SignatureValue" (lib.base64Encode signature)

/-- What the parser, the writer and base64 make of the texts of a run. -/
structure RunIsRead (lex : Lexicon) (lib : SigningLibs) (ctx : SigningContext) (src : Source)
    (doc : Document) (parts : TemplateParts) (texts : Nat → String) (signature : ByteArray)
    (unkeyed signed : String) : Prop where
  digests : RunReads lex lib.toSignLibs ctx.resources ctx.allIdAttrs src doc texts parts.refCount
  value : ReadsAgain lex lib.toSignLibs (valuedSource lex lib ctx src doc parts texts signature)
  back : WrittenBack lex lib.toSignLibs (lib.base64Encode signature)
  ids : ∀ j ≤ parts.refCount, IdsRead lib.toSignLibs ctx.allIdAttrs (texts j)
  idsUnkeyed : IdsRead lib.toSignLibs ctx.allIdAttrs unkeyed
  idsSigned : IdsRead lib.toSignLibs ctx.allIdAttrs signed
  names : XmlIdNames lib.toUppsalaNs
  base64 : Base64Back lib.toSignLibs

/-- Everything is filled in where it belongs: each digest in its own Reference, the value of the
signature in the SignatureValue of the Signature, and the rest inside of its KeyInfo. -/
structure RunFillsOwn (lib : SigningLibs) (ctx : SigningContext) (parts : TemplateParts)
    (texts : Nat → String) (unkeyed signed : String) : Prop where
  digests : ∀ j < parts.refCount, FindsOwn lib.toSignLibs j (texts j)
  value : ∀ a : Stage lib.toDsigLibs ctx.allIdAttrs, a.xml = texts parts.refCount →
    ∃ sv, a.sig.findChildElement Ns.DSIG "SignatureValue" = some sv
      ∧ Fillable lib.toSignLibs a.xml a.doc "SignatureValue" sv
  keyInfo : ∀ u : Stage lib.toDsigLibs ctx.allIdAttrs, u.xml = unkeyed →
    ∃ doc' ks, lib.parse signed = .ok doc' ∧ Refilled ks u.doc doc'
      ∧ ∀ k ∈ ks, ∃ c ∈ u.sig.children, Node.isNamed c Ns.DSIG "KeyInfo" = true
        ∧ k ∈ Forest.Cursor.subtreeKeys c

/-- The stages of a run: with the digests, with the value of the signature, and the end. -/
structure RunStages (lib : SigningLibs) (ctx : SigningContext) (parts : TemplateParts)
    (texts : Nat → String) (signature : ByteArray) (signed : String)
    (start a u s : Stage lib.toDsigLibs ctx.allIdAttrs) (sv : Node) (ks : List NodeId) : Prop where
  textDigested : a.xml = texts parts.refCount
  textSigned : s.xml = signed
  digested : @Digested lib.toSignLibs ctx.allIdAttrs ctx.resources parts.refCount a
  from_start : Relation.ReflTransGen FilledFrom start a
  own : a.sig.findChildElement Ns.DSIG "SignatureValue" = some sv
  fills : Fills a.doc sv (lib.base64Encode signature) u.doc
  valued : NextStage [sv.key] a u
  keyed : NextStage ks u s
  inKeyInfo : ∀ k ∈ ks, ∃ c ∈ u.sig.children, Node.isNamed c Ns.DSIG "KeyInfo" = true
    ∧ k ∈ Forest.Cursor.subtreeKeys c

variable {start a u s : Stage lib.toDsigLibs ctx.allIdAttrs} {sv : Node} {ks : List NodeId}

/-- **A run goes through stages.** -/
theorem WholeRun.stages
    (hrun : WholeRun lib ctx (sourceText src) parts texts signature unkeyed signed)
    (hreads : RunIsRead lex lib ctx src doc parts texts signature unkeyed signed)
    (hfills : RunFillsOwn lib ctx parts texts unkeyed signed)
    (hstart : start.xml = sourceText src) (hready : @Ready lib.toSignLibs ctx.allIdAttrs start) :
    ∃ a u s sv ks, RunStages lib ctx parts texts signature signed start a u s sv ks := by
  obtain ⟨a, ha, hdig, hfrom⟩ := digested_run hreads.names hreads.base64 hrun.digests hreads.digests
    hfills.digests hreads.ids hstart hready parts.refCount (le_refl _)
  obtain ⟨hafter, -⟩ := after_turns hrun.digests hreads.digests
    (fun j hj => (hfills.digests j hj).fillsOwn) parts.refCount (le_refl _)
  have hread := hreads.digests.again parts.refCount (le_refl _) hafter.wellFormed hafter.nodup
  obtain ⟨sv, hown, hfill⟩ := hfills.value a ha
  have hparsed : lib.parse (sourceText (reached lib.toSignLibs src doc
      (digestsOf lib.toSignLibs ctx.resources ctx.allIdAttrs texts) parts.refCount))
      = .ok a.doc := by
    rw [← hafter.text, ← ha]
    exact a.parsed
  -- the SignatureValue of the stage with all digests
  rw [ha, hafter.text] at hfill
  obtain ⟨hvalue, hnext⟩ := replaceFirstEmptyElement_fills hreads.digests.laws hafter.nodup
    hafter.wellFormed hread hreads.value hreads.back hparsed hfill
  rw [← hafter.text, hrun.value, Except.ok.injEq] at hvalue
  obtain ⟨g, -, doc', hreads'⟩ := hreads.value
  have hdoc' : lib.parse unkeyed = .ok doc' := by
    have hp := hreads'.parsed
    rw [Forest.text_mapKeys] at hp
    rw [hvalue]
    exact hp
  have hf : Fills a.doc sv (lib.base64Encode signature) doc' := hnext doc' (hvalue ▸ hdoc')
  have hsv : sv.isNamed Ns.DSIG "SignatureValue" = true := hfill.named
  have hon : a.OnSites [sv.key] := by
    intro k hk
    refine ⟨sv, .outlet (Node.findChildElement_some hown).1 (Or.inl hsv), ?_⟩
    rw [List.mem_singleton.mp hk]
    exact List.mem_cons_self
  obtain ⟨u, hu, hudoc⟩ := exists_stage hf.refilled hon hdoc' hreads.idsUnkeyed
  subst hudoc
  obtain ⟨doc'', ks, hsigned, hkeyed, hinside⟩ := hfills.keyInfo u hu
  -- whatever is filled in last is inside of the KeyInfo
  have honu : u.OnSites ks := by
    intro k hk
    obtain ⟨c, hc, hname, hin⟩ := hinside k hk
    exact ⟨c, .outlet hc (Or.inr hname), hin⟩
  obtain ⟨s, hs, hsdoc⟩ := exists_stage hkeyed honu hsigned hreads.idsSigned
  subst hsdoc
  exact ⟨a, u, s, sv, ks, ha, hs, hdig, hfrom, hown, hf, ⟨hf.refilled, hon⟩, ⟨hkeyed, honu⟩, hinside⟩

/-- What is filled in after the digests is outside of the SignedInfo. -/
theorem RunStages.outside (h : RunStages lib ctx parts texts signature signed start a u s sv ks) :
    (∀ k ∈ [sv.key], k ∉ a.signedInfo.subtreeKeys) ∧ ∀ k ∈ ks, k ∉ u.signedInfo.subtreeKeys := by
  constructor
  · intro k hk
    obtain ⟨hchild, hname⟩ := Node.findChildElement_some h.own
    rw [List.mem_singleton.mp hk]
    exact children_apart a.sig_nodup hchild a.info_child
      (Stage.outlet_ne (Or.inl (Node.isNamed_iff.mpr hname))) List.mem_cons_self
  · intro k hk
    obtain ⟨c, hc, hname, hin⟩ := h.inKeyInfo k hk
    exact children_apart u.sig_nodup hc u.info_child (Stage.outlet_ne (Or.inr hname)) hin

/-- **What is signed is the SignedInfo of the text that is returned.** -/
theorem RunStages.octets (h : RunStages lib ctx parts texts signature signed start a u s sv ks) :
    signedOctets a.doc parts a.signedInfo = signedOctets s.doc parts s.signedInfo := by
  obtain ⟨houta, houtu⟩ := h.outside
  exact (h.valued.signedInfo_octets houta _ _).trans (h.keyed.signedInfo_octets houtu _ _)

theorem RunStages.methods (h : RunStages lib ctx parts texts signature signed start a u s sv ks) :
    SameMethods start a ∧ SameMethods a s :=
  ⟨sameMethods_from h.from_start,
    (sameMethods_next h.valued).trans (sameMethods_next h.keyed)⟩

/-- The References stay verified to the end. -/
theorem RunStages.verified (h : RunStages lib ctx parts texts signature signed start a u s sv ks) :
    @Digested lib.toSignLibs ctx.allIdAttrs ctx.resources parts.refCount s := by
  obtain ⟨houta, houtu⟩ := h.outside
  exact (h.digested.next h.valued houta).next h.keyed houtu

/-- The SignatureValue at the end. -/
theorem RunStages.value (h : RunStages lib ctx parts texts signature signed start a u s sv ks)
    (hback : Base64Back lib.toSignLibs) :
    Bergshamra.signatureValue lib.toTransformLibs s.sig = .ok signature := by
  have hnamed : sv.isNamed Ns.DSIG "SignatureValue" = true :=
    Node.isNamed_iff.mpr (Node.findChildElement_some h.own).2
  rcases h.valued.sig.findChildElement h.valued.refilled h.valued.onSites.sig_not_mem Ns.DSIG
    "SignatureValue" with ⟨hnone, -⟩ | ⟨v, v', hv, hv', hpair⟩
  · rw [h.own] at hnone
    cases hnone
  · rw [h.own, Option.some.injEq] at hv
    subst hv
    rcases h.keyed.sig.findChildElement h.keyed.refilled h.keyed.onSites.sig_not_mem Ns.DSIG
      "SignatureValue" with ⟨hnone, -⟩ | ⟨w, w', hw, hw', hpair'⟩
    · rw [hv'] at hnone
      cases hnone
    · rw [hv', Option.some.injEq] at hw
      subst hw
      -- the KeyInfo is another child than the SignatureValue
      have hout : v'.key ∉ ks := by
        intro hin
        obtain ⟨c, hc, hname, hbelow⟩ := h.inKeyInfo _ hin
        obtain ⟨hchild, e, he, hsv⟩ := Node.findChildElement_some hv'
        refine children_apart u.sig_nodup hc hchild (fun hsame => ?_) hbelow List.mem_cons_self
        rw [hsame, Node.isNamed, he, Option.any_some, Element.not_isNamed hsv (by decide)] at hname
        cases hname
      rw [Bergshamra.signatureValue, hw']
      simp only [← hpair'.elementText_eq h.keyed.refilled hout, h.fills.content v' hpair,
        hback signature]

end Stages

/-! ## Verification of what was signed -/

/-- Every child of the SignatureMethod holds one piece of text. -/
def OnePiece (signedInfo : Node) : Prop :=
  ∀ sigMethod, signedInfo.findChildElement Ns.DSIG "SignatureMethod" = some sigMethod →
    ∀ c ∈ sigMethod.children, Node.elementText c = some (Node.textContentDeep c)
      ∨ Node.elementText c = none ∧ Node.textContentDeep c = ""

/-- What the key `sk` signs, the key `vk` verifies: the whole of the signature, or the leading
octets of a MAC that a declared length leaves, which is not more than there are. -/
structure KeyPair (lib : SignatureLibs) (uri : String) (context : Option ByteArray)
    (hmacBits : Option Nat) (sk vk : SigningKey) : Prop where
  verify : ∀ alg, fromUriWithContext lib uri context = .ok alg → ∀ m s, alg.sign sk m = .ok s →
    alg.verify vk m s = .ok true
  truncated : ∀ bits, hmacBits = some bits → ∀ alg, fromUriWithContext lib uri context = .ok alg →
    ∀ m s, alg.sign sk m = .ok s → bits / 8 ≤ s.size
      ∧ alg.verifyTruncated vk m (s.extract 0 (bits / 8)) (bits / 8) = .ok true

section Verdict

variable {sigMethod : Node} {uri : String}

theorem piece_text {c : Node} (h : c.elementText = some c.textContentDeep
    ∨ c.elementText = none ∧ c.textContentDeep = "") :
    parameterText c = trimStr c.textContentDeep := by
  rw [parameterText]
  rcases h with h | ⟨h, htext⟩
  · rw [h, Option.getD_some]
  · rw [h, htext, Option.getD_none]

/-- Both sides read the same context. -/
theorem pqContext_eq {lib : TransformLibs}
    (hpiece : ∀ c ∈ sigMethod.children, Node.elementText c = some (Node.textContentDeep c)
      ∨ Node.elementText c = none ∧ Node.textContentDeep c = "") :
    pqContext lib sigMethod uri = Bergshamra.pqContext lib sigMethod uri := by
  rw [pqContext, Bergshamra.pqContext]
  cases hc : (sigMethod.findChildElement Ns.XMLSEC_PQ "MLDSAContextString").or
      (sigMethod.findChildElement Ns.XMLSEC_PQ "SLHDSAContextString") with
  | none => rfl
  | some c =>
      have hchild : c ∈ sigMethod.children := by
        rcases Option.or_eq_some_iff.mp hc with h | ⟨-, h⟩
        · exact (Node.findChildElement_some h).1
        · exact (Node.findChildElement_some h).1
      have htext := piece_text (hpiece c hchild)
      by_cases hpq : isPqAlgorithm uri = true
      · rw [if_pos hpq, if_pos hpq]
        simp only [htext]
        by_cases hempty : trimStr c.textContentDeep = ""
        · rw [if_pos hempty, if_pos (String.isEmpty_iff.mpr hempty)]
        · have hne : ¬ (trimStr c.textContentDeep).isEmpty = true :=
            fun he => hempty (String.isEmpty_iff.mp he)
          exact (if_neg hne).trans (if_neg hempty).symm
      · rw [if_neg hpq, if_neg hpq]

/-- What is left of a MAC, for a declared length that verification accepts. -/
theorem truncateHmac_of {ctx : DsigContext} {hmacBits : Option Nat}
    (hpiece : ∀ c ∈ sigMethod.children, Node.elementText c = some (Node.textContentDeep c)
      ∨ Node.elementText c = none ∧ Node.textContentDeep c = "")
    (h : hmacOutputLength ctx sigMethod uri = .ok hmacBits) (sig : ByteArray) :
    hmacBits = none ∧ truncateHmac sigMethod uri sig = sig
      ∨ ∃ bits, hmacBits = some bits
        ∧ truncateHmac sigMethod uri sig
          = if bits / 8 < sig.size then sig.extract 0 (bits / 8) else sig := by
  rw [hmacOutputLength] at h
  rw [truncateHmac]
  cases hhmac : isHmacAlgorithm uri with
  | false =>
      rw [hhmac] at h
      cases h
      exact Or.inl ⟨rfl, rfl⟩
  | true =>
      rw [hhmac, if_pos rfl] at h
      rw [if_pos rfl]
      cases hc : sigMethod.findChildElement Ns.DSIG "HMACOutputLength" with
      | none =>
          rw [hc] at h
          cases h
          exact Or.inl ⟨rfl, rfl⟩
      | some c =>
          rw [hc] at h
          simp only [piece_text (hpiece c (Node.findChildElement_some hc).1),
            parseHmacOutputLength] at h
          -- both readers see the same piece of text
          cases hbits : parseUnsigned? usizeMax (trimStr c.textContentDeep).toList with
          | none =>
              rw [hbits] at h
              cases h
          | some bits =>
              simp only [hbits] at h
              split at h
              · cases h
              · rename_i hmod
                split at h
                · cases h
                · cases h
                  refine Or.inr ⟨bits, rfl, ?_⟩
                  simp only [hbits, not_not.mp hmod, true_and]

/-- The loop over References that all verify. -/
theorem verifyReferences_of_all {lib : DsigLibs} {res : Resources} {doc : Document} {idMap : IdMap}
    {xml : String} {sigNode : NodeId} {refs : List Node}
    (h : ∀ r ∈ refs, ∃ vref, verifyReference lib res doc idMap xml sigNode r = .ok (none, vref)) :
    ∃ vrefs, verifyReferences lib res doc idMap xml sigNode refs = .ok vrefs
      ∧ vrefs.length = refs.length := by
  induction refs with
  | nil => exact ⟨[], rfl, rfl⟩
  | cons r rest ih =>
      obtain ⟨vref, hv⟩ := h r List.mem_cons_self
      obtain ⟨vrefs, hvs, hlen⟩ := ih fun r' hr' => h r' (List.mem_cons_of_mem _ hr')
      refine ⟨vref :: vrefs, ?_, by rw [List.length_cons, List.length_cons, hlen]⟩
      simp only [verifyReferences, hv, orStop, Except.mapError, bind, Except.bind, hvs]

end Verdict

section Whole

variable {lex : Lexicon} {lib : SignVerifyLibs} {ctx : SigningContext} {vctx : DsigContext}
  {src : Source} {doc : Document} {parts : TemplateParts} {texts : Nat → String}
  {signature : ByteArray} {unkeyed signed : String} {hmacBits : Option Nat}
  {context : Option ByteArray} {sk : SigningKey}

/-- What was read of the template, at its stage. -/
theorem readTemplate_stage {lib : SignLibs} {idAttrs : List String}
    {start : Stage lib.toDsigLibs idAttrs} (h : readTemplate lib idAttrs start.xml = .ok parts) :
    (∃ c14nUri, algorithmOf lib.toUppsala start.signedInfo "CanonicalizationMethod" = .ok c14nUri
        ∧ c14nModeOf c14nUri = .ok parts.c14nMode)
      ∧ algorithmOf lib.toUppsala start.signedInfo "SignatureMethod" = .ok parts.sigMethodUri
      ∧ parts.inclusivePrefixes = c14nPrefixes lib.toUppsala start.signedInfo
      ∧ parts.refCount = start.references.length := by
  rw [readTemplate] at h
  obtain ⟨d, hd, h⟩ := bind_eq_ok.mp h
  obtain ⟨m, -, h⟩ := bind_eq_ok.mp h
  rw [parseXml_stage, Except.ok.injEq] at hd
  subst hd
  obtain ⟨n, hn, h⟩ := bind_eq_ok.mp h
  rw [start.requireSignature, Except.ok.injEq] at hn
  subst hn
  obtain ⟨si, hsi, h⟩ := bind_eq_ok.mp h
  rw [start.requireInfo, Except.ok.injEq] at hsi
  subst hsi
  obtain ⟨c14nUri, hc14n, h⟩ := bind_eq_ok.mp h
  obtain ⟨mode, hmode, h⟩ := bind_eq_ok.mp h
  obtain ⟨uri, huri, h⟩ := bind_eq_ok.mp h
  cases h
  exact ⟨⟨c14nUri, hc14n, hmode⟩, huri, rfl, rfl⟩

/-- What verification reads of a stage. -/
theorem readSignature_stage {lib : DsigLibs} {idAttrs : List String} {s : Stage lib idAttrs}
    {c14nUri sigMethodUri : String} {mode : C14nMode}
    (hc14n : algorithmOf lib.toUppsala s.signedInfo "CanonicalizationMethod" = .ok c14nUri)
    (hmode : c14nModeOf c14nUri = .ok mode)
    (huri : algorithmOf lib.toUppsala s.signedInfo "SignatureMethod" = .ok sigMethodUri)
    (hparams : signatureParameters lib.toTransformLibs vctx s.signedInfo sigMethodUri
      = .ok (hmacBits, context)) :
    readSignature lib.toTransformLibs vctx s.doc
      = .ok ⟨s.sig, s.signedInfo, mode, c14nPrefixes lib.toUppsala s.signedInfo, sigMethodUri,
        hmacBits, context⟩ := by
  simp only [readSignature, s.requireSignature, s.requireInfo, hc14n, hmode, huri, hparams, orStop,
    Except.mapError, bind, Except.bind]

/-- The signature of a software key, at the stage that is signed. -/
theorem computeSignature_stage {lib : SigningLibs} {a : Stage lib.toDsigLibs ctx.allIdAttrs}
    (hsoft : ctx.hsmSigner = none) (h : computeSignature lib ctx parts a.xml = .ok signature) :
    ∃ key sk sigMethod context alg sig, ctx.keysManager.firstKey = .ok key
      ∧ key.toSigningKey = some sk
      ∧ a.signedInfo.findChildElement Ns.DSIG "SignatureMethod" = some sigMethod
      ∧ pqContext lib.toTransformLibs sigMethod parts.sigMethodUri = .ok context
      ∧ fromUriWithContext lib.toSignatureLibs parts.sigMethodUri context = .ok alg
      ∧ alg.sign sk (signedOctets a.doc parts a.signedInfo) = .ok sig
      ∧ signature = truncateHmac sigMethod parts.sigMethodUri sig := by
  rw [computeSignature, parseXml_stage] at h
  simp only [a.requireSignature, a.requireInfo, bind, Except.bind, hsoft] at h
  rw [softwareSignature] at h
  obtain ⟨key, hkey, h⟩ := bind_eq_ok.mp h
  cases hsk : key.toSigningKey with
  | none =>
      rw [hsk] at h
      cases h
  | some sk =>
      rw [hsk] at h
      obtain ⟨sm, hsm, h⟩ := bind_eq_ok.mp h
      obtain ⟨context, hcontext, h⟩ := bind_eq_ok.mp h
      obtain ⟨alg, halg, h⟩ := bind_eq_ok.mp h
      obtain ⟨sig, hsign, h⟩ := bind_eq_ok.mp h
      cases h
      refine ⟨key, sk, sm, context, alg, sig, hkey, hsk, ?_, hcontext, halg, hsign, rfl⟩
      rw [requireChild] at hsm
      cases hfind : a.signedInfo.findChildElement Ns.DSIG "SignatureMethod" with
      | none =>
          rw [hfind] at hsm
          cases hsm
      | some found =>
          rw [hfind] at hsm
          rw [Except.ok.inj hsm]

/-- The verifier finds a key that belongs to the one that signs. -/
def VerifierHasKey (lib : SignVerifyLibs) (vctx : DsigContext) (idMap : IdMap) (sig : Node)
    (uri : String) (context : Option ByteArray) (hmacBits : Option Nat) (sk : SigningKey) : Prop :=
  ∃ chosen vk, chooseKey lib.toKeyResolutionLibs vctx idMap sig = .ok chosen
    ∧ checkCertificates lib.toKeyLibs vctx chosen = .ok ()
    ∧ chosen.key.toSigningKey = some vk
    ∧ KeyPair lib.toSignatureLibs uri context hmacBits sk vk

/-- **The signature verifies**, whole or truncated. -/
theorem KeyPair.verdict {lib : SignatureLibs} {sigNode signedInfo : Node} {mode : C14nMode}
    {prefixes : List String} {uri : String} {key : Key} {vk : SigningKey}
    (hpair : KeyPair lib uri context hmacBits sk vk) (hkey : key.toSigningKey = some vk)
    {alg : SignatureAlgorithm} (halg : fromUriWithContext lib uri context = .ok alg)
    {m sig : ByteArray} (hsign : alg.sign sk m = .ok sig) {value : ByteArray}
    (hvalue : hmacBits = none ∧ value = sig ∨ ∃ bits, hmacBits = some bits
      ∧ value = if bits / 8 < sig.size then sig.extract 0 (bits / 8) else sig) :
    checkLength hmacBits value = .ok ()
      ∧ checkSignature lib ⟨sigNode, signedInfo, mode, prefixes, uri, hmacBits, context⟩ key m value
        = .ok true := by
  rw [checkSignature, hkey]
  rcases hvalue with ⟨rfl, rfl⟩ | ⟨bits, rfl, hcut⟩
  · simp only [checkLength, halg, bind, Except.bind, hpair.verify alg halg m value hsign, and_self]
  · obtain ⟨hsize, htruncated⟩ := hpair.truncated bits rfl alg halg m sig hsign
    have hwhole : value = sig.extract 0 (bits / 8) := by
      rw [hcut]
      split
      · rfl
      · have heq : bits / 8 = sig.size := by omega
        rw [heq, ByteArray.extract_zero_size]
    have hlen : value.size = bits / 8 := by
      rw [hwhole, ByteArray.size_extract]
      omega
    refine ⟨by rw [checkLength]; exact if_pos hlen, ?_⟩
    simp only [halg, bind, Except.bind]
    rw [hwhole]
    exact htruncated

/-- **What is signed verifies.** -/
theorem sign_verify
    (hrun : WholeRun lib.toSigningLibs ctx (sourceText src) parts texts signature unkeyed signed)
    (hreads : RunIsRead lex lib.toSigningLibs ctx src doc parts texts signature unkeyed signed)
    (hfills : RunFillsOwn lib.toSigningLibs ctx parts texts unkeyed signed)
    {start : Stage lib.toSigningLibs.toDsigLibs ctx.allIdAttrs}
    (hstart : start.xml = sourceText src)
    (hready : @Ready lib.toSigningLibs.toSignLibs ctx.allIdAttrs start)
    (hres : vctx.resources = ctx.resources) (hids : vctx.allIdAttrs = ctx.allIdAttrs)
    (hstrict : vctx.strictVerification = false) (hsoft : ctx.hsmSigner = none)
    (hsoft' : vctx.hsmVerifier = none)
    (hparams : signatureParameters lib.toSigningLibs.toTransformLibs vctx start.signedInfo
      parts.sigMethodUri = .ok (hmacBits, context))
    (hpiece : OnePiece start.signedInfo)
    (hkeys : ∀ s : Stage lib.toSigningLibs.toDsigLibs ctx.allIdAttrs, s.xml = signed →
      ∀ key, ctx.keysManager.firstKey = .ok key → ∀ sk, key.toSigningKey = some sk →
        VerifierHasKey lib vctx s.idMap s.sig parts.sigMethodUri context hmacBits sk) :
    ∃ result, verify lib.toVerifyLibs vctx signed = .ok (.valid result)
      ∧ result.references.length = parts.refCount := by
  obtain ⟨a, u, s, sv, ks, h⟩ := hrun.stages hreads hfills hstart hready
  obtain ⟨hbefore, hafter⟩ := h.methods
  have hread := hrun.read
  rw [← hstart] at hread
  obtain ⟨⟨c14nUri, hc14n, hmode⟩, huri, hprefixes, hcount⟩ := readTemplate_stage hread
  have hcomputed := hrun.computed
  rw [← h.textDigested] at hcomputed
  obtain ⟨key, sk, sm, context', alg, sig, hkey, hsk, hsm, hcontext, halg, hsign, hsigned⟩ :=
    computeSignature_stage hsoft hcomputed
  -- the parameters of the template are those that signing went by
  cases hsm₀ : start.signedInfo.findChildElement Ns.DSIG "SignatureMethod" with
  | none =>
      rw [signatureParameters, hsm₀] at hparams
      cases hparams
  | some sm₀ =>
      have hmethod := hbefore.method parts.sigMethodUri
      rw [methodOf, methodOf, hsm₀, hsm, Option.map_some, Option.map_some, Option.some.injEq,
        Prod.mk.injEq] at hmethod
      have hparams₀ := hparams
      rw [signatureParameters, hsm₀] at hparams₀
      obtain ⟨bits, hbits, hparams₀⟩ := bind_eq_ok.mp hparams₀
      obtain ⟨pq, hpq, hparams₀⟩ := bind_eq_ok.mp hparams₀
      cases hparams₀
      rw [orStop_ok] at hpq
      have hsame : context' = context := by
        rw [hcontext, pqContext_eq (hpiece sm₀ hsm₀), hpq, Except.ok.injEq] at hmethod
        exact hmethod.1.symm
      subst hsame
      have hcut := truncateHmac_of (hpiece sm₀ hsm₀) hbits sig
      rw [hmethod.2, ← hsigned] at hcut
      obtain ⟨chosen, vk, hchosen, hcerts, hvk, hpair⟩ := hkeys s h.textSigned key hkey sk hsk
      have hall := (hbefore.trans hafter)
      rw [hall.algorithm _ (by decide)] at hc14n huri
      rw [hall.prefixes] at hprefixes
      rw [hall.count] at hcount
      rw [hall.parameters] at hparams
      obtain ⟨vrefs, hvrefs, hlength⟩ := @verifyReferences_of_all lib.toSigningLibs.toDsigLibs
        vctx.resources s.doc s.idMap s.xml s.sig.key s.references fun r hr => by
          obtain ⟨i, hi⟩ := List.mem_iff_getElem?.mp hr
          rw [hres]
          refine h.verified.verified i ?_ r hi
          rw [hcount]
          exact (List.getElem?_eq_some_iff.mp hi).1
      obtain ⟨hlen, hcheck⟩ := @KeyPair.verdict _ _ _ _ s.sig s.signedInfo parts.c14nMode
        parts.inclusivePrefixes _ _ _ hpair hvk _ halg _ _ hsign _ hcut
      have hoctets := h.octets
      have hvalue := h.value hreads.base64
      refine ⟨⟨s.sig, vrefs, ⟨chosen.key.data.algorithmName, chosen.key.name,
        chosen.key.x509Chain⟩⟩, verify_valid.mpr ⟨s.doc, h.textSigned ▸ s.parsed, ?_⟩,
        hlength.trans hcount.symm⟩
      refine verifyDocument_ok.mpr ⟨s.idMap, ⟨s.sig, s.signedInfo, parts.c14nMode,
        parts.inclusivePrefixes, parts.sigMethodUri, hmacBits, context'⟩, vrefs, signature, _,
        ?_, ?_, ?_, ?_, hvalue, hlen, ?_, rfl⟩
      · rw [hids]
        exact s.ids
      · rw [hprefixes]
        exact readSignature_stage hc14n hmode huri hparams
      · rw [← h.textSigned]
        exact hvrefs
      · rw [checkPositions, hstrict]
        rfl
      · rw [signatureVerdict, hsoft']
        refine softwareVerdict_ok.mpr ⟨chosen, hchosen, hcerts, ?_, rfl⟩
        have hcanonical : canonicalSignedInfo s.doc ⟨s.sig, s.signedInfo, parts.c14nMode,
            parts.inclusivePrefixes, parts.sigMethodUri, hmacBits, context'⟩
            = signedOctets a.doc parts a.signedInfo := hoctets.symm
        rw [hcanonical]
        exact hcheck

end Whole

/-! ## A KeyInfo with nothing to fill in -/

/-- **Without an element to fill in, the KeyInfo is left alone.** -/
theorem populateKeyInfo_self {lib : SigningLibs} {manager : KeysManager} {key : Key} {xml : String}
    {doc : Document} (hdoc : lib.parse xml = .ok doc)
    (hchain : key.x509Chain = [] ∨ doc.findElement Ns.DSIG "X509Data" = none)
    (hvalue : doc.findElement Ns.DSIG "KeyValue" = none)
    (hder : doc.findElement Ns.DSIG11 "DEREncodedKeyValue" = none)
    (henc : ∀ n ∈ doc.descendants, isEncryptedKey n = false) :
    populateKeyInfo lib manager key xml = .ok xml := by
  have hparse : parseXml lib.toSignLibs xml = .ok doc := by
    rw [parseXml, hdoc]
  have hx509 : populateChain lib key xml = .ok xml := by
    rw [populateChain]
    rcases hchain with hempty | hnone
    · rw [hempty]
      rfl
    · split
      · rfl
      · simp only [populateX509Data, hparse, bind, Except.bind, hnone]
  have htasks : doc.descendants.filterMap (wrapTask lib.toUppsala manager) = [] := by
    rw [List.filterMap_eq_nil_iff]
    intro n hn
    rw [wrapTask, henc n hn]
    rfl
  have hsession : encryptSessionKeyInTemplate lib xml key manager = .ok xml := by
    rw [encryptSessionKeyInTemplate]
    split
    · rfl
    · simp only [hparse, bind, Except.bind, htasks]
      rfl
  simp only [populateKeyInfo, hx509, populateKeyValue, populateDerEncodedKeyValue, hparse, hvalue, hder,
    hsession, bind, Except.bind]

/-! ## References along fillings -/

section Along

variable {lib : SignLibs} {idAttrs : List String} {res : Resources} {i : Nat}
  {a b : Stage lib.toDsigLibs idAttrs}

/-- Something is filled in, but not the digest of the Reference with the number `i`. -/
def Spares (i : Nat) (a b : Stage lib.toDsigLibs idAttrs) : Prop :=
  ∃ ks, NextStage ks a b ∧ ∀ r dv, a.references[i]? = some r → ownDigestValue r = some dv →
    dv.key ∉ ks

/-- **A Reference that verifies keeps verifying**, whatever is filled in after it, in any order:
the digests of others, the SignatureValue, the KeyInfo. -/
theorem verified_along (h : Relation.ReflTransGen (Spares i) a b)
    (hrem : ∀ r, a.references[i]? = some r →
      startsWithStr "cid:" (referenceUri lib.toUppsala r) = false → a.Remote r)
    (hver : ∀ r, a.references[i]? = some r → a.Verifies res r) :
    ∀ r, b.references[i]? = some r → b.Verifies res r
      ∧ (startsWithStr "cid:" (referenceUri lib.toUppsala r) = false → b.Remote r) := by
  induction h with
  | refl => exact fun r hr => ⟨hver r hr, hrem r hr⟩
  | tail _ hstep ih =>
      obtain ⟨ks, hnext, hspared⟩ := hstep
      intro r' hr'
      obtain ⟨r, hr, hrr⟩ := reference_at hnext hr'
      have hmem := List.mem_of_getElem? hr
      obtain ⟨hv, hremote⟩ := ih r hr
      have huri := hrr.referenceUri_eq hnext.refilled (hnext.onSites.reference_not_mem hmem)
        lib.toUppsala
      refine ⟨hnext.verifies hmem hrr hremote (fun dv hdv => hspared r dv hr hdv) hv, ?_⟩
      rw [← huri]
      exact fun hcid => hnext.remote hmem hrr (hremote hcid)

end Along

/-! ## A letter, signed and verified -/

/-- The octets of a Reference whose only transform takes the Signature out. -/
theorem referenceOctets_enveloped {lib : TransformLibs} {xml : String} {doc : Document}
    {r t : Node} (hdoc : lib.parse xml = .ok doc) (hts : transformNodes r = [t])
    (ht : transformUri lib.toUppsala t = Algorithm.ENVELOPED_SIGNATURE) (sigId : NodeId)
    (nodeSet : Option NodeSet) :
    referenceOctets lib sigId r (.xml xml nodeSet)
      = .ok (canonicalizeDoc doc .inclusive (some (envelopedNodeSet sigId doc nodeSet)) []) := by
  rw [referenceOctets, hts, List.foldlM_cons, transformStep, ht, applyTransform_enveloped,
    EnvelopedSignatureTransform.execute_xml hdoc]
  exact canonicalize_ok hdoc _ _ _

/-- The digest of a Reference to the whole document. -/
theorem referenceDigest_whole {lib : SignLibs} {res : Resources} {doc : Document} {idMap : IdMap}
    {xml digestUri : String} {sigId : NodeId} {r : Node} {octets value : ByteArray}
    (halg : algorithmOf lib.toUppsala r "DigestMethod" = .ok digestUri)
    (huri : referenceUri lib.toUppsala r = "")
    (hoctets : referenceOctets lib.toTransformLibs sigId r
      (.xml xml (some (NodeSet.allWithoutComments doc))) = .ok octets)
    (hvalue : lib.digest digestUri octets = .ok value) :
    referenceDigest lib res doc idMap xml sigId r = .ok (lib.base64Encode value) := by
  have hdata : signReferenceData lib.toDsigLibs res doc idMap xml ""
      = .ok (.xml xml (some (NodeSet.allWithoutComments doc)) none) := by
    rw [signReferenceData, dereference]
    exact if_pos rfl
  rw [referenceDigest, halg, huri]
  simp only [hdata, bind, Except.bind, ResolvedUri.data, hoctets, hvalue]

theorem readTemplate_eq {lib : SignLibs} {idAttrs : List String}
    {a : Stage lib.toDsigLibs idAttrs} {m : IdMap} {c14nUri uri : String} {mode : C14nMode}
    (hm : buildIdMap lib.toUppsalaNs a.doc idAttrs = .ok m)
    (hc14n : algorithmOf lib.toUppsala a.signedInfo "CanonicalizationMethod" = .ok c14nUri)
    (hmode : c14nModeOf c14nUri = .ok mode)
    (huri : algorithmOf lib.toUppsala a.signedInfo "SignatureMethod" = .ok uri) :
    readTemplate lib idAttrs a.xml
      = .ok ⟨mode, c14nPrefixes lib.toUppsala a.signedInfo, uri, a.references.length⟩ := by
  rw [readTemplate, parseXml_stage]
  simp only [hm, a.requireSignature, a.requireInfo, hc14n, hmode, huri, bind, Except.bind,
    Stage.references]

theorem computeSignature_eq {lib : SigningLibs} {a : Stage lib.toDsigLibs ctx.allIdAttrs}
    (hsoft : ctx.hsmSigner = none) :
    computeSignature lib ctx parts a.xml = softwareSignature lib ctx.keysManager a.signedInfo
      parts.sigMethodUri (signedOctets a.doc parts a.signedInfo) := by
  rw [computeSignature, parseXml_stage]
  simp only [a.requireSignature, a.requireInfo, bind, Except.bind, hsoft]

/-- A signature under a method without parameters. -/
theorem softwareSignature_eq {lib : SigningLibs} {manager : KeysManager} {signedInfo sm : Node}
    {uri : String} {key : Key} {sk : SigningKey} {alg : SignatureAlgorithm}
    {octets value : ByteArray} (hkey : manager.firstKey = .ok key)
    (hsk : key.toSigningKey = some sk)
    (hsm : signedInfo.findChildElement Ns.DSIG "SignatureMethod" = some sm)
    (hpq : isPqAlgorithm uri = false)
    (halg : fromUriWithContext lib.toSignatureLibs uri none = .ok alg)
    (hlength : sm.findChildElement Ns.DSIG "HMACOutputLength" = none)
    (hvalue : alg.sign sk octets = .ok value) :
    softwareSignature lib manager signedInfo uri octets = .ok value := by
  have hcontext : pqContext lib.toTransformLibs sm uri = .ok none := by
    rw [pqContext, hpq]
    rfl
  rw [softwareSignature, hkey]
  simp only [hsk, requireChild, hsm, hcontext, halg, hvalue, truncateHmac, hlength, ite_self, bind,
    Except.bind]

namespace LetterSample

open TurnSample (method blankTag docOf nodeAt documentOf_docOf)

/-- An element that is to hold a text, and one that holds it. -/
def blank (key : NodeId) (name : String) : Source := .node key ⟨name.toList, [], [], none⟩ .nil .nil

def holding (key text : NodeId) (name content : String) : Source :=
  .node key (bareTag name.toList) (.leaf text (.text content.toList) .nil) .nil

/-- A letter that is signed by the Signature inside of it. -/
def letter (digestValue signatureValue : Source) : Source :=
  .node 1 (bareTag "Letter".toList)
    (.leaf 2 (.text "Dear all".toList)
      (.node 3 (fieldTag "Signature".toList "xmlns".toList Ns.DSIG (some []))
        (.node 4 (bareTag "SignedInfo".toList)
          (method 5 "CanonicalizationMethod" Algorithm.EXC_C14N
            (method 6 "SignatureMethod" Algorithm.HMAC_SHA256
              (.node 7 (fieldTag "Reference".toList "URI".toList "" (some []))
                (.node 8 (bareTag "Transforms".toList)
                  (method 9 "Transform" Algorithm.ENVELOPED_SIGNATURE .nil)
                  (method 10 "DigestMethod" "http://www.w3.org/2001/04/xmlenc#sha256"
                    digestValue)) .nil)))
          signatureValue) .nil)) .nil

def digestText : String := "5c/hI65ZF20kpam0Qhs6uQvsaX1YjyM8coqRqaUblvI="

def macText : String := "ats5mYZUKP/PGAabSiH01fjapOiBUJMynkeM57bn7yM="

def unsigned : Source := letter (blank 11 "DigestValue") (blank 12 "SignatureValue")

def digested : Source := letter (holding 11 13 "DigestValue" digestText) (blank 12 "SignatureValue")

def complete : Source :=
  letter (holding 11 13 "DigestValue" digestText) (holding 12 14 "SignatureValue" macText)

def table : List Source := [unsigned, digested, complete]

/-- The letter without its Signature, and its digest. -/
def letterText : List Char := "<Letter>Dear all</Letter>".toList

def digestOctets : List UInt8 :=
  [229, 207, 225, 35, 174, 89, 23, 109, 36, 165, 169, 180, 66, 27, 58, 185, 11, 236, 105, 125, 88,
    143, 35, 60, 114, 138, 145, 169, 165, 27, 150, 242]

/-- The SignedInfo with that digest, and its MAC. -/
def infoText : List Char :=
  "<SignedInfo xmlns=\"http://www.w3.org/2000/09/xmldsig#\">".toList
    ++ "<CanonicalizationMethod Algorithm=\"".toList
    ++ "http://www.w3.org/2001/10/xml-exc-c14n#\"></CanonicalizationMethod>".toList
    ++ "<SignatureMethod Algorithm=\"".toList
    ++ "http://www.w3.org/2001/04/xmldsig-more#hmac-sha256\"></SignatureMethod>".toList
    ++ "<Reference URI=\"\"><Transforms><Transform Algorithm=\"".toList
    ++ "http://www.w3.org/2000/09/xmldsig#enveloped-signature\"></Transform>".toList
    ++ "</Transforms><DigestMethod Algorithm=\"".toList
    ++ "http://www.w3.org/2001/04/xmlenc#sha256\"></DigestMethod><DigestValue>".toList
    ++ "5c/hI65ZF20kpam0Qhs6uQvsaX1YjyM8coqRqaUblvI=</DigestValue>".toList
    ++ "</Reference></SignedInfo>".toList

def macOctets : List UInt8 :=
  [106, 219, 57, 153, 134, 84, 40, 255, 207, 24, 6, 155, 74, 33, 244, 213, 248, 218, 164, 232, 129,
    80, 147, 50, 158, 71, 140, 231, 182, 231, 239, 35]

def sha : ByteArray → ByteArray := sumOr letterText digestOctets

def mac (key octets : ByteArray) : ByteArray :=
  if key = ⟨#[7]⟩ then sumOr infoText macOctets octets else octets

/-- Libraries that know these documents. -/
def signLib : SignLibs :=
  { tableLib table sha with
    getAttributeNs := fun e _ name => (tableLib table sha).getAttribute e ("xml:" ++ name) }

def lib : SignVerifyLibs :=
  { signLib, VerifyLibs.ofParser signLib.parse with
    computeHmac := fun _ key octets => mac key octets
    wrapKey := fun _ _ _ => .error (.unsupportedAlgorithm "key wrap") }

def manager : KeysManager := ⟨[.new (.hmac ⟨#[7]⟩) .any], [], [], []⟩

def ctx : SigningContext := { DsigContext.ofManager manager with hsmSigner := none }

def unsignedDoc : Document := docOf unsigned (by decide +kernel)

def digestedDoc : Document := docOf digested (by decide +kernel)

def completeDoc : Document := docOf complete (by decide +kernel)

theorem table_entries : ∀ src ∈ table, table.find? (fun s => s.text spelling == src.text spelling)
    = some src ∧ (0 :: src.keys).Nodup ∧ WellFormed plainLexicon src := by
  decide +kernel

theorem signLib_parse : signLib.parse = tableParse plainLexicon table := tableLib_parse table sha

theorem lib_parse : lib.toSigningLibs.toSignLibs.toUppsala.parse = tableParse plainLexicon table := by
  rw [lib]
  exact signLib_parse

theorem lib_nodeRange : lib.toSigningLibs.toSignLibs.nodeRange = tableRange table := by
  rw [lib, signLib, tableLib_nodeRange]

theorem reads_entry {src : Source} (hmem : src ∈ table) (doc : Document)
    (hdoc : documentOf plainLexicon src = .ok doc) :
    ReadsTemplate plainLexicon lib.toSigningLibs.toSignLibs src doc := by
  obtain ⟨hfind, hkeys, hwf⟩ := table_entries src hmem
  have hentry : entryOf? table (sourceText src) = some src := (entryOf?_ofList _).trans hfind
  obtain ⟨doc', hparsed, hreads⟩ := @reads_table plainLexicon table
    lib.toSigningLibs.toSignLibs.toUppsala lib.toSigningLibs.toSignLibs.nodeRange src lib_parse
    lib_nodeRange hentry hkeys hwf
  have hboth := hparsed
  rw [lib_parse, tableParse, ← sourceText, hentry] at hboth
  rw [Except.ok.inj (hdoc.symm.trans hboth)]
  exact hreads

theorem readsAgain_entry {src : Source} (hmem : src ∈ table) :
    ReadsAgain plainLexicon lib.toSigningLibs.toSignLibs src := by
  obtain ⟨doc, hdoc, -⟩ := @documentOf_eq plainLexicon src (table_entries src hmem).2.1
  refine ⟨id, Function.injective_id, doc, ?_⟩
  rw [Forest.mapKeys_id]
  exact reads_entry hmem doc hdoc

theorem unsigned_mem : unsigned ∈ table := List.mem_cons_self

theorem digested_mem : digested ∈ table := List.mem_cons_of_mem _ List.mem_cons_self

theorem complete_mem : complete ∈ table := List.mem_of_getLast? rfl

theorem reads_unsigned :
    ReadsTemplate plainLexicon lib.toSigningLibs.toSignLibs unsigned unsignedDoc :=
  reads_entry unsigned_mem _ (documentOf_docOf _ _)

theorem reads_digested :
    ReadsTemplate plainLexicon lib.toSigningLibs.toSignLibs digested digestedDoc :=
  reads_entry digested_mem _ (documentOf_docOf _ _)

theorem reads_complete :
    ReadsTemplate plainLexicon lib.toSigningLibs.toSignLibs complete completeDoc :=
  reads_entry complete_mem _ (documentOf_docOf _ _)

/-- A text without a colon does not mislead. -/
theorem not_colonMisleads {src : Source} {doc : Document}
    (h : ReadsTemplate plainLexicon lib.toSigningLibs.toSignLibs src doc) {n : Node}
    (hmem : n ∈ doc.descendants) {name : List Char}
    (hblank : ∀ c ∈ src.cursors [], c.key = n.key → c.item = .node ⟨name, [], [], none⟩ .nil)
    (hcolon : Text.splitOnce [':']
      (Forest.nodeText spelling (⟨name, [], [], none⟩ : Tag) (.nil : Source)) = none) :
    ¬ ColonMisleads lib.toSigningLibs.toSignLibs (sourceText src) n := by
  rintro ⟨e, he, -, before, after, hsplit, -⟩
  obtain ⟨c, t, kids, hp⟩ := exists_place h hmem he
  have hitem := hp.item.symm.trans (hblank c hp.mem hp.key)
  cases hitem
  rw [originalOf, hp.original_eq h hmem, String.toList_ofList] at hsplit
  cases hcolon.symm.trans hsplit

/-- The nodes of the letter. -/
def reference : Node := nodeAt unsignedDoc 6

def digestValue : Node := nodeAt unsignedDoc 10

def valueNode : Node := nodeAt digestedDoc 12

def parts : TemplateParts := ⟨.exclusive, [], Algorithm.HMAC_SHA256, 1⟩

/-- What is read of a document of the table: no ids, and its Signature. -/
def IsStage (doc : Document) : Prop :=
  Bergshamra.buildIdMap lib.toUppsala doc ctx.allIdAttrs = .ok []
    ∧ doc.findElement Ns.DSIG "Signature" = some (nodeAt doc 2)
    ∧ (nodeAt doc 2).findChildElement Ns.DSIG "SignedInfo" = some (nodeAt doc 3)

instance (doc : Document) : Decidable (IsStage doc) := inferInstanceAs (Decidable (_ ∧ _ ∧ _))

theorem stages : IsStage unsignedDoc ∧ IsStage digestedDoc ∧ IsStage completeDoc := by
  decide +kernel

/-- The Reference of the letter, and its turn. -/
theorem turn_facts :
    buildIdMap lib.toSigningLibs.toUppsalaNs unsignedDoc ctx.allIdAttrs = .ok []
    ∧ (nodeAt unsignedDoc 3).findChildElements Ns.DSIG "Reference" = [reference]
    ∧ isPending lib.toSigningLibs.toSignLibs reference = true
    ∧ algorithmOf lib.toUppsala reference "DigestMethod"
      = .ok "http://www.w3.org/2001/04/xmlenc#sha256"
    ∧ (ownDigestValue reference = some digestValue
      ∧ firstEmptyElement unsignedDoc "DigestValue" = some digestValue
      ∧ hasElementChild digestValue = false
      ∧ scopeNamespace digestValue.path (prefixOf digestValue) = some Ns.DSIG
      ∧ Text.splitOnce [':'] (Forest.nodeText spelling
        (⟨"DigestValue".toList, [], [], none⟩ : Tag) (.nil : Source)) = none)
    ∧ (∀ c ∈ unsigned.cursors [], c.key = digestValue.key →
        c.item = .node ⟨"DigestValue".toList, [], [], none⟩ .nil)
    ∧ filledSource plainLexicon lib.toSigningLibs.toSignLibs unsigned "DigestValue" digestText = digested
    ∧ (transformNodes reference = [nodeAt unsignedDoc 8]
      ∧ transformUri lib.toUppsala (nodeAt unsignedDoc 8) = Algorithm.ENVELOPED_SIGNATURE
      ∧ referenceUri lib.toUppsala reference = "")
    ∧ (algorithmOf lib.toUppsala (nodeAt unsignedDoc 3) "CanonicalizationMethod"
        = .ok Algorithm.EXC_C14N
      ∧ algorithmOf lib.toUppsala (nodeAt unsignedDoc 3) "SignatureMethod"
        = .ok Algorithm.HMAC_SHA256
      ∧ c14nPrefixes lib.toUppsala (nodeAt unsignedDoc 3) = []) := by
  decide +kernel

/-- The SignatureValue of the letter. -/
theorem value_facts :
    ((nodeAt digestedDoc 2).findChildElement Ns.DSIG "SignatureValue" = some valueNode
      ∧ firstEmptyElement digestedDoc "SignatureValue" = some valueNode
      ∧ valueNode.isNamed Ns.DSIG "SignatureValue" = true
      ∧ scopeNamespace valueNode.path (prefixOf valueNode) = some Ns.DSIG
      ∧ Text.splitOnce [':'] (Forest.nodeText spelling
        (⟨"SignatureValue".toList, [], [], none⟩ : Tag) (.nil : Source)) = none)
    ∧ (∀ c ∈ digested.cursors [], c.key = valueNode.key →
        c.item = .node ⟨"SignatureValue".toList, [], [], none⟩ .nil)
    ∧ filledSource plainLexicon lib.toSigningLibs.toSignLibs digested "SignatureValue" macText
      = complete
    ∧ (completeDoc.findElement Ns.DSIG "KeyValue" = none
      ∧ completeDoc.findElement Ns.DSIG11 "DEREncodedKeyValue" = none
      ∧ ∀ n ∈ completeDoc.descendants, isEncryptedKey n = false)
    ∧ ((nodeAt completeDoc 2).findChildElement Ns.DSIG "KeyInfo" = none
      ∧ (nodeAt completeDoc 3).findChildElements Ns.DSIG "Reference" = [nodeAt completeDoc 6])
    ∧ (nodeAt digestedDoc 3).findChildElement Ns.DSIG "SignatureMethod"
      = some (nodeAt digestedDoc 5)
    ∧ (nodeAt digestedDoc 5).findChildElement Ns.DSIG "HMACOutputLength" = none := by
  decide +kernel

/-- The canonical texts of the letter and of its SignedInfo, and what is written for them. -/
theorem octet_facts :
    (canonicalText unsignedDoc .inclusive (some (envelopedNodeSet (nodeAt unsignedDoc 2).key
        unsignedDoc (some (NodeSet.allWithoutComments unsignedDoc)))) [] = letterText
      ∧ canonicalText digestedDoc parts.c14nMode
        (some (NodeSet.treeWithoutComments (nodeAt digestedDoc 3))) parts.inclusivePrefixes
          = infoText)
    ∧ (lib.toSigningLibs.base64Encode ⟨digestOctets.toArray⟩ = digestText
      ∧ lib.toSigningLibs.base64Encode ⟨macOctets.toArray⟩ = macText)
    ∧ (∀ content ∈ [digestText, macText],
      plainLexicon.text (lib.toSigningLibs.toSignLibs.writeText content).toList
        = some content.toList)
    ∧ hmacSupported lib.toSignatureLibs Algorithm.HMAC_SHA256 = true := by
  decide +kernel

abbrev LetterStage := Stage lib.toSigningLibs.toDsigLibs ctx.allIdAttrs

/-- The stage of a document of the table. -/
def stageOf {src : Source} {doc : Document}
    (h : ReadsTemplate plainLexicon lib.toSigningLibs.toSignLibs src doc) (hs : IsStage doc) :
    LetterStage where
  xml := sourceText src
  doc := doc
  idMap := []
  sig := nodeAt doc 2
  signedInfo := nodeAt doc 3
  parsed := h.parsed
  ids := hs.1
  signature := hs.2.1
  info := hs.2.2

def start : LetterStage := stageOf reads_unsigned stages.1

def middle : LetterStage := stageOf reads_digested stages.2.1

def last : LetterStage := stageOf reads_complete stages.2.2

def texts : Nat → String
  | 0 => sourceText unsigned
  | _ => sourceText digested

theorem lib_signLibs : lib.toSigningLibs.toSignLibs = signLib := by
  rw [lib]

theorem base64Back : Base64Back lib.toSigningLibs.toSignLibs := by
  rw [lib_signLibs]
  intro bytes
  have hword : ∀ c ∈ (signLib.base64Encode bytes).toList, Text.isWhitespace c = false :=
    fun c hc => (tableLib_alphabet table sha bytes c hc).1
  rw [trimStr_word hword, withoutWhitespace_word hword]
  exact tableLib_decoded table sha bytes

theorem xmlIdNames : XmlIdNames lib.toSigningLibs.toUppsalaNs := by
  rw [lib_signLibs]
  exact fun e v h => h

theorem laws : WriterLaws lib.toSigningLibs.toSignLibs := by
  rw [lib_signLibs]
  have h := tableLib_laws table sha
  exact ⟨h.start, h.stop, h.startField, h.emptyField⟩

theorem ready : @Ready lib.toSigningLibs.toSignLibs ctx.allIdAttrs start := by
  obtain ⟨-, hrefs, hpending, -, -, -, -, ⟨htransforms, henveloped, huri⟩, -⟩ := turn_facts
  have hone : start.references = [reference] := hrefs
  have hfragment : fragmentId (referenceUri lib.toUppsala reference) = none := by
    rw [huri]
    decide
  constructor
  · intro r hr _
    rw [hone, List.mem_singleton] at hr
    rw [hr]
    refine ⟨fun t ht => ?_, Or.inl hfragment, Or.inl ⟨_, [], htransforms, henveloped⟩⟩
    rw [htransforms, List.mem_singleton] at ht
    rw [ht]
    exact Or.inl henveloped
  · intro r hr _
    rw [hone, List.mem_singleton] at hr
    rw [hr]
    exact hpending

theorem start_parsed : lib.toSigningLibs.toSignLibs.parse (sourceText unsigned) = .ok unsignedDoc :=
  reads_unsigned.parsed

theorem ownSlot : OwnSlot lib.toSigningLibs.toSignLibs (sourceText unsigned) unsignedDoc reference
    digestValue := by
  obtain ⟨-, -, -, -, ⟨hown, hfirst, helem, hscope, hcolon⟩, hblank, -⟩ := turn_facts
  exact ⟨hown, hfirst, helem,
    not_colonMisleads reads_unsigned (firstEmptyElement_some hfirst).1 hblank hcolon, hscope⟩

theorem references_eq : (referencesOf unsignedDoc.top)[0]? = some reference := by
  have hrefs : referencesOf unsignedDoc.top = start.references :=
    @referencesOf_eq lib.toSigningLibs.toSignLibs _ start
  have hone : start.references = [reference] := turn_facts.2.1
  rw [hrefs, hone]
  rfl

theorem digest_back (content : String) (h : content = digestText ∨ content = macText) :
    WrittenBack plainLexicon lib.toSigningLibs.toSignLibs content := by
  have hmem : content ∈ [digestText, macText] := by
    rcases h with rfl | rfl
    · exact List.mem_cons_self
    · exact List.mem_cons_of_mem _ List.mem_cons_self
  exact Or.inr (octet_facts.2.2.1 content hmem)

/-- The digest of the Reference, which has the text of the letter in its Signature's absence. -/
theorem digest : referenceDigest lib.toSigningLibs.toSignLibs ctx.resources unsignedDoc []
    (sourceText unsigned) (nodeAt unsignedDoc 2).key reference = .ok digestText := by
  obtain ⟨-, -, -, halg, -, -, -, ⟨htransforms, henveloped, huri⟩, -⟩ := turn_facts
  have hoctets := @referenceOctets_enveloped lib.toSigningLibs.toTransformLibs
    (sourceText unsigned) unsignedDoc reference _ start_parsed htransforms henveloped
    (nodeAt unsignedDoc 2).key (some (NodeSet.allWithoutComments unsignedDoc))
  have hbytes : lib.toSigningLibs.digest "http://www.w3.org/2001/04/xmlenc#sha256"
      (canonicalizeDoc unsignedDoc .inclusive (some (envelopedNodeSet (nodeAt unsignedDoc 2).key
        unsignedDoc (some (NodeSet.allWithoutComments unsignedDoc)))) [])
      = .ok ⟨digestOctets.toArray⟩ := by
    rw [lib_signLibs]
    exact congrArg Except.ok (sumOr_known octet_facts.1.1)
  rw [@referenceDigest_whole lib.toSigningLibs.toSignLibs _ _ _ _ _ _ _ _ _ halg huri hoctets
    hbytes, octet_facts.2.1.1]

/-- The turn of the Reference. -/
theorem turn : signReference lib.toSigningLibs.toSignLibs ctx.resources ctx.allIdAttrs 0
      (sourceText unsigned) = .ok (sourceText digested)
    ∧ turnDigest lib.toSigningLibs.toSignLibs ctx.resources ctx.allIdAttrs 0 (sourceText unsigned)
      = .ok digestText := by
  obtain ⟨hids, -, hpending, -, -, -, hfilled, -⟩ := turn_facts
  obtain ⟨hsign, hturn⟩ := signReference_eq start_parsed hids stages.1.2.1 references_eq
  refine ⟨?_, hturn.trans digest⟩
  have hnext : ReadsAgain plainLexicon lib.toSigningLibs.toSignLibs
      (filledSource plainLexicon lib.toSigningLibs.toSignLibs unsigned "DigestValue" digestText) := by
    rw [hfilled]
    exact readsAgain_entry digested_mem
  have hwritten := (replaceFirstEmptyElement_fills laws reads_unsigned.nodup
    reads_unsigned.wellFormed (readsAgain_entry unsigned_mem) hnext (digest_back _ (Or.inl rfl))
    start_parsed ownSlot.fillable).1
  rw [hsign, fillReference_pending hpending digest, hwritten, hfilled]

theorem reached_one : reached lib.toSigningLibs.toSignLibs unsigned unsignedDoc
    (digestsOf lib.toSigningLibs.toSignLibs ctx.resources ctx.allIdAttrs texts) 1 = digested := by
  obtain ⟨-, -, hpending, -, -, -, hfilled, -⟩ := turn_facts
  have hreached := (After.start reads_unsigned (digestsOf lib.toSigningLibs.toSignLibs
    ctx.resources ctx.allIdAttrs texts)).reached_filled (readsAgain_entry unsigned_mem)
    start_parsed references_eq hpending ownSlot
  rw [@digestsOf_eq _ _ _ texts _ _ turn.2] at hreached
  exact hreached.trans hfilled

theorem encoded : lib.toSigningLibs.base64Encode ⟨macOctets.toArray⟩ = macText :=
  octet_facts.2.1.2

theorem value_fillable : Fillable lib.toSigningLibs.toSignLibs (sourceText digested) digestedDoc
    "SignatureValue" valueNode := by
  obtain ⟨⟨-, hfirst, hnamed, hscope, hcolon⟩, hblank, -⟩ := value_facts
  exact ⟨hfirst, hnamed,
    not_colonMisleads reads_digested (firstEmptyElement_some hfirst).1 hblank hcolon, hscope⟩

theorem run : Run lib.toSigningLibs.toSignLibs ctx.resources ctx.allIdAttrs (sourceText unsigned) 1
    texts where
  start := rfl
  turn j hj := by
    obtain rfl : j = 0 := by omega
    exact turn.1

theorem readsAgain_valued : ReadsAgain plainLexicon lib.toSigningLibs.toSignLibs
    (filledSource plainLexicon lib.toSigningLibs.toSignLibs digested "SignatureValue" macText) := by
  rw [value_facts.2.2.1]
  exact readsAgain_entry complete_mem

/-- The SignatureMethod of the letter is empty. -/
theorem method_facts :
    (nodeAt unsignedDoc 3).findChildElement Ns.DSIG "SignatureMethod" = some (nodeAt unsignedDoc 5)
    ∧ (nodeAt unsignedDoc 5).children = [] ∧ isPqAlgorithm Algorithm.HMAC_SHA256 = false := by
  decide +kernel

/-- What is read of the template. -/
theorem read : readTemplate lib.toSigningLibs.toSignLibs ctx.allIdAttrs start.xml
    = .ok parts := by
  obtain ⟨hids, hrefs, -, -, -, -, -, -, hc14n, hmethod, hprefixes⟩ := turn_facts
  have hmode : c14nModeOf Algorithm.EXC_C14N = .ok .exclusive := rfl
  have hnone : c14nPrefixes lib.toSigningLibs.toUppsala start.signedInfo = [] := hprefixes
  have hone : start.references = [reference] := hrefs
  rw [@readTemplate_eq lib.toSigningLibs.toSignLibs _ start _ _ _ _ hids hc14n hmode hmethod, hnone,
    hone]
  rfl

/-- The signature algorithm of the letter. -/
theorem algorithm : fromUriWithContext lib.toSignatureLibs Algorithm.HMAC_SHA256 none
    = .ok (hmacSign lib.toSignatureLibs Algorithm.HMAC_SHA256) := by
  rw [fromUriWithContext, if_pos octet_facts.2.2.2]

/-- What the key of the letter makes of octets. -/
theorem sign_eq (octets : ByteArray) : (hmacSign lib.toSignatureLibs Algorithm.HMAC_SHA256).sign
    (.hmac ⟨#[7]⟩) octets
      = .ok (lib.toSignatureLibs.computeHmac Algorithm.HMAC_SHA256 ⟨#[7]⟩ octets) := rfl

theorem signs : (hmacSign lib.toSignatureLibs Algorithm.HMAC_SHA256).sign (.hmac ⟨#[7]⟩)
    (signedOctets digestedDoc parts (nodeAt digestedDoc 3)) = .ok ⟨macOctets.toArray⟩ := by
  have hmac : lib.toSignatureLibs.computeHmac = fun _ key octets => mac key octets := by rw [lib]
  rw [sign_eq, hmac]
  exact congrArg Except.ok ((if_pos rfl).trans (sumOr_known octet_facts.1.2))

theorem constantTimeEq_self (value : ByteArray) :
    lib.toSignatureLibs.constantTimeEq value value = true := by
  have heq : lib.toSignatureLibs.constantTimeEq = fun a b => a == b := by rw [lib]; rfl
  rw [heq]
  cases value with
  | mk data => exact beq_self_eq_true data

/-- The value of the signature. -/
theorem computed :
    computeSignature lib.toSigningLibs ctx parts middle.xml = .ok ⟨macOctets.toArray⟩ := by
  obtain ⟨-, -, -, -, -, hmethod, hlength⟩ := value_facts
  rw [@computeSignature_eq _ _ lib.toSigningLibs middle rfl]
  exact softwareSignature_eq rfl rfl hmethod method_facts.2.2 algorithm hlength signs

theorem wholeRun : WholeRun lib.toSigningLibs ctx (sourceText unsigned) parts texts
    ⟨macOctets.toArray⟩ (sourceText complete) (sourceText complete) := by
  obtain ⟨-, -, hfilled, ⟨hvalue, hder, henc⟩, -⟩ := value_facts
  refine ⟨read, run, computed, ?_, Or.inr ⟨rfl, _, rfl, ?_⟩⟩
  · have hwritten := (replaceFirstEmptyElement_fills laws reads_digested.nodup
      reads_digested.wellFormed (readsAgain_entry digested_mem) readsAgain_valued
      (digest_back _ (Or.inr rfl)) reads_digested.parsed value_fillable).1
    rw [hfilled] at hwritten
    rw [encoded]
    exact hwritten
  · exact populateKeyInfo_self reads_complete.parsed (Or.inl rfl) hvalue hder henc

theorem idsRead {src : Source} {doc : Document}
    (h : ReadsTemplate plainLexicon lib.toSigningLibs.toSignLibs src doc) (hs : IsStage doc) :
    IdsRead lib.toSigningLibs.toSignLibs ctx.allIdAttrs (sourceText src) := by
  intro d hd
  have hsame : d = doc := Except.ok.inj (hd.symm.trans h.parsed)
  rw [hsame]
  exact ⟨[], hs.1⟩

theorem runReads : RunIsRead plainLexicon lib.toSigningLibs ctx unsigned unsignedDoc parts texts
    ⟨macOctets.toArray⟩ (sourceText complete) (sourceText complete) where
  digests :=
    { laws := laws
      template := reads_unsigned
      again := fun j hj _ _ => by
        rcases (by have : parts.refCount = 1 := rfl; omega : j = 0 ∨ j = 1) with rfl | rfl
        · exact readsAgain_entry unsigned_mem
        · rw [reached_one]
          exact readsAgain_entry digested_mem
      back := fun j hj digest hdigest => by
        obtain rfl : j = 0 := by
          have : parts.refCount = 1 := rfl
          omega
        cases turn.2.symm.trans hdigest
        exact digest_back _ (Or.inl rfl) }
  value := by
    have hone : parts.refCount = 1 := rfl
    rw [valuedSource, hone, reached_one, encoded]
    exact readsAgain_valued
  back := by
    rw [encoded]
    exact digest_back _ (Or.inr rfl)
  ids j hj := by
    cases j with
    | zero => exact idsRead reads_unsigned stages.1
    | succ j => exact idsRead reads_digested stages.2.1
  idsUnkeyed := idsRead reads_complete stages.2.2
  idsSigned := idsRead reads_complete stages.2.2
  names := xmlIdNames
  base64 := base64Back

theorem runFills : RunFillsOwn lib.toSigningLibs ctx parts texts (sourceText complete)
    (sourceText complete) where
  digests j hj := by
    obtain rfl : j = 0 := by
      have : parts.refCount = 1 := rfl
      omega
    intro doc hdoc r hr _
    cases start_parsed.symm.trans hdoc
    cases references_eq.symm.trans hr
    exact ⟨digestValue, ownSlot⟩
  value a ha := by
    have hsame : a = middle :=
      @stage_eq lib.toSigningLibs.toSignLibs _ a middle (ha.trans rfl)
    rw [hsame]
    exact ⟨valueNode, value_facts.1.1, value_fillable⟩
  keyInfo u hu := by
    have hsame : u = last := @stage_eq lib.toSigningLibs.toSignLibs _ u last (hu.trans rfl)
    rw [hsame]
    exact ⟨completeDoc, [], reads_complete.parsed, Forest.AlikeBut.refl SameName.refl [] _,
      fun k hk => absurd hk List.not_mem_nil⟩

/-- The key of the letter verifies what it signs. -/
theorem keyPair : KeyPair lib.toSignatureLibs Algorithm.HMAC_SHA256 none none (.hmac ⟨#[7]⟩)
    (.hmac ⟨#[7]⟩) := by
  refine ⟨fun alg halg m s hs => ?_, fun bits hbits => by cases hbits⟩
  cases algorithm.symm.trans halg
  cases (sign_eq m).symm.trans hs
  exact congrArg Except.ok (constantTimeEq_self _)

theorem parameters : signatureParameters lib.toSigningLibs.toTransformLibs ctx.toDsigContext
    start.signedInfo Algorithm.HMAC_SHA256 = .ok (none, none) := by
  obtain ⟨hmethod, hempty, hpq⟩ := method_facts
  have hinfo : start.signedInfo = nodeAt unsignedDoc 3 := rfl
  have hnone : (nodeAt unsignedDoc 5).findChildElement Ns.DSIG "HMACOutputLength" = none := by
    rw [Node.findChildElement, hempty]
    rfl
  rw [hinfo, signatureParameters, hmethod]
  simp only [hmacOutputLength, hnone, ite_self, Bergshamra.pqContext, hpq, bind, Except.bind, orStop,
    Except.mapError]
  rfl

theorem onePiece : OnePiece start.signedInfo := by
  obtain ⟨hmethod, hempty, -⟩ := method_facts
  intro sigMethod hsm c hc
  cases hmethod.symm.trans hsm
  rw [hempty] at hc
  cases hc

theorem verifierHasKey (s : LetterStage) (hs : s.xml = sourceText complete) (key : Key)
    (hkey : ctx.keysManager.firstKey = .ok key) (sk : SigningKey) (hsk : key.toSigningKey = some sk) :
    VerifierHasKey lib ctx.toDsigContext s.idMap s.sig Algorithm.HMAC_SHA256 none none sk := by
  have hsame : s = last := @stage_eq lib.toSigningLibs.toSignLibs _ s last (hs.trans rfl)
  cases hkey
  cases hsk
  rw [hsame]
  refine ⟨.ofManager (.new (.hmac ⟨#[7]⟩) .any), .hmac ⟨#[7]⟩, ?_, rfl, rfl, keyPair⟩
  have hnone : last.sig.findChildElement Ns.DSIG "KeyInfo" = none := value_facts.2.2.2.2.1.1
  rw [chooseKey, hnone]
  rfl

/-- The SignatureValue is filled in. -/
theorem valued : NextStage [valueNode.key] middle last := by
  obtain ⟨⟨hown, -⟩, -, hfilled, -⟩ := value_facts
  have hfill := (replaceFirstEmptyElement_fills laws reads_digested.nodup
    reads_digested.wellFormed (readsAgain_entry digested_mem) readsAgain_valued
    (digest_back _ (Or.inr rfl)) reads_digested.parsed value_fillable).2
  rw [hfilled] at hfill
  refine ⟨(hfill completeDoc reads_complete.parsed).refilled, fun k hk => ?_⟩
  rw [List.mem_singleton.mp hk]
  exact ⟨valueNode, .outlet (Node.findChildElement_some hown).1 (Or.inl value_facts.1.2.2.1),
    List.mem_cons_self⟩

/-- The Reference of the letter is still verified when the SignatureValue is filled in. -/
theorem letter_along : last.Verifies ctx.resources (nodeAt completeDoc 6) := by
  obtain ⟨a, ha, hdigested, -⟩ := @digested_run plainLexicon lib.toSigningLibs.toSignLibs
    ctx.resources ctx.allIdAttrs unsigned unsignedDoc texts 1 xmlIdNames base64Back run
    runReads.digests runFills.digests runReads.ids start rfl ready 1 (le_refl 1)
  have hmiddle : a = middle :=
    @stage_eq lib.toSigningLibs.toSignLibs _ a middle (ha.trans rfl)
  rw [hmiddle] at hdigested
  have hspares : @Spares lib.toSigningLibs.toSignLibs ctx.allIdAttrs 0 middle last := by
    refine ⟨[valueNode.key], valued, fun r dv hr hdv hin => ?_⟩
    have hmem := List.mem_of_getElem? hr
    obtain ⟨hown, -⟩ := value_facts.1
    obtain ⟨hchild, hname⟩ := Node.findChildElement_some hown
    have hk : valueNode.key ∈ middle.signedInfo.subtreeKeys := by
      rw [← List.mem_singleton.mp hin]
      exact List.mem_cons_of_mem _ ((child_subtreeKeys (Stage.reference_child hmem)).subset
        (List.mem_cons_of_mem _ ((child_subtreeKeys (Stage.own_child hdv)).subset
          List.mem_cons_self)))
    exact children_apart middle.sig_nodup hchild middle.info_child
      (Stage.outlet_ne (Or.inl (Node.isNamed_iff.mpr hname))) List.mem_cons_self hk
  have hone : last.references = [nodeAt completeDoc 6] := value_facts.2.2.2.2.1.2
  exact (@verified_along lib.toSigningLibs.toSignLibs ctx.allIdAttrs ctx.resources 0 middle last
    (.single hspares) (fun r hr => hdigested.remote r (List.mem_of_getElem? hr))
    (fun r hr => hdigested.verified 0 Nat.one_pos r hr) _ (by rw [hone]; rfl)).1

/-- The letter is signed, and what is returned verifies. -/
theorem letter_verifies : ∃ result,
    verify lib.toVerifyLibs ctx.toDsigContext (sourceText complete) = .ok (.valid result)
      ∧ result.references.length = 1 :=
  @sign_verify plainLexicon lib ctx ctx.toDsigContext unsigned unsignedDoc parts texts
    ⟨macOctets.toArray⟩ (sourceText complete) (sourceText complete) none none wholeRun runReads
    runFills start rfl ready rfl rfl rfl rfl rfl parameters onePiece verifierHasKey

end LetterSample

end Sign

end Bergshamra
