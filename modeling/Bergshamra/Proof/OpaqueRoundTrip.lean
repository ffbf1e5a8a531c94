import Bergshamra.Proof.Filled
import Bergshamra.Proof.Placed
import Bergshamra.Dsig.Verify
import Bergshamra.Dsig.XPathBytes

/-!
# Decryption returns what was encrypted

Data pass encryption and decryption in four stages: the cipher and Base64, whose
inverses are assumed; the CipherValue, which keeps its name where its prefix means
in the CipherData what it meant on the element; the key, which both sides look for
in another order; and the place of the EncryptedData, into which a plaintext is put
that may be XML. What comes out is then converted when it declares ISO-8859-1.
-/

namespace Bergshamra

/-- What is assumed of ciphers and of the Base64 of a ciphertext. -/
structure EncLaws (lib : EncLibs) : Prop where
  keySize : ∀ uri key data c, (lib.cipher uri).encrypt key data = .ok c →
    key.size = keyLengthForAlgorithm uri
  inverts : ∀ uri key data c, (lib.cipher uri).encrypt key data = .ok c →
    (lib.cipher uri).decrypt key c = .ok data
  base64 : ∀ uri key data c, (lib.cipher uri).encrypt key data = .ok c →
    lib.base64Decode (lib.base64Encode c) = .ok c
  base64Word : ∀ uri key data c, (lib.cipher uri).encrypt key data = .ok c →
    ∀ ch ∈ (lib.base64Encode c).toList, Text.isWhitespace ch = false

/-- The type of the data. -/
def encTypeOf (up : Uppsala) (encData : Node) : String := (attributeOf up encData "Type").getD ""

namespace EncTemplate

variable {lib : EncLibs} {text : String}

/-- Decryption returns the plaintext and nothing else. -/
def Opaque (T : EncTemplate lib text) : Prop :=
  isOpaque lib.toUppsala T.encData (encTypeOf lib.toUppsala T.encData) = true

end EncTemplate

/-- A MIME type of XML. -/
def isXmlMime (mime : String) : Bool :=
  mime == "text/xml" || mime == "application/xml" || Text.endsWith "+xml".toList mime.toList

/-- The data are said not to be XML: the Type is neither Element nor Content, or there is no Type
and the MIME type is another. -/
def EncTemplate.OtherData {lib : EncLibs} {text : String} (T : EncTemplate lib text) : Prop :=
  match attributeOf lib.toUppsala T.encData "Type" with
  | some type => type ≠ Ns.ENC ++ "Element" ∧ type ≠ Ns.ENC ++ "Content"
  | none => ∃ mime, attributeOf lib.toUppsala T.encData "MimeType" = some mime
      ∧ isXmlMime mime = false

/-- The parser's range cuts a node out between two texts. -/
def CutOut (lib : EncLibs) (xml : String) (n : Node) (before after : List Char) : Prop :=
  ∃ start stop, lib.nodeRange xml n = some (start, stop)
    ∧ byteSlice xml.toList 0 start = .ok before
    ∧ byteSlice xml.toList stop xml.utf8ByteSize = .ok after

namespace EncTemplate

variable {lib : EncLibs} {text : String}

/-- What stands before and after the EncryptedData: the same once the template is filled, and
markup where it is more than a prolog. -/
structure Around (T : EncTemplate lib text) (before after : List Char) : Prop where
  template : CutOut lib text T.encData before after
  filled : ∀ key data c, (lib.cipher T.encUri).encrypt key data = .ok c →
    ∀ doc encData, lib.parse (T.filled (lib.base64Encode c)) = .ok doc →
      doc.findElement Ns.ENC "EncryptedData" = some encData →
        CutOut lib (T.filled (lib.base64Encode c)) encData before after
  markup : ¬ Alone before after → HasTag before ∨ HasTag after

/-- The end of decryption, where `before` and `after` stand around the EncryptedData. -/
def finish (T : EncTemplate lib text) (before after : List Char) (plaintext : List UInt8) :
    List UInt8 :=
  maybeConvertEncoding (placedBytes
    (isOpaque lib.toUppsala T.encData (encTypeOf lib.toUppsala T.encData)) before after plaintext)

/-- What makes decryption return the data. -/
structure Returns (T : EncTemplate lib text) (ctx : EncContext) (before after : List Char)
    (data : ByteArray) : Prop where
  keepsNamespace : T.KeepsNamespace
  opens : KeysAgree lib ctx T.encUri (keyChildren T.encData)
      ∧ PassesPlace (isOpaque lib.toUppsala T.encData (encTypeOf lib.toUppsala T.encData)) before
        after data.data.toList
    ∨ OpensByChance lib ctx T.encUri (keyChildren T.encData) (T.finish before after) data

end EncTemplate

/-! ## Encryption -/

section Encrypt

variable {lib : EncLibs} {ctx : EncContext} {text out : String} {data : ByteArray}

/-- Encryption of a template. -/
theorem EncTemplate.encrypt_eq (T : EncTemplate lib text) :
    encrypt lib ctx text data = (do
      let key ← resolveEncryptionKey lib ctx T.encData T.encUri
      let cipher ← cipherFromUri lib T.encUri
      let c ← cipher.encrypt key data
      encryptSessionKey lib ctx (T.filled (lib.base64Encode c)) key) := by
  unfold encrypt
  simp only [T.parsed, T.hasEncData, T.hasEncMethod, T.hasEncUri, T.hasCipherData,
    T.hasCipherValue, T.hasRange, T.hasCvXml, T.hasFront, T.hasBack, required, bind,
    Except.bind]
  rfl

/-- What encryption has done when it succeeds. -/
theorem EncTemplate.encrypt_ok (T : EncTemplate lib text)
    (h : encrypt lib ctx text data = .ok out) :
    ∃ key c, resolveEncryptionKey lib ctx T.encData T.encUri = .ok key
      ∧ cipherAlgorithms.contains T.encUri = true
      ∧ (lib.cipher T.encUri).encrypt key data = .ok c
      ∧ encryptSessionKey lib ctx (T.filled (lib.base64Encode c)) key = .ok out := by
  rw [T.encrypt_eq] at h
  simp only [bind, Except.bind, cipherFromUri] at h
  cases hkey : resolveEncryptionKey lib ctx T.encData T.encUri with
  | error e =>
      rw [hkey] at h
      cases h
  | ok key =>
      rw [hkey] at h
      by_cases halg : cipherAlgorithms.contains T.encUri = true
      · simp only [halg, if_true] at h
        cases hc : (lib.cipher T.encUri).encrypt key data with
        | error e =>
            rw [hc] at h
            cases h
        | ok c =>
            rw [hc] at h
            exact ⟨key, c, rfl, halg, hc, h⟩
      · simp only [halg, Bool.false_eq_true, if_false] at h
        cases h

theorem fillSessionKey_of_not {xml result : String} {sessionKey : ByteArray} {n : Node}
    (h : n.isNamed Ns.ENC "EncryptedKey" = false) :
    fillSessionKey lib ctx xml sessionKey result n = .ok result := by
  rw [fillSessionKey, emptyEncryptedKey?, h]
  rfl

/-- Without an EncryptedKey the filled text stays. -/
theorem encryptSessionKey_eq {xml : String} {sessionKey : ByteArray} {doc : Document}
    (hparse : lib.parse xml = .ok doc)
    (hno : ∀ n ∈ doc.descendants, n.isNamed Ns.ENC "EncryptedKey" = false) :
    encryptSessionKey lib ctx xml sessionKey = .ok xml := by
  have hfold : ∀ l : List Node, (∀ n ∈ l, n.isNamed Ns.ENC "EncryptedKey" = false) →
      l.foldlM (fillSessionKey lib ctx xml sessionKey) xml = .ok xml := by
    intro l hl
    induction l with
    | nil => rfl
    | cons n l ih =>
        rw [List.foldlM_cons, fillSessionKey_of_not (hl n List.mem_cons_self)]
        exact ih (fun m hm => hl m (List.mem_cons_of_mem _ hm))
  rw [encryptSessionKey, hparse]
  exact hfold _ hno

theorem encryptSessionKey_parses {xml : String} {sessionKey : ByteArray}
    (h : encryptSessionKey lib ctx xml sessionKey = .ok out) :
    ∃ doc, lib.parse xml = .ok doc := by
  unfold encryptSessionKey at h
  cases hparse : lib.parse xml with
  | error e =>
      rw [hparse] at h
      cases h
  | ok doc => exact ⟨doc, rfl⟩

end Encrypt

/-! ## The round trip -/

/-- Decryption from a key and the ciphertext on. -/
theorem decrypts_iff {lib : EncLibs} {encUri : String} {r : Except Error ByteArray}
    {c : ByteArray} {finish : List UInt8 → List UInt8} {data : List UInt8}
    (halg : cipherAlgorithms.contains encUri = true) :
    (do
      let keyBytes ← r
      let cipherBytes ← Except.ok c
      let cipher ← cipherFromUri lib encUri
      let plaintext ← cipher.decrypt (effectiveKey encUri keyBytes) cipherBytes
      Except.ok (finish plaintext.data.toList)) = .ok data
      ↔ ∃ k plain, r = .ok k ∧ (lib.cipher encUri).decrypt (effectiveKey encUri k) c = .ok plain
        ∧ finish plain.data.toList = data := by
  cases r with
  | error e => simp [bind, Except.bind]
  | ok k =>
      simp only [bind, Except.bind, cipherFromUri, halg, if_true]
      cases hplain : (lib.cipher encUri).decrypt (effectiveKey encUri k) c with
      | error e => simp [hplain]
      | ok plain => simp [hplain]

/-- What becomes of a plaintext whose place is known. -/
theorem replaceEncryptedDataBytes_cutOut {lib : EncLibs} {xml : String} {encData : Node}
    {encType : String} {before after : List Char}
    (hcut : isOpaque lib.toUppsala encData encType = false → CutOut lib xml encData before after)
    (plaintext : List UInt8) :
    replaceEncryptedDataBytes lib xml encData encType plaintext
      = .ok (placedBytes (isOpaque lib.toUppsala encData encType) before after plaintext) := by
  rw [replaceEncryptedDataBytes, placedBytes]
  cases hkind : isOpaque lib.toUppsala encData encType with
  | true => rw [if_pos rfl, if_pos rfl]
  | false =>
      obtain ⟨start, stop, hrange, hbefore, hafter⟩ := hcut hkind
      rw [if_neg Bool.false_ne_true, if_neg Bool.false_ne_true, hrange]
      simp only [hbefore, hafter, bind, Except.bind]
      by_cases halone : Alone before after
      · rw [if_pos halone, if_pos]
        simpa [Alone] using halone
      · rw [if_neg halone, if_neg]
        simpa [Alone] using halone

namespace EncTemplate

variable {lib : EncLibs} {ctx : EncContext} {text out : String} {data : ByteArray}
  {before after : List Char}

theorem SymmetricKey.noWrappedKey {T : EncTemplate lib text} (h : T.SymmetricKey) :
    NoWrappedKey (keyChildren T.encData) := by
  intro c hc
  refine ⟨?_, h.noRetrieval c hc⟩
  unfold keyChildren at hc
  cases hki : T.encData.findChildElement Ns.DSIG "KeyInfo" with
  | none =>
      rw [hki] at hc
      cases hc
  | some keyInfo =>
      rw [hki] at hc
      have hmem : ∀ {n d : Node}, n ∈ T.doc.descendants → d ∈ n.children → d ∈ T.doc.descendants :=
        fun hn hd => Forest.mem_cursors_descendants hn ((Forest.row_sublist _ _).subset hd)
      have hinfo := (Node.findChildElement_some hki).1
      exact h.noEncryptedKey c (hmem (hmem T.encData_mem hinfo) hc)

/-- Decryption of a filled template. -/
theorem decryptToBytes_filled (T : EncTemplate lib text) {doc : Document} {b64 : String}
    (hparse : lib.parse (T.filled b64) = .ok doc)
    (hshape : doc.top.shape = (T.filledTop b64).shape)
    (hcut : ¬ T.Opaque → ∀ encData, doc.findElement Ns.ENC "EncryptedData" = some encData →
      CutOut lib (T.filled b64) encData before after) :
    ∃ encData idMap cipherData,
      (keyChildren encData).map Node.bare = (keyChildren T.encData).map Node.bare
      ∧ cipherData.Alike (T.refilled b64 T.cipherData)
      ∧ decryptToBytes lib ctx (T.filled b64) = (do
          let keyBytes ← resolveDecryptionKey lib ctx doc encData idMap T.encUri
          let cipherBytes ← readCipherData lib ctx doc cipherData idMap
          let cipher ← cipherFromUri lib T.encUri
          let plaintext ← cipher.decrypt (effectiveKey T.encUri keyBytes) cipherBytes
          .ok (T.finish before after plaintext.data.toList)) := by
  obtain ⟨encData, hfind, halike⟩ := findElement_filled hshape
  have hmethod := @findChildElement_other _ _ T b64 Ns.ENC "EncryptionMethod" (by decide)
  rw [T.hasEncMethod] at hmethod
  obtain ⟨encMethod, hfindMethod, hmethodAlike⟩ := halike.findChildElement hmethod
  have hdata := T.findChildElement_encData b64 Ns.ENC "CipherData"
  rw [T.hasCipherData, Option.map_some] at hdata
  obtain ⟨cipherData, hfindData, hdataAlike⟩ := halike.findChildElement hdata
  have hattr : ∀ name, attributeOf lib.toUppsala encData name
      = attributeOf lib.toUppsala T.encData name := by
    intro name
    refine (halike.congr (f := fun n => attributeOf lib.toUppsala n name)
      (fun g n => attributeOf_mapKeys g n lib.toUppsala name)).trans ?_
    rw [attributeOf, refilled, element?_refill T.encData_ne, attributeOf]
  have huri : attributeOf lib.toUppsala encMethod "Algorithm" = some T.encUri := by
    refine (hmethodAlike.congr (f := fun n => attributeOf lib.toUppsala n "Algorithm")
      (fun g n => attributeOf_mapKeys g n lib.toUppsala "Algorithm")).trans T.hasEncUri
  have hkind : isOpaque lib.toUppsala encData (encTypeOf lib.toUppsala encData)
      = isOpaque lib.toUppsala T.encData (encTypeOf lib.toUppsala T.encData) := by
    unfold isOpaque encTypeOf
    rw [hattr, hattr]
  -- what is around the EncryptedData only counts where it is not opaque
  have hreplace := @replaceEncryptedDataBytes_cutOut lib (T.filled b64) encData
    (encTypeOf lib.toUppsala encData) before after
    (fun h => hcut (fun ho => by rw [Opaque, ← hkind, h] at ho; cases ho) encData hfind)
  rw [hkind] at hreplace
  simp only [encTypeOf] at hreplace
  have hkeys := keyChildren_alike halike
  rw [T.keyChildren_refilled] at hkeys
  refine ⟨encData, Decrypt.buildIdMap lib.toUppsala doc
    (["Id", "ID", "id", "AssertionID"] ++ ctx.idAttrs), cipherData, hkeys, hdataAlike, ?_⟩
  simp only [decryptToBytes, hparse, hfind, hfindMethod, huri, hfindData, required, bind,
    Except.bind, hreplace, encTypeOf, finish, effectiveKey]

/-- What encryption and decryption have done to the output of a template, up to the CipherValue. -/
theorem decryptToBytes_of_encrypt (laws : EncLaws lib) (T : EncTemplate lib text)
    (hreads : T.ReadsBack) (haround : ¬ T.Opaque → T.Around before after)
    (hsymmetric : T.SymmetricKey) (h : encrypt lib ctx text data = .ok out) :
    ∃ key c r, (lib.cipher T.encUri).encrypt key data = .ok c
      ∧ DecryptionKey lib ctx T.encUri (keyChildren T.encData) key r
      ∧ (T.KeepsNamespace → ∀ bytes, decryptToBytes lib ctx out = .ok bytes
        ↔ ∃ k plain, r = .ok k
          ∧ (lib.cipher T.encUri).decrypt (effectiveKey T.encUri k) c = .ok plain
          ∧ T.finish before after plain.data.toList = bytes)
      ∧ (¬ T.KeepsNamespace → T.OneCipherValue →
        ∀ bytes, decryptToBytes lib ctx out ≠ .ok bytes) := by
  obtain ⟨key, c, hkey, halg, hc, hsession⟩ := T.encrypt_ok h
  obtain ⟨doc, hparse⟩ := encryptSessionKey_parses hsession
  have hshape := hreads key data c hc doc hparse
  rw [encryptSessionKey_eq hparse (noEncryptedKey_filled hshape hsymmetric),
    Except.ok.injEq] at hsession
  subst hsession
  obtain ⟨encData, idMap, cipherData, hsame, hdata, hrun⟩ :=
    @decryptToBytes_filled lib ctx text before after T doc _ hparse hshape
      (fun ho encData hfind => (haround ho).filled key data c hc doc encData hparse hfind)
  refine ⟨key, c, _, hc,
    @decryptionKey_of_encryption lib ctx T.encUri T.encData encData doc idMap key
      hsymmetric.noWrappedKey hsame hkey, ?_, ?_⟩
  · intro hkeeps bytes
    have hread := @readCipherData_kept lib text T ctx doc idMap cipherData _ hkeeps hdata c
      (laws.base64Word _ _ _ _ hc) (laws.base64 _ _ _ _ hc)
    rw [hrun, hread]
    exact decrypts_iff halg
  · intro hlost hone bytes hok
    -- the CipherValue is not found
    have hread := @readCipherData_lost lib text T ctx doc idMap cipherData _ hlost hone hdata
    rw [hrun, hread] at hok
    cases hres : resolveDecryptionKey lib ctx doc encData idMap T.encUri with
    | error e =>
        rw [hres] at hok
        cases hok
    | ok k =>
        rw [hres] at hok
        cases hok

theorem finish_eq_iff {T : EncTemplate lib text} (haround : ¬ T.Opaque → T.Around before after)
    {bytes : List UInt8} :
    T.finish before after bytes = bytes
      ↔ PassesPlace (isOpaque lib.toUppsala T.encData (encTypeOf lib.toUppsala T.encData)) before
        after bytes := by
  refine convert_placed_eq_iff fun h => (haround ?_).markup
  intro ho
  rw [Opaque, h] at ho
  cases ho

/-- **The data come back.** Exactly when the CipherValue keeps its namespace, both sides come to one
key, and the data pass their place: opaque, or alone in the document with nothing in them to be
rewritten; and not declaring ISO-8859-1 around a character that has another code there. -/
theorem data_returns_iff (laws : EncLaws lib) (T : EncTemplate lib text) (hreads : T.ReadsBack)
    (haround : ¬ T.Opaque → T.Around before after) (hsymmetric : T.SymmetricKey)
    (hvalue : T.KeepsNamespace ∨ T.OneCipherValue) (h : encrypt lib ctx text data = .ok out) :
    decryptToBytes lib ctx out = .ok data.data.toList ↔ T.Returns ctx before after data := by
  obtain ⟨key, c, r, hc, hdecryption, hkept, hlost⟩ :=
    decryptToBytes_of_encrypt laws T hreads haround hsymmetric h
  have hown := effectiveKey_eq (laws.keySize _ _ _ _ hc)
  by_cases hkeeps : T.KeepsNamespace
  · refine (hkept hkeeps _).trans ⟨?_, ?_⟩
    · rintro ⟨k, plain, hk, hplain, hfinish⟩
      refine ⟨hkeeps, ?_⟩
      by_cases heff : effectiveKey T.encUri k = key
      · -- the key of encryption opens the ciphertext to the data
        rw [heff, laws.inverts _ _ _ _ hc, Except.ok.injEq] at hplain
        subst hplain
        exact Or.inl ⟨(hdecryption.agrees_iff hown).mpr ⟨k, hk, heff⟩,
          (finish_eq_iff haround).mp hfinish⟩
      · -- another key can only be one that was derived
        rw [hk] at hdecryption
        obtain ⟨hgiven, hderived⟩ := hdecryption.other hown heff
        refine Or.inr ⟨key, k, plain, hgiven, hderived, heff, fun c' hc' => ?_, hfinish⟩
        rw [hc, Except.ok.injEq] at hc'
        rw [← hc']
        exact hplain
    · rintro ⟨-, ⟨hagree, hpasses⟩ | ⟨k₀, k, plain, hgiven, hderived, -, hplain, hfinish⟩⟩
      · obtain ⟨k, hk, heff⟩ := (hdecryption.agrees_iff hown).mp hagree
        refine ⟨k, data, hk, ?_, (finish_eq_iff haround).mpr hpasses⟩
        rw [heff]
        exact laws.inverts _ _ _ _ hc
      · obtain ⟨hk₀, hk⟩ := hdecryption.of_derived hgiven hderived
        exact ⟨k, plain, hk, hplain c (hk₀ ▸ hc), hfinish⟩
  · exact ⟨fun hok => absurd hok (hlost hkeeps (hvalue.resolve_left hkeeps) _),
      fun hret => absurd hret.keepsNamespace hkeeps⟩

end EncTemplate

/-! ## A template for text -/

namespace SampleOpaque

def frontText : List Char :=
  "<EncryptedData xmlns=\"http://www.w3.org/2001/04/xmlenc#\" MimeType=\"text/plain\">".toList
    ++ "<EncryptionMethod Algorithm=\"http://www.w3.org/2001/04/xmlenc#aes128-cbc\"/>".toList
    ++ "<CipherData>".toList

def valueText : List Char := "<CipherValue/>".toList

def backText : List Char := "</CipherData></EncryptedData>".toList

def templateText : String := String.ofList (frontText ++ (valueText ++ backText))

def filledText (b64 : String) : String :=
  String.ofList frontText ++ ("<CipherValue>" ++ b64 ++ "</CipherValue>") ++ String.ofList backText

def element (localName : String) (attributes : List Attribute) : Element :=
  ⟨⟨none, localName, some Ns.ENC⟩, attributes, []⟩

def encryptedData : Element :=
  ⟨⟨none, "EncryptedData", some Ns.ENC⟩, [Sample.attr "MimeType" "text/plain"], [("", Ns.ENC)]⟩

/-- The nodes of the document, with what the CipherValue holds. -/
def top (kids : Nodes) : Nodes :=
  .node 1 encryptedData
    (.node 2 (element "EncryptionMethod" [Sample.attr "Algorithm" Algorithm.AES128_CBC]) .nil
      (.node 3 (element "CipherData" []) (.node 4 (element "CipherValue" []) kids .nil) .nil)) .nil

/-- The filled text is longer, whatever it is filled with. -/
theorem template_ne_filled (b64 : String) : templateText ≠ filledText b64 := by
  intro h
  have hlen := congrArg (fun s => s.toList.length) h
  have hvalue : valueText.length = 14 := by decide
  have hopen : "<CipherValue>".toList.length = 13 := by decide
  have hclose : "</CipherValue>".toList.length = 14 := by decide
  simp only [templateText, filledText, String.toList_append, String.toList_ofList,
    List.length_append] at hlen
  omega

def template : Document := ⟨0, top .nil, by decide⟩

def filledDoc (b64 : String) : Document :=
  ⟨0, top (.leaf 5 (.text b64) .nil), (by decide : [0, 1, 2, 3, 4, 5].Nodup)⟩

def key : ByteArray := ⟨#[0, 1, 2, 3, 4, 5, 6, 7, 8, 9, 10, 11, 12, 13, 14, 15]⟩

/-- Libraries around one ciphertext. -/
def libs (data c : ByteArray) (b64 : String) : EncLibs where
  toTransformLibs :=
    { TransformLibs.ofParser (fun s =>
        if s = filledText b64 then .ok (filledDoc b64)
        else if s = templateText then .ok template
        else .error "no text is known") with
      base64Decode := fun s => if s = b64 then .ok c else .error "invalid symbol" }
  nodeRange text n :=
    -- the EncryptedData is the whole text
    if n.key = 1 then some (0, text.utf8ByteSize)
    else if text = templateText ∧ n.key = 4 then
      some (Text.byteLength frontText, Text.byteLength frontText + Text.byteLength valueText)
    else none
  textContent _ := none
  base64Encode _ := b64
  fromUtf8Lossy _ := ""
  writeText s := s
  cipher uri :=
    { encrypt := fun k d => if uri = Algorithm.AES128_CBC ∧ k = key ∧ d = data then .ok c
        else .error (.other "another input")
      decrypt := fun k d => if k = key ∧ d = c then .ok data else .error (.other "another input") }
  keyWrap _ := ⟨fun _ _ => .error (.other "no key wrap"), fun _ _ => .error (.other "no key wrap")⟩
  keyTransport _ _ := .error (.other "no key transport")
  concatKdf _ _ _ := .error (.other "no derived key")
  pbkdf2Derive _ _ := .error (.other "no derived key")
  hkdfDerive _ _ _ := .error (.other "no derived key")
  ecdh _ _ _ := .error (.other "no key agreement")
  ecdhX25519 _ _ := .error (.other "no key agreement")
  dhCompute _ _ _ _ := .error (.other "no key agreement")
  encodedPoint _ _ := .empty
  toKeyValueXml _ _ := none
  randomBytes _ := .empty

def ctx : EncContext := .new ⟨[.new (.aes key) .any], [], [], []⟩

section

variable {data c : ByteArray} {b64 : String}

theorem libs_ok {uri : String} {k d x : ByteArray}
    (h : ((libs data c b64).cipher uri).encrypt k d = .ok x) :
    uri = Algorithm.AES128_CBC ∧ k = key ∧ d = data ∧ x = c := by
  simp only [libs] at h
  split at h
  next hcond => exact ⟨hcond.1, hcond.2.1, hcond.2.2, (Except.ok.inj h).symm⟩
  next hcond => cases h

theorem libs_laws (hword : ∀ ch ∈ b64.toList, Text.isWhitespace ch = false) :
    EncLaws (libs data c b64) where
  keySize uri k d x h := by
    obtain ⟨rfl, rfl, -, -⟩ := libs_ok h
    rfl
  inverts uri k d x h := by
    obtain ⟨-, rfl, rfl, rfl⟩ := libs_ok h
    exact if_pos ⟨rfl, rfl⟩
  base64 uri k d x h := by
    obtain ⟨-, -, -, rfl⟩ := libs_ok h
    exact if_pos rfl
  base64Word uri k d x h := hword

theorem byteSlice_text {s t : List Char} {start stop : Nat}
    (h : Text.slice? s start stop = some t) :
    sliceStr (String.ofList s) start stop = .ok (String.ofList t) := by
  rw [sliceStr, String.toList_ofList, Bytes.byteSlice_of_slice? h]
  rfl

theorem parse_template (hne : templateText ≠ filledText b64) :
    (libs data c b64).parse templateText = .ok template := by
  simp only [libs, TransformLibs.ofParser, if_true]
  rw [if_neg hne]

theorem libs_range {n : Node} (h : n.key = 4) :
    (libs data c b64).nodeRange templateText n
      = some (Text.byteLength frontText,
        Text.byteLength frontText + Text.byteLength valueText) := by
  have hne : ¬ n.key = 1 := by
    rw [h]
    decide
  simp only [libs]
  rw [if_neg hne]
  exact if_pos ⟨trivial, h⟩

theorem libs_cutOut {n : Node} (h : n.key = 1) (s : List Char) :
    CutOut (libs data c b64) (String.ofList s) n [] [] := by
  have hsize : (String.ofList s).utf8ByteSize = Text.byteLength s := Text.utf8ByteSize_ofList s
  refine ⟨0, Text.byteLength s, ?_, ?_, ?_⟩
  · simp only [libs, if_pos h, hsize]
  · rw [String.toList_ofList]
    exact Bytes.byteSlice_of_slice? (Text.slice?_before [] s)
  · rw [String.toList_ofList, hsize]
    have hend := Text.slice?_after s []
    rw [List.append_nil] at hend
    exact Bytes.byteSlice_of_slice? hend

/-- What encryption finds in the template. -/
def found (data c : ByteArray) (b64 : String) (hne : templateText ≠ filledText b64) :
    EncTemplate (libs data c b64) templateText where
  doc := template
  parsed := parse_template hne
  encData := ⟨1, [], .node _ _⟩
  hasEncData := rfl
  encMethod := ⟨2, [_], .node _ _⟩
  hasEncMethod := rfl
  encUri := Algorithm.AES128_CBC
  hasEncUri := rfl
  cipherData := ⟨3, [_], .node _ _⟩
  hasCipherData := rfl
  cipherValue := ⟨4, [_, _], .node _ _⟩
  hasCipherValue := rfl
  start := Text.byteLength frontText
  stop := Text.byteLength frontText + Text.byteLength valueText
  hasRange := libs_range rfl
  cvXml := String.ofList valueText
  hasCvXml := byteSlice_text (Text.slice?_append _ _ _)
  front := String.ofList frontText
  hasFront := byteSlice_text (Text.slice?_before _ _)
  back := String.ofList backText
  hasBack := by
    rw [templateText, Text.utf8ByteSize_ofList]
    have h := Text.slice?_after (frontText ++ valueText) backText
    rw [List.append_assoc, Text.byteLength_append] at h
    exact byteSlice_text h

theorem effectivePrefix_value : effectivePrefix (String.ofList valueText).toList = "" := by
  rw [String.toList_ofList]
  decide

theorem found_keeps (hne : templateText ≠ filledText b64) :
    (found data c b64 hne).KeepsNamespace := by
  show scopeNamespace (found data c b64 hne).cipherValue.path
    (effectivePrefix (String.ofList valueText).toList) = _
  rw [effectivePrefix_value]
  show scopeNamespace [(3, element "CipherData" []), (1, encryptedData)] "" = some Ns.ENC
  decide

theorem found_element (hne : templateText ≠ filledText b64) :
    (found data c b64 hne).element = element "CipherValue" [] := by
  have hscope := @found_keeps data c b64 hne
  unfold EncTemplate.KeepsNamespace at hscope
  unfold EncTemplate.element
  dsimp only
  rw [hscope]
  have hcv : (found data c b64 hne).cvXml = String.ofList valueText := rfl
  rw [hcv, effectivePrefix_value]
  rfl

theorem found_filled (hne : templateText ≠ filledText b64) :
    (found data c b64 hne).filled b64 = filledText b64 := by
  show String.ofList frontText
    ++ filledCipherValue (libs data c b64) (String.ofList valueText).toList b64
    ++ String.ofList backText = _
  rw [filledCipherValue, effectivePrefix_value]
  rfl

theorem parse_filled : (libs data c b64).parse (filledText b64) = .ok (filledDoc b64) := by
  simp only [libs, TransformLibs.ofParser, if_true]

theorem filledDoc_shape (hne : templateText ≠ filledText b64) (hb64 : b64 ≠ "") :
    (filledDoc b64).top.shape = ((found data c b64 hne).filledTop b64).shape := by
  rw [EncTemplate.filledTop, found_element, textRow, if_neg hb64]
  rfl

theorem found_reads (hne : templateText ≠ filledText b64) (hb64 : b64 ≠ "") :
    (found data c b64 hne).ReadsBack := by
  intro k d x _ doc hdoc
  have hx : (libs data c b64).base64Encode x = b64 := rfl
  rw [hx, found_filled, parse_filled, Except.ok.injEq] at hdoc
  subst hdoc
  exact filledDoc_shape hne hb64

theorem found_around (hne : templateText ≠ filledText b64) :
    (found data c b64 hne).Around [] [] where
  template := libs_cutOut rfl _
  filled k d x _ doc encData hdoc hfind := by
    have hx : (libs data c b64).base64Encode x = b64 := rfl
    have hfilled : filledText b64 = String.ofList (filledText b64).toList :=
      (String.ofList_toList).symm
    rw [hx, found_filled] at hdoc ⊢
    rw [parse_filled, Except.ok.injEq] at hdoc
    subst hdoc
    have hkey : encData.key = 1 := by
      have hfound : (filledDoc b64).findElement Ns.ENC "EncryptedData"
          = some ⟨1, [], .node _ _⟩ := rfl
      rw [hfound, Option.some.injEq] at hfind
      rw [← hfind]
    rw [hfilled]
    exact libs_cutOut hkey _
  markup h := absurd (by decide) h

theorem found_otherData (hne : templateText ≠ filledText b64) :
    (found data c b64 hne).OtherData := by
  have htype : (attributeOf (libs data c b64).toUppsala (found data c b64 hne).encData "Type")
      = none := rfl
  have hmime : (attributeOf (libs data c b64).toUppsala (found data c b64 hne).encData "MimeType")
      = some "text/plain" := rfl
  rw [EncTemplate.OtherData, htype]
  exact ⟨_, hmime, by decide⟩

theorem found_symmetric (hne : templateText ≠ filledText b64) :
    (found data c b64 hne).SymmetricKey where
  noEncryptedKey := by
    show ∀ n ∈ template.descendants, n.isNamed Ns.ENC "EncryptedKey" = false
    decide
  noRetrieval x hx := by cases hx

theorem encrypts (hne : templateText ≠ filledText b64) (hb64 : b64 ≠ "") :
    encrypt (libs data c b64) ctx templateText data = .ok (filledText b64) := by
  have hsession : encryptSessionKey (libs data c b64) ctx (filledText b64) key
      = .ok (filledText b64) :=
    encryptSessionKey_eq parse_filled
      (EncTemplate.noEncryptedKey_filled (filledDoc_shape hne hb64)
        (@found_symmetric data c b64 hne))
  have hkey : resolveEncryptionKey (libs data c b64) ctx (found data c b64 hne).encData
      Algorithm.AES128_CBC = .ok key := rfl
  have hcipher : cipherFromUri (libs data c b64) Algorithm.AES128_CBC
      = .ok ((libs data c b64).cipher Algorithm.AES128_CBC) := if_pos (by decide)
  have hc : ((libs data c b64).cipher Algorithm.AES128_CBC).encrypt key data = .ok c :=
    if_pos ⟨rfl, rfl, rfl⟩
  have huri : (found data c b64 hne).encUri = Algorithm.AES128_CBC := rfl
  have hx : (libs data c b64).base64Encode c = b64 := rfl
  rw [(found data c b64 hne).encrypt_eq, huri, hkey]
  simp only [bind, Except.bind, hcipher, hc, hx, found_filled]
  exact hsession

theorem keysAgree : KeysAgree (libs data c b64) ctx Algorithm.AES128_CBC [] where
  outranked k r hgiven := by cases hgiven
  fallback _ := ⟨.new (.aes key) .any, rfl, rfl⟩

end

/-- `hello`, its ciphertext and the Base64 of that. -/
def hello : ByteArray := ⟨#[104, 101, 108, 108, 111]⟩

def helloSealed : ByteArray :=
  ⟨#[16, 17, 18, 19, 20, 21, 22, 23, 24, 25, 26, 27, 28, 29, 30, 31, 50, 246, 214, 234, 30, 200, 135,
    45, 235, 204, 234, 133, 150, 217, 195, 195]⟩

def helloText : String := "EBESExQVFhcYGRobHB0eHzL21uoeyIct68zqhZbZw8M="

theorem template_ne_hello : templateText ≠ filledText helloText := template_ne_filled helloText

theorem helloText_word : ∀ ch ∈ helloText.toList, Text.isWhitespace ch = false := by
  have hall : helloText.toList.all (fun ch => !Text.isWhitespace ch) = true := by decide
  simpa using hall

theorem hello_passes :
    PassesPlace (isOpaque (libs hello helloSealed helloText).toUppsala
      (found hello helloSealed helloText template_ne_hello).encData
      (encTypeOf (libs hello helloSealed helloText).toUppsala
        (found hello helloSealed helloText template_ne_hello).encData)) [] []
      hello.data.toList := by
  have hclean : ¬ Garbled hello.data.toList := by
    rintro ⟨hdecl, -⟩
    have hno : declaresLatin1 hello.data.toList = false := by decide
    rw [hno] at hdecl
    cases hdecl
  exact ⟨Or.inl rfl, hclean⟩

/-- `<?xml version="1.0" encoding="ISO-8859-1"?>é`. -/
def latin : List Char := "<?xml version=\"1.0\" encoding=\"ISO-8859-1\"?>é".toList

def latinBytes : ByteArray := ⟨(Text.bytes latin).toArray⟩

def latinSealed : ByteArray :=
  ⟨#[16, 17, 18, 19, 20, 21, 22, 23, 24, 25, 26, 27, 28, 29, 30, 31, 146, 49, 185, 27, 103, 16, 135,
    206, 231, 111, 179, 165, 151, 79, 68, 35, 239, 158, 66, 157, 227, 147, 157, 13, 185, 125, 183,
    203, 126, 58, 213, 157, 202, 133, 236, 77, 84, 133, 184, 157, 247, 208, 131, 85, 109, 50, 126,
    196]⟩

def latinText : String :=
  "EBESExQVFhcYGRobHB0eH5IxuRtnEIfO52+zpZdPRCPvnkKd45OdDbl9t8t+OtWdyoXsTVSFuJ330INVbTJ+xA=="

theorem template_ne_latin : templateText ≠ filledText latinText := template_ne_filled latinText

theorem latinText_word : ∀ ch ∈ latinText.toList, Text.isWhitespace ch = false := by
  have hall : latinText.toList.all (fun ch => !Text.isWhitespace ch) = true := by decide
  simpa using hall

theorem latin_garbled : Garbled latinBytes.data.toList := by
  have hdata : latinBytes.data.toList = Text.bytes latin := rfl
  rw [hdata]
  refine ⟨?_, String.ofList latin, utf8?_bytes latin, 'é', ?_, by decide⟩
  · have htake : (Text.bytes latin).take 200 = Text.bytes latin :=
      List.take_of_length_le (by decide)
    rw [declaresLatin1, htake, utf8?_bytes]
    dsimp only
    rw [String.toList_ofList]
    decide
  · rw [String.toList_ofList]
    decide

end SampleOpaque

open SampleOpaque in
theorem EncTemplate.data_returns_iff_sample :
    encrypt (libs hello helloSealed helloText) ctx templateText hello = .ok (filledText helloText)
      ∧ (decryptToBytes (libs hello helloSealed helloText) ctx (filledText helloText)
          = .ok hello.data.toList
        ↔ (found hello helloSealed helloText template_ne_hello).Returns ctx [] [] hello)
      ∧ (found hello helloSealed helloText template_ne_hello).Returns ctx [] [] hello :=
  ⟨encrypts template_ne_hello (by decide),
    EncTemplate.data_returns_iff (libs_laws helloText_word)
      (found hello helloSealed helloText template_ne_hello)
      (found_reads template_ne_hello (by decide))
      (fun _ => found_around template_ne_hello) (found_symmetric template_ne_hello)
      (Or.inl (found_keeps template_ne_hello)) (encrypts template_ne_hello (by decide)),
    found_keeps template_ne_hello, Or.inl ⟨keysAgree, hello_passes⟩⟩

/-- Data that are said not to be XML come back from every template. -/
def OpaqueRoundTrip : Prop :=
  ∀ (lib : EncLibs), EncLaws lib → ∀ (text : String) (T : EncTemplate lib text), T.ReadsBack →
    (∃ before after, T.Around before after) → T.OtherData → T.SymmetricKey →
      ∀ (ctx : EncContext) (data : ByteArray) (out : String),
        encrypt lib ctx text data = .ok out → decryptToBytes lib ctx out = .ok data.data.toList

open SampleOpaque in
/-- The document type is text, the text declares ISO-8859-1 and holds an é in UTF-8. -/
theorem latin_does_not_come_back : ¬ OpaqueRoundTrip := by
  intro h
  have hne := template_ne_latin
  have hlaws := @libs_laws latinBytes latinSealed _ latinText_word
  have hencrypts := @encrypts latinBytes latinSealed _ hne (by decide)
  have haround := @found_around latinBytes latinSealed _ hne
  have hback := h _ hlaws _ (found latinBytes latinSealed latinText hne)
    (found_reads hne (by decide)) ⟨_, _, haround⟩ (found_otherData hne) (found_symmetric hne) _ _ _
    hencrypts
  obtain ⟨k, c, r, hc, hdecryption, hkept, -⟩ :=
    EncTemplate.decryptToBytes_of_encrypt hlaws (found latinBytes latinSealed latinText hne)
      (found_reads hne (by decide)) (fun _ => haround) (found_symmetric hne) hencrypts
  obtain ⟨k', plain, hk', hplain, hfinish⟩ := (hkept (found_keeps hne) _).mp hback
  obtain ⟨k'', hk'', heff⟩ :=
    (hdecryption.agrees_iff (effectiveKey_eq (hlaws.keySize _ _ _ _ hc))).mp keysAgree
  rw [hk', Except.ok.injEq] at hk''
  rw [hk'', heff, hlaws.inverts _ _ _ _ hc, Except.ok.injEq] at hplain
  rw [← hplain] at hfinish
  exact ((EncTemplate.finish_eq_iff (fun _ => haround)).mp hfinish).2 latin_garbled

end Bergshamra
