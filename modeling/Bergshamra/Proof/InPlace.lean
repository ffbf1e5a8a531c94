import Bergshamra.Lib.Splice
import Bergshamra.Proof.KeyValues
import Bergshamra.Proof.OpaqueRoundTrip
import Bergshamra.Proof.Rewriters
import Bergshamra.Proof.SignStages

/-!
# The plaintext in the place of the EncryptedData

Decryption of an element or of content cuts the EncryptedData out of the text of
the document, puts the plaintext there and lets the rewriters go over the whole.
The text that comes out is a document again: the one that was read, with the
nodes of the plaintext in the place of the EncryptedData, and everything else as
it was.
-/

namespace Bergshamra

open XmlSource
open Sign (sourceText)

/-! ## A row in the place of a node -/

section Rows

variable {lex : Lexicon} {path : List (NodeId × Element)} {f g src r : Source}

theorem treeOf_append (f g : Source) :
    treeOf lex path (f.append g) = (treeOf lex path f).append (treeOf lex path g) := by
  induction f with
  | nil => rfl
  | leaf i p rest ih =>
      rw [Forest.append, treeOf, treeOf]
      cases leafOf lex p with
      | none => exact ih
      | some k => exact congrArg (Forest.leaf i k) ih
  | node i t kids rest _ ihr =>
      exact congrArg (Forest.node i (elementOf lex path t)
        (treeOf lex ((i, elementOf lex path t) :: path) kids)) ihr

theorem calm_append : calm (f.append g) = (calm f && calm g) := by
  induction f with
  | nil => rfl
  | leaf i p rest ih => rw [Forest.append, calm, calm, ih, Bool.and_assoc]
  | node i t kids rest _ ihr => simp only [Forest.append, calm, ihr, Bool.and_assoc]

theorem unmistaken_append : unmistaken (f.append g) = (unmistaken f && unmistaken g) := by
  induction f with
  | nil => rfl
  | leaf i p rest ih => exact ih
  | node i t kids rest _ ihr => simp only [Forest.append, unmistaken, ihr, Bool.and_assoc]

theorem startsWithText_append (h : f ≠ .nil) : startsWithText (f.append g) = startsWithText f := by
  cases f with
  | nil => exact absurd rfl h
  | leaf => rfl
  | node => rfl

theorem proper_of_append (h : Proper lex path (f.append g)) : Proper lex path f := by
  induction f with
  | nil => exact trivial
  | leaf i p rest ih =>
      obtain ⟨hvalid, htext, hrest⟩ := h
      refine ⟨hvalid, fun hp => ?_, ih hrest⟩
      by_cases hnil : rest = .nil
      · subst hnil
        rfl
      · rw [← startsWithText_append hnil]
        exact htext hp
  | node i t kids rest _ ihr => exact ⟨h.1, h.2.1, h.2.2.1, ihr h.2.2.2⟩

theorem calm_substitute {k : NodeId} (hf : calm f = true) (hr : calm r = true) :
    calm (f.substitute k r) = true := by
  induction f with
  | nil => rfl
  | leaf i p rest ih =>
      rw [calm, Bool.and_eq_true] at hf
      rw [Forest.substitute]
      split
      · rw [calm_append, hr, hf.2]
        rfl
      · rw [calm, hf.1, ih hf.2]
        rfl
  | node i t kids rest ihk ihr =>
      rw [calm, Bool.and_eq_true, Bool.and_eq_true] at hf
      rw [Forest.substitute]
      split
      · rw [calm_append, hr, hf.2]
        rfl
      · split
        · rw [calm, hf.1.1, ihk hf.1.2, hf.2]
          rfl
        · rw [calm, hf.1.1, hf.1.2, ihr hf.2]
          rfl

variable {tags : List (NodeId × Tag)} {c : Forest.Cursor NodeId Tag Piece}

/-- What holds of a document with a row in the place of a node, holds of the row. -/
theorem row_of_substitute (hn : src.keys.Nodup) (hc : c ∈ src.cursors tags) {t : Tag}
    {kids : Source} (hi : c.item = .node t kids)
    (hp : Proper lex (elementPath lex tags) (src.substitute c.key r))
    (hun : unmistaken (src.substitute c.key r) = true) :
    Proper lex (elementPath lex c.path) r ∧ unmistaken r = true := by
  induction src generalizing tags with
  | nil => cases hc
  | leaf i p rest ih =>
      rw [Forest.keys_leaf, List.nodup_cons] at hn
      rcases List.mem_cons.mp hc with rfl | hc
      · cases hi
      · have hne : i ≠ c.key := fun h => hn.1 (h ▸ Forest.mem_cursors_key hc)
        rw [Forest.substitute, if_neg hne] at hp hun
        exact ih hn.2 hc hp.2.2 hun
  | node i t₀ kids₀ rest ihk ihr =>
      rw [Forest.keys_node, List.nodup_cons, List.nodup_append] at hn
      obtain ⟨hi₀, hnk, hnr, hd⟩ := hn
      rw [Forest.substitute] at hp hun
      rw [Forest.cursors, List.mem_cons, List.mem_append] at hc
      rcases hc with rfl | hc | hc
      · rw [if_pos rfl] at hp hun
        rw [unmistaken_append, Bool.and_eq_true] at hun
        exact ⟨proper_of_append hp, hun.1⟩
      · have hkids := Forest.mem_cursors_key hc
        have hne : i ≠ c.key := fun h => hi₀ (h ▸ List.mem_append_left _ hkids)
        rw [if_neg hne, if_pos hkids] at hp hun
        rw [unmistaken, Bool.and_eq_true, Bool.and_eq_true] at hun
        exact @ihk ((i, t₀) :: tags) hnk hc hp.2.2.1 hun.1.2
      · have hrest := Forest.mem_cursors_key hc
        have hne : i ≠ c.key := fun h => hi₀ (h ▸ List.mem_append_right _ hrest)
        have hkids : c.key ∉ kids₀.keys := fun h => hd _ h _ hrest rfl
        rw [if_neg hne, if_neg hkids] at hp hun
        rw [unmistaken, Bool.and_eq_true] at hun
        exact ihr hnr hc hp.2.2.2 hun.2

theorem key_mem_treeOf (hc : c ∈ src.cursors tags) {t : Tag} {kids : Source}
    (hi : c.item = .node t kids) (path : List (NodeId × Element)) :
    c.key ∈ (treeOf lex path src).keys := by
  induction src generalizing tags path with
  | nil => cases hc
  | leaf i p rest ih =>
      rcases List.mem_cons.mp hc with rfl | hc
      · cases hi
      · rw [treeOf]
        cases leafOf lex p with
        | none => exact ih hc path
        | some k => exact List.mem_cons_of_mem i (ih hc path)
  | node i t₀ kids₀ rest ihk ihr =>
      rw [Forest.cursors, List.mem_cons, List.mem_append] at hc
      rw [treeOf, Forest.keys_node, List.mem_cons, List.mem_append]
      rcases hc with rfl | hc | hc
      · exact Or.inl rfl
      · exact Or.inr (Or.inl (ihk hc _))
      · exact Or.inr (Or.inr (ihr hc path))

/-- **The tree of a document with a row in the place of a node** is the tree of the document with
the tree of the row in that place. -/
theorem treeOf_substitute (hn : src.keys.Nodup) (hc : c ∈ src.cursors tags) {t : Tag}
    {kids : Source} (hi : c.item = .node t kids) (r : Source) :
    treeOf lex (elementPath lex tags) (src.substitute c.key r)
      = (treeOf lex (elementPath lex tags) src).substitute c.key
        (treeOf lex (elementPath lex c.path) r) := by
  induction src generalizing tags with
  | nil => cases hc
  | leaf i p rest ih =>
      rw [Forest.keys_leaf, List.nodup_cons] at hn
      rcases List.mem_cons.mp hc with rfl | hc
      · cases hi
      · have hne : i ≠ c.key := fun h => hn.1 (h ▸ Forest.mem_cursors_key hc)
        rw [Forest.substitute, if_neg hne, treeOf, treeOf]
        cases leafOf lex p with
        -- a piece that is no node
        | none => exact ih hn.2 hc
        | some k =>
            show Forest.leaf i k _ = Forest.substitute (.leaf i k _) _ _
            rw [Forest.substitute, if_neg hne, ih hn.2 hc]
  | node i t₀ kids₀ rest ihk ihr =>
      rw [Forest.keys_node, List.nodup_cons, List.nodup_append] at hn
      obtain ⟨hi₀, hnk, hnr, hd⟩ := hn
      rw [Forest.substitute, treeOf, Forest.substitute]
      rw [Forest.cursors, List.mem_cons, List.mem_append] at hc
      rcases hc with rfl | hc | hc
      · rw [if_pos rfl, if_pos rfl, treeOf_append]
      · have hkids := Forest.mem_cursors_key hc
        have hne : i ≠ c.key := fun h => hi₀ (h ▸ List.mem_append_left _ hkids)
        have htree : c.key ∈ (treeOf lex ((i, elementOf lex (elementPath lex tags) t₀)
            :: elementPath lex tags) kids₀).keys := key_mem_treeOf hc hi _
        rw [if_neg hne, if_pos hkids, if_neg hne, if_pos htree, treeOf]
        exact congrArg (fun k => Forest.node i _ k _) (@ihk ((i, t₀) :: tags) hnk hc)
      · have hrest := Forest.mem_cursors_key hc
        have hne : i ≠ c.key := fun h => hi₀ (h ▸ List.mem_append_right _ hrest)
        have hkids : c.key ∉ kids₀.keys := fun h => hd _ h _ hrest rfl
        have htree : c.key ∉ (treeOf lex ((i, elementOf lex (elementPath lex tags) t₀)
            :: elementPath lex tags) kids₀).keys := fun h => hkids ((keys_treeOf _ _).subset h)
        rw [if_neg hne, if_neg hkids, if_neg hne, if_neg htree, treeOf, ihr hnr hc]

end Rows

/-! ## The plaintext as it is put into a document -/

section Output

variable {lex : Lexicon} {path : List (NodeId × Element)} {r src : Source}

/-- The row that stands for a plaintext in a document: where it begins with markup the rewriters
have been over it. -/
def placedRow (r : Source) : Source :=
  if Text.startsWith ['<'] (Text.trimStart (r.text spelling)) then rewritten r else r

theorem respelled_placedRow (lex : Lexicon) (r : Source) : Respelled lex r (placedRow r) := by
  rw [placedRow]
  split
  · exact respelled_rewritten lex r
  · exact Respelled.refl lex r

theorem outputBytes_eq (hp : Proper lex path r) (hcalm : calm r = true)
    (hun : unmistaken r = true) (hlines : '\r' ∉ r.text spelling) :
    outputBytes (Text.bytes (r.text spelling)) = Text.bytes ((placedRow r).text spelling) := by
  rw [outputBytes, utf8?_bytes, Option.map_some, Option.getD_some, String.toList_ofList, placedRow]
  split
  · rw [normalizeLineEndings_eq fun h => hlines ((Text.mem_bytes_iff (by decide)).mp h)]
    exact normalize_eq hp hcalm hun
  · rfl

/-- A row that a document can have in the place of the node `k`: what comes out is well-formed, and
the rewriters go over it without a mistake. -/
structure Fits (lex : Lexicon) (src : Source) (k : NodeId) (r : Source) : Prop where
  wellFormed : WellFormed lex (src.substitute k r)
  unmistaken : unmistaken (src.substitute k r) = true
  calm : calm r = true
  lines : '\r' ∉ r.text spelling

/-- The document with the plaintext in place, as it is written in the end. -/
def decryptedSource (src : Source) (k : NodeId) (r : Source) : Source :=
  rewritten (src.substitute k (placedRow r))

/-- More than the node `k` and a prolog makes up the document. -/
def IsWithin (src : Source) (k : NodeId) : Prop :=
  ¬ ((Text.trim (src.textBefore spelling k) = []
      ∨ isXmlProlog (Text.trim (src.textBefore spelling k)) = true)
    ∧ Text.trim (src.textAfter spelling k) = [])

theorem respelled_decryptedSource (lex : Lexicon) (src : Source) (k : NodeId) (r : Source) :
    Respelled lex (src.substitute k r) (decryptedSource src k r) :=
  ((respelled_placedRow lex r).substitute src k).trans (respelled_rewritten lex _)

end Output

/-! ## In a document -/

section Document

variable {lex : Lexicon} {up : Uppsala} {nodeRange : String → Node → Option (Nat × Nat)}
  {src r : Source} {doc : Document} {n : Node} {c : Forest.Cursor NodeId Tag Piece} {t : Tag}
  {kids : Source}

/-- Every element is written somewhere. -/
theorem Reads.exists_place (h : Reads lex up nodeRange src doc) (hn : n ∈ doc.descendants)
    {e : Element} (he : n.element? = some e) : ∃ c t kids, Sign.Place lex src n c t kids := by
  obtain ⟨key, path, item⟩ := n
  cases item with
  | leaf k => cases he
  | node e' ekids =>
      rw [Document.descendants, h.tree] at hn
      obtain ⟨c, hc, t, kids, hkey, hitem, hpath, rfl, hkids⟩ := @exists_tag lex [] src _ hn _ _ rfl
      exact ⟨c, t, kids, hc, hkey, hitem, hpath, congrArg (Forest.Item.node _) hkids⟩

/-- Where an element begins in the text, and where it ends. -/
def startOf (src : Source) (k : NodeId) : Nat := Text.byteLength (src.textBefore spelling k)

def stopOf (src : Source) (k : NodeId) (t : Tag) (kids : Source) : Nat :=
  startOf src k + Text.byteLength (Forest.nodeText spelling t kids)

/-- The text before an element, its own and the text after it, cut out by its range. -/
theorem Reads.cuts (h : Reads lex up nodeRange src doc) (hn : n ∈ doc.descendants)
    (hp : Sign.Place lex src n c t kids) :
    nodeRange (sourceText src) n = some (startOf src n.key, stopOf src n.key t kids)
      ∧ byteSlice (sourceText src).toList 0 (startOf src n.key) = .ok (src.textBefore spelling n.key)
      ∧ byteSlice (sourceText src).toList (startOf src n.key) (stopOf src n.key t kids)
        = .ok (Forest.nodeText spelling t kids)
      ∧ byteSlice (sourceText src).toList (stopOf src n.key t kids) (sourceText src).utf8ByteSize
        = .ok (src.textAfter spelling n.key) := by
  refine ⟨h.range n hn c hp.mem hp.key t kids hp.item, ?_, ?_, ?_⟩
  · rw [sourceText, String.toList_ofList, Forest.text_at_node h.nodup hp.mem hp.key hp.item,
      List.append_assoc]
    exact Bytes.byteSlice_of_slice? (Text.slice?_before _ _)
  · rw [sourceText, String.toList_ofList, Forest.text_at_node h.nodup hp.mem hp.key hp.item,
      List.append_assoc]
    exact Bytes.byteSlice_of_slice? (Text.slice?_append _ _ _)
  · rw [sourceText, Text.utf8ByteSize_ofList, String.toList_ofList,
      Forest.text_at_node h.nodup hp.mem hp.key hp.item, stopOf, startOf, ← Text.byteLength_append]
    exact Bytes.byteSlice_of_slice? (Text.slice?_after _ _)

/-- **The EncryptedData cut out and the plaintext put in.** The text that comes out is that of the
document with the row of the plaintext in place. -/
theorem replaceEncryptedDataBytes_eq {lib : EncLibs}
    (h : Reads lex lib.toUppsala lib.nodeRange src doc) (hn : n ∈ doc.descendants)
    (hp : Sign.Place lex src n c t kids) (hcalm : calm src = true) (hfits : Fits lex src n.key r)
    (hwithin : IsWithin src n.key) {encType : String}
    (hxml : isOpaque lib.toUppsala n encType = false) :
    replaceEncryptedDataBytes lib (sourceText src) n encType (Text.bytes (r.text spelling))
      = .ok (Text.bytes ((decryptedSource src n.key r).text spelling)) := by
  obtain ⟨hrange, hfront, -, hback⟩ := h.cuts hn hp
  have hmem : n.key ∈ src.keys := hp.key ▸ Forest.mem_cursors_key hp.mem
  have hrow := @row_of_substitute lex src r [] c h.nodup hp.mem t kids hp.item
    (hp.key ▸ hfits.wellFormed.proper) (hp.key ▸ hfits.unmistaken)
  have hspell := (respelled_placedRow lex r).substitute src n.key
  have hcut : CutOut lib (sourceText src) n (src.textBefore spelling n.key)
      (src.textAfter spelling n.key) := ⟨_, _, hrange, hfront, hback⟩
  have hnotAlone : ¬ Alone (src.textBefore spelling n.key) (src.textAfter spelling n.key) :=
    hwithin
  have hplaced : Text.bytes (src.textBefore spelling n.key)
      ++ outputBytes (Text.bytes (r.text spelling)) ++ Text.bytes (src.textAfter spelling n.key)
      = Text.bytes ((src.substitute n.key (placedRow r)).text spelling) := by
    rw [outputBytes_eq hrow.1 hfits.calm hrow.2 hfits.lines, Forest.text_substitute h.nodup hmem,
      Text.bytes_append, Text.bytes_append]
  rw [replaceEncryptedDataBytes_cutOut (fun _ => hcut), placedBytes, hxml,
    if_neg Bool.false_ne_true, if_neg hnotAlone, hplaced]
  refine congrArg Except.ok (normalize_eq (hspell.proper hfits.wellFormed.proper)
    (hspell.calm_eq.trans (calm_substitute hcalm hfits.calm)) (hspell.unmistaken hfits.unmistaken))

end Document

/-! ## Decryption -/

section Decryption

variable {lex : Lexicon} {lib : EncLibs} {ctx : EncContext} {src r : Source} {doc : Document}
  {encData : Node} {plaintext : ByteArray}

/-- What the cipher makes of the EncryptedData, with the key that is found for it. -/
def plaintextOf (lib : EncLibs) (ctx : EncContext) (doc : Document) (encData : Node) :
    Except Error ByteArray := do
  let idMap := Decrypt.buildIdMap lib.toUppsala doc (["Id", "ID", "id", "AssertionID"] ++ ctx.idAttrs)
  let encMethod ← required (encData.findChildElement Ns.ENC "EncryptionMethod") "EncryptionMethod"
  match attributeOf lib.toUppsala encMethod "Algorithm" with
  | none => .error (.missingAttribute "Algorithm on EncryptionMethod")
  | some encUri => do
      let keyBytes ← resolveDecryptionKey lib ctx doc encData idMap encUri
      let cipherData ← required (encData.findChildElement Ns.ENC "CipherData") "CipherData"
      let cipherBytes ← readCipherData lib ctx doc cipherData idMap
      let cipher ← cipherFromUri lib encUri
      cipher.decrypt (effectiveKey encUri keyBytes) cipherBytes

/-- Decryption: the plaintext, put in place, in the encoding that it declares. -/
theorem decryptToBytes_eq {xml : String} (hparse : lib.parse xml = .ok doc)
    (hfind : doc.findElement Ns.ENC "EncryptedData" = some encData) :
    decryptToBytes lib ctx xml = (do
      let plaintext ← plaintextOf lib ctx doc encData
      let result ← replaceEncryptedDataBytes lib xml encData (encTypeOf lib.toUppsala encData)
        plaintext.data.toList
      .ok (maybeConvertEncoding result)) := by
  rw [decryptToBytes, plaintextOf]
  simp only [hparse, hfind, required, bind, Except.bind, encTypeOf]
  cases encData.findChildElement Ns.ENC "EncryptionMethod" with
  | none => rfl
  | some encMethod =>
      cases halg : attributeOf lib.toUppsala encMethod "Algorithm" with
      | none => simp only [halg]
      | some encUri =>
          simp only [halg]
          cases resolveDecryptionKey lib ctx doc encData _ encUri with
          | error e => rfl
          | ok keyBytes =>
              cases encData.findChildElement Ns.ENC "CipherData" with
              | none => rfl
              | some cipherData =>
                  simp only []
                  cases readCipherData lib ctx doc cipherData _ with
                  | error e => rfl
                  | ok cipherBytes =>
                      cases cipherFromUri lib encUri with
                      | error e => rfl
                      | ok cipher => rfl

/-- The text of a decrypted document, and what the parser makes of it. -/
theorem decryptToBytes_inPlace (h : Reads lex lib.toUppsala lib.nodeRange src doc)
    (hcalm : calm src = true) (hfind : doc.findElement Ns.ENC "EncryptedData" = some encData)
    (hxml : isOpaque lib.toUppsala encData (encTypeOf lib.toUppsala encData) = false)
    (hwithin : IsWithin src encData.key) (hplain : plaintextOf lib ctx doc encData = .ok plaintext)
    (hrow : plaintext.data.toList = Text.bytes (r.text spelling))
    (hfits : Fits lex src encData.key r) :
    decryptToBytes lib ctx (sourceText src)
      = .ok (maybeConvertEncoding
        (Text.bytes ((decryptedSource src encData.key r).text spelling))) := by
  obtain ⟨hmem, e, he, -⟩ := Document.findElement_some hfind
  obtain ⟨c, t, kids, hp⟩ := h.exists_place hmem he
  have hparse : lib.parse (sourceText src) = .ok doc := h.parsed
  rw [decryptToBytes_eq hparse hfind, hplain]
  simp only [bind, Except.bind, hrow, replaceEncryptedDataBytes_eq h hmem hp hcalm hfits hwithin hxml]

/-- The tree of a decrypted document. -/
theorem treeOf_decryptedSource (h : Reads lex lib.toUppsala lib.nodeRange src doc)
    (hfind : doc.findElement Ns.ENC "EncryptedData" = some encData) :
    treeOf lex [] (decryptedSource src encData.key r)
      = doc.top.substitute encData.key (treeOf lex encData.path r) := by
  obtain ⟨hmem, e, he, -⟩ := Document.findElement_some hfind
  obtain ⟨c, t, kids, hp⟩ := h.exists_place hmem he
  have hsub := @treeOf_substitute lex src [] c h.nodup hp.mem t kids hp.item r
  rw [(respelled_decryptedSource lex src encData.key r).treeOf_eq, h.tree, hp.path, ← hp.key]
  exact hsub

/-- The string of what is decrypted, where the encoding is left alone. -/
theorem decrypt_of_bytes {xml : String} {s : List Char}
    (h : decryptToBytes lib ctx xml = .ok (maybeConvertEncoding (Text.bytes s)))
    (hclean : ¬ Garbled (Text.bytes s)) : decrypt lib ctx xml = .ok (String.ofList s) := by
  rw [decrypt, h, (maybeConvertEncoding_eq_self_iff _).mpr hclean]
  dsimp only [bind, Except.bind]
  exact fromUtf8_ok.mpr (utf8?_bytes s)

/-- **Decryption puts the plaintext in the place of the EncryptedData and leaves everything else as
it was.** What is written is a document; its tree is that of the document that was read, with the
nodes of the plaintext in that place. As a string it is returned unless it declares ISO-8859-1. -/
theorem decrypted_in_place (h : Reads lex lib.toUppsala lib.nodeRange src doc)
    (hcalm : calm src = true) (hfind : doc.findElement Ns.ENC "EncryptedData" = some encData)
    (hxml : isOpaque lib.toUppsala encData (encTypeOf lib.toUppsala encData) = false)
    (hwithin : IsWithin src encData.key) (hplain : plaintextOf lib ctx doc encData = .ok plaintext)
    (hrow : plaintext.data.toList = Text.bytes (r.text spelling))
    (hfits : Fits lex src encData.key r)
    (hunder : Understands lex lib.toUppsala (decryptedSource src encData.key r)) :
    ∃ text doc', decryptToBytes lib ctx (sourceText src)
        = .ok (maybeConvertEncoding (Text.bytes text.toList))
      ∧ (¬ Garbled (Text.bytes text.toList) → decrypt lib ctx (sourceText src) = .ok text)
      ∧ lib.parse text = .ok doc'
      ∧ doc'.top.shape
        = (doc.top.substitute encData.key (treeOf lex encData.path r)).shape := by
  have hbytes := decryptToBytes_inPlace h hcalm hfind hxml hwithin hplain hrow hfits
  obtain ⟨doc', hparse, hshape⟩ :=
    hunder.accepts ((respelled_decryptedSource lex _ _ r).wellFormed hfits.wellFormed)
  rw [treeOf_decryptedSource h hfind] at hshape
  refine ⟨String.ofList ((decryptedSource src encData.key r).text spelling), doc', ?_,
    fun hclean => ?_, hparse, hshape⟩
  · rw [String.toList_ofList]
    exact hbytes
  · rw [String.toList_ofList] at hclean
    exact decrypt_of_bytes hbytes hclean

end Decryption

end Bergshamra
