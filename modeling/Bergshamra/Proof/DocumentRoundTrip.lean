import Bergshamra.Proof.InPlace

/-!
# Decryption puts back what was encrypted

An element or content that is encrypted by a template and decrypted again stands
in the place of the EncryptedData: the ciphertext that was filled in goes with
that element, and nothing else of the template has changed. The ids that the
parser gives to the filled template do not matter.
-/

namespace Bergshamra

open XmlSource
open Sign (sourceText freshText relabelPath treeOf_mapKeys treeOf_replaceNode)

/-! ## Ids do not count -/

section Ids

variable {lex : Lexicon} {src f r : Source} {k : NodeId} {g : NodeId → NodeId}

theorem calm_mapKeys (f : Source) : calm (f.mapKeys g) = calm f := by
  induction f with
  | nil => rfl
  | leaf i p rest ih => rw [Forest.mapKeys, calm, calm, ih]
  | node i t kids rest ihk ihr => rw [Forest.mapKeys, calm, calm, ihk, ihr]

theorem endsAlike_mapKeys (n : List Char) (f : Source) :
    endsAlike n (f.mapKeys g) = endsAlike n f := by
  induction f with
  | nil => rfl
  | leaf i p rest ih => exact ih
  | node i t kids rest _ ihr =>
      cases rest with
      | nil => cases kids with
        | nil => rfl
        | leaf => rfl
        | node => rfl
      | leaf =>
          rw [endsAlike_rest (by simp)]
          exact (endsAlike_rest (by simp [Forest.mapKeys])).trans ihr
      | node =>
          rw [endsAlike_rest (by simp)]
          exact (endsAlike_rest (by simp [Forest.mapKeys])).trans ihr

theorem unmistaken_mapKeys (f : Source) : unmistaken (f.mapKeys g) = unmistaken f := by
  induction f with
  | nil => rfl
  | leaf i p rest ih => exact ih
  | node i t kids rest ihk ihr =>
      rw [Forest.mapKeys, unmistaken, unmistaken, ihk, ihr, endsAlike_mapKeys]

theorem noRoot_mapKeys (f : Source) : OneRoot.NoRoot (f.mapKeys g) ↔ OneRoot.NoRoot f := by
  induction f with
  | nil => exact Iff.rfl
  | leaf i p rest ih => exact and_congr_right fun _ => ih
  | node => exact Iff.rfl

theorem oneRoot_mapKeys (f : Source) : OneRoot (f.mapKeys g) ↔ OneRoot f := by
  induction f with
  | nil => exact Iff.rfl
  | leaf i p rest ih => exact and_congr_right fun _ => ih
  | node i t kids rest => exact noRoot_mapKeys rest

theorem wellFormed_mapKeys (f : Source) : WellFormed lex (f.mapKeys g) ↔ WellFormed lex f := by
  have hproper := @Sign.proper_mapKeys lex g [] f
  constructor
  · intro h
    exact ⟨hproper.mp h.proper, (oneRoot_mapKeys f).mp h.oneRoot⟩
  · intro h
    exact ⟨hproper.mpr h.proper, (oneRoot_mapKeys f).mpr h.oneRoot⟩

theorem respelled_mapKeys {h : Source → Tag → Tag} (hh : ∀ kids t, h (kids.mapKeys g) t = h kids t)
    (f : Source) : respelled h (f.mapKeys g) = (respelled h f).mapKeys g := by
  induction f with
  | nil => rfl
  | leaf i p rest ih => exact congrArg (Forest.leaf (g i) p) ih
  | node i t kids rest ihk ihr =>
      rw [Forest.mapKeys, respelled, respelled, Forest.mapKeys, ihk, ihr, hh]

theorem rewritten_mapKeys (f : Source) : rewritten (f.mapKeys g) = (rewritten f).mapKeys g := by
  have hclosed : ∀ kids t, closedTag (kids.mapKeys g) t = closedTag kids t := by
    intro kids t
    cases kids <;> rfl
  rw [rewritten, respelled_mapKeys hclosed, respelled_mapKeys fun _ _ => rfl, rewritten]

theorem placedRow_mapKeys (r : Source) : placedRow (r.mapKeys g) = (placedRow r).mapKeys g := by
  rw [placedRow, placedRow, Forest.text_mapKeys]
  split
  · exact rewritten_mapKeys r
  · rfl

theorem decryptedSource_mapKeys (hg : Function.Injective g) :
    decryptedSource (src.mapKeys g) (g k) (r.mapKeys g) = (decryptedSource src k r).mapKeys g := by
  rw [decryptedSource, placedRow_mapKeys, ← Forest.mapKeys_substitute hg, rewritten_mapKeys,
    decryptedSource]

theorem Fits.mapKeys (hg : Function.Injective g) (h : Fits lex src k r) :
    Fits lex (src.mapKeys g) (g k) (r.mapKeys g) where
  wellFormed := by
    rw [← Forest.mapKeys_substitute hg]
    exact (wellFormed_mapKeys _).mpr h.wellFormed
  unmistaken := by
    rw [← Forest.mapKeys_substitute hg, unmistaken_mapKeys]
    exact h.unmistaken
  calm := (calm_mapKeys r).trans h.calm
  lines := by
    rw [Forest.text_mapKeys]
    exact h.lines

theorem IsWithin.mapKeys (hg : Function.Injective g) (h : IsWithin src k) :
    IsWithin (src.mapKeys g) (g k) := by
  rw [IsWithin, Forest.textBefore_mapKeys hg, Forest.textAfter_mapKeys hg]
  exact h

end Ids

/-! ## Calm documents -/

section Calm

variable {src f kids' : Source} {t' : Tag} {k : NodeId}

theorem calm_replaceNode (hf : calm f = true) (ht : calmTag t' = true) (hk : calm kids' = true) :
    calm (f.replaceNode k t' kids') = true := by
  induction f with
  | nil => rfl
  | leaf i p rest ih =>
      rw [calm, Bool.and_eq_true] at hf
      rw [Forest.replaceNode, calm, hf.1, ih hf.2]
      rfl
  | node i t kids rest ihk ihr =>
      rw [calm, Bool.and_eq_true, Bool.and_eq_true] at hf
      rw [Forest.replaceNode]
      split
      · rw [calm, ht, hk, hf.2]
        rfl
      · rw [calm, hf.1.1, ihk hf.1.2, ihr hf.2]
        rfl

/-- What is in a calm document is calm. -/
theorem calm_below {tags : List (NodeId × Tag)} {c : Forest.Cursor NodeId Tag Piece} {t : Tag}
    {kids : Source} (hf : calm src = true) (hc : c ∈ src.cursors tags)
    (hi : c.item = .node t kids) : calmTag t = true ∧ calm kids = true := by
  induction src generalizing tags with
  | nil => cases hc
  | leaf i p rest ih =>
      rw [calm, Bool.and_eq_true] at hf
      rcases List.mem_cons.mp hc with rfl | hc
      · cases hi
      · exact ih hf.2 hc
  | node i t₀ kids₀ rest ihk ihr =>
      rw [calm, Bool.and_eq_true, Bool.and_eq_true] at hf
      rw [Forest.cursors, List.mem_cons, List.mem_append] at hc
      rcases hc with rfl | hc | hc
      · cases hi
        exact hf.1
      · exact ihk hf.1.2 hc
      · exact ihr hf.2 hc

end Calm

/-! ## A change below the place -/

section SamePlace

variable {lex : Lexicon} {src src' r : Source} {k : NodeId}

theorem Fits.samePlace (h : Forest.SamePlace spelling k src src') (hfits : Fits lex src k r) :
    Fits lex src' k r := by
  refine ⟨?_, ?_, hfits.calm, hfits.lines⟩
  · rw [h.substitute]
    exact hfits.wellFormed
  · rw [h.substitute]
    exact hfits.unmistaken

theorem IsWithin.samePlace (h : Forest.SamePlace spelling k src src') (hwithin : IsWithin src k) :
    IsWithin src' k := by
  rw [IsWithin, h.before, h.after]
  exact hwithin

theorem decryptedSource_samePlace (h : Forest.SamePlace spelling k src src') (r : Source) :
    decryptedSource src' k r = decryptedSource src k r := by
  rw [decryptedSource, h.substitute, decryptedSource]

end SamePlace

/-! ## The filled template -/

/-- A text that is written and read again. -/
def ReadBack (lex : Lexicon) (lib : EncLibs) (s : String) : Prop :=
  s = "" ∧ (lib.writeText s).toList = [] ∨ s ≠ "" ∧ lex.text (lib.writeText s).toList = some s.toList

/-- What `XmlWriter` writes of a CipherValue, and what the parser makes of that. -/
structure CipherValueLaws (lex : Lexicon) (lib : EncLibs) : Prop where
  start : ∀ tag, lib.startElement tag [] = "<" ++ tag ++ ">"
  stop : ∀ tag, lib.endElement tag = "</" ++ tag ++ ">"
  calm : ∀ b64, '>' ∉ (lib.writeText b64).toList
  read : ∀ uri key data c, (lib.cipher uri).encrypt key data = .ok c →
    ReadBack lex lib (lib.base64Encode c)

namespace EncTemplate

section Filled

variable {lex : Lexicon} {lib : EncLibs} {src : Source} {b64 : String}

/-- The prefix that the CipherValue is written under. -/
def pfx {text : String} (T : EncTemplate lib text) : String := effectivePrefix T.cvXml.toList

/-- The name of the CipherValue that is written. -/
def valueName {text : String} (T : EncTemplate lib text) : List Char :=
  (pname T.pfx "CipherValue").toList

/-- The source of the filled template. -/
def filledSource (T : EncTemplate lib (sourceText src)) (b64 : String) : Source :=
  src.replaceNode T.cipherValue.key (bareTag T.valueName)
    (freshText src (lib.writeText b64).toList)

variable {T : EncTemplate lib (sourceText src)}

/-- Where the prefix comes from. -/
theorem pfx_split {text : String} (T : EncTemplate lib text) : T.pfx = ""
    ∨ ∃ before after, Text.splitOnce [':'] (T.cvXml.toList.dropWhile (fun c => c == '<'))
      = some (before, after) ∧ T.pfx = String.ofList before := by
  have hprefix : extractPrefix T.cvXml.toList "CipherValue" = ""
      ∨ ∃ before after, Text.splitOnce [':'] (T.cvXml.toList.dropWhile (fun c => c == '<'))
        = some (before, after)
        ∧ extractPrefix T.cvXml.toList "CipherValue" = String.ofList before := by
    rw [extractPrefix]
    split
    · rename_i before after hsplit
      split
      · exact Or.inr ⟨before, after, hsplit, rfl⟩
      · exact Or.inl rfl
    · exact Or.inl rfl
  rw [pfx, effectivePrefix]
  split
  · exact Or.inl rfl
  · split
    · exact Or.inl rfl
    · exact hprefix

theorem pfx_colon {text : String} (T : EncTemplate lib text) : ':' ∉ T.pfx.toList := by
  rcases T.pfx_split with hpfx | ⟨before, after, hsplit, hpfx⟩
  · rw [hpfx]
    exact List.not_mem_nil
  · rw [hpfx, String.toList_ofList]
    exact Text.splitOnce_front hsplit

theorem cipherValue_in_doc {text : String} (T : EncTemplate lib text) :
    T.cipherValue ∈ T.doc.descendants := by
  have hchild : ∀ {n m : Node}, n ∈ T.doc.descendants → m ∈ n.children → m ∈ T.doc.descendants :=
    fun hn hm => Forest.mem_cursors_descendants hn ((Forest.row_sublist _ _).subset hm)
  exact hchild (hchild T.encData_mem T.cipherData_mem) T.cipherValue_mem

theorem exists_cipherValue_place (h : Reads lex lib.toUppsala lib.nodeRange src T.doc) :
    ∃ c t kids, Sign.Place lex src T.cipherValue c t kids := by
  obtain ⟨-, e, he, -⟩ := Node.findChildElement_some T.hasCipherValue
  exact h.exists_place T.cipherValue_in_doc he

/-- The text of the filled template. -/
theorem sourceText_filledSource (laws : CipherValueLaws lex lib)
    (h : Reads lex lib.toUppsala lib.nodeRange src T.doc) (b64 : String) :
    sourceText (T.filledSource b64) = T.filled b64 := by
  obtain ⟨c, t, kids, hp⟩ := exists_cipherValue_place h
  obtain ⟨hrange, hfront, -, hback⟩ := h.cuts T.cipherValue_in_doc hp
  rw [T.hasRange, Option.some.injEq, Prod.mk.injEq] at hrange
  rw [← hrange.1] at hfront
  rw [← hrange.2] at hback
  have hf : String.ofList (src.textBefore spelling T.cipherValue.key) = T.front := by
    have hslice := T.hasFront
    rw [sliceStr, hfront] at hslice
    exact Except.ok.inj hslice
  have hb : String.ofList (src.textAfter spelling T.cipherValue.key) = T.back := by
    have hslice := T.hasBack
    rw [sliceStr, hback] at hslice
    exact Except.ok.inj hslice
  have hvalue : filledCipherValue lib T.cvXml.toList b64
      = String.ofList (Forest.nodeText spelling (bareTag T.valueName)
        (freshText src (lib.writeText b64).toList)) := by
    rw [Sign.nodeText_bareTag, Sign.freshText_text, filledCipherValue, laws.start, laws.stop]
    refine String.ext ?_
    rw [String.toList_ofList, valueName, pfx]
    simp
  rw [sourceText, filledSource, Forest.text_replaceNode h.nodup hp.mem hp.key hp.item,
    String.ofList_append, String.ofList_append, hf, hb, ← hvalue, filled]

/-- The prefix of the CipherValue means its namespace. -/
def Bound {text : String} (T : EncTemplate lib text) : Prop :=
  prefixNamespace T.cipherValue.path T.pfx = some Ns.ENC

theorem Bound.keepsNamespace {text : String} {T : EncTemplate lib text} (h : T.Bound) :
    T.KeepsNamespace := by
  rw [Bound, prefixNamespace] at h
  split at h
  · exact absurd (Option.some.inj h) (by decide)
  · exact h

/-- The element that the tag of the written CipherValue is. -/
theorem elementOf_valueName {path : List (NodeId × Element)} (hpath : T.cipherValue.path = path)
    (hbound : T.Bound) : elementOf lex path (bareTag T.valueName) = T.element := by
  have hscope : ∀ name p, scopeNamespace (scopeOf lex path (bareTag name)) p
      = scopeNamespace path p := by
    intro name p
    rw [scopeOf, scopeNamespace, scopeNamespace, List.findSome?_cons]
    rfl
  have hname : ∀ name, elementName (scopeOf lex path (bareTag name)) T.valueName
      = ⟨if T.pfx = "" then none else some T.pfx, "CipherValue", scopeNamespace path T.pfx⟩ := by
    intro name
    rw [elementName, valueName]
    by_cases hpfx : T.pfx = ""
    · rw [if_pos hpfx, hpfx, pname, if_pos rfl, Sign.nameParts_word (by decide)]
      simp only [String.ofList_toList, hscope]
    · rw [Sign.nameParts_pname hpfx T.pfx_colon, if_neg hpfx]
      have hns : prefixNamespace (scopeOf lex path (bareTag name)) T.pfx
          = scopeNamespace path T.pfx := by
        rw [← hscope name, prefixNamespace, if_neg]
        intro hxml
        rw [Bound, prefixNamespace, if_pos hxml] at hbound
        exact absurd (Option.some.inj hbound) (by decide)
      simp only [String.ofList_toList, hns]
  have hplain : ∀ name, elementOf lex path (bareTag name)
      = ⟨elementName (scopeOf lex path (bareTag name)) name, [], []⟩ := fun _ => rfl
  rw [hplain, hname, element, hpath]
  rfl

/-- What the parser makes of the filled template. -/
theorem shape_filledSource (h : Reads lex lib.toUppsala lib.nodeRange src T.doc) (hbound : T.Bound)
    (hread : ReadBack lex lib b64) :
    (treeOf lex [] (T.filledSource b64)).shape = (T.filledTop b64).shape := by
  obtain ⟨c, t, kids, hp⟩ := exists_cipherValue_place h
  have htree := @treeOf_replaceNode lex T.cipherValue.key [] src h.nodup c hp.mem hp.key t kids
    hp.item (bareTag T.valueName) (freshText src (lib.writeText b64).toList)
  have hkids : ∀ path, (treeOf lex path (freshText src (lib.writeText b64).toList)).shape
      = (textRow b64).shape := by
    intro path
    rw [freshText, textRow]
    rcases hread with ⟨hnone, hraw⟩ | ⟨hne, hsome⟩
    · rw [if_pos hraw, if_pos hnone]
      rfl
    · have hraw := lex.text_ne_nil _ (by rw [hsome]; rfl)
      rw [if_neg hraw, if_neg hne]
      show Forest.leaf () (LeafKind.text (String.ofList ((lex.text _).getD []))) .nil = _
      rw [hsome, Option.getD_some, String.ofList_toList]
      rfl
  rw [elementPath, ← h.tree] at htree
  rw [filledSource, htree, elementOf_valueName hp.path hbound, filledTop]
  exact Forest.shape_replaceNode_congr (hkids _) _

/-- The name of the written CipherValue begins like the old one, or with the local name. -/
theorem valueName_head (h : Reads lex lib.toUppsala lib.nodeRange src T.doc)
    {c : Forest.Cursor NodeId Tag Piece} {t : Tag} {kids : Source}
    (hp : Sign.Place lex src T.cipherValue c t kids) :
    T.valueName.head? = some 'C' ∨ T.valueName.head? = t.name.head? := by
  obtain ⟨hrange, -, hown, -⟩ := h.cuts T.cipherValue_in_doc hp
  rw [T.hasRange, Option.some.injEq, Prod.mk.injEq] at hrange
  rw [← hrange.1, ← hrange.2] at hown
  have hvalid := Sign.validName_of_properTag
    (@proper_node lex [] src h.wellFormed.proper c hp.mem t kids hp.item).1
  obtain ⟨n, name, hname⟩ := List.exists_cons_of_ne_nil (validName_ne_nil hvalid)
  have hlt : n ≠ '<' := by
    rintro rfl
    have hno : '<' ∉ t.name := name_not_mem hvalid (by decide) (by decide)
    exact hno (hname ▸ List.mem_cons_self)
  -- the text after the bracket begins with the name
  have hrest : ∃ rest, T.cvXml.toList.dropWhile (fun c => c == '<') = n :: rest := by
    have hslice := T.hasCvXml
    rw [sliceStr, hown] at hslice
    rw [← Except.ok.inj hslice, String.toList_ofList, nodeText_eq, hname,
      List.dropWhile_cons_of_pos (by rfl), List.cons_append,
      List.dropWhile_cons_of_neg (by simpa using hlt)]
    exact ⟨_, rfl⟩
  obtain ⟨rest, hrest⟩ := hrest
  rw [valueName, pname, hname]
  rcases T.pfx_split with hpfx | ⟨before, after, hsplit, hpfx⟩
  · rw [if_pos hpfx]
    exact Or.inl rfl
  · rw [hrest] at hsplit
    have htext := Text.splitOnce_eq_some hsplit
    rw [hpfx]
    cases before with
    | nil => exact Or.inl rfl
    | cons b before =>
        right
        rw [List.cons_append, List.cons_append, List.cons.injEq] at htext
        rw [if_neg (by simp), String.toList_append, String.toList_append, String.toList_ofList,
          List.cons_append, List.cons_append, htext.1]
        rfl

theorem calm_filledSource (laws : CipherValueLaws lex lib)
    (h : Reads lex lib.toUppsala lib.nodeRange src T.doc) (hcalm : calm src = true) (b64 : String) :
    calm (T.filledSource b64) = true := by
  obtain ⟨c, t, kids, hp⟩ := exists_cipherValue_place h
  refine calm_replaceNode hcalm ?_ ?_
  · have hold := (calm_below hcalm hp.mem hp.item).1
    rw [calmTag, Bool.and_eq_true] at hold ⊢
    have hbare : ∀ name, (bareTag name).name = name ∧ (bareTag name).fields = [] :=
      fun _ => ⟨rfl, rfl⟩
    rw [(hbare _).1, (hbare _).2, List.all_nil]
    refine ⟨?_, rfl⟩
    rcases valueName_head h hp with hhead | hhead
    · simp only [hhead, Option.all_some]
      decide
    · simp only [hhead, hold.1]
  · have hgt := laws.calm b64
    rw [freshText]
    split
    · rfl
    · simpa [calm, calmPiece] using hgt

end Filled

/-! ## The plaintext of the filled template -/

section Plaintext

variable {lib : EncLibs} {ctx : EncContext} {text : String} {data key c : ByteArray} {doc : Document}

/-- What encryption returns, step by step. -/
theorem encrypt_of {T : EncTemplate lib text} {out : String}
    (hkey : resolveEncryptionKey lib ctx T.encData T.encUri = .ok key)
    (halg : cipherAlgorithms.contains T.encUri = true)
    (hc : (lib.cipher T.encUri).encrypt key data = .ok c)
    (hsession : encryptSessionKey lib ctx (T.filled (lib.base64Encode c)) key = .ok out) :
    encrypt lib ctx text data = .ok out := by
  rw [T.encrypt_eq, hkey, cipherFromUri, if_pos halg]
  simp only [bind, Except.bind, hc]
  exact hsession

theorem attributeOf_filled {T : EncTemplate lib text} {b64 : String} {encData : Node}
    (h : encData.Alike (T.refilled b64 T.encData)) (name : String) :
    attributeOf lib.toUppsala encData name = attributeOf lib.toUppsala T.encData name := by
  refine (h.congr (f := fun n => attributeOf lib.toUppsala n name)
    (fun g n => attributeOf_mapKeys g n lib.toUppsala name)).trans ?_
  rw [attributeOf, refilled, element?_refill T.encData_ne, attributeOf]

/-- **What was sealed comes out.** -/
theorem plaintextOf_filled (laws : EncLaws lib) (T : EncTemplate lib text) (hsym : T.SymmetricKey)
    (hkeeps : T.KeepsNamespace) (hagree : KeysAgree lib ctx T.encUri (keyChildren T.encData))
    (hkey : resolveEncryptionKey lib ctx T.encData T.encUri = .ok key)
    (halg : cipherAlgorithms.contains T.encUri = true)
    (hc : (lib.cipher T.encUri).encrypt key data = .ok c)
    (hshape : doc.top.shape = (T.filledTop (lib.base64Encode c)).shape) :
    ∃ encData, doc.findElement Ns.ENC "EncryptedData" = some encData
      ∧ encData.Alike (T.refilled (lib.base64Encode c) T.encData)
      ∧ plaintextOf lib ctx doc encData = .ok data := by
  obtain ⟨encData, hfind, halike⟩ := findElement_filled hshape
  have hmethod := @findChildElement_other _ _ T (lib.base64Encode c) Ns.ENC "EncryptionMethod"
    (by decide)
  rw [T.hasEncMethod] at hmethod
  obtain ⟨encMethod, hfindMethod, hmethodAlike⟩ := halike.findChildElement hmethod
  have hdata := T.findChildElement_encData (lib.base64Encode c) Ns.ENC "CipherData"
  rw [T.hasCipherData, Option.map_some] at hdata
  obtain ⟨cipherData, hfindData, hdataAlike⟩ := halike.findChildElement hdata
  have huri : attributeOf lib.toUppsala encMethod "Algorithm" = some T.encUri :=
    (hmethodAlike.congr (f := fun n => attributeOf lib.toUppsala n "Algorithm")
      (fun g n => attributeOf_mapKeys g n lib.toUppsala "Algorithm")).trans T.hasEncUri
  have hkeys := keyChildren_alike halike
  rw [T.keyChildren_refilled] at hkeys
  refine ⟨encData, hfind, halike, ?_⟩
  have hdecryption := @decryptionKey_of_encryption lib ctx T.encUri T.encData encData doc
    (Decrypt.buildIdMap lib.toUppsala doc (["Id", "ID", "id", "AssertionID"] ++ ctx.idAttrs)) key
    hsym.noWrappedKey hkeys hkey
  have hown := effectiveKey_eq (laws.keySize _ _ _ _ hc)
  obtain ⟨k, hk, heff⟩ := (hdecryption.agrees_iff hown).mp hagree
  have hread := @readCipherData_kept lib text T ctx doc
    (Decrypt.buildIdMap lib.toUppsala doc (["Id", "ID", "id", "AssertionID"] ++ ctx.idAttrs))
    cipherData _ hkeeps hdataAlike c (laws.base64Word _ _ _ _ hc) (laws.base64 _ _ _ _ hc)
  have hcipher : cipherFromUri lib T.encUri = .ok (lib.cipher T.encUri) := if_pos halg
  rw [plaintextOf]
  simp only [hfindMethod, hfindData, huri, required, bind, Except.bind, hk, hread, hcipher, heff]
  exact laws.inverts _ _ _ _ hc

end Plaintext

/-! ## The round trip -/

section RoundTrip

variable {lex : Lexicon} {lib : EncLibs} {ctx : EncContext} {src r : Source} {data : ByteArray}
  {out : String}

/-- The parser reads a document, under ids of its own. -/
def ReadsFilled (lex : Lexicon) (lib : EncLibs) (src : Source) : Prop :=
  ∃ g : NodeId → NodeId, Function.Injective g
    ∧ ∃ doc, Reads lex lib.toUppsala lib.nodeRange (src.mapKeys g) doc

theorem key_refill {k : NodeId} {e' : Element} {kids' : Nodes} (n : Node) :
    (n.refill k e' kids').key = n.key := by
  obtain ⟨key, path, item⟩ := n
  cases item with
  | leaf l => rfl
  | node e kids =>
      unfold Forest.Cursor.refill
      dsimp only
      split
      · rfl
      · rfl

/-- Where the EncryptedData of the filled template is. -/
theorem findElement_filledSource {T : EncTemplate lib (sourceText src)} {g : NodeId → NodeId}
    {b64 : String} {doc : Document} {encData : Node}
    (h : Reads lex lib.toUppsala lib.nodeRange src T.doc)
    (hfilled : Reads lex lib.toUppsala lib.nodeRange ((T.filledSource b64).mapKeys g) doc)
    (hfind : doc.findElement Ns.ENC "EncryptedData" = some encData) :
    encData.key = g T.encData.key := by
  obtain ⟨c, t, kids, hp⟩ := exists_cipherValue_place h
  have htree : doc.top = (T.doc.top.replaceNode T.cipherValue.key
      (elementOf lex (elementPath lex c.path) (bareTag T.valueName))
      (treeOf lex ((T.cipherValue.key, elementOf lex (elementPath lex c.path) (bareTag T.valueName))
        :: elementPath lex c.path) (freshText src (lib.writeText b64).toList))).mapKeys g := by
    have hnew := @treeOf_replaceNode lex T.cipherValue.key [] src h.nodup c hp.mem hp.key t kids
      hp.item (bareTag T.valueName) (freshText src (lib.writeText b64).toList)
    have htree := hfilled.tree.trans (treeOf_mapKeys [] (T.filledSource b64))
    rw [elementPath] at hnew
    rw [htree, filledSource, hnew, h.tree]
  have hfirst := fun e' kids' => Forest.find?_cursors_replaceNode T.doc.nodup_top
    (fun _ hc => @isNamed_refill T.cipherValue.key e' kids' _ hc Ns.ENC "EncryptedData")
    T.hasEncData T.cipherValue_deep
  have hcursors := fun f : Nodes => Forest.cursors_mapKeys g [] f
  have htest : (fun n : Node => n.isNamed Ns.ENC "EncryptedData") ∘ Forest.Cursor.mapKeys g
      = fun n : Node => n.isNamed Ns.ENC "EncryptedData" :=
    funext fun n => isNamed_mapKeys g n Ns.ENC "EncryptedData"
  rw [List.map_nil] at hcursors
  rw [Document.findElement, Document.descendants, htree, hcursors, List.find?_map, htest, hfirst,
    Option.map_some, Option.some.injEq] at hfind
  rw [← hfind]
  exact congrArg g (key_refill T.encData)

/-- **What is encrypted into a document is put back into it.** Decryption of an encrypted element
or content writes the template with the data in the place of the EncryptedData. -/
theorem decryptToBytes_of_encrypt_inPlace (laws : EncLaws lib) (writer : CipherValueLaws lex lib)
    (T : EncTemplate lib (sourceText src)) (hreads : Reads lex lib.toUppsala lib.nodeRange src T.doc)
    (hcalm : calm src = true) (hsym : T.SymmetricKey) (hbound : T.Bound)
    (hagree : KeysAgree lib ctx T.encUri (keyChildren T.encData))
    (hxml : isOpaque lib.toUppsala T.encData (encTypeOf lib.toUppsala T.encData) = false)
    (hwithin : IsWithin src T.encData.key) (hrow : data.data.toList = Text.bytes (r.text spelling))
    (hfits : Fits lex src T.encData.key r)
    (hfilled : ∀ key c, (lib.cipher T.encUri).encrypt key data = .ok c →
      ReadsFilled lex lib (T.filledSource (lib.base64Encode c)))
    (hrun : encrypt lib ctx (sourceText src) data = .ok out) :
    decryptToBytes lib ctx out = .ok (maybeConvertEncoding
      (Text.bytes ((decryptedSource src T.encData.key r).text spelling))) := by
  obtain ⟨key, c, hkey, halg, hc, hsession⟩ := T.encrypt_ok hrun
  obtain ⟨g, hg, doc, hread⟩ := hfilled key c hc
  have htext : sourceText ((T.filledSource (lib.base64Encode c)).mapKeys g)
      = T.filled (lib.base64Encode c) := by
    rw [Sign.sourceText_mapKeys, sourceText_filledSource writer hreads]
  have hparse : lib.parse (T.filled (lib.base64Encode c)) = .ok doc := htext ▸ hread.parsed
  have hshape : doc.top.shape = (T.filledTop (lib.base64Encode c)).shape := by
    rw [hread.tree, ← shape_filledSource hreads hbound (writer.read _ _ _ _ hc)]
    exact (congrArg Forest.shape (treeOf_mapKeys [] _)).trans (Forest.mapKeys_mapKeys g _ _)
  obtain ⟨encData, hfind, halike, hplain⟩ := @plaintextOf_filled lib ctx (sourceText src) data key c
    doc laws T hsym hbound.keepsNamespace hagree hkey halg hc hshape
  rw [encryptSessionKey_eq hparse (noEncryptedKey_filled hshape hsym), Except.ok.injEq] at hsession
  -- the ids of the filled text are those of the template, renamed by `g`
  have hplace : encData.key = g T.encData.key := findElement_filledSource hreads hread hfind
  obtain ⟨e, he, -⟩ := (Document.findElement_some T.hasEncData).2
  obtain ⟨cur, t, kids, hp⟩ := hreads.exists_place T.encData_mem he
  have hbelow : T.cipherValue.key ∈ cur.kids.keys := by
    have hdeep := T.cipherValue_deep
    rw [Forest.Cursor.kids, hp.node] at hdeep
    rw [Forest.Cursor.kids, hp.item]
    exact (keys_treeOf _ _).subset hdeep
  have hsame : Forest.SamePlace spelling T.encData.key src (T.filledSource (lib.base64Encode c)) :=
    hp.key ▸ Forest.samePlace_replaceNode spelling hreads.nodup hp.mem hbelow _ _
  -- only the CipherValue was written, so the attributes are the same
  have hopaque : isOpaque lib.toUppsala encData (encTypeOf lib.toUppsala encData) = false := by
    have hattr := fun name => attributeOf_filled halike name
    rw [encTypeOf, hattr, isOpaque, hattr]
    exact hxml
  have hbytes := decryptToBytes_inPlace hread
    ((calm_mapKeys _).trans (calm_filledSource writer hreads hcalm _)) hfind hopaque
    (hplace ▸ (hwithin.samePlace hsame).mapKeys hg) hplain
    (hrow.trans (by rw [Forest.text_mapKeys])) (hplace ▸ (hfits.samePlace hsame).mapKeys hg)
  rw [htext, hplace, decryptedSource_mapKeys hg, decryptedSource_samePlace hsame,
    Forest.text_mapKeys] at hbytes
  rw [← hsession]
  exact hbytes

/-- **An element or content that was encrypted stands in the place of the EncryptedData again.**
What decryption returns is a document; its tree is that of the template with the nodes of the data
in that place, whatever the cipher made of them and however the parser numbers its nodes. -/
theorem document_returns (laws : EncLaws lib) (writer : CipherValueLaws lex lib)
    (T : EncTemplate lib (sourceText src)) (hreads : Reads lex lib.toUppsala lib.nodeRange src T.doc)
    (hcalm : calm src = true) (hsym : T.SymmetricKey) (hbound : T.Bound)
    (hagree : KeysAgree lib ctx T.encUri (keyChildren T.encData))
    (hxml : isOpaque lib.toUppsala T.encData (encTypeOf lib.toUppsala T.encData) = false)
    (hwithin : IsWithin src T.encData.key) (hrow : data.data.toList = Text.bytes (r.text spelling))
    (hfits : Fits lex src T.encData.key r)
    (hfilled : ∀ key c, (lib.cipher T.encUri).encrypt key data = .ok c →
      ReadsFilled lex lib (T.filledSource (lib.base64Encode c)))
    (hunder : Understands lex lib.toUppsala (decryptedSource src T.encData.key r))
    (hrun : encrypt lib ctx (sourceText src) data = .ok out) :
    ∃ text doc', decryptToBytes lib ctx out = .ok (maybeConvertEncoding (Text.bytes text.toList))
      ∧ (¬ Garbled (Text.bytes text.toList) → decrypt lib ctx out = .ok text)
      ∧ lib.parse text = .ok doc'
      ∧ doc'.top.shape
        = (T.doc.top.substitute T.encData.key (treeOf lex T.encData.path r)).shape := by
  have hbytes := decryptToBytes_of_encrypt_inPlace laws writer T hreads hcalm hsym hbound hagree hxml
    hwithin hrow hfits hfilled hrun
  obtain ⟨doc', hparse, hshape⟩ :=
    hunder.accepts ((respelled_decryptedSource lex _ _ r).wellFormed hfits.wellFormed)
  rw [treeOf_decryptedSource hreads T.hasEncData] at hshape
  refine ⟨String.ofList ((decryptedSource src T.encData.key r).text spelling), doc', ?_,
    fun hclean => ?_, hparse, hshape⟩
  · rw [String.toList_ofList]
    exact hbytes
  · rw [String.toList_ofList] at hclean
    exact decrypt_of_bytes hbytes hclean

end RoundTrip

end EncTemplate

/-! ## A letter with a secret -/

namespace EnvelopeSample

open Sign.TurnSample (method docOf nodeAt documentOf_docOf)

/-- The EncryptedData of an element. -/
def encDataTag : Tag :=
  ⟨"EncryptedData".toList, [⟨[' '], "xmlns".toList, ['='], '"', Ns.ENC.toList⟩,
    ⟨[' '], "Type".toList, ['='], '"', "http://www.w3.org/2001/04/xmlenc#Element".toList⟩], [], some []⟩

/-- A letter of two parts. -/
def letter (part : Source) : Source :=
  .node 1 (bareTag "Letter".toList) (.leaf 2 (.text "Dear all".toList) part) .nil

def sealedPart (value : Source) : Source :=
  .node 3 encDataTag
    (method 4 "EncryptionMethod" Algorithm.AES128_CBC
      (.node 5 (bareTag "CipherData".toList) value .nil)) .nil

def valueTag : Tag := ⟨"CipherValue".toList, [], [], none⟩

/-- `<CipherValue/>`. -/
def blankValue : Source := .node 6 valueTag .nil .nil

def filledValue : Source :=
  .node 6 (bareTag "CipherValue".toList) (.leaf 7 (.text "AQ==".toList) .nil) .nil

/-- `<Secret></Secret>`. -/
def secretPart : Source := .node 8 (bareTag "Secret".toList) .nil .nil

/-- `<Secret/>`. -/
def shortPart : Source := .node 8 ⟨"Secret".toList, [], [], none⟩ .nil .nil

def template : Source := letter (sealedPart blankValue)

def filled : Source := letter (sealedPart filledValue)

def opened : Source := letter shortPart

def table : List Source := [template, filled, opened]

def secret : ByteArray := ⟨(Text.bytes (secretPart.text spelling)).toArray⟩

/-- What `XmlWriter::text` writes. -/
def escaped (c : Char) : List Char :=
  if c = '>' then "&gt;".toList else if c = '<' then "&lt;".toList
  else if c = '&' then "&amp;".toList else [c]

/-- Libraries that know these documents and one ciphertext. -/
def lib : EncLibs :=
  { SampleOpaque.libs secret ⟨#[1]⟩ "AQ==" with
    parse := tableParse plainLexicon table
    nodeRange := tableRange table
    writeText := fun s => String.ofList (s.toList.flatMap escaped) }

def templateDoc : Document := docOf template (by decide +kernel)

def filledDoc : Document := docOf filled (by decide +kernel)

theorem table_entries : ∀ src ∈ table, table.find? (fun s => s.text spelling == src.text spelling)
    = some src ∧ (0 :: src.keys).Nodup ∧ WellFormed plainLexicon src := by
  decide +kernel

theorem reads_entry {src : Source} (hmem : src ∈ table) {doc : Document}
    (hdoc : documentOf plainLexicon src = .ok doc) :
    Reads plainLexicon lib.toUppsala lib.nodeRange src doc := by
  obtain ⟨hfind, hkeys, hwf⟩ := table_entries src hmem
  have hparse : lib.toUppsala.parse = tableParse plainLexicon table := by rw [lib]
  have hrange : lib.nodeRange = tableRange table := by rw [lib]
  have hentry : entryOf? table (sourceText src) = some src := (entryOf?_ofList _).trans hfind
  obtain ⟨doc', hparsed, hreads⟩ := reads_table hparse hrange hentry hkeys hwf
  have hboth := hparsed
  rw [hparse, tableParse, ← sourceText, hentry] at hboth
  rw [Except.ok.inj (hdoc.symm.trans hboth)]
  exact hreads

theorem reads_template : Reads plainLexicon lib.toUppsala lib.nodeRange template templateDoc :=
  reads_entry List.mem_cons_self (documentOf_docOf _ _)

theorem reads_filled : Reads plainLexicon lib.toUppsala lib.nodeRange filled filledDoc :=
  reads_entry (List.mem_cons_of_mem _ List.mem_cons_self) (documentOf_docOf _ _)

/-- Where everything is in the template. -/
structure Parts : Prop where
  encData : templateDoc.findElement Ns.ENC "EncryptedData" = some (nodeAt templateDoc 2)
  encMethod : (nodeAt templateDoc 2).findChildElement Ns.ENC "EncryptionMethod"
    = some (nodeAt templateDoc 3)
  encUri : attributeOf lib.toUppsala (nodeAt templateDoc 3) "Algorithm" = some Algorithm.AES128_CBC
  cipherData : (nodeAt templateDoc 2).findChildElement Ns.ENC "CipherData"
    = some (nodeAt templateDoc 4)
  cipherValue : (nodeAt templateDoc 4).findChildElement Ns.ENC "CipherValue"
    = some (nodeAt templateDoc 5)
  keys : (nodeAt templateDoc 2).key = 3 ∧ (nodeAt templateDoc 5).key = 6
  type : attributeOf lib.toUppsala (nodeAt templateDoc 2) "Type"
    = some "http://www.w3.org/2001/04/xmlenc#Element"
  noKey : keyChildren (nodeAt templateDoc 2) = []
    ∧ (nodeAt templateDoc 2).findChildElement Ns.DSIG "KeyInfo" = none
    ∧ ∀ n ∈ templateDoc.descendants, n.isNamed Ns.ENC "EncryptedKey" = false
  value : nodeAt templateDoc 5 ∈ templateDoc.descendants
    ∧ (nodeAt templateDoc 5).element?.isSome = true
    ∧ ∀ c ∈ template.cursors [], c.key = 6 → c.item = .node valueTag .nil
  scope : prefixNamespace (nodeAt templateDoc 5).path
      (effectivePrefix (Forest.nodeText spelling valueTag (.nil : Source))) = some Ns.ENC
  name : (pname (effectivePrefix (Forest.nodeText spelling valueTag (.nil : Source)))
    "CipherValue").toList = "CipherValue".toList

theorem parts : Parts := by
  constructor <;> decide +kernel

theorem value_place :
    ∃ c, Sign.Place plainLexicon template (nodeAt templateDoc 5) c valueTag .nil := by
  obtain ⟨hmem, hsome, hblank⟩ := parts.value
  obtain ⟨e, he⟩ := Option.isSome_iff_exists.mp hsome
  obtain ⟨c, t, kids, hp⟩ := reads_template.exists_place hmem he
  have hitem := hp.item.symm.trans (hblank c hp.mem (hp.key.trans parts.keys.2))
  cases hitem
  exact ⟨c, hp⟩

/-- The cuts around the CipherValue. -/
theorem value_cuts : lib.nodeRange (sourceText template) (nodeAt templateDoc 5)
      = some (startOf template 6, stopOf template 6 valueTag .nil)
    ∧ sliceStr (sourceText template) 0 (startOf template 6)
      = .ok (String.ofList (template.textBefore spelling 6))
    ∧ sliceStr (sourceText template) (startOf template 6) (stopOf template 6 valueTag .nil)
      = .ok (String.ofList (Forest.nodeText spelling valueTag (.nil : Source)))
    ∧ sliceStr (sourceText template) (stopOf template 6 valueTag .nil)
        (sourceText template).utf8ByteSize
      = .ok (String.ofList (template.textAfter spelling 6)) := by
  obtain ⟨c, hp⟩ := value_place
  obtain ⟨hrange, hfront, hown, hback⟩ := reads_template.cuts parts.value.1 hp
  rw [parts.keys.2] at hrange hfront hown hback
  refine ⟨hrange, ?_, ?_, ?_⟩
  · rw [sliceStr, hfront]
    rfl
  · rw [sliceStr, hown]
    rfl
  · rw [sliceStr, hback]
    rfl

/-- What encryption finds in the template. -/
def found : EncTemplate lib (sourceText template) where
  doc := templateDoc
  parsed := reads_template.parsed
  encData := nodeAt templateDoc 2
  hasEncData := parts.encData
  encMethod := nodeAt templateDoc 3
  hasEncMethod := parts.encMethod
  encUri := Algorithm.AES128_CBC
  hasEncUri := parts.encUri
  cipherData := nodeAt templateDoc 4
  hasCipherData := parts.cipherData
  cipherValue := nodeAt templateDoc 5
  hasCipherValue := parts.cipherValue
  start := startOf template 6
  stop := stopOf template 6 valueTag .nil
  hasRange := value_cuts.1
  cvXml := String.ofList (Forest.nodeText spelling valueTag (.nil : Source))
  hasCvXml := value_cuts.2.2.1
  front := String.ofList (template.textBefore spelling 6)
  hasFront := value_cuts.2.1
  back := String.ofList (template.textAfter spelling 6)
  hasBack := value_cuts.2.2.2

theorem cvXml_eq : found.cvXml.toList = Forest.nodeText spelling valueTag (.nil : Source) :=
  String.toList_ofList

theorem laws : EncLaws lib := by
  have h := @SampleOpaque.libs_laws secret ⟨#[1]⟩ "AQ==" (by decide)
  exact ⟨h.keySize, h.inverts, h.base64, h.base64Word⟩

theorem writeText_gt (b64 : String) : '>' ∉ (lib.writeText b64).toList := by
  have hwritten : lib.writeText b64 = String.ofList (b64.toList.flatMap escaped) := by rw [lib]
  rw [hwritten, String.toList_ofList, List.mem_flatMap]
  rintro ⟨c, -, hc⟩
  revert hc
  rw [escaped]
  split
  · decide
  · split
    · decide
    · split
      · decide
      · rename_i hne _ _
        intro hc
        exact hne (List.mem_singleton.mp hc).symm

theorem written : ReadBack plainLexicon lib "AQ==" := by
  have hwritten : lib.writeText "AQ==" = String.ofList ("AQ==".toList.flatMap escaped) := by rw [lib]
  refine Or.inr ⟨by decide, ?_⟩
  rw [hwritten, String.toList_ofList]
  decide

theorem writer : CipherValueLaws plainLexicon lib where
  start _ := by
    rw [lib]
    rfl
  stop _ := by
    rw [lib]
    rfl
  calm := writeText_gt
  read _ _ _ _ _ := by
    have hencode : ∀ c, lib.base64Encode c = "AQ==" := by
      intro c
      rw [lib]
      rfl
    rw [hencode]
    exact written

/-- What the sources are, and how they fit together. -/
theorem source_facts :
    calm template = true ∧ WellFormed plainLexicon (template.substitute 3 secretPart)
      ∧ unmistaken (template.substitute 3 secretPart) = true ∧ calm secretPart = true
      ∧ decide ('\r' ∈ secretPart.text spelling) = false
      ∧ Text.trim (template.textAfter spelling 3) ≠ []
      ∧ decryptedSource template 3 secretPart = opened
      ∧ (nodeAt templateDoc 2).key = 3
      ∧ template.replaceNode 6 (bareTag "CipherValue".toList)
        (freshText template "AQ==".toList) = filled := by
  decide +kernel

theorem encData_key : found.encData.key = 3 := parts.keys.1

theorem fits : Fits plainLexicon template found.encData.key secretPart := by
  obtain ⟨-, hwf, hun, hcalm, hlines, -⟩ := source_facts
  rw [encData_key]
  exact ⟨hwf, hun, hcalm, of_decide_eq_false hlines⟩

theorem understands : Understands plainLexicon lib.toUppsala
    (decryptedSource template found.encData.key secretPart) := by
  obtain ⟨-, -, -, -, -, -, hopened, -⟩ := source_facts
  have hmem : opened ∈ table := List.mem_of_getLast? rfl
  obtain ⟨hfind, hkeys, hwf⟩ := table_entries opened hmem
  rw [encData_key, hopened]
  exact understands_table (by rw [lib]) ((entryOf?_ofList _).trans hfind) hkeys rfl hwf

theorem filledSource_eq : found.filledSource "AQ==" = filled := by
  obtain ⟨-, -, -, -, -, -, -, -, hfilled⟩ := source_facts
  have hname : found.valueName = "CipherValue".toList := by
    rw [EncTemplate.valueName, EncTemplate.pfx, cvXml_eq]
    exact parts.name
  have hwritten : lib.writeText "AQ==" = String.ofList ("AQ==".toList.flatMap escaped) := by rw [lib]
  have htext : (lib.writeText "AQ==").toList = "AQ==".toList := by
    rw [hwritten, String.toList_ofList]
    decide
  have hkey : found.cipherValue.key = 6 := parts.keys.2
  rw [EncTemplate.filledSource, hname, htext, hkey]
  exact hfilled

theorem encode_eq (c : ByteArray) : lib.base64Encode c = "AQ==" := by
  rw [lib]
  rfl

theorem readsFilled (c : ByteArray) :
    EncTemplate.ReadsFilled plainLexicon lib (found.filledSource (lib.base64Encode c)) := by
  refine ⟨id, Function.injective_id, filledDoc, ?_⟩
  rw [Forest.mapKeys_id, encode_eq, filledSource_eq]
  exact reads_filled

theorem bound : found.Bound := by
  rw [EncTemplate.Bound, EncTemplate.pfx, cvXml_eq]
  exact parts.scope

theorem noKeyInfo : keyChildren found.encData = []
    ∧ found.encData.findChildElement Ns.DSIG "KeyInfo" = none :=
  ⟨parts.noKey.1, parts.noKey.2.1⟩

theorem symmetric : found.SymmetricKey where
  noEncryptedKey := parts.noKey.2.2
  noRetrieval := by
    intro c hc
    rw [noKeyInfo.1] at hc
    cases hc

theorem keysAgree : KeysAgree lib SampleOpaque.ctx found.encUri (keyChildren found.encData) := by
  rw [noKeyInfo.1]
  constructor
  · intro k r hgiven
    cases hgiven
  · intro _
    exact ⟨.new (.aes SampleOpaque.key) .any, rfl, rfl⟩

theorem notOpaque :
    isOpaque lib.toUppsala found.encData (encTypeOf lib.toUppsala found.encData) = false := by
  have htype : attributeOf lib.toUppsala found.encData "Type"
      = some "http://www.w3.org/2001/04/xmlenc#Element" := parts.type
  rw [encTypeOf, htype, Option.getD_some, isOpaque, if_neg (by decide)]
  decide

theorem within : IsWithin template found.encData.key := by
  obtain ⟨-, -, -, -, -, hafter, -⟩ := source_facts
  rw [encData_key]
  exact fun hwhole => hafter hwhole.2

theorem resolved : resolveEncryptionKey lib SampleOpaque.ctx found.encData found.encUri
    = .ok SampleOpaque.key := by
  rw [resolveEncryptionKey, noKeyInfo.2]
  rfl

theorem enciphered : (lib.cipher found.encUri).encrypt SampleOpaque.key secret = .ok ⟨#[1]⟩ := by
  have hcipher : lib.cipher = (SampleOpaque.libs secret ⟨#[1]⟩ "AQ==").cipher := by rw [lib]
  have hc : ∀ data c b64, ((SampleOpaque.libs data c b64).cipher Algorithm.AES128_CBC).encrypt
      SampleOpaque.key data = .ok c := fun data c b64 => if_pos ⟨rfl, rfl, rfl⟩
  rw [hcipher]
  exact hc _ _ _

theorem sourceText_filled : sourceText filled = found.filled "AQ==" := by
  rw [← filledSource_eq, EncTemplate.sourceText_filledSource writer reads_template]

theorem filled_shape : filledDoc.top.shape = (found.filledTop (lib.base64Encode ⟨#[1]⟩)).shape := by
  rw [encode_eq, ← EncTemplate.shape_filledSource reads_template bound written, filledSource_eq,
    reads_filled.tree]

theorem encrypted : encrypt lib SampleOpaque.ctx (sourceText template) secret
    = .ok (sourceText filled) := by
  refine EncTemplate.encrypt_of resolved (by decide) enciphered ?_
  rw [encode_eq, ← sourceText_filled]
  exact encryptSessionKey_eq reads_filled.parsed
    (EncTemplate.noEncryptedKey_filled filled_shape symmetric)

theorem secret_bytes : secret.data.toList = Text.bytes (secretPart.text spelling) := rfl

/-- The filled letter, as it is read. -/
theorem filled_facts :
    filledDoc.findElement Ns.ENC "EncryptedData" = some (nodeAt filledDoc 2)
      ∧ (nodeAt filledDoc 2).key = 3 ∧ calm filled = true
      ∧ WellFormed plainLexicon (filled.substitute 3 secretPart)
      ∧ unmistaken (filled.substitute 3 secretPart) = true
      ∧ Text.trim (filled.textAfter spelling 3) ≠ []
      ∧ decryptedSource filled 3 secretPart = opened
      ∧ attributeOf lib.toUppsala (nodeAt filledDoc 2) "Type"
        = some "http://www.w3.org/2001/04/xmlenc#Element" := by
  decide +kernel

/-- The secret is put into the letter. -/
theorem secret_in_place :
    ∃ text doc', decryptToBytes lib SampleOpaque.ctx (sourceText filled)
        = .ok (maybeConvertEncoding (Text.bytes text.toList))
      ∧ (¬ Garbled (Text.bytes text.toList)
        → decrypt lib SampleOpaque.ctx (sourceText filled) = .ok text)
      ∧ lib.parse text = .ok doc'
      ∧ doc'.top.shape = (filledDoc.top.substitute (nodeAt filledDoc 2).key
        (treeOf plainLexicon (nodeAt filledDoc 2).path secretPart)).shape := by
  obtain ⟨hfind, hkey, hcalm, hwf, hun, hafter, hopened, htype⟩ := filled_facts
  obtain ⟨encData, hfound, -, hplain⟩ := EncTemplate.plaintextOf_filled laws found symmetric
    bound.keepsNamespace keysAgree resolved (by decide) enciphered filled_shape
  cases hfind.symm.trans hfound
  have hunder := understands
  obtain ⟨-, -, -, -, -, -, hsame, -⟩ := source_facts
  rw [encData_key, hsame] at hunder
  refine decrypted_in_place reads_filled hcalm hfind ?_ ?_ hplain secret_bytes ?_ ?_
  · rw [encTypeOf, htype, Option.getD_some, isOpaque, if_neg (by decide)]
    decide
  · rw [hkey]
    exact fun hwhole => hafter hwhole.2
  · rw [hkey]
    exact ⟨hwf, hun, fits.calm, fits.lines⟩
  · rw [hkey, hopened]
    exact hunder

/-- The secret comes back into the letter. -/
theorem secret_returns :
    ∃ text doc', decryptToBytes lib SampleOpaque.ctx (sourceText filled)
        = .ok (maybeConvertEncoding (Text.bytes text.toList))
      ∧ (¬ Garbled (Text.bytes text.toList)
        → decrypt lib SampleOpaque.ctx (sourceText filled) = .ok text)
      ∧ lib.parse text = .ok doc'
      ∧ doc'.top.shape = (found.doc.top.substitute found.encData.key
        (treeOf plainLexicon found.encData.path secretPart)).shape :=
  EncTemplate.document_returns laws writer found reads_template source_facts.1 symmetric bound
    keysAgree notOpaque within secret_bytes fits (fun _ c _ => readsFilled c) understands encrypted

end EnvelopeSample

end Bergshamra
