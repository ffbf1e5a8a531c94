import Bergshamra.Proof.KeyMarkup

/-!
# Filling a template changes the content of its targets

The four functions that fill a template, one by one. Three of them make a tag
anew and so lose what the old one had besides its name; the fourth keeps the
opening tag as it stands in the text.
-/

namespace Bergshamra

open XmlSource

namespace Sign

/-! ## A tag made anew -/

section Rebuilt

variable {lex : Lexicon} {lib : SignLibs} {src : Source} {doc : Document} {n : Node}
  {c : Forest.Cursor NodeId Tag Piece} {t : Tag} {kids kids' : Source}

theorem Place.key_mem (hp : Place lex src n c t kids) : ∀ k ∈ [n.key], k ∈ c.subtreeKeys := by
  intro k hk
  rw [List.mem_singleton.mp hk, ← hp.key]
  exact List.mem_cons_self

/-- **A tag made anew under its old name** keeps the element exactly when there was nothing on it
but the name. -/
theorem Place.rebuilt_iff (hp : Place lex src n c t kids) (h : ReadsTemplate lex lib src doc)
    (hunderstands : Understands lex lib.toUppsala (src.replaceNode n.key (bareTag t.name) kids'))
    (hproper : t.fields = [] → NameInScope lex (elementPath lex c.path) t.name →
      Proper lex ((n.key, elementOf lex (elementPath lex c.path) (bareTag t.name))
        :: elementPath lex c.path) kids') :
    OnlyContentChanges lib doc [n.key] (sourceText (src.replaceNode n.key (bareTag t.name) kids'))
      ↔ IsBare n := by
  rw [hp.isBare_iff, hp.onlyContentChanges_iff h hp.key_mem hunderstands]
  · constructor
    · intro hchange
      exact fields_eq_nil_of_element hchange.1.symm
    · intro hfields
      exact ⟨(elementOf_bareTag hfields).symm, Or.inl List.mem_cons_self⟩
  · intro helem _
    have hfields := fields_eq_nil_of_element helem.symm
    have htag := properTag_bareTag hfields (hp.properTag h)
    exact ⟨htag, (absurd · (Option.some_ne_none _)), hproper hfields (properTag_bareTag_iff.mp htag)⟩

/-- A tag made anew under another name is another element. -/
theorem Place.renamed (hp : Place lex src n c t kids) (h : ReadsTemplate lex lib src doc)
    {name : List Char}
    (hunderstands : Understands lex lib.toUppsala (src.replaceNode n.key (bareTag name) kids'))
    (hname : (nameParts name).1 ≠ (nameParts t.name).1) :
    ¬ OnlyContentChanges lib doc [n.key]
      (sourceText (src.replaceNode n.key (bareTag name) kids')) := by
  have hne : elementOf lex (elementPath lex c.path) t
      ≠ elementOf lex (elementPath lex c.path) (bareTag name) := by
    intro he
    have hpfx := congrArg (fun e : Element => e.name.pfx) he
    have hsplit : ∀ path n, (elementName path n).pfx = (nameParts n).1.map String.ofList := by
      intro path n
      rw [elementName]
      cases nameParts n with
      | mk p l => cases p <;> rfl
    simp only [elementOf, hsplit] at hpfx
    refine hname ?_
    have hinj : Function.Injective (Option.map String.ofList) :=
      Option.map_injective fun a b hab => String.ofList_injective hab
    exact (hinj hpfx).symm
  rw [hp.onlyContentChanges_iff h hp.key_mem hunderstands (fun he => absurd he hne)]
  exact fun hchange => hne hchange.1

end Rebuilt

/-! ## One element -/

section One

variable {lex : Lexicon} {lib : SignLibs} {src : Source} {doc : Document} {n : Node}

/-- The name of an element as it is made anew. -/
def newName (n : Node) (localName : String) : List Char := (pname (prefixOf n) localName).toList

theorem parseXml_eq (h : ReadsTemplate lex lib src doc) :
    parseXml lib (sourceText src) = .ok doc := by
  rw [parseXml, sourceText, h.parsed]

theorem Place.overwrite_rebuilt {c : Forest.Cursor NodeId Tag Piece} {t : Tag} {kids kids' : Source}
    (hp : Place lex src n c t kids) (h : ReadsTemplate lex lib src doc) (laws : WriterLaws lib)
    {tag content : String} (hcontent : content.toList = kids'.text spelling) :
    overwrite (sourceText src) (Text.byteLength (src.textBefore spelling n.key),
        Text.byteLength (src.textBefore spelling n.key)
          + Text.byteLength (Forest.nodeText spelling t kids)) (elementWithRaw lib tag content)
      = .ok (sourceText (src.replaceNode n.key (bareTag tag.toList) kids')) :=
  hp.overwrite_eq h (elementWithRaw_toList laws tag hcontent)

theorem firstEmptyElement_some {localName : String} (hn : firstEmptyElement doc localName = some n) :
    n ∈ doc.descendants ∧ ∃ e, n.element? = some e ∧ e.name.localName = localName := by
  have htest := List.find?_some hn
  rw [isEmptyElement, Bool.and_eq_true, Option.any_eq_true] at htest
  obtain ⟨⟨e, he, hlocal⟩, -⟩ := htest
  rw [Bool.and_eq_true, beq_iff_eq] at hlocal
  exact ⟨List.mem_of_find?_eq_some hn, e, he, hlocal.1⟩

/-- What `replace_first_empty_element` writes. -/
theorem replaceFirstEmptyElement_eq (laws : WriterLaws lib) (h : ReadsTemplate lex lib src doc)
    {localName newContent : String} (hn : firstEmptyElement doc localName = some n)
    (hpfx : PrefixFound lib (sourceText src) localName n) :
    replaceFirstEmptyElement lib (sourceText src) localName newContent
      = .ok (sourceText (src.replaceNode n.key (bareTag (newName n localName))
        (textKids (lib.writeText newContent).toList))) := by
  obtain ⟨hmem, e, he, hlocal⟩ := firstEmptyElement_some hn
  obtain ⟨c, t, kids, hp⟩ := exists_place h hmem he
  have hfound := hpfx _ (hp.original_eq h hmem)
  have hparse : lib.parse (sourceText src) = .ok doc := h.parsed
  simp only [replaceFirstEmptyElement, hparse, bind, Except.bind, hn]
  simp only [hp.range_eq h hmem, hp.slice_eq h, hfound]
  rw [elementWithText, ← elementWithRaw, hp.overwrite_rebuilt h laws (textKids_text _).symm, newName]

/-- `replace_first_empty_element`. -/
theorem replaceFirstEmptyElement_iff (laws : WriterLaws lib) (h : ReadsTemplate lex lib src doc)
    {localName newContent : String} (hn : firstEmptyElement doc localName = some n)
    (hpfx : PrefixFound lib (sourceText src) localName n)
    (hdata : IsCharacterData lex (lib.writeText newContent).toList)
    (hunderstands : Understands lex lib.toUppsala (src.replaceNode n.key
      (bareTag (newName n localName)) (textKids (lib.writeText newContent).toList))) :
    ∃ result, replaceFirstEmptyElement lib (sourceText src) localName newContent = .ok result
      ∧ (OnlyContentChanges lib doc [n.key] result ↔ IsBare n) := by
  obtain ⟨hmem, e, he, hlocal⟩ := firstEmptyElement_some hn
  obtain ⟨c, t, kids, hp⟩ := exists_place h hmem he
  have hname : newName n localName = t.name := by
    rw [newName, ← hlocal]
    exact hp.name_eq h he
  refine ⟨_, replaceFirstEmptyElement_eq laws h hn hpfx, ?_⟩
  rw [hname] at hunderstands ⊢
  exact hp.rebuilt_iff h hunderstands (fun _ _ => textKids_proper hdata)

theorem localName_of_isNamed {e : Element} {nsUri localName : String}
    (h : e.isNamed nsUri localName = true) : e.name.localName = localName := by
  rw [Element.isNamed, Bool.and_eq_true, beq_iff_eq] at h
  exact h.1

/-- `populate_key_value`. -/
theorem populateKeyValue_iff (laws : WriterLaws lib) (words : WordsAllowed lex)
    (hdata : ∀ bytes, IsCharacterData lex (writtenBytes lib bytes))
    (h : ReadsTemplate lex lib src doc) {keyData : KeyData}
    (hn : doc.findElement Ns.DSIG "KeyValue" = some n) (hunfilled : isUnfilled n = true)
    {innerXml : String} (hinner : toKeyValueXml lib (prefixOf n) keyData = some innerXml)
    (hpfx : PrefixFound lib (sourceText src) "KeyValue" n)
    (hunderstands : Understands lex lib.toUppsala (src.replaceNode n.key
      (bareTag (newName n "KeyValue")) (keyMarkup lib (prefixOf n) keyData))) :
    ∃ result, populateKeyValue lib (sourceText src) keyData = .ok result
      ∧ (OnlyContentChanges lib doc [n.key] result ↔ IsBare n) := by
  obtain ⟨hmem, e, he, hnamed⟩ := Document.findElement_some hn
  obtain ⟨c, t, kids, hp⟩ := exists_place h hmem he
  have hlocal := localName_of_isNamed hnamed
  have hname : newName n "KeyValue" = t.name := by
    rw [newName, ← hlocal]
    exact hp.name_eq h he
  have hfound := hpfx _ (hp.original_eq h hmem)
  refine ⟨_, ?_, hp.rebuilt_iff h (hname ▸ hunderstands) (fun hfields hscope => ?_)⟩
  · simp only [populateKeyValue, parseXml_eq h, bind, Except.bind, hn]
    simp only [hunfilled, if_true, hp.range_eq h hmem, hp.slice_eq h, hfound, hinner]
    rw [hp.overwrite_rebuilt h laws (keyMarkup_text laws hinner), ← hname, newName]
  · have hbelow := hscope.below (k := n.key) (e := elementOf lex (elementPath lex c.path)
      (bareTag t.name)) rfl
    rw [← hname] at hbelow ⊢
    exact keyMarkup_proper words hbelow (hp.prefix_word h) hdata

/-- The tag of an element and what it holds, as they are written. -/
def tagAt (src : Source) (k : NodeId) : Option (Tag × Source) :=
  (src.cursors []).findSome? (fun c =>
    match c.item with
    | .node t kids => if c.key = k then some (t, kids) else none
    | .leaf _ => none)

theorem Place.tagAt_eq {c : Forest.Cursor NodeId Tag Piece} {t : Tag} {kids : Source}
    (hp : Place lex src n c t kids) (h : ReadsTemplate lex lib src doc) :
    tagAt src n.key = some (t, kids) := by
  rw [tagAt, List.findSome?_eq_some_iff]
  obtain ⟨before, after, hsplit⟩ := List.append_of_mem hp.mem
  refine ⟨before, c, after, hsplit, ?_, fun d hd => ?_⟩
  · rw [hp.item]
    exact if_pos hp.key
  · have hne : d.key ≠ n.key := by
      intro hkey
      have hnodup : (src.cursors []).Nodup := by
        have hkeys := h.nodup
        rw [← Forest.cursors_keys []] at hkeys
        exact List.Nodup.of_map _ hkeys
      have hdc : d = c := Forest.cursor_eq_of_key h.nodup
        (hsplit ▸ List.mem_append_left _ hd) hp.mem (hkey.trans hp.key.symm)
      rw [hsplit, List.nodup_append] at hnodup
      exact hnodup.2.2 d hd c List.mem_cons_self hdc
    cases hitem : d.item with
    | leaf p => rfl
    | node t' kids' => exact if_neg hne

/-- `extract_open_tag` finds the opening tag of the element. -/
def OpenTagFound (src : Source) (n : Node) : Prop :=
  ∀ t kids, tagAt src n.key = some (t, kids) →
    extractOpenTag (String.ofList (Forest.nodeText spelling t kids))
      = String.ofList (t.start ++ ['>'])

/-- A tag with a closing tag. -/
def opened (t : Tag) : Tag := { t with close := some [] }

theorem properTag_opened {path : List (NodeId × Element)} {t : Tag}
    (h : properTag lex path t = true) : properTag lex path (opened t) = true := by
  rw [properTag, Bool.and_eq_true, Bool.and_eq_true] at h ⊢
  refine ⟨⟨?_, h.1.2⟩, h.2⟩
  have hvalid := h.1.1
  rw [Tag.valid, Bool.and_eq_true] at hvalid ⊢
  exact ⟨hvalid.1, rfl⟩

/-- The source with the base64 of a key in its DEREncodedKeyValue. -/
def derFilled (src : Source) (n : Node) (b64 : List Char) : Source :=
  match tagAt src n.key with
  | some (t, _) => src.replaceNode n.key (opened t) (textKids b64)
  | none => src

/-- `populate_der_encoded_key_value`. -/
theorem populateDerEncodedKeyValue_changes (h : ReadsTemplate lex lib src doc) {keyData : KeyData}
    (hn : doc.findElement Ns.DSIG11 "DEREncodedKeyValue" = some n) (hunfilled : isUnfilled n = true)
    {spkiDer : ByteArray} (hspki : lib.toSpkiDer keyData = some spkiDer)
    (hpfx : PrefixFound lib (sourceText src) "DEREncodedKeyValue" n) (hopen : OpenTagFound src n)
    (hdata : IsCharacterData lex (lib.base64Encode spkiDer).toList)
    (hunderstands : Understands lex lib.toUppsala
      (derFilled src n (lib.base64Encode spkiDer).toList)) :
    ∃ result, populateDerEncodedKeyValue lib (sourceText src) keyData = .ok result
      ∧ OnlyContentChanges lib doc [n.key] result := by
  obtain ⟨hmem, e, he, hnamed⟩ := Document.findElement_some hn
  obtain ⟨c, t, kids, hp⟩ := exists_place h hmem he
  have hname : newName n "DEREncodedKeyValue" = t.name := by
    rw [newName, ← localName_of_isNamed hnamed]
    exact hp.name_eq h he
  have hfound := hpfx _ (hp.original_eq h hmem)
  have htag := hp.tagAt_eq h
  rw [derFilled, htag] at hunderstands
  refine ⟨sourceText (src.replaceNode n.key (opened t) (textKids (lib.base64Encode spkiDer).toList)),
    ?_, ?_⟩
  · have hwritten : (extractOpenTag (String.ofList (Forest.nodeText spelling t kids))
          ++ lib.base64Encode spkiDer ++ "</" ++ pname (prefixOf n) "DEREncodedKeyValue" ++ ">").toList
        = Forest.nodeText spelling (opened t) (textKids (lib.base64Encode spkiDer).toList) := by
      rw [hopen t kids htag]
      simp only [String.toList_append, String.toList_ofList]
      rw [← newName, hname, Forest.nodeText, textKids_text]
      show _ = (opened t).opening ++ _ ++ (opened t).closing
      rw [Tag.opening, Tag.closing]
      simp [opened, Tag.start]
    simp only [populateDerEncodedKeyValue, parseXml_eq h, bind, Except.bind, hn]
    simp only [hunfilled, if_true, hspki, hp.range_eq h hmem, hp.slice_eq h, hfound]
    exact hp.overwrite_eq h hwritten
  · rw [hp.onlyContentChanges_iff h hp.key_mem hunderstands]
    · exact ⟨rfl, Or.inl List.mem_cons_self⟩
    · intro _ _
      exact ⟨properTag_opened (hp.properTag h), (absurd · (Option.some_ne_none _)),
        textKids_proper hdata⟩

/-! ## Certificates -/

/-- The text of an element, empty where there is none. -/
def originalOf (lib : SignLibs) (xml : String) (n : Node) : String :=
  match originalText lib xml n with
  | .ok original => original
  | .error _ => ""

/-- The source with the certificates of a chain in its X509Data. -/
def certificatesFilled (lib : SignLibs) (src : Source) (n : Node) (x509Chain : List ByteArray) :
    Source :=
  src.replaceNode n.key
    (bareTag (dataTag (originalOf lib (sourceText src) n) (prefixOf n)).toList)
    (numberRow lib (x509Chain.map (fun der => (pname (prefixOf n) "X509Certificate", der))))

/-- An X509Data without elements in `populate_x509_data`. It also loses its prefix, if its text has
something that looks like a declaration of it. -/
theorem populateX509Data_empty_iff (laws : WriterLaws lib) (h : ReadsTemplate lex lib src doc)
    {x509Chain : List ByteArray} (hn : doc.findElement Ns.DSIG "X509Data" = some n)
    (hempty : hasElementChild n = false)
    (hpfx : PrefixFound lib (sourceText src) "X509Data" n) (words : WordsAllowed lex)
    (hdata : ∀ bytes, IsCharacterData lex (writtenBytes lib bytes))
    (hunderstands : Understands lex lib.toUppsala (certificatesFilled lib src n x509Chain)) :
    ∃ result, populateX509Data lib (sourceText src) x509Chain = .ok result
      ∧ (OnlyContentChanges lib doc [n.key] result ↔ IsBare n
        ∧ dataTag (originalOf lib (sourceText src) n) (prefixOf n)
          = pname (prefixOf n) "X509Data") := by
  obtain ⟨hmem, e, he, hnamed⟩ := Document.findElement_some hn
  obtain ⟨c, t, kids, hp⟩ := exists_place h hmem he
  have hname : newName n "X509Data" = t.name := by
    rw [newName, ← localName_of_isNamed hnamed]
    exact hp.name_eq h he
  have hfound := hpfx _ (hp.original_eq h hmem)
  have horiginal : originalOf lib (sourceText src) n
      = String.ofList (Forest.nodeText spelling t kids) := by
    rw [originalOf, hp.original_eq h hmem]
  refine ⟨sourceText (certificatesFilled lib src n x509Chain), ?_, ?_⟩
  · simp only [populateX509Data, parseXml_eq h, bind, Except.bind, hn]
    simp only [hempty, Bool.false_eq_true, if_false, hp.range_eq h hmem, hp.slice_eq h, hfound]
    rw [hp.overwrite_rebuilt h laws (certificates_toList laws _ _), certificatesFilled, horiginal]
  · -- the tag is written with the prefix that was found, or without
    by_cases htag : dataTag (originalOf lib (sourceText src) n) (prefixOf n)
        = pname (prefixOf n) "X509Data"
    · rw [certificatesFilled, htag, ← newName, hname] at hunderstands ⊢
      rw [hp.rebuilt_iff h hunderstands]
      · exact ⟨fun hbare => ⟨hbare, rfl⟩, fun hbare => hbare.1⟩
      · intro hfields hscope
        rw [← hname] at hscope
        have hcert := (hscope.sibling (hp.prefix_word h)
          (words.word "X509Certificate".toList (by decide))).below (k := n.key)
          (e := elementOf lex (elementPath lex c.path) (bareTag (newName n "X509Data"))) rfl
        refine numberRow_proper (fun number hnumber => ?_) hdata
        obtain ⟨der, -, rfl⟩ := List.mem_map.mp hnumber
        exact hcert
    · -- the tag has no prefix, the old one has
      have hchanged : dataTag (originalOf lib (sourceText src) n) (prefixOf n) = "X509Data"
          ∧ prefixOf n ≠ "" := by
        unfold dataTag at htag ⊢
        split
        · rename_i hcond
          exact ⟨rfl, hcond.1⟩
        · rename_i hcond
          rw [if_neg hcond] at htag
          exact absurd rfl htag
      have hsplit : (nameParts "X509Data".toList).1 ≠ (nameParts t.name).1 := by
        rw [nameParts_word (by decide), ← hname, newName,
          nameParts_pname hchanged.2 (hp.prefix_word h)]
        simp
      have hlost : ¬ OnlyContentChanges lib doc [n.key]
          (sourceText (certificatesFilled lib src n x509Chain)) := by
        rw [certificatesFilled, hchanged.1] at hunderstands ⊢
        exact hp.renamed h hunderstands hsplit
      exact ⟨fun hchange => absurd hchange hlost, fun hkept => absurd hkept.2 htag⟩

end One

end Sign

end Bergshamra
