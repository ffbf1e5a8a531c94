import Bergshamra.Proof.WrittenElements

/-!
# The markup of a key

`to_key_value_xml` writes elements in the prefix that it is given, and an
ECKeyValue or a DHKeyValue with the namespace that it needs. Wherever the tag of
the KeyValue can be used, so can these.
-/

namespace Bergshamra

open XmlSource

namespace Sign

/-- A word of letters and digits. -/
def isWord (w : List Char) : Bool := w.head?.any Char.isAlpha && w.all Char.isAlphanum

/-- What XML allows in names and values, as far as signing writes them. -/
structure WordsAllowed (lex : Lexicon) : Prop where
  word : ∀ w, isWord w = true → lex.name w = true
  plain : ∀ value : String, isPlain value = true → lex.value value.toList = some value.toList

/-- A tag with one field. -/
def fieldTag (name field : List Char) (value : String) (close : Option (List Char)) : Tag :=
  ⟨name, [⟨[' '], field, ['='], '"', value.toList⟩], [], close⟩

/-- The row that `build_ec_key_value_xml` writes. -/
def ecMarkup (lib : SignLibs) (point : ByteArray) (curveUri : String) : Source :=
  .node 0 (fieldTag "ECKeyValue".toList "xmlns".toList Ns.DSIG11 (some []))
    (.node 0 (fieldTag "NamedCurve".toList "URI".toList curveUri none) .nil
      (numberRow lib [("PublicKey", point)])) .nil

/-- The numbers of a DHKeyValue. -/
def dhNumbers (p g : ByteArray) (q : Option ByteArray) (publicKey : ByteArray) :
    List (String × ByteArray) :=
  ("xenc:P", p) :: (q.toList.map (fun q => ("xenc:Q", q))
    ++ [("xenc:Generator", g), ("xenc:Public", publicKey)])

/-- The row of a DHKeyValue. -/
def dhMarkup (lib : SignLibs) (p g : ByteArray) (q : Option ByteArray) (publicKey : ByteArray) :
    Source :=
  .node 0 (fieldTag "xenc:DHKeyValue".toList "xmlns:xenc".toList Ns.ENC (some []))
    (numberRow lib (dhNumbers p g q publicKey)) .nil

/-- The row of a key with numbers, under a prefix. -/
def numbersMarkup (lib : SignLibs) (pfx name : String) (numbers : List (String × ByteArray)) :
    Source :=
  .node 0 (bareTag (pname pfx name).toList)
    (numberRow lib (numbers.map (fun number => (pname pfx number.1, number.2)))) .nil

/-- The row that `to_key_value_xml` writes. -/
def keyMarkup (lib : SignLibs) (pfx : String) : KeyData → Source
  | .rsa _ pub =>
      numbersMarkup lib pfx "RSAKeyValue"
        [("Modulus", (lib.rsaNumbers pub).1), ("Exponent", (lib.rsaNumbers pub).2)]
  | .ecP256 _ pub => ecMarkup lib (lib.ecPoint pub) "urn:oid:1.2.840.10045.3.1.7"
  | .ecP384 _ pub => ecMarkup lib (lib.ecPoint pub) "urn:oid:1.3.132.0.34"
  | .ecP521 _ pub => ecMarkup lib (lib.ecPoint pub) "urn:oid:1.3.132.0.35"
  | .dsa _ pub =>
      numbersMarkup lib pfx "DSAKeyValue"
        [("P", (lib.dsaNumbers pub).1), ("Q", (lib.dsaNumbers pub).2.1),
          ("G", (lib.dsaNumbers pub).2.2.1), ("Y", (lib.dsaNumbers pub).2.2.2)]
  | .dh p g q _ publicKey => dhMarkup lib p g q publicKey
  | .x25519 _ pub => ecMarkup lib pub "urn:ietf:params:xml:ns:keyprov:curve:x25519"
  | _ => .nil

/-! ## It is what is written -/

section Written

variable {lib : SignLibs}

theorem nodeText_fieldTag (name field : List Char) (value : String) (kids : Source) :
    Forest.nodeText spelling (fieldTag name field value (some [])) kids
      = '<' :: (name ++ ' ' :: (field ++ '=' :: '"' :: (value.toList ++ '"' :: '>' ::
          (kids.text spelling ++ '<' :: '/' :: (name ++ ['>']))))) := by
  rw [nodeText_eq]
  simp [fieldTag, Tag.closing, Field.text]

theorem elementWithField_toList (laws : WriterLaws lib) {tag name value content : String}
    {kids : Source} (hvalue : isPlain value = true) (h : content.toList = kids.text spelling) :
    (lib.startElement tag [(name, value)] ++ content ++ lib.endElement tag).toList
      = Forest.nodeText spelling (fieldTag tag.toList name.toList value (some [])) kids := by
  rw [laws.startField tag name value hvalue, laws.stop, nodeText_fieldTag]
  simp only [String.toList_append, h]
  simp

theorem emptyElement_toList (laws : WriterLaws lib) {tag name value : String}
    (hvalue : isPlain value = true) : (lib.emptyElement tag [(name, value)]).toList
      = Forest.nodeText spelling (fieldTag tag.toList name.toList value none) (.nil : Source) := by
  rw [laws.emptyField tag name value hvalue, nodeText_eq]
  simp [fieldTag, Tag.closing, Field.text]

theorem ecMarkup_text (laws : WriterLaws lib) (point : ByteArray) {curveUri : String}
    (hcurve : isPlain curveUri = true) :
    (buildEcKeyValueXml lib point curveUri).toList = (ecMarkup lib point curveUri).text spelling := by
  have hkids : (lib.emptyElement "NamedCurve" [("URI", curveUri)]
        ++ numberElement lib "PublicKey" point).toList
      = (Forest.node 0 (fieldTag "NamedCurve".toList "URI".toList curveUri none) .nil
        (numberRow lib [("PublicKey", point)]) : Source).text spelling := by
    rw [String.toList_append, emptyElement_toList laws hcurve, numberElement_toList laws,
      Forest.text_node, numberRow, List.map_cons, textElements_cons]
    simp [textElements]
  rw [buildEcKeyValueXml, elementWithField_toList laws (by decide) hkids, ecMarkup,
    Forest.text_node, Forest.text_nil, List.append_nil]

theorem dhMarkup_text (laws : WriterLaws lib) (p g : ByteArray) (q : Option ByteArray)
    (publicKey : ByteArray) :
    (dhKeyValueXml lib p g q publicKey).toList = (dhMarkup lib p g q publicKey).text spelling := by
  have hkids := numberRow_toList laws (dhNumbers p g q publicKey)
  rw [dhMarkup, Forest.text_node, Forest.text_nil, List.append_nil,
    ← elementWithField_toList laws (by decide) hkids, dhKeyValueXml]
  cases q with
  | none => simp [dhNumbers, String.join]
  | some q => simp [dhNumbers, String.join]

theorem numbersMarkup_text (laws : WriterLaws lib) (pfx name : String)
    (numbers : List (String × ByteArray)) :
    (elementWithRaw lib (pname pfx name) (String.join (numbers.map
        (fun number => numberElement lib (pname pfx number.1) number.2)))).toList
      = (numbersMarkup lib pfx name numbers).text spelling := by
  rw [numbersMarkup, Forest.text_node, Forest.text_nil, List.append_nil]
  refine elementWithRaw_toList laws _ ?_
  rw [← numberRow_toList laws, List.map_map]
  rfl

/-- **The markup of a key** is the row that stands for it. -/
theorem keyMarkup_text (laws : WriterLaws lib) {pfx : String} {keyData : KeyData} {xml : String}
    (h : toKeyValueXml lib pfx keyData = some xml) :
    xml.toList = (keyMarkup lib pfx keyData).text spelling := by
  cases keyData with
  | rsa priv pub =>
      cases h
      rw [keyMarkup, ← numbersMarkup_text laws]
      simp [String.join]
  | dsa priv pub =>
      cases h
      rw [keyMarkup, ← numbersMarkup_text laws]
      simp [String.join]
  | ecP256 priv pub =>
      cases h
      exact ecMarkup_text laws _ (by decide)
  | ecP384 priv pub =>
      cases h
      exact ecMarkup_text laws _ (by decide)
  | ecP521 priv pub =>
      cases h
      exact ecMarkup_text laws _ (by decide)
  | x25519 priv pub =>
      cases h
      exact ecMarkup_text laws _ (by decide)
  | dh p g q priv pub =>
      cases h
      exact dhMarkup_text laws p g q pub
  -- for these keys nothing is written
  | ed25519 priv pub => cases h
  | hmac k => cases h
  | aes k => cases h
  | des3 k => cases h
  | postQuantum algorithm priv pub => cases h

end Written

/-! ## It is proper -/

section Proper

variable {lex : Lexicon} {lib : SignLibs} {path : List (NodeId × Element)}

/-- A word can be used as a name anywhere. -/
theorem nameInScope_word (words : WordsAllowed lex) {w : List Char} (h : isWord w = true) :
    NameInScope lex path w := by
  have hname := words.word w h
  have hsplit := nameParts_word (not_colon_of_name hname)
  refine ⟨?_, fun p l hs => ?_⟩
  · rw [validName, hsplit]
    exact hname
  · rw [hsplit] at hs
    cases hs

theorem numbersMarkup_proper (words : WordsAllowed lex) {pfx top name : String}
    {numbers : List (String × ByteArray)} (hscope : NameInScope lex path (pname pfx top).toList)
    (hcolon : ':' ∉ pfx.toList) (hname : isWord name.toList = true)
    (hnames : ∀ number ∈ numbers, isWord number.1.toList = true)
    (hdata : ∀ bytes, IsCharacterData lex (writtenBytes lib bytes)) :
    Proper lex path (numbersMarkup lib pfx name numbers) := by
  refine ⟨properTag_bareTag_iff.mpr (hscope.sibling hcolon (words.word _ hname)),
    (absurd · (Option.some_ne_none _)), ?_, trivial⟩
  refine numberRow_proper (fun number hnumber => ?_) hdata
  obtain ⟨number', hnumber', rfl⟩ := List.mem_map.mp hnumber
  exact (hscope.below (by rfl)).sibling hcolon (words.word _ (hnames number' hnumber'))

theorem plain_quote {value : String} (h : isPlain value = true) : '"' ∉ value.toList := by
  intro hmem
  have hc := List.all_eq_true.mp h '"' hmem
  revert hc
  decide

theorem fieldTag_valid (words : WordsAllowed lex) {name field : List Char} {value : String}
    {close : Option (List Char)} (hname : validName lex name = true)
    (hfield : validName lex field = true) (hvalue : isPlain value = true)
    (hclose : close.all (fun s => s.all isSpace) = true) :
    (fieldTag name field value close).valid lex = true := by
  have hquote := plain_quote hvalue
  simp [Tag.valid, Field.valid, fieldTag, hname, hfield, hclose, words.plain value hvalue, hquote,
    isSpace]

theorem declarationsOf_fieldTag {name field : List Char} {value : String}
    {close : Option (List Char)} {d : String × String}
    (hdecl : declarationOf lex ⟨[' '], field, ['='], '"', value.toList⟩ = some d) :
    declarationsOf lex (fieldTag name field value close) = [d] := by
  simp [declarationsOf, fieldTag, hdecl]

/-- A tag with one declaration is proper, if its own prefix is none or the declared one. -/
theorem properTag_declaration (words : WordsAllowed lex) {name field : List Char} {p value : String}
    (hfield : validName lex field = true) (hvalue : isPlain value = true) (hne : value ≠ "")
    (hname : validName lex name = true)
    (hdecl : declarationOf lex ⟨[' '], field, ['='], '"', value.toList⟩ = some (p, value))
    (hpfx : ∀ q l, nameParts name = (some q, l) → String.ofList q = p) :
    properTag lex path (fieldTag name field value (some [])) = true := by
  have hvalid := @fieldTag_valid lex words name field value (some []) hname hfield hvalue (by decide)
  have hdecls := @declarationsOf_fieldTag lex name field value (some []) _ hdecl
  have hbound : prefixesBound lex path (fieldTag name field value (some [])) = true := by
    rw [prefixesBound, Bool.and_eq_true]
    constructor
    · split
      · rename_i q l hs
        have hq : String.ofList q = p := hpfx q l hs
        rw [hq, scopeOf, hdecls, prefixNamespace]
        split
        · rfl
        · simp [scopeNamespace, hne]
      · rfl
    · simp [fieldTag, hdecl, hne]
  have hapart : fieldsApart lex path (fieldTag name field value (some [])) = true := by
    rw [fieldsApart, decide_eq_true_eq]
    constructor
    · simp [elementOf, fieldTag, fieldAttribute, hdecl]
    · rw [elementOf, hdecls]
      exact List.nodup_singleton _
  rw [properTag, hvalid, hbound, hapart]
  rfl

/-- A tag with one attribute that has no prefix. -/
theorem properTag_attribute (words : WordsAllowed lex) {name field : List Char} {value : String}
    {close : Option (List Char)} (hname : isWord name = true) (hfield : isWord field = true)
    (hxmlns : field ≠ "xmlns".toList) (hvalue : isPlain value = true)
    (hclose : close.all (fun s => s.all isSpace) = true) :
    properTag lex path (fieldTag name field value close) = true := by
  have hn := @nameInScope_word lex path words name hname
  have hf := @nameInScope_word lex path words field hfield
  have hnameParts := nameParts_word (not_colon_of_name (words.word name hname))
  have hsplitField := nameParts_word (not_colon_of_name (words.word field hfield))
  have hvalid := fieldTag_valid words hn.1 hf.1 hvalue hclose
  have hdecl : declarationOf lex ⟨[' '], field, ['='], '"', value.toList⟩ = none := by
    rw [declarationOf]
    simp only [hsplitField]
    exact if_neg hxmlns
  have hbound : prefixesBound lex path (fieldTag name field value close) = true := by
    simp [prefixesBound, fieldTag, hnameParts, hdecl, hsplitField]
  have hapart : fieldsApart lex path (fieldTag name field value close) = true := by
    simp [fieldsApart, elementOf, declarationsOf, fieldTag, fieldAttribute, hdecl]
  rw [properTag, hvalid, hbound, hapart]
  rfl

theorem ecMarkup_proper (words : WordsAllowed lex) {curveUri : String}
    (hcurve : isPlain curveUri = true)
    (hdata : ∀ bytes, IsCharacterData lex (writtenBytes lib bytes)) (point : ByteArray) :
    Proper lex path (ecMarkup lib point curveUri) := by
  have hplain : isPlain Ns.DSIG11 = true := by decide
  have htag := @properTag_declaration lex path words "ECKeyValue".toList "xmlns".toList "" Ns.DSIG11
    (@nameInScope_word lex path words _ (by decide)).1 hplain (by decide)
    (@nameInScope_word lex path words _ (by decide)).1
    (by
      show some ("", String.ofList ((lex.value Ns.DSIG11.toList).getD [])) = _
      rw [words.plain _ hplain, Option.getD_some, String.ofList_toList])
    (by
      intro q l hs
      cases hs)
  refine ⟨htag, (absurd · (Option.some_ne_none _)), ⟨?_, fun _ => rfl, trivial, ?_⟩, trivial⟩
  · exact properTag_attribute words (by decide) (by decide) (by decide) hcurve (by decide)
  · refine numberRow_proper (fun number hnumber => ?_) hdata
    rw [List.mem_singleton.mp hnumber]
    exact nameInScope_word (w := "PublicKey".toList) words (by decide)

/-- A name in the prefix that the chain declares. -/
theorem nameInScope_declared (words : WordsAllowed lex) {k : NodeId} {e : Element} {uri : String}
    {name p l : List Char} (hsplit : nameParts name = (some p, l)) (hp : isWord p = true)
    (hl : isWord l = true) (he : e.namespaceDeclarations = [(String.ofList p, uri)])
    (huri : uri ≠ "") : NameInScope lex ((k, e) :: path) name := by
  refine ⟨?_, fun q l' hs => ?_⟩
  · rw [validName, hsplit]
    show (lex.name p && lex.name l) = true
    rw [words.word p hp, words.word l hl]
    rfl
  · rw [hsplit] at hs
    cases hs
    rw [prefixNamespace]
    split
    · rfl
    · simp [scopeNamespace, he, huri]

theorem dhMarkup_proper (words : WordsAllowed lex)
    (hdata : ∀ bytes, IsCharacterData lex (writtenBytes lib bytes)) (p g : ByteArray)
    (q : Option ByteArray) (publicKey : ByteArray) :
    Proper lex path (dhMarkup lib p g q publicKey) := by
  have hplain : isPlain Ns.ENC = true := by decide
  have hxenc : isWord "xenc".toList = true := by decide
  have hdecl : declarationOf lex ⟨[' '], "xmlns:xenc".toList, ['='], '"', Ns.ENC.toList⟩
      = some ("xenc", Ns.ENC) := by
    show some ("xenc", String.ofList ((lex.value Ns.ENC.toList).getD [])) = _
    rw [words.plain _ hplain, Option.getD_some, String.ofList_toList]
  have hname : validName lex "xenc:DHKeyValue".toList = true := by
    show (lex.name "xenc".toList && lex.name "DHKeyValue".toList) = true
    rw [words.word _ hxenc, words.word _ (by decide)]
    rfl
  have hfield : validName lex "xmlns:xenc".toList = true := by
    show (lex.name "xmlns".toList && lex.name "xenc".toList) = true
    rw [words.word _ (by decide), words.word _ hxenc]
    rfl
  have htag := @properTag_declaration lex path words "xenc:DHKeyValue".toList "xmlns:xenc".toList
    "xenc" Ns.ENC hfield hplain (by decide) hname hdecl
    (by
      intro q l hs
      cases hs
      rfl)
  -- the element declares the prefix that its children are written under
  have hdecls : (elementOf lex path (fieldTag "xenc:DHKeyValue".toList "xmlns:xenc".toList Ns.ENC
      (some []))).namespaceDeclarations = [(String.ofList "xenc".toList, Ns.ENC)] := by
    rw [String.ofList_toList]
    exact @declarationsOf_fieldTag lex "xenc:DHKeyValue".toList _ _ (some []) _ hdecl
  refine ⟨htag, (absurd · (Option.some_ne_none _)), ?_, trivial⟩
  refine numberRow_proper (fun number hnumber => ?_) hdata
  have hxencName : ∀ l : String, nameParts (pname "xenc" l).toList = (some "xenc".toList, l.toList) :=
    fun l => nameParts_pname (by decide) (by decide) l
  have hsplit : ∃ l, nameParts number.1.toList = (some "xenc".toList, l) ∧ isWord l = true := by
    rw [dhNumbers, List.mem_cons, List.mem_append, List.mem_map] at hnumber
    rcases hnumber with rfl | ⟨q, -, rfl⟩ | hnumber
    · exact ⟨"P".toList, hxencName "P", by decide⟩
    · exact ⟨"Q".toList, hxencName "Q", by decide⟩
    · rcases List.mem_cons.mp hnumber with rfl | hnumber
      · exact ⟨"Generator".toList, hxencName "Generator", by decide⟩
      · rw [List.mem_singleton.mp hnumber]
        exact ⟨"Public".toList, hxencName "Public", by decide⟩
  obtain ⟨l, hs, hl⟩ := hsplit
  exact nameInScope_declared words hs hxenc hl hdecls (by decide)

/-- **The markup of a key is proper** where another name under its prefix is. -/
theorem keyMarkup_proper (words : WordsAllowed lex) {pfx top : String} {keyData : KeyData}
    (hscope : NameInScope lex path (pname pfx top).toList) (hcolon : ':' ∉ pfx.toList)
    (hdata : ∀ bytes, IsCharacterData lex (writtenBytes lib bytes)) :
    Proper lex path (keyMarkup lib pfx keyData) := by
  cases keyData with
  | rsa priv pub =>
      refine numbersMarkup_proper words hscope hcolon (by decide) (fun number hnumber => ?_) hdata
      rcases List.mem_cons.mp hnumber with rfl | hnumber
      · show isWord "Modulus".toList = true
        decide
      · rw [List.mem_singleton.mp hnumber]
        show isWord "Exponent".toList = true
        decide
  | dsa priv pub =>
      refine numbersMarkup_proper words hscope hcolon (by decide) (fun number hnumber => ?_) hdata
      have hword : number.1 ∈ ["P", "Q", "G", "Y"] := List.mem_map_of_mem hnumber
      revert hword
      generalize number.1 = name
      revert name
      decide
  | ecP256 priv pub => exact ecMarkup_proper words (by decide) hdata _
  | ecP384 priv pub => exact ecMarkup_proper words (by decide) hdata _
  | ecP521 priv pub => exact ecMarkup_proper words (by decide) hdata _
  | x25519 priv pub => exact ecMarkup_proper words (by decide) hdata _
  | dh p g q priv pub => exact dhMarkup_proper words hdata p g q pub
  | ed25519 priv pub => trivial
  | hmac k => trivial
  | aes k => trivial
  | des3 k => trivial
  | postQuantum algorithm priv pub => trivial

end Proper

end Sign

end Bergshamra
