import Bergshamra.Dsig.Verify
import Bergshamra.Lib.Base64
import Bergshamra.Lib.BigEndian
import Bergshamra.Proof.DigestRun
import Bergshamra.Proof.KeyMarkup

/-!
# Keys that are written and read back

What `to_key_value_xml` writes below a KeyValue element is a row of the source, and
the parser has the row as a tree. Reading goes the same way back: the element is found
under the prefix that it was written with, or under the namespace that it declares;
each number is found by its local name, its text is the base64 that was written, and
its bytes are those of the number.
-/

namespace Bergshamra

open XmlSource BigEndian

namespace Sign

/-! ## Keys -/

/-- What writing and reading a key take from the crates. -/
structure KeyValueLibs extends SignLibs, KeyLibs

/-- `BigUint::to_bytes_be`. -/
def bytesBe (n : Nat) : ByteArray := ⟨(if n = 0 then [0] else minimal n).toArray⟩

/-- `BigUint::from_bytes_be`. -/
def fromBytesBe (bytes : ByteArray) : Nat := value bytes.data.toList

theorem fromBytesBe_bytesBe (n : Nat) : fromBytesBe (bytesBe n) = n := by
  show value (if n = 0 then [0] else minimal n) = n
  by_cases hn : n = 0
  · rw [if_pos hn, hn]
    rfl
  · rw [if_neg hn, minimal, value_fixed_of_lt (lt_width n)]

/-- A number is written with one byte at least. -/
theorem bytesBe_ne_empty (n : Nat) : bytesBe n ≠ .empty := by
  intro h
  have hlist : (if n = 0 then [0] else minimal n) = [] :=
    congrArg (fun bytes : ByteArray => bytes.data.toList) h
  by_cases hn : n = 0
  · rw [if_pos hn] at hlist
    cases hlist
  · rw [if_neg hn] at hlist
    have hvalue := congrArg value hlist
    rw [minimal, value_fixed_of_lt (lt_width n)] at hvalue
    exact hn hvalue

/-- The numbers of RSA and DSA keys, and the keys that are made of numbers. -/
structure KeyNumbers (lib : KeyValueLibs) where
  /-- Modulus and exponent. -/
  rsaParts : KeyBlob → Nat × Nat
  /-- `RsaPublicKey::new`. -/
  rsaNew : Nat → Nat → Except String KeyBlob
  /-- p, q, g and y. -/
  dsaParts : KeyBlob → Nat × Nat × Nat × Nat
  /-- `Components::from_components`, then `VerifyingKey::from_components`. -/
  dsaNew : Nat → Nat → Nat → Nat → Except String KeyBlob
  rsaNumbers : ∀ pub, lib.rsaNumbers pub = (bytesBe (rsaParts pub).1, bytesBe (rsaParts pub).2)
  rsaPublicKey : ∀ n e, lib.rsaPublicKey n e = rsaNew (fromBytesBe n) (fromBytesBe e)
  dsaNumbers : ∀ pub, lib.dsaNumbers pub = (bytesBe (dsaParts pub).1, bytesBe (dsaParts pub).2.1,
    bytesBe (dsaParts pub).2.2.1, bytesBe (dsaParts pub).2.2.2)
  dsaPublicKey : ∀ p q g y, lib.dsaPublicKey p q g y
    = dsaNew (fromBytesBe p) (fromBytesBe q) (fromBytesBe g) (fromBytesBe y)

/-- An RSA, EC or DSA key whose own numbers, or whose own point, the crates make that key of. -/
def KeyNumbers.Accepts {lib : KeyValueLibs} (numbers : KeyNumbers lib) : KeyData → Prop
  | .rsa _ pub => numbers.rsaNew (numbers.rsaParts pub).1 (numbers.rsaParts pub).2 = .ok pub
  | .ecP256 _ pub => lib.ecPublicKey "urn:oid:1.2.840.10045.3.1.7" (lib.ecPoint pub) = .ok pub
  | .ecP384 _ pub => lib.ecPublicKey "urn:oid:1.3.132.0.34" (lib.ecPoint pub) = .ok pub
  | .ecP521 _ pub => lib.ecPublicKey "urn:oid:1.3.132.0.35" (lib.ecPoint pub) = .ok pub
  | .dsa _ pub => numbers.dsaNew (numbers.dsaParts pub).1 (numbers.dsaParts pub).2.1
      (numbers.dsaParts pub).2.2.1 (numbers.dsaParts pub).2.2.2 = .ok pub
  | _ => False

/-- The public part of an RSA, EC or DSA key. -/
def publicPart : KeyData → KeyData
  | .rsa _ pub => .rsa none pub
  | .ecP256 _ pub => .ecP256 none pub
  | .ecP384 _ pub => .ecP384 none pub
  | .ecP521 _ pub => .ecP521 none pub
  | .dsa _ pub => .dsa none pub
  | keyData => keyData

/-- What the encoders and the parser's crate do with what is written. -/
structure KeyValueLaws (lex : Lexicon) (lib : KeyValueLibs) : Prop extends WordsAllowed lex,
    WriterLaws lib.toSignLibs where
  written : ∀ bytes, WrittenBack lex lib.toSignLibs (lib.base64Encode bytes)
  decoded : ∀ bytes, lib.base64Decode (lib.base64Encode bytes) = .ok bytes
  encodeEmpty : lib.base64Encode .empty = ""
  alphabet : ∀ bytes, ∀ c ∈ (lib.base64Encode bytes).toList, Text.isWhitespace c = false
  getAttribute : ∀ e b a, e.attributes = [b] → b.name = ⟨none, a, none⟩ →
    lib.getAttribute e a = some b.value

/-! ## Rows of one shape -/

section Shape

variable {i : NodeId} {t : Tag} {f kids rest : Source}

theorem eq_nil_of_shape (h : f.shape = (.nil : Source).shape) : f = .nil := by
  cases f with
  | nil => rfl
  | leaf j p rest' => cases h
  | node j t' kids' rest' => cases h

theorem exists_node_of_shape (h : f.shape = (Forest.node i t kids rest : Source).shape) :
    ∃ j kids' rest', f = .node j t kids' rest' ∧ kids'.shape = kids.shape
      ∧ rest'.shape = rest.shape := by
  cases f with
  | nil => cases h
  | leaf j p rest' => cases h
  | node j t' kids' rest' =>
      rw [Forest.shape_node, Forest.shape_node] at h
      obtain ⟨-, rfl, hkids, hrest⟩ := Forest.node.inj h
      exact ⟨j, kids', rest', rfl, hkids, hrest⟩

/-- The text of a row that holds what was written. -/
theorem WrittenBack.text_of_shape {lex : Lexicon} {lib : SignLibs} {content : String}
    (h : WrittenBack lex lib content)
    (hs : kids.shape = (textKids (lib.writeText content).toList).shape) (key : NodeId)
    (path path' : List (NodeId × Element)) (e : Element) :
    Node.textContentDeep ⟨key, path, .node e (treeOf lex path' kids)⟩ = content := by
  rcases h with ⟨hraw, hcontent⟩ | h
  · rw [textKids, if_pos hraw] at hs
    rw [eq_nil_of_shape hs, hcontent]
    rfl
  · have hne : (lib.writeText content).toList ≠ [] := lex.text_ne_nil _ (by rw [h]; rfl)
    rw [textKids, if_neg hne] at hs
    cases kids with
    | nil => cases hs
    | node j t' kids' rest' => cases hs
    | leaf j p rest' =>
        rw [Forest.shape_leaf, Forest.shape_leaf] at hs
        obtain ⟨-, rfl, hrest⟩ := Forest.leaf.inj hs
        rw [eq_nil_of_shape hrest]
        show String.join [String.ofList ((lex.text _).getD [])] = content
        rw [h, Option.getD_some, String.ofList_toList]
        simp [String.join]

end Shape

section Relabel

variable {lex : Lexicon} (g : NodeId → NodeId)

theorem properTag_relabel (path : List (NodeId × Element)) (t : Tag) :
    properTag lex (relabelPath g path) t = properTag lex path t := by
  have hpfx : ∀ p, prefixNamespace (scopeOf lex (relabelPath g path) t) p
      = prefixNamespace (scopeOf lex path t) p := by
    intro p
    unfold prefixNamespace scopeNamespace scopeOf
    rw [List.findSome?_cons, List.findSome?_cons, relabelPath, List.findSome?_map]
    rfl
  rw [properTag, properTag, fieldsApart, fieldsApart, elementOf_relabel, prefixesBound,
    prefixesBound]
  simp only [hpfx]

theorem proper_mapKeys (path : List (NodeId × Element)) (f : Source) :
    Proper lex (relabelPath g path) (f.mapKeys g) ↔ Proper lex path f := by
  induction f generalizing path with
  | nil => exact Iff.rfl
  | leaf i p rest ih =>
      have hstarts : startsWithText (rest.mapKeys g) = startsWithText rest := by
        cases rest with
        | nil => rfl
        | leaf j q rest' => rfl
        | node j t' kids' rest' => rfl
      rw [Forest.mapKeys, Proper, Proper, hstarts, ih]
  | node i t kids rest ihk ihr =>
      have hkids : kids.mapKeys g = .nil ↔ kids = .nil := by
        cases kids with
        | nil => exact Iff.rfl
        | leaf j q rest' => simp [Forest.mapKeys]
        | node j t' kids' rest' => simp [Forest.mapKeys]
      have hbelow := ihk ((i, elementOf lex path t) :: path)
      rw [Forest.mapKeys, Proper, Proper, properTag_relabel, hkids, ihr, elementOf_relabel]
      exact and_congr_right fun _ => and_congr_right fun _ => and_congr_left fun _ => hbelow

/-- Rows of one shape are proper in the same places. -/
theorem proper_of_shape {path : List (NodeId × Element)} {f f' : Source} (h : f.shape = f'.shape) :
    Proper lex path f ↔ Proper lex path f' := by
  rw [← proper_mapKeys (fun _ => 0), Forest.mapKeys_eq_of_shape h 0, proper_mapKeys]

end Relabel

theorem text_of_shape {f f' : Source} (h : f.shape = f'.shape) :
    f.text spelling = f'.text spelling := by
  rw [← Forest.text_mapKeys (fun _ => ()), ← Forest.text_mapKeys (fun _ => ()) f']
  exact congrArg (Forest.text spelling) h

/-! ## Names -/

section Names

variable {lex : Lexicon} {path : List (NodeId × Element)} {pfx name : String}

theorem nameParts_local (hcolon : ':' ∉ pfx.toList) (hname : ':' ∉ name.toList) :
    (nameParts (pname pfx name).toList).2 = name.toList := by
  by_cases hpfx : pfx = ""
  · rw [pname, if_pos hpfx, nameParts_word hname]
  · rw [nameParts_pname hpfx hcolon]

/-- The local name of what is written under a prefix. -/
theorem localName_pname {t : Tag} (ht : t.name = (pname pfx name).toList)
    (hcolon : ':' ∉ pfx.toList) (hname : ':' ∉ name.toList) :
    (elementOf lex path t).name.localName = name := by
  have hlocal := nameParts_local hcolon hname
  show (elementName (scopeOf lex path t) t.name).localName = name
  rw [ht, elementName]
  cases hs : nameParts (pname pfx name).toList with
  | mk p l =>
      rw [hs] at hlocal
      obtain rfl : l = name.toList := hlocal
      cases p with
      | none => exact String.ofList_toList
      | some p => exact String.ofList_toList

/-- The namespace of what is written under a prefix. -/
theorem namespace_pname {t : Tag} {uri : String} (ht : t.name = (pname pfx name).toList)
    (hcolon : ':' ∉ pfx.toList) (hname : ':' ∉ name.toList)
    (hbound : prefixNamespace (scopeOf lex path t) pfx = some uri) :
    (elementOf lex path t).name.uri = uri := by
  have hns : (elementName (scopeOf lex path t) t.name).namespaceUri = some uri := by
    rw [ht, elementName]
    by_cases hpfx : pfx = ""
    · rw [pname, if_pos hpfx, nameParts_word hname]
      rw [hpfx, prefixNamespace, if_neg (by decide)] at hbound
      exact hbound
    · rw [nameParts_pname hpfx hcolon]
      show prefixNamespace _ (String.ofList pfx.toList) = some uri
      rw [String.ofList_toList]
      exact hbound
  show QName.uri (elementName (scopeOf lex path t) t.name) = uri
  rw [QName.uri, hns]
  rfl

theorem isNamed_pname {t : Tag} {uri : String} (ht : t.name = (pname pfx name).toList)
    (hcolon : ':' ∉ pfx.toList) (hname : ':' ∉ name.toList)
    (hbound : prefixNamespace (scopeOf lex path t) pfx = some uri) :
    (elementOf lex path t).isNamed uri name = true := by
  rw [Element.isNamed, localName_pname ht hcolon hname, namespace_pname ht hcolon hname hbound]
  simp

end Names

/-! ## Numbers -/

section Numbers

variable {lex : Lexicon} {lib : KeyValueLibs} {pfx : String}

/-- A number of a row is found by its local name, and its text is what was written. -/
theorem find_numberRow (laws : KeyValueLaws lex lib) (hcolon : ':' ∉ pfx.toList)
    {numbers : List (String × ByteArray)} (hnames : ∀ number ∈ numbers, ':' ∉ number.1.toList)
    {row : Source} (hs : row.shape
      = (numberRow lib.toSignLibs (numbers.map fun number => (pname pfx number.1, number.2))).shape)
    {number : String × ByteArray} {localName : String}
    (hfind : numbers.find? (fun number => number.1 == localName) = some number)
    (path path' : List (NodeId × Element)) :
    ∃ c, ((treeOf lex path' row).row path).find? (fun c : Node =>
        c.element?.any (fun e => e.name.localName == localName)) = some c
      ∧ Node.textContentDeep c = lib.base64Encode number.2 := by
  induction numbers generalizing row with
  | nil => cases hfind
  | cons first numbers ih =>
      have hfirst := hnames first List.mem_cons_self
      obtain ⟨i, kids, rest, rfl, hkids, hrest⟩ := exists_node_of_shape hs
      have hlocal := @localName_pname lex path' pfx first.1 (bareTag (pname pfx first.1).toList) rfl
        hcolon hfirst
      rw [treeOf, Forest.row]
      by_cases hname : (first.1 == localName) = true
      · rw [List.find?_cons_of_pos (by exact hname)] at hfind
        obtain rfl : first = number := Option.some.inj hfind
        refine ⟨_, List.find?_cons_of_pos ?_, (laws.written first.2).text_of_shape hkids _ _ _ _⟩
        exact (congrArg (· == localName) hlocal).trans hname
      · rw [List.find?_cons_of_neg (by exact hname)] at hfind
        rw [List.find?_cons_of_neg]
        · exact ih (fun number hn => hnames number (List.mem_cons_of_mem first hn)) hrest hfind
        · exact fun he => hname ((congrArg (· == localName) hlocal).symm.trans he)

theorem decodeCryptoBinary_encoded (laws : KeyValueLaws lex lib) {bytes : ByteArray}
    (hne : bytes ≠ .empty) :
    decodeCryptoBinary lib.toTransformLibs (lib.base64Encode bytes) = some (.ok bytes) := by
  have hclean : withoutWhitespace (trimStr (lib.base64Encode bytes)) = lib.base64Encode bytes := by
    rw [trimStr_word (laws.alphabet bytes), withoutWhitespace_word (laws.alphabet bytes)]
  have htext : lib.base64Encode bytes ≠ "" := by
    intro hempty
    have hdecoded := laws.decoded bytes
    rw [hempty, ← laws.encodeEmpty, laws.decoded] at hdecoded
    exact hne (Except.ok.inj hdecoded).symm
  rw [decodeCryptoBinary, hclean, if_neg htext, laws.decoded]

theorem withoutLineBreaks_word {s : String} (h : ∀ c ∈ s.toList, Text.isWhitespace c = false) :
    withoutLineBreaks s = s := by
  have htrim : Text.trim s.toList = s.toList :=
    Text.trim_of_ends (fun c hc => h c (List.mem_of_mem_head? hc))
      (fun c hc => h c (List.mem_of_mem_getLast? hc))
  have hfilter : s.toList.filter (fun c => c != '\n' && c != '\r' && c != ' ') = s.toList := by
    rw [List.filter_eq_self]
    intro c hc
    have hblank := h c hc
    simp only [Bool.and_eq_true, bne_iff_ne, ne_eq]
    refine ⟨⟨?_, ?_⟩, ?_⟩
    all_goals
      rintro rfl
      revert hblank
      decide
  rw [withoutLineBreaks, htrim, hfilter, String.ofList_toList]

/-- An element with numbers below it, in a namespace and under a prefix that stands for it. -/
structure HoldsNumbers (lib : KeyValueLibs) (n : Node) (numbers : List (String × ByteArray)) :
    Prop where
  found : ∀ number ∈ numbers, ∃ c, n.findLocalNamed number.1 = some c
    ∧ c.textContentDeep = lib.base64Encode number.2

theorem HoldsNumbers.cryptoBinary {n : Node} {numbers : List (String × ByteArray)}
    (laws : KeyValueLaws lex lib) (h : HoldsNumbers lib n numbers) {number : String × ByteArray}
    (hmem : number ∈ numbers) (hne : number.2 ≠ .empty) :
    n.findLocalNamed number.1 ≠ none
      ∧ cryptoBinary lib.toTransformLibs n number.1 = .ok number.2 := by
  obtain ⟨c, hfind, htext⟩ := h.found number hmem
  rw [Bergshamra.cryptoBinary, hfind]
  refine ⟨Option.some_ne_none c, ?_⟩
  dsimp only
  rw [htext, decodeCryptoBinary_encoded laws hne]

theorem HoldsNumbers.decodeElem {n : Node} {numbers : List (String × ByteArray)}
    (laws : KeyValueLaws lex lib) (h : HoldsNumbers lib n numbers) {number : String × ByteArray}
    (hmem : number ∈ numbers) :
    decodeElem lib.toTransformLibs n number.1 = .ok number.2 := by
  obtain ⟨c, hfind, htext⟩ := h.found number hmem
  have hdecoded : decodedContent lib.toTransformLibs c = .ok number.2 := by
    rw [decodedContent, htext, trimStr_word (laws.alphabet number.2),
      withoutWhitespace_word (laws.alphabet number.2)]
    exact laws.decoded number.2
  rw [Bergshamra.decodeElem, hfind]
  dsimp only
  rw [hdecoded]

end Numbers

/-! ## Elements -/

section Elements

variable {lex : Lexicon} {lib : KeyValueLibs} {k : NodeId} {e : Element}
  {path path' : List (NodeId × Element)} {kids : Source}

theorem find?_of_nodup {α : Type} {rows : List (String × α)} (hn : (rows.map Prod.fst).Nodup)
    {row : String × α} (hmem : row ∈ rows) : rows.find? (fun r => r.1 == row.1) = some row := by
  induction rows with
  | nil => cases hmem
  | cons first rows ih =>
      rw [List.map_cons, List.nodup_cons] at hn
      rw [List.find?_cons]
      rcases List.mem_cons.mp hmem with rfl | hmem
      · rw [beq_self_eq_true]
      · have hne : first.1 ≠ row.1 := by
          intro heq
          exact hn.1 (heq ▸ List.mem_map_of_mem hmem)
        rw [beq_false_of_ne hne]
        exact ih hn.2 hmem

/-- The one child of a KeyValue. -/
structure OnlyChild (n c : Node) : Prop where
  children : n.children = [c]

theorem OnlyChild.found {n c : Node} (h : OnlyChild n c) {uri name : String}
    (hname : c.isNamed uri name = true) : n.findChildElement uri name = some c := by
  rw [Node.findChildElement, h.children, List.find?_cons, hname]

theorem OnlyChild.not_found {n c : Node} (h : OnlyChild n c) {uri uri' name name' : String}
    (hname : c.isNamed uri name = true) (hne : name ≠ name') :
    n.findChildElement uri' name' = none := by
  obtain ⟨e, he, hnamed⟩ := Node.isNamed_iff.mp hname
  rw [Node.findChildElement, h.children, List.find?_cons, Node.isNamed, he, Option.any_some,
    Element.not_isNamed hnamed hne]
  rfl

/-- The element of a key with numbers, read below the KeyValue. -/
theorem exists_numbersElement (laws : KeyValueLaws lex lib) {pfx name : String}
    (hbound : prefixNamespace path' pfx = some Ns.DSIG) (hcolon : ':' ∉ pfx.toList)
    (hname : ':' ∉ name.toList) {numbers : List (String × ByteArray)}
    (hnames : ∀ number ∈ numbers, ':' ∉ number.1.toList) (hn : (numbers.map Prod.fst).Nodup)
    (hs : kids.shape = (numbersMarkup lib.toSignLibs pfx name numbers).shape) :
    ∃ c, OnlyChild ⟨k, path, .node e (treeOf lex path' kids)⟩ c
      ∧ c.isNamed Ns.DSIG name = true ∧ HoldsNumbers lib c numbers := by
  obtain ⟨i, inner, rest, rfl, hinner, hrest⟩ := exists_node_of_shape hs
  rw [eq_nil_of_shape hrest]
  refine ⟨_, ⟨rfl⟩, ?_, ⟨fun number hmem => ?_⟩⟩
  · refine isNamed_pname rfl hcolon hname ?_
    rw [prefixNamespace_scopeOf rfl]
    exact hbound
  · exact find_numberRow laws hcolon hnames hinner (find?_of_nodup hn hmem) _ _

/-- The element of a point, read below the KeyValue. -/
structure HoldsPoint (lib : KeyValueLibs) (n : Node) (point : ByteArray) (curveUri : String) :
    Prop where
  named : n.isNamed Ns.DSIG11 "ECKeyValue" = true
  curve : ∃ c, n.findLocalNamed "NamedCurve" = some c
    ∧ c.element?.bind (fun e => lib.getAttribute e "URI") = some curveUri
  publicKey : ∃ c, n.findLocalNamed "PublicKey" = some c
    ∧ c.textContentDeep = lib.base64Encode point

/-- The default namespace of the ECKeyValue. -/
theorem ecTag_namespace (words : WordsAllowed lex) :
    prefixNamespace (scopeOf lex path'
      (fieldTag "ECKeyValue".toList "xmlns".toList Ns.DSIG11 (some []))) "" = some Ns.DSIG11 := by
  have hdecls : declarationsOf lex (fieldTag "ECKeyValue".toList "xmlns".toList Ns.DSIG11 (some []))
      = [("", Ns.DSIG11)] := by
    refine declarationsOf_fieldTag ?_
    show some ("", String.ofList ((lex.value Ns.DSIG11.toList).getD [])) = _
    rw [words.plain _ (by decide), Option.getD_some, String.ofList_toList]
  rw [prefixNamespace, if_neg (by decide), scopeOf, hdecls]
  rfl

/-- The attribute of the NamedCurve. -/
theorem curveTag_attribute (laws : KeyValueLaws lex lib) {curveUri : String}
    (hcurve : isPlain curveUri = true) : lib.getAttribute (elementOf lex path'
      (fieldTag "NamedCurve".toList "URI".toList curveUri none)) "URI" = some curveUri := by
  have hattr : (elementOf lex path'
      (fieldTag "NamedCurve".toList "URI".toList curveUri none)).attributes
        = [⟨⟨none, "URI", none⟩, curveUri⟩] := by
    show [(⟨⟨none, String.ofList "URI".toList, none⟩,
      String.ofList ((lex.value curveUri.toList).getD [])⟩ : Attribute)] = _
    rw [laws.plain _ hcurve, Option.getD_some, String.ofList_toList, String.ofList_toList]
  exact laws.getAttribute _ _ _ hattr rfl

theorem exists_pointElement (laws : KeyValueLaws lex lib) {point : ByteArray} {curveUri : String}
    (hcurve : isPlain curveUri = true)
    (hs : kids.shape = (ecMarkup lib.toSignLibs point curveUri).shape) :
    ∃ c, OnlyChild ⟨k, path, .node e (treeOf lex path' kids)⟩ c
      ∧ HoldsPoint lib c point curveUri := by
  obtain ⟨i, inner, rest, rfl, hinner, hrest⟩ := exists_node_of_shape hs
  obtain ⟨j, curveKids, row, rfl, -, hrow⟩ := exists_node_of_shape hinner
  rw [eq_nil_of_shape hrest]
  refine ⟨_, ⟨rfl⟩, ?_, ⟨_, rfl, curveTag_attribute laws hcurve⟩, ?_⟩
  · exact @isNamed_pname lex path' "" "ECKeyValue" _ Ns.DSIG11 rfl (by decide) (by decide)
      (ecTag_namespace laws.toWordsAllowed)
  · -- the NamedCurve is passed over
    have hrow' : row.shape = (numberRow lib.toSignLibs
        ([("PublicKey", point)].map fun number => (pname "" number.1, number.2))).shape := hrow
    have hnames : ∀ number ∈ [("PublicKey", point)], ':' ∉ number.1.toList := by
      intro number hmem
      rw [List.mem_singleton.mp hmem]
      show ':' ∉ "PublicKey".toList
      decide
    exact @find_numberRow lex lib "" laws (by decide) [("PublicKey", point)] hnames row hrow'
      ("PublicKey", point) "PublicKey" rfl _ _

end Elements

/-! ## The readers -/

section Readers

variable {lex : Lexicon} {lib : KeyValueLibs} {keyValue c : Node}

theorem parseRsaKeyValue_numbers (laws : KeyValueLaws lex lib) (numbers : KeyNumbers lib)
    (hchild : OnlyChild keyValue c) (hname : c.isNamed Ns.DSIG "RSAKeyValue" = true) {pub : KeyBlob}
    (hnumbers : HoldsNumbers lib c
      [("Modulus", (lib.rsaNumbers pub).1), ("Exponent", (lib.rsaNumbers pub).2)])
    (hkey : numbers.rsaNew (numbers.rsaParts pub).1 (numbers.rsaParts pub).2 = .ok pub) :
    parseRsaKeyValue lib.toKeyLibs keyValue = .ok (.new (.rsa none pub) .verify) := by
  rw [numbers.rsaNumbers] at hnumbers
  generalize numbers.rsaParts pub = parts at hnumbers hkey
  obtain ⟨n, e⟩ := parts
  dsimp only at hnumbers hkey
  obtain ⟨hmodulus, hm⟩ := hnumbers.cryptoBinary laws List.mem_cons_self (bytesBe_ne_empty n)
  obtain ⟨hexponent, he⟩ := hnumbers.cryptoBinary laws
    (List.mem_cons_of_mem _ (List.mem_singleton_self _)) (bytesBe_ne_empty e)
  have hpub : lib.rsaPublicKey (bytesBe n) (bytesBe e) = .ok pub := by
    rw [numbers.rsaPublicKey, fromBytesBe_bytesBe, fromBytesBe_bytesBe, hkey]
  rw [parseRsaKeyValue, hchild.found hname]
  dsimp only
  rw [if_neg hmodulus, if_neg hexponent]
  simp only [bind, Except.bind]
  rw [hm, he]
  dsimp only
  rw [hpub]

theorem parseDsaKeyValue_numbers (laws : KeyValueLaws lex lib) (numbers : KeyNumbers lib)
    (hchild : OnlyChild keyValue c) (hname : c.isNamed Ns.DSIG "DSAKeyValue" = true) {pub : KeyBlob}
    (hnumbers : HoldsNumbers lib c [("P", (lib.dsaNumbers pub).1), ("Q", (lib.dsaNumbers pub).2.1),
      ("G", (lib.dsaNumbers pub).2.2.1), ("Y", (lib.dsaNumbers pub).2.2.2)])
    (hkey : numbers.dsaNew (numbers.dsaParts pub).1 (numbers.dsaParts pub).2.1
      (numbers.dsaParts pub).2.2.1 (numbers.dsaParts pub).2.2.2 = .ok pub) :
    parseDsaKeyValue lib.toKeyLibs keyValue = .ok (.new (.dsa none pub) .verify) := by
  rw [numbers.dsaNumbers] at hnumbers
  generalize numbers.dsaParts pub = parts at hnumbers hkey
  obtain ⟨p, q, g, y⟩ := parts
  dsimp only at hnumbers hkey
  have hp := @HoldsNumbers.decodeElem lex lib c _ laws hnumbers ("P", bytesBe p) (by simp)
  have hq := @HoldsNumbers.decodeElem lex lib c _ laws hnumbers ("Q", bytesBe q) (by simp)
  have hg := @HoldsNumbers.decodeElem lex lib c _ laws hnumbers ("G", bytesBe g) (by simp)
  have hy := @HoldsNumbers.decodeElem lex lib c _ laws hnumbers ("Y", bytesBe y) (by simp)
  have hpub : lib.dsaPublicKey (bytesBe p) (bytesBe q) (bytesBe g) (bytesBe y) = .ok pub := by
    rw [numbers.dsaPublicKey, fromBytesBe_bytesBe, fromBytesBe_bytesBe, fromBytesBe_bytesBe,
      fromBytesBe_bytesBe, hkey]
  rw [parseDsaKeyValue, hchild.found hname]
  simp only [bind, Except.bind]
  rw [hp, hq, hg, hy]
  dsimp only
  rw [hpub]

theorem parseEcKeyValue_point (laws : KeyValueLaws lex lib) (hchild : OnlyChild keyValue c)
    {point : ByteArray} {curveUri : String} (hpoint : HoldsPoint lib c point curveUri)
    {keyData : KeyData} (hkey : ecKeyData lib.toKeyLibs curveUri point = .ok keyData) :
    parseEcKeyValue lib.toKeyLibs keyValue = .ok (.new keyData .verify) := by
  obtain ⟨namedCurve, hcurve, huri⟩ := hpoint.curve
  obtain ⟨publicKey, hpublic, htext⟩ := hpoint.publicKey
  have hfound : keyValue.children.find? (fun c : Node =>
      c.isNamed Ns.DSIG11 "ECKeyValue" || c.isNamed Ns.DSIG "ECKeyValue") = some c := by
    rw [hchild.children, List.find?_cons, hpoint.named, Bool.true_or]
  rw [parseEcKeyValue, hfound]
  dsimp only
  rw [hcurve]
  dsimp only
  rw [huri]
  dsimp only
  rw [hpublic]
  dsimp only
  rw [htext, withoutLineBreaks_word (laws.alphabet point), laws.decoded]
  dsimp only
  rw [hkey]
  rfl

/-- The reader that fits is reached, and what it reads is returned. -/
theorem keyOfKeyValue_markup (laws : KeyValueLaws lex lib) (numbers : KeyNumbers lib)
    {keyData : KeyData} (hkey : numbers.Accepts keyData) {pfx : String} {k : NodeId} {e : Element}
    {path path' : List (NodeId × Element)} {kids : Source}
    (hbound : prefixNamespace path' pfx = some Ns.DSIG) (hcolon : ':' ∉ pfx.toList)
    (hs : kids.shape = (keyMarkup lib.toSignLibs pfx keyData).shape) :
    keyOfKeyValue lib.toKeyLibs ⟨k, path, .node e (treeOf lex path' kids)⟩
      = .ok (some (.new (publicPart keyData) .verify)) := by
  -- a point is read by the second reader: the first one finds no RSAKeyValue
  have hec : ∀ {point : ByteArray} {curveUri : String}, isPlain curveUri = true →
      kids.shape = (ecMarkup lib.toSignLibs point curveUri).shape →
      ecKeyData lib.toKeyLibs curveUri point = .ok (publicPart keyData) →
      keyOfKeyValue lib.toKeyLibs ⟨k, path, .node e (treeOf lex path' kids)⟩
        = .ok (some (.new (publicPart keyData) .verify)) := by
    intro point curveUri hcurve hshape hdata
    obtain ⟨c, hchild, hpoint⟩ :=
      @exists_pointElement lex lib k e path path' kids laws point curveUri hcurve hshape
    have hno : Node.findChildElement _ Ns.DSIG "RSAKeyValue" = none :=
      hchild.not_found hpoint.named (by decide)
    rw [keyOfKeyValue, parseRsaKeyValue, hno, parseEcKeyValue_point laws hchild hpoint hdata]
    rfl
  cases keyData with
  | rsa priv pub =>
      obtain ⟨c, hchild, hname, hnumbers⟩ := @exists_numbersElement lex lib k e path path' kids laws
        pfx "RSAKeyValue" hbound hcolon (by decide)
        [("Modulus", (lib.rsaNumbers pub).1), ("Exponent", (lib.rsaNumbers pub).2)]
        (fun number hmem => by
          have hin : number.1 ∈ ["Modulus", "Exponent"] := List.mem_map_of_mem hmem
          revert hin
          generalize number.1 = name
          revert name
          decide)
        (by
          show ["Modulus", "Exponent"].Nodup
          decide) hs
      rw [keyOfKeyValue, parseRsaKeyValue_numbers laws numbers hchild hname hnumbers hkey]
      rfl
  | dsa priv pub =>
      obtain ⟨c, hchild, hname, hnumbers⟩ := @exists_numbersElement lex lib k e path path' kids laws
        pfx "DSAKeyValue" hbound hcolon (by decide)
        [("P", (lib.dsaNumbers pub).1), ("Q", (lib.dsaNumbers pub).2.1),
          ("G", (lib.dsaNumbers pub).2.2.1), ("Y", (lib.dsaNumbers pub).2.2.2)]
        (fun number hmem => by
          have hin : number.1 ∈ ["P", "Q", "G", "Y"] := List.mem_map_of_mem hmem
          revert hin
          generalize number.1 = name
          revert name
          decide)
        (by
          show ["P", "Q", "G", "Y"].Nodup
          decide) hs
      have hno : Node.findChildElement _ Ns.DSIG "RSAKeyValue" = none :=
        hchild.not_found hname (by decide)
      have hnoEc : parseEcKeyValue lib.toKeyLibs ⟨k, path, .node e (treeOf lex path' kids)⟩
          = .error (.missingElement "ECKeyValue") := by
        obtain ⟨el, hel, hnamed⟩ := Node.isNamed_iff.mp hname
        rw [parseEcKeyValue, hchild.children, List.find?_cons, Node.isNamed, Node.isNamed, hel,
          Option.any_some, Option.any_some, Element.not_isNamed hnamed (by decide),
          Element.not_isNamed hnamed (by decide)]
        rfl
      rw [keyOfKeyValue, parseRsaKeyValue, hno, hnoEc,
        parseDsaKeyValue_numbers laws numbers hchild hname hnumbers hkey]
      rfl
  | ecP256 priv pub =>
      refine hec (by decide) hs ?_
      rw [ecKeyData, if_pos rfl]
      dsimp only
      rw [show lib.ecPublicKey _ _ = _ from hkey]
      rfl
  | ecP384 priv pub =>
      refine hec (by decide) hs ?_
      rw [ecKeyData, if_neg (by decide), if_pos rfl]
      dsimp only
      rw [show lib.ecPublicKey _ _ = _ from hkey]
      rfl
  | ecP521 priv pub =>
      refine hec (by decide) hs ?_
      rw [ecKeyData, if_neg (by decide), if_neg (by decide), if_pos rfl]
      dsimp only
      rw [show lib.ecPublicKey _ _ = _ from hkey]
      rfl
  | dh p g q privateKey publicKey => exact hkey.elim
  | ed25519 priv pub => exact hkey.elim
  | x25519 priv pub => exact hkey.elim
  | hmac k => exact hkey.elim
  | aes k => exact hkey.elim
  | des3 k => exact hkey.elim
  | postQuantum algorithm privateDer publicDer => exact hkey.elim

end Readers

/-! ## The round trip -/

/-- The markup of a key is written below an element, in whose scope its prefix stands for the
namespace of signatures. -/
structure Embedding (lex : Lexicon) (lib : KeyValueLibs) (pfx : String) (keyData : KeyData)
    (src : Source) (place : Forest.Cursor NodeId Tag Piece) (t : Tag) (markup : Source) :
    Prop where
  wellFormed : WellFormed lex src
  nodup : src.keys.Nodup
  mem : place ∈ src.cursors []
  item : ∃ kids, place.item = .node t kids
  hasContent : t.close.isSome = true
  isPrefix : pfx = "" ∨ lex.name pfx.toList = true
  bound : prefixNamespace ((place.key, elementOf lex (elementPath lex place.path) t)
    :: elementPath lex place.path) pfx = some Ns.DSIG
  isMarkup : markup.shape = (keyMarkup lib.toSignLibs pfx keyData).shape

section Embedding

variable {lex : Lexicon} {lib : KeyValueLibs} {pfx : String} {keyData : KeyData} {src : Source}
  {place : Forest.Cursor NodeId Tag Piece} {t : Tag} {markup : Source}

theorem Embedding.not_colon (h : Embedding lex lib pfx keyData src place t markup) :
    ':' ∉ pfx.toList := by
  rcases h.isPrefix with hempty | hname
  · rw [hempty]
    decide
  · exact not_colon_of_name hname

/-- The document is well-formed with the key in it. -/
theorem Embedding.wellFormed_replaced (laws : KeyValueLaws lex lib)
    (h : Embedding lex lib pfx keyData src place t markup) :
    WellFormed lex (src.replaceNode place.key t markup) := by
  obtain ⟨kids, hitem⟩ := h.item
  have hword : lex.name "KeyValue".toList = true := laws.word _ (by decide)
  -- the name of the child is in scope: it has the prefix that the place is bound under, or none
  have hscope : NameInScope lex ((place.key, elementOf lex (elementPath lex place.path) t)
      :: elementPath lex place.path) (pname pfx "KeyValue").toList := by
    rcases h.isPrefix with hempty | hname
    · have hsplit : nameParts (pname pfx "KeyValue").toList = (none, "KeyValue".toList) := by
        rw [pname, if_pos hempty]
        exact nameParts_word (not_colon_of_name hword)
      refine ⟨?_, fun p l hs => ?_⟩
      · rw [validName, hsplit]
        exact hword
      · rw [hsplit] at hs
        cases hs
    · have hne : pfx ≠ "" := by
        rintro rfl
        exact lex.name_ne_nil _ hname rfl
      have hsplit := nameParts_pname hne h.not_colon "KeyValue"
      refine ⟨?_, fun p l hs => ?_⟩
      · rw [validName, hsplit, Bool.and_eq_true]
        exact ⟨hname, hword⟩
      · rw [hsplit] at hs
        cases hs
        rw [String.ofList_toList, h.bound]
        rfl
  have hmarkup := (proper_of_shape h.isMarkup).mpr (keyMarkup_proper laws.toWordsAllowed hscope
    h.not_colon fun bytes => (laws.written bytes).isCharacterData)
  -- the tag of the place itself stays
  have hproper := @proper_node lex [] src h.wellFormed.proper place h.mem t kids hitem
  have hclose : t.close = none → markup = .nil := by
    intro hnone
    have hcontent := h.hasContent
    rw [hnone] at hcontent
    cases hcontent
  exact ⟨@proper_replaceNode lex place.key [] src h.nodup h.wellFormed.proper place h.mem rfl t kids
    hitem t markup hproper.1 hclose hmarkup, oneRoot_replaceNode h.wellFormed.oneRoot⟩

/-- The text of the document around the text of the key. -/
theorem Embedding.text_replaced (laws : KeyValueLaws lex lib)
    (h : Embedding lex lib pfx keyData src place t markup) {xml : String}
    (hxml : toKeyValueXml lib.toSignLibs pfx keyData = some xml) :
    sourceText (src.replaceNode place.key t markup)
      = String.ofList (src.textBefore spelling place.key ++ t.opening) ++ xml
        ++ String.ofList (t.closing ++ src.textAfter spelling place.key) := by
  obtain ⟨kids, hitem⟩ := h.item
  have hmarkup : markup.text spelling = xml.toList := by
    rw [text_of_shape h.isMarkup, ← keyMarkup_text laws.toWriterLaws hxml]
  have htext : (src.replaceNode place.key t markup).text spelling
      = (src.textBefore spelling place.key ++ t.opening) ++ xml.toList
        ++ (t.closing ++ src.textAfter spelling place.key) := by
    rw [Forest.text_replaceNode h.nodup h.mem rfl hitem, Forest.nodeText, hmarkup]
    simp only [List.append_assoc]
    rfl
  rw [sourceText, htext, String.ofList_append, String.ofList_append, String.ofList_toList]

/-- **What is written for a key is read back as that key.** The text that `to_key_value_xml` gives
for an RSA, EC or DSA key stands between the tags of the KeyValue, the document is well-formed with
it, and `extract_key_value` finds the public key in a KeyInfo where no child before the KeyValue
gives a key. -/
theorem key_value_round_trip (laws : KeyValueLaws lex lib) (numbers : KeyNumbers lib)
    (hkey : numbers.Accepts keyData) (h : Embedding lex lib pfx keyData src place t markup)
    {doc : Document} (hreads : WellFormed lex (src.replaceNode place.key t markup) →
      ReadsTemplate lex lib.toSignLibs (src.replaceNode place.key t markup) doc) :
    ∃ xml, toKeyValueXml lib.toSignLibs pfx keyData = some xml
      ∧ lib.parse (String.ofList (src.textBefore spelling place.key ++ t.opening) ++ xml
          ++ String.ofList (t.closing ++ src.textAfter spelling place.key)) = .ok doc
      ∧ ∀ keyInfo ∈ doc.descendants, ∀ before keyValue after,
          keyInfo.children = before ++ keyValue :: after → keyValue.key = place.key →
          keyValue.isDsigOrPlain "KeyValue" = true →
          firstExtracted lib.toKeyLibs before = .ok none →
          extractKeyValue lib.toKeyLibs keyInfo
            = .ok (some (.new (publicPart keyData) .verify)) := by
  have hread := hreads (h.wellFormed_replaced laws)
  obtain ⟨kids, hitem⟩ := h.item
  obtain ⟨xml, hxml⟩ : ∃ xml, toKeyValueXml lib.toSignLibs pfx keyData = some xml := by
    cases keyData with
    | rsa priv pub => exact ⟨_, rfl⟩
    | dsa priv pub => exact ⟨_, rfl⟩
    | ecP256 priv pub => exact ⟨_, rfl⟩
    | ecP384 priv pub => exact ⟨_, rfl⟩
    | ecP521 priv pub => exact ⟨_, rfl⟩
    | dh p g q privateKey publicKey => exact hkey.elim
    | ed25519 priv pub => exact hkey.elim
    | x25519 priv pub => exact hkey.elim
    | hmac k => exact hkey.elim
    | aes k => exact hkey.elim
    | des3 k => exact hkey.elim
    | postQuantum algorithm privateDer publicDer => exact hkey.elim
  refine ⟨xml, hxml, ?_, ?_⟩
  · rw [← h.text_replaced laws hxml]
    exact hread.parsed
  · intro keyInfo hinfo before keyValue after hchildren hplace hnamed hbefore
    have hmem : keyValue ∈ doc.descendants := by
      have hchild : keyValue ∈ keyInfo.children := by
        rw [hchildren]
        exact List.mem_append_right _ List.mem_cons_self
      exact Forest.mem_cursors_descendants hinfo ((Forest.row_sublist _ _).subset hchild)
    obtain ⟨el, hel⟩ : ∃ el, keyValue.element? = some el := by
      cases hel : keyValue.element? with
      | none =>
          rw [Node.isDsigOrPlain, Node.isNamed, Node.isNamed, hel] at hnamed
          cases hnamed
      | some el => exact ⟨el, rfl⟩
    -- the KeyValue is the element that the markup was written below
    obtain ⟨c, t', kids', hp⟩ := exists_place hread hmem hel
    have hcursor := Forest.mem_cursors_replaceNode h.nodup h.mem hitem t markup
    have hsame := Forest.cursor_eq_of_key hread.nodup hp.mem hcursor (hp.key.trans hplace)
    have hitem' := hp.item
    rw [hsame] at hitem'
    obtain ⟨rfl, rfl⟩ := Forest.Item.node.inj hitem'
    have hnode := hp.node
    rw [hsame, hplace] at hnode
    obtain ⟨key, path, item⟩ := keyValue
    dsimp only at hnode
    rw [extractKeyValue, hchildren, firstExtracted_append hbefore, firstExtracted,
      extractFromChild, if_pos hnamed, hnode,
      keyOfKeyValue_markup laws numbers hkey h.bound h.not_colon h.isMarkup]
    rfl

end Embedding

namespace KeySample

/-- Modulus 3233 and exponent 17, as a key is encoded here: the exponent, then the modulus. -/
def pub : KeyBlob := ⟨#[17, 12, 161]⟩

def parts (pub : KeyBlob) : Nat × Nat :=
  match pub.data.toList with
  | [] => (0, 0)
  | e :: n => (value n, e.toNat)

def newKey (n e : Nat) : Except String KeyBlob :=
  if e < 2 ∨ e % 2 = 0 then .error "invalid exponent"
  else .ok ⟨(UInt8.ofNat e :: minimal n).toArray⟩

def keyInfoTag : Tag := fieldTag "ds:KeyInfo".toList "xmlns:ds".toList Ns.DSIG (some [])

def keyValueTag : Tag := bareTag "ds:KeyValue".toList

/-- A KeyInfo with an empty KeyValue. -/
def src : Source := .node 1 keyInfoTag (.node 2 keyValueTag .nil .nil) .nil

/-- The markup of the key, with ids of its own. -/
def markup : Source :=
  .node 3 (bareTag "ds:RSAKeyValue".toList)
    (.node 4 (bareTag "ds:Modulus".toList) (.leaf 5 (.text "DKE=".toList) .nil)
      (.node 6 (bareTag "ds:Exponent".toList) (.leaf 7 (.text "EQ==".toList) .nil) .nil)) .nil

/-- The KeyInfo with the key. -/
def embedded : Source := .node 1 keyInfoTag (.node 2 keyValueTag markup .nil) .nil

def place : Forest.Cursor NodeId Tag Piece := ⟨2, [(1, keyInfoTag)], .node keyValueTag .nil⟩

/-- Libraries that know this document, and the numbers of a key. -/
def signLib : SignLibs :=
  { tableLib [embedded] id with
    rsaNumbers := fun pub => (bytesBe (parts pub).1, bytesBe (parts pub).2)
    dsaNumbers := fun _ => (bytesBe 0, bytesBe 0, bytesBe 0, bytesBe 0) }

def lib : KeyValueLibs :=
  { signLib, (VerifyLibs.ofParser signLib.parse).toKeyLibs with
    rsaPublicKey := fun n e => newKey (fromBytesBe n) (fromBytesBe e) }

theorem lib_parse : lib.parse = tableParse plainLexicon [embedded] := tableLib_parse [embedded] id

theorem lib_nodeRange : lib.nodeRange = tableRange [embedded] := by
  rw [lib, signLib, tableLib_nodeRange]

def numbers : KeyNumbers lib where
  rsaParts := parts
  rsaNew := newKey
  dsaParts _ := (0, 0, 0, 0)
  dsaNew _ _ _ _ := .error "not a key"
  rsaNumbers _ := rfl
  rsaPublicKey _ _ := rfl
  dsaNumbers _ := rfl
  dsaPublicKey _ _ _ _ := rfl

theorem laws : KeyValueLaws plainLexicon lib where
  toWordsAllowed := DigestSample.wordsAllowed
  toWriterLaws :=
    have h := tableLib_laws [embedded] id
    ⟨h.start, h.stop, h.startField, h.emptyField⟩
  written := tableLib_written [embedded] id
  decoded := tableLib_decoded [embedded] id
  encodeEmpty := rfl
  alphabet bytes c hc := (tableLib_alphabet [embedded] id bytes c hc).1
  getAttribute e b a hattrs hname := by
    show (e.attributes.find? _).map _ = _
    rw [hattrs, List.find?_cons, hname, beq_self_eq_true]
    rfl

theorem minimal_modulus : minimal 3233 = [12, 161] := minimal_value [12, 161]

theorem minimal_exponent : minimal 17 = [17] := minimal_value [17]

theorem accepted : numbers.Accepts (.rsa none pub) := by
  show newKey 3233 17 = .ok pub
  rw [newKey, if_neg (by decide), minimal_modulus]
  rfl

theorem encoded : writtenBytes lib.toSignLibs (bytesBe 3233) = "DKE=".toList
    ∧ writtenBytes lib.toSignLibs (bytesBe 17) = "EQ==".toList := by
  have hmodulus : bytesBe 3233 = ⟨#[12, 161]⟩ := by
    rw [bytesBe, if_neg (by decide), minimal_modulus]
  have hexponent : bytesBe 17 = ⟨#[17]⟩ := by
    rw [bytesBe, if_neg (by decide), minimal_exponent]
  rw [hmodulus, hexponent]
  decide +kernel

theorem embedding : Embedding plainLexicon lib "ds" (.rsa none pub) src place keyValueTag markup where
  wellFormed := by decide +kernel
  nodup := by decide
  mem := List.mem_cons_of_mem _ List.mem_cons_self
  item := ⟨_, rfl⟩
  hasContent := rfl
  isPrefix := Or.inr (by decide)
  bound := by decide +kernel
  isMarkup := by
    show _ = (Forest.node 0 (bareTag (pname "ds" "RSAKeyValue").toList)
      (.node 0 (bareTag (pname "ds" "Modulus").toList)
        (textKids (writtenBytes lib.toSignLibs (bytesBe 3233)))
        (.node 0 (bareTag (pname "ds" "Exponent").toList)
          (textKids (writtenBytes lib.toSignLibs (bytesBe 17))) .nil)) .nil : Source).shape
    rw [encoded.1, encoded.2]
    decide +kernel

/-- The KeyValue of the document. -/
def keyValue : Node :=
  ⟨2, [(1, elementOf plainLexicon [] keyInfoTag)], .node
    (elementOf plainLexicon [(1, elementOf plainLexicon [] keyInfoTag)] keyValueTag)
    (treeOf plainLexicon [(2, elementOf plainLexicon [(1, elementOf plainLexicon [] keyInfoTag)]
      keyValueTag), (1, elementOf plainLexicon [] keyInfoTag)] markup)⟩

theorem keyValue_named : keyValue.isDsigOrPlain "KeyValue" = true := by
  have hname : (elementOf plainLexicon [(1, elementOf plainLexicon [] keyInfoTag)]
      keyValueTag).isNamed Ns.DSIG "KeyValue" = true := by decide +kernel
  rw [Node.isDsigOrPlain, Bool.or_eq_true]
  exact Or.inl hname

end KeySample

/-- An RSA key under the prefix `ds` is written, and read back. -/
theorem key_value_sample : ∃ doc keyInfo,
    KeySample.lib.parse (sourceText KeySample.embedded) = .ok doc ∧ keyInfo ∈ doc.descendants
      ∧ extractKeyValue KeySample.lib.toKeyLibs keyInfo
        = .ok (some (.new (.rsa none KeySample.pub) .verify)) := by
  have hembedded : KeySample.src.replaceNode KeySample.place.key KeySample.keyValueTag
      KeySample.markup = KeySample.embedded := rfl
  obtain ⟨doc, hparsed, hread⟩ := @reads_table plainLexicon [KeySample.embedded]
    KeySample.lib.toUppsala KeySample.lib.nodeRange KeySample.embedded KeySample.lib_parse
    KeySample.lib_nodeRange
    (by decide +kernel) (by decide +kernel) (by decide +kernel)
  obtain ⟨xml, -, -, hextract⟩ := key_value_round_trip KeySample.laws KeySample.numbers
    KeySample.accepted KeySample.embedding (fun _ => hembedded ▸ hread)
  have htop : doc.descendants = (treeOf plainLexicon [] KeySample.embedded).cursors [] :=
    congrArg (Forest.cursors []) hread.tree
  obtain ⟨keyInfo, hmem, hchildren⟩ : ∃ keyInfo ∈ doc.descendants,
      Forest.Cursor.children keyInfo = [KeySample.keyValue] := by
    rw [htop]
    exact ⟨_, List.mem_cons_self, rfl⟩
  exact ⟨doc, keyInfo, hparsed, hmem,
    hextract keyInfo hmem [] KeySample.keyValue [] hchildren rfl KeySample.keyValue_named rfl⟩

end Sign

end Bergshamra
