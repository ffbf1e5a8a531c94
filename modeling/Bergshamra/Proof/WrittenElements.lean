import Bergshamra.Proof.Overwrite

/-!
# What is written into a template

The elements that signing writes, as rows of a source: a text under a tag, the
certificates of a chain, and the markup of a key. Each is written as its row is
spelled, and each is proper wherever its names can be used.
-/

namespace Bergshamra

open XmlSource

namespace Sign

/-! ## Written elements -/

section Written

variable {lib : SignLibs}

theorem nodeText_bareTag (name : List Char) (kids : Source) :
    Forest.nodeText spelling (bareTag name) kids
      = '<' :: (name ++ '>' :: (kids.text spelling ++ '<' :: '/' :: (name ++ ['>']))) := by
  rw [nodeText_eq]
  simp [bareTag, Tag.closing]

theorem elementWithRaw_toList (laws : WriterLaws lib) (tag : String) {content : String}
    {kids : Source} (h : content.toList = kids.text spelling) :
    (elementWithRaw lib tag content).toList
      = Forest.nodeText spelling (bareTag tag.toList) kids := by
  rw [elementWithRaw, laws.start, laws.stop, nodeText_bareTag]
  simp only [String.toList_append, h]
  simp

theorem elementWithText_toList (laws : WriterLaws lib) (tag content : String) :
    (elementWithText lib tag content).toList
      = Forest.nodeText spelling (bareTag tag.toList) (textKids (lib.writeText content).toList) :=
  elementWithRaw_toList laws tag (textKids_text _).symm

/-- A row of elements, each with a name and a text. -/
def textElements (items : List (List Char × List Char)) : Source :=
  items.foldr (fun item rest => .node 0 (bareTag item.1) (textKids item.2) rest) .nil

theorem textElements_cons (name raw : List Char) (items : List (List Char × List Char)) :
    (textElements ((name, raw) :: items)).text spelling
      = Forest.nodeText spelling (bareTag name) (textKids raw)
        ++ (textElements items).text spelling := rfl

/-- The base64 of some bytes, as it is written. -/
def writtenBytes (lib : SignLibs) (bytes : ByteArray) : List Char :=
  (lib.writeText (lib.base64Encode bytes)).toList

theorem numberElement_toList (laws : WriterLaws lib) (tag : String) (number : ByteArray) :
    (numberElement lib tag number).toList
      = Forest.nodeText spelling (bareTag tag.toList) (textKids (writtenBytes lib number)) :=
  elementWithText_toList laws tag _

/-- A row of elements that hold the base64 of some bytes. -/
def numberRow (lib : SignLibs) (numbers : List (String × ByteArray)) : Source :=
  textElements (numbers.map (fun number => (number.1.toList, writtenBytes lib number.2)))

theorem numberRow_toList (laws : WriterLaws lib) (numbers : List (String × ByteArray)) :
    (String.join (numbers.map (fun number => numberElement lib number.1 number.2))).toList
      = (numberRow lib numbers).text spelling := by
  induction numbers with
  | nil => rfl
  | cons number rest ih =>
      rw [List.map_cons, String.join_cons, String.toList_append, ih, numberElement_toList laws]
      rfl

theorem certificates_toList (laws : WriterLaws lib) (tag : String) (x509Chain : List ByteArray) :
    (certificates lib tag x509Chain).toList
      = (numberRow lib (x509Chain.map (fun der => (tag, der)))).text spelling := by
  rw [← numberRow_toList laws, List.map_map]
  rfl

end Written

/-! ## Names in scope -/

section Scope

variable {lex : Lexicon}

/-- An element that declares nothing changes no scope. -/
theorem prefixNamespace_cons {path : List (NodeId × Element)} {k : NodeId} {e : Element}
    (h : e.namespaceDeclarations = []) (p : String) :
    prefixNamespace ((k, e) :: path) p = prefixNamespace path p := by
  unfold prefixNamespace scopeNamespace
  rw [List.findSome?_cons, h]
  rfl

theorem prefixNamespace_scopeOf {path : List (NodeId × Element)} {t : Tag} (h : t.fields = [])
    (p : String) : prefixNamespace (scopeOf lex path t) p = prefixNamespace path p :=
  prefixNamespace_cons (by rw [declarationsOf, h, List.filterMap_nil]) p

/-- The name can be used for an element below the chain. -/
def NameInScope (lex : Lexicon) (path : List (NodeId × Element)) (name : List Char) : Prop :=
  validName lex name = true ∧ ∀ p l, nameParts name = (some p, l) →
    (prefixNamespace path (String.ofList p)).isSome = true

theorem properTag_bareTag_iff {path : List (NodeId × Element)} {name : List Char} :
    properTag lex path (bareTag name) = true ↔ NameInScope lex path name := by
  have hvalid : (bareTag name).valid lex = validName lex name := by
    simp [Tag.valid, bareTag]
  have hapart : fieldsApart lex path (bareTag name) = true := by
    simp [fieldsApart, elementOf, declarationsOf, bareTag]
  rw [properTag, hvalid, hapart, Bool.and_true, Bool.and_eq_true, NameInScope, prefixesBound]
  refine and_congr_right fun _ => ?_
  rw [show (bareTag name).fields = [] from rfl, List.all_nil, Bool.and_true,
    show (bareTag name).name = name from rfl]
  cases hs : nameParts name with
  | mk p l =>
      cases p with
      | none => simp
      | some p =>
          show (prefixNamespace (scopeOf lex path (bareTag name)) _).isSome = true ↔ _
          rw [prefixNamespace_scopeOf (t := bareTag name) rfl]
          constructor
          · intro h p' l' he
            cases he
            exact h
          · intro h
            exact h p l rfl

/-- Below an element that declares nothing the same names can be used. -/
theorem NameInScope.below {path : List (NodeId × Element)} {name : List Char}
    (h : NameInScope lex path name) {k : NodeId} {e : Element}
    (he : e.namespaceDeclarations = []) : NameInScope lex ((k, e) :: path) name := by
  refine ⟨h.1, fun p l hs => ?_⟩
  rw [prefixNamespace_cons he]
  exact h.2 p l hs

theorem textElements_proper {path : List (NodeId × Element)} {items : List (List Char × List Char)}
    (hitems : ∀ item ∈ items, NameInScope lex path item.1 ∧ IsCharacterData lex item.2) :
    Proper lex path (textElements items) := by
  induction items with
  | nil => trivial
  | cons item rest ih =>
      obtain ⟨hname, hraw⟩ := hitems item List.mem_cons_self
      refine ⟨properTag_bareTag_iff.mpr hname, (absurd · (Option.some_ne_none _)),
        textKids_proper hraw, ?_⟩
      exact ih (fun i hi => hitems i (List.mem_cons_of_mem item hi))

theorem numberRow_proper {lib : SignLibs} {path : List (NodeId × Element)}
    {numbers : List (String × ByteArray)}
    (hnames : ∀ number ∈ numbers, NameInScope lex path number.1.toList)
    (hdata : ∀ bytes, IsCharacterData lex (writtenBytes lib bytes)) :
    Proper lex path (numberRow lib numbers) := by
  refine textElements_proper fun item hitem => ?_
  obtain ⟨number, hnumber, rfl⟩ := List.mem_map.mp hitem
  exact ⟨hnames number hnumber, hdata number.2⟩

theorem nameParts_word {n : List Char} (h : ':' ∉ n) : nameParts n = (none, n) := by
  rw [nameParts, Text.splitOnce_eq_none h]

theorem nameParts_pname {pfx : String} (hpfx : pfx ≠ "") (hcolon : ':' ∉ pfx.toList) (a : String) :
    nameParts (pname pfx a).toList = (some pfx.toList, a.toList) := by
  rw [pname, if_neg hpfx, String.toList_append, String.toList_append, List.append_assoc]
  exact nameParts_of_prefix hcolon

/-- Another local name under the prefix of a name that can be used. -/
theorem NameInScope.sibling {path : List (NodeId × Element)} {pfx a b : String}
    (h : NameInScope lex path (pname pfx a).toList) (hcolon : ':' ∉ pfx.toList)
    (hb : lex.name b.toList = true) : NameInScope lex path (pname pfx b).toList := by
  by_cases hpfx : pfx = ""
  · have hsplit : nameParts (pname pfx b).toList = (none, b.toList) := by
      rw [pname, if_pos hpfx]
      exact nameParts_word (not_colon_of_name hb)
    refine ⟨?_, fun p l hs => ?_⟩
    · rw [validName, hsplit]
      exact hb
    · rw [hsplit] at hs
      cases hs
  · obtain ⟨hvalid, hscope⟩ := h
    rw [validName, nameParts_pname hpfx hcolon, Bool.and_eq_true] at hvalid
    refine ⟨?_, fun p l hs => ?_⟩
    · rw [validName, nameParts_pname hpfx hcolon, Bool.and_eq_true]
      exact ⟨hvalid.1, hb⟩
    · rw [nameParts_pname hpfx hcolon] at hs
      cases hs
      exact hscope _ _ (nameParts_pname hpfx hcolon a)

end Scope

end Sign

end Bergshamra
