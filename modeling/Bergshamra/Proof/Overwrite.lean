import Bergshamra.Dsig.Sign
import Bergshamra.Dsig.XPathBytes
import Bergshamra.Proof.SourceTree

/-!
# Overwriting an element of a template

Signing makes an element of a template anew: the tag under the name it had and
no attributes, then the content. In the text that is the old element's place
overwritten; as a document it is the same node with another tag and another row.
So nothing but the content changes exactly when the new tag stands for the same
element.
-/

namespace Bergshamra

open XmlSource

namespace Sign

/-- An attribute value that is written as it is. -/
def isPlain (value : String) : Bool :=
  value.toList.all (fun c => c.isAlphanum || [':', '/', '.', '-', '#'].contains c)

/-- What `XmlWriter` appends for a tag, of those that signing writes. -/
structure WriterLaws (lib : SignLibs) : Prop where
  start : ∀ tag, lib.startElement tag [] = "<" ++ tag ++ ">"
  stop : ∀ tag, lib.endElement tag = "</" ++ tag ++ ">"
  startField : ∀ tag name value, isPlain value = true →
    lib.startElement tag [(name, value)] = "<" ++ tag ++ " " ++ name ++ "=\"" ++ value ++ "\">"
  emptyField : ∀ tag name value, isPlain value = true →
    lib.emptyElement tag [(name, value)] = "<" ++ tag ++ " " ++ name ++ "=\"" ++ value ++ "\"/>"

/-- The parser reads the template. -/
abbrev ReadsTemplate (lex : Lexicon) (lib : SignLibs) (src : Source) (doc : Document) : Prop :=
  Reads lex lib.toUppsala lib.nodeRange src doc

/-- The text of a source. -/
def sourceText (src : Source) : String := String.ofList (src.text spelling)

/-- **Only the content of some elements changes.** The result is a document, and it differs from
the template in nothing but the rows below these. -/
def OnlyContentChanges (lib : SignLibs) (doc : Document) (ks : List NodeId) (result : String) :
    Prop :=
  ∃ doc', lib.parse result = .ok doc' ∧ Forest.Frame ks doc.top doc'.top

/-- An element without attributes and declarations. -/
def IsBare (n : Node) : Prop :=
  ∀ e, n.element? = some e → e.attributes = [] ∧ e.namespaceDeclarations = []

/-- The prefix of an element, empty if there is none. -/
def prefixOf (n : Node) : String := (n.element?.bind (fun e => e.name.pfx)).getD ""

/-- The text of an element in the template. -/
def originalText (lib : SignLibs) (xml : String) (n : Node) : Except Error String := do
  let range ← rangeOf lib xml n
  sliceStr xml range.1 range.2

/-- `extract_tag_prefix` finds the prefix of the element. -/
def PrefixFound (lib : SignLibs) (xml localName : String) (n : Node) : Prop :=
  ∀ original, originalText lib xml n = .ok original →
    extractTagPrefix original localName = prefixOf n

/-- A text as the content of an element. -/
def textKids (raw : List Char) : Source := if raw = [] then .nil else .leaf 0 (.text raw) .nil

/-- The written text is character data. -/
def IsCharacterData (lex : Lexicon) (raw : List Char) : Prop := raw = [] ∨ (lex.text raw).isSome = true

theorem textKids_text (raw : List Char) : (textKids raw).text spelling = raw := by
  unfold textKids
  split
  · rename_i h
    rw [h]
    rfl
  · exact List.append_nil raw

theorem textKids_proper {lex : Lexicon} {path : List (NodeId × Element)} {raw : List Char}
    (h : IsCharacterData lex raw) : Proper lex path (textKids raw) := by
  unfold textKids
  split
  · trivial
  · rename_i hne
    exact ⟨h.resolve_left hne, fun _ => rfl, trivial⟩

/-! ## Cuts -/

theorem sliceStr_middle (front middle back : List Char) :
    sliceStr (String.ofList (front ++ (middle ++ back))) (Text.byteLength front)
      (Text.byteLength front + Text.byteLength middle) = .ok (String.ofList middle) := by
  rw [sliceStr, String.toList_ofList,
    Bytes.byteSlice_of_slice? (Text.slice?_append front middle back)]
  rfl

/-- What stands in the middle gives way to another text. -/
theorem overwrite_middle (front middle back : List Char) (replacement : String) :
    overwrite (String.ofList (front ++ (middle ++ back))) (Text.byteLength front,
        Text.byteLength front + Text.byteLength middle) replacement
      = .ok (String.ofList (front ++ replacement.toList ++ back)) := by
  have hfront : sliceStr (String.ofList (front ++ (middle ++ back))) 0 (Text.byteLength front)
      = .ok (String.ofList front) := by
    rw [sliceStr, String.toList_ofList,
      Bytes.byteSlice_of_slice? (Text.slice?_before front (middle ++ back))]
    rfl
  have hback : sliceStr (String.ofList (front ++ (middle ++ back)))
      (Text.byteLength front + Text.byteLength middle)
      (String.ofList (front ++ (middle ++ back))).utf8ByteSize = .ok (String.ofList back) := by
    rw [sliceStr, String.toList_ofList, Text.utf8ByteSize_ofList, ← Text.byteLength_append,
      ← List.append_assoc, Bytes.byteSlice_of_slice? (Text.slice?_after (front ++ middle) back)]
    rfl
  rw [overwrite]
  simp only [hfront, hback, bind, Except.bind]
  rw [String.ofList_append, String.ofList_append, String.ofList_toList]

/-! ## Names -/

section Names

variable {lex : Lexicon} {n : Node} {path : List (NodeId × Element)} {t : Tag}

/-- The name on a tag, from the prefix and the local name of the element. -/
theorem name_of_tag (helem : n.element? = some (elementOf lex path t))
    (hvalid : validName lex t.name = true) {e : Element} (he : n.element? = some e) :
    (pname (prefixOf n) e.name.localName).toList = t.name := by
  rw [helem] at he
  cases he
  rw [prefixOf, helem]
  show (pname (((elementName _ t.name).pfx).getD "") (elementName _ t.name).localName).toList = _
  unfold XmlSource.validName at hvalid
  rw [elementName]
  cases hs : nameParts t.name with
  | mk p l =>
      have hname := nameParts_eq hs
      rw [hs] at hvalid
      cases p with
      | none =>
          show (pname "" (String.ofList l)).toList = _
          rw [pname, if_pos rfl, String.toList_ofList, hname]
      | some p =>
          have hp0 := lex.name_ne_nil p (Bool.and_eq_true_iff.mp hvalid).1
          have hne : String.ofList p ≠ "" := by
            intro he
            have := congrArg String.toList he
            rw [String.toList_ofList] at this
            exact hp0 this
          show (pname (String.ofList p) (String.ofList l)).toList = _
          rw [pname, if_neg hne, String.toList_append, String.toList_append, String.toList_ofList,
            String.toList_ofList, hname]
          simp

theorem not_colon_of_name {n : List Char} (h : lex.name n = true) : ':' ∉ n := by
  intro hc
  exact lex.name_chars n h ':' hc (by simp [nameStops])

/-- The prefix of an element has no colon. -/
theorem prefixOf_word (helem : n.element? = some (elementOf lex path t))
    (hvalid : validName lex t.name = true) : ':' ∉ (prefixOf n).toList := by
  rw [prefixOf, helem]
  show ':' ∉ (((elementName _ t.name).pfx).getD "").toList
  unfold XmlSource.validName at hvalid
  rw [elementName]
  cases hs : nameParts t.name with
  | mk p l =>
      rw [hs] at hvalid
      cases p with
      | none => simp
      | some p =>
          show ':' ∉ (String.ofList p).toList
          rw [String.toList_ofList]
          exact not_colon_of_name (Bool.and_eq_true_iff.mp hvalid).1

end Names

/-! ## Places -/

section Place

variable {lex : Lexicon} {lib : SignLibs} {src : Source} {doc : Document}

/-- Where a node of the template is written. -/
structure Place (lex : Lexicon) (src : Source) (n : Node) (c : Forest.Cursor NodeId Tag Piece)
    (t : Tag) (kids : Source) : Prop where
  mem : c ∈ src.cursors []
  key : c.key = n.key
  item : c.item = .node t kids
  path : n.path = elementPath lex c.path
  node : n.item = .node (elementOf lex (elementPath lex c.path) t)
    (treeOf lex ((n.key, elementOf lex (elementPath lex c.path) t) :: elementPath lex c.path) kids)

theorem exists_place (h : ReadsTemplate lex lib src doc) {n : Node} (hn : n ∈ doc.descendants)
    {e : Element} (he : n.element? = some e) : ∃ c t kids, Place lex src n c t kids := by
  obtain ⟨key, path, item⟩ := n
  cases item with
  | leaf k => cases he
  | node e' ekids =>
      rw [Document.descendants, h.tree] at hn
      obtain ⟨c, hc, t, kids, hkey, hitem, hpath, rfl, hkids⟩ := @exists_tag lex [] src _ hn _ _ rfl
      exact ⟨c, t, kids, hc, hkey, hitem, hpath, congrArg (Forest.Item.node _) hkids⟩

variable {n : Node} {c : Forest.Cursor NodeId Tag Piece} {t : Tag} {kids : Source}

theorem Place.element (hp : Place lex src n c t kids) :
    n.element? = some (elementOf lex (elementPath lex c.path) t) := by
  rw [Node.element?, hp.node]

theorem Place.range_eq (hp : Place lex src n c t kids) (h : ReadsTemplate lex lib src doc)
    (hn : n ∈ doc.descendants) : rangeOf lib (sourceText src) n
      = .ok (Text.byteLength (src.textBefore spelling n.key),
        Text.byteLength (src.textBefore spelling n.key)
          + Text.byteLength (Forest.nodeText spelling t kids)) := by
  rw [rangeOf, sourceText, h.range n hn c hp.mem hp.key t kids hp.item]

theorem Place.text_eq (hp : Place lex src n c t kids) (h : ReadsTemplate lex lib src doc) :
    src.text spelling = src.textBefore spelling n.key
      ++ (Forest.nodeText spelling t kids ++ src.textAfter spelling n.key) := by
  rw [Forest.text_at_node h.nodup hp.mem hp.key hp.item, List.append_assoc]

theorem Place.slice_eq (hp : Place lex src n c t kids) (h : ReadsTemplate lex lib src doc) :
    sliceStr (sourceText src) (Text.byteLength (src.textBefore spelling n.key))
      (Text.byteLength (src.textBefore spelling n.key)
        + Text.byteLength (Forest.nodeText spelling t kids))
      = .ok (String.ofList (Forest.nodeText spelling t kids)) := by
  rw [sourceText, hp.text_eq h]
  exact sliceStr_middle _ _ _

theorem Place.original_eq (hp : Place lex src n c t kids) (h : ReadsTemplate lex lib src doc)
    (hn : n ∈ doc.descendants) :
    originalText lib (sourceText src) n = .ok (String.ofList (Forest.nodeText spelling t kids)) := by
  rw [originalText, hp.range_eq h hn]
  exact hp.slice_eq h

/-- **The place overwritten with another node.** -/
theorem Place.overwrite_eq (hp : Place lex src n c t kids) (h : ReadsTemplate lex lib src doc)
    {t' : Tag} {kids' : Source} {replacement : String}
    (hr : replacement.toList = Forest.nodeText spelling t' kids') :
    overwrite (sourceText src) (Text.byteLength (src.textBefore spelling n.key),
        Text.byteLength (src.textBefore spelling n.key)
          + Text.byteLength (Forest.nodeText spelling t kids)) replacement
      = .ok (sourceText (src.replaceNode n.key t' kids')) := by
  rw [sourceText, hp.text_eq h, overwrite_middle, hr, sourceText,
    Forest.text_replaceNode h.nodup hp.mem hp.key hp.item]

/-- **What overwriting a node changes**, apart from what the nodes `ks` in it hold: nothing,
exactly when the new node stands for the old one as far as this. -/
theorem Place.onlyContentChanges_iff (hp : Place lex src n c t kids)
    (h : ReadsTemplate lex lib src doc) {ks : List NodeId} (hks : ∀ k ∈ ks, k ∈ c.subtreeKeys)
    {t' : Tag} {kids' : Source}
    (hunderstands : Understands lex lib.toUppsala (src.replaceNode n.key t' kids'))
    (hproper : elementOf lex (elementPath lex c.path) t = elementOf lex (elementPath lex c.path) t' →
      RowKept lex ks (elementPath lex c.path) n.key t t' kids kids' →
      Bergshamra.properTag lex (elementPath lex c.path) t' = true ∧ (t'.close = none → kids' = .nil)
        ∧ Proper lex ((n.key, elementOf lex (elementPath lex c.path) t')
          :: elementPath lex c.path) kids') :
    OnlyContentChanges lib doc ks (sourceText (src.replaceNode n.key t' kids'))
      ↔ elementOf lex (elementPath lex c.path) t = elementOf lex (elementPath lex c.path) t'
        ∧ RowKept lex ks (elementPath lex c.path) n.key t t' kids kids' := by
  have hframe := @frame_replaceNode lex n.key ks [] src h.nodup c hp.mem hp.key t kids hp.item
    (fun j _ hj => hks j hj) t' kids'
  rw [← hframe]
  constructor
  · intro hchange
    obtain ⟨doc', hdoc', hf⟩ := hchange
    by_cases hwf : WellFormed lex (src.replaceNode n.key t' kids')
    · obtain ⟨doc'', hdoc'', hshape⟩ := hunderstands.accepts hwf
      rw [sourceText, hdoc''] at hdoc'
      cases hdoc'
      rw [h.tree] at hf
      exact hf.of_shape hshape
    · exact absurd hdoc' (hunderstands.rejects hwf doc')
  · intro hf
    obtain ⟨helem, hrow⟩ := hframe.mp hf
    obtain ⟨htag, hclose, hkids⟩ := hproper helem hrow
    have hwf : WellFormed lex (src.replaceNode n.key t' kids') :=
      ⟨@proper_replaceNode lex n.key [] src h.nodup h.wellFormed.proper c hp.mem hp.key t kids
        hp.item t' kids' htag hclose hkids, oneRoot_replaceNode h.wellFormed.oneRoot⟩
    obtain ⟨doc', hdoc', hshape⟩ := hunderstands.accepts hwf
    refine ⟨doc', hdoc', ?_⟩
    rw [h.tree]
    exact hf.of_shape hshape.symm

theorem Place.properTag (hp : Place lex src n c t kids) (h : ReadsTemplate lex lib src doc) :
    Bergshamra.properTag lex (elementPath lex c.path) t = true :=
  (@proper_node lex [] src h.wellFormed.proper c hp.mem t kids hp.item).1

theorem Place.validName (hp : Place lex src n c t kids) (h : ReadsTemplate lex lib src doc) :
    validName lex t.name = true := by
  have htag := hp.properTag h
  simp only [Bergshamra.properTag, Tag.valid, Bool.and_eq_true] at htag
  exact htag.1.1.1.1.1

theorem Place.isBare_iff (hp : Place lex src n c t kids) : IsBare n ↔ t.fields = [] := by
  rw [@fields_eq_nil_iff lex (elementPath lex c.path), IsBare, hp.element]
  constructor
  · intro h
    exact h _ rfl
  · intro h e he
    cases he
    exact h

theorem Place.name_eq (hp : Place lex src n c t kids) (h : ReadsTemplate lex lib src doc)
    {e : Element} (he : n.element? = some e) :
    (pname (prefixOf n) e.name.localName).toList = t.name :=
  name_of_tag hp.element (hp.validName h) he

theorem Place.prefix_word (hp : Place lex src n c t kids) (h : ReadsTemplate lex lib src doc) :
    ':' ∉ (prefixOf n).toList :=
  prefixOf_word hp.element (hp.validName h)

end Place

end Sign

end Bergshamra
