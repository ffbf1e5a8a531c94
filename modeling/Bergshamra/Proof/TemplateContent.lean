import Bergshamra.Lib.Base64
import Bergshamra.Proof.CertificateTemplate
import Bergshamra.Proof.TableParser

/-!
# Only the content of the targets changes

The four functions together. `extract_tag_prefix` takes the text up to the first
colon for a prefix, so an element without a prefix is safe as long as that colon
is not followed by its name; `extract_open_tag` takes the first end of a tag for
its own. Apart from this, the elements that are filled keep all but their content
exactly when they have nothing that is lost.
-/

namespace Bergshamra

open XmlSource

namespace Sign

/-! ## The prefix that is found -/

/-- An element has no prefix, and in its text the first colon is followed by its name. -/
def ColonMisleads (lib : SignLibs) (xml : String) (n : Node) : Prop :=
  ∃ e, n.element? = some e ∧ prefixOf n = "" ∧ ∃ before after,
    Text.splitOnce [':'] (originalOf lib xml n).toList = some (before, after)
      ∧ e.name.localName.toList <+: after

section Prefix

/-- A name does not start with a colon. -/
theorem validName_head {lex : Lexicon} {name rest after : List Char}
    (hvalid : validName lex name = true) : name ++ rest ≠ [] ++ [':'] ++ after := by
  intro he
  cases hn : name with
  | nil => exact validName_ne_nil hvalid hn
  | cons d name' =>
      rw [hn] at he
      have hd : d = ':' := (List.cons.inj he).1
      unfold validName at hvalid
      split at hvalid
      · rename_i p l hs
        rw [Bool.and_eq_true] at hvalid
        have hname : name = p ++ ':' :: l := nameParts_eq hs
        cases hp : p with
        | nil => exact lex.name_ne_nil p hvalid.1 hp
        | cons q p' =>
            rw [hn, hp] at hname
            have hq : q = ':' := (List.cons.inj hname).1.symm.trans hd
            exact not_colon_of_name hvalid.1 (by rw [hp, hq]; exact List.mem_cons_self)
      · rename_i l hs
        have hname : name = l := nameParts_eq hs
        rw [hn] at hname
        exact not_colon_of_name hvalid (by rw [← hname, hd]; exact List.mem_cons_self)

variable {lex : Lexicon} {lib : SignLibs} {src : Source} {doc : Document} {n : Node}

theorem Place.originalOf_eq {c : Forest.Cursor NodeId Tag Piece} {t : Tag} {kids : Source}
    (hp : Place lex src n c t kids) (h : ReadsTemplate lex lib src doc)
    (hmem : n ∈ doc.descendants) :
    originalOf lib (sourceText src) n = String.ofList (Forest.nodeText spelling t kids) := by
  rw [originalOf, hp.original_eq h hmem]

/-- The text of an element, without what `trim_start_matches` takes. -/
theorem Place.trimmed {c : Forest.Cursor NodeId Tag Piece} {t : Tag} {kids : Source}
    (hp : Place lex src n c t kids) (h : ReadsTemplate lex lib src doc) :
    ∃ rest, Forest.nodeText spelling t kids = '<' :: (t.name ++ rest)
      ∧ (Forest.nodeText spelling t kids).dropWhile (fun d => d == '<') = t.name ++ rest := by
  have hvalid := hp.validName h
  refine ⟨_, nodeText_eq t kids, ?_⟩
  rw [nodeText_eq, List.dropWhile_cons_of_pos (by decide)]
  cases hname : t.name with
  | nil => exact absurd hname (validName_ne_nil hvalid)
  | cons d name =>
      have hd : d ≠ '<' := by
        rintro rfl
        have hstop := validName_chars hvalid (c := '<') (by rw [hname]; exact List.mem_cons_self)
          (by decide)
        exact hstop (by simp [nameStops])
      rw [List.cons_append, List.dropWhile_cons_of_neg (by simpa using hd)]

/-- **Which prefix `extract_tag_prefix` finds.** -/
theorem prefixFound_iff (h : ReadsTemplate lex lib src doc) (hmem : n ∈ doc.descendants)
    {e : Element} (he : n.element? = some e) :
    PrefixFound lib (sourceText src) e.name.localName n
      ↔ ¬ ColonMisleads lib (sourceText src) n := by
  obtain ⟨c, t, kids, hp⟩ := exists_place h hmem he
  obtain ⟨rest, htext, htrim⟩ := hp.trimmed h
  have hname := hp.name_eq h he
  have hword := hp.prefix_word h
  have horiginal := hp.original_eq h hmem
  have hfound : PrefixFound lib (sourceText src) e.name.localName n
      ↔ extractTagPrefix (String.ofList (Forest.nodeText spelling t kids)) e.name.localName
        = prefixOf n := by
    constructor
    · intro hf
      exact hf _ horiginal
    · intro hf original ho
      rw [horiginal] at ho
      cases ho
      exact hf
  rw [hfound, extractTagPrefix, extractPrefix, String.toList_ofList, htrim]
  by_cases hpfx : prefixOf n = ""
  · -- without a prefix, the text must not look as if there were one
    have hcolon : Text.splitOnce [':'] (Forest.nodeText spelling t kids)
        = (Text.splitOnce [':'] (t.name ++ rest)).map (fun r => ('<' :: r.1, r.2)) := by
      rw [htext]
      exact Text.splitOnce_cons (by rw [Text.stripPrefix?, if_neg (by decide)])
    have hmisleads : ColonMisleads lib (sourceText src) n ↔ ∃ before after,
        Text.splitOnce [':'] (t.name ++ rest) = some (before, after)
          ∧ e.name.localName.toList <+: after := by
      rw [ColonMisleads, hp.originalOf_eq h hmem, String.toList_ofList, hcolon]
      constructor
      · rintro ⟨e', he', -, before, after, hsplit, hafter⟩
        rw [he] at he'
        cases he'
        obtain ⟨r, hr, hcut⟩ := Option.map_eq_some_iff.mp hsplit
        cases hcut
        exact ⟨r.1, r.2, hr, hafter⟩
      · rintro ⟨before, after, hsplit, hafter⟩
        exact ⟨e, he, hpfx, '<' :: before, after, by rw [hsplit]; rfl, hafter⟩
    rw [hmisleads, hpfx]
    cases hs : Text.splitOnce [':'] (t.name ++ rest) with
    | none => exact ⟨fun _ => by simp, fun _ => rfl⟩
    | some r =>
        -- the name does not begin with a colon, so what is before it is not empty
        have hbefore : String.ofList r.1 ≠ "" := by
          intro hempty
          have hr : r.1 = [] := String.ofList_injective hempty
          have hcut := Text.splitOnce_eq_some hs
          rw [hr] at hcut
          exact validName_head (hp.validName h) hcut
        obtain ⟨before, after⟩ := r
        simp only
        by_cases hlocal : Text.startsWith e.name.localName.toList after = true
        · rw [if_pos hlocal]
          refine ⟨fun hf => absurd hf hbefore, fun hnot => absurd ⟨before, after, rfl, ?_⟩ hnot⟩
          exact Text.startsWith_iff.mp hlocal
        · rw [if_neg hlocal]
          refine ⟨fun _ hmislead => ?_, fun _ => rfl⟩
          obtain ⟨before', after', hr, hafter⟩ := hmislead
          cases hr
          exact hlocal (Text.startsWith_iff.mpr hafter)
  · have hsplit : t.name ++ rest = (prefixOf n).toList
        ++ ([':'] ++ (e.name.localName.toList ++ rest)) := by
      rw [← hname, pname, if_neg hpfx]
      simp
    have hfirst : Text.splitOnce [':'] (t.name ++ rest)
        = some ((prefixOf n).toList, e.name.localName.toList ++ rest) := by
      rw [hsplit, Text.splitOnce_append hword, Text.splitOnce_marker]
      simp
    rw [hfirst]
    simp only [Text.startsWith_iff.mpr (List.prefix_append _ _), if_true, String.ofList_toList,
      true_iff]
    rintro ⟨e', -, hempty, -⟩
    exact hpfx hempty

/-! ## The opening tag that is found -/

/-- The first end of a tag in the text of an element is the one of its own tag. -/
def OwnTagEnd (src : Source) (n : Node) : Prop :=
  ∀ t kids, tagAt src n.key = some (t, kids) →
    match t.close with
    | none => ¬ ['/', '>'] <:+: t.start
    | some _ => '>' ∉ t.start ∧ ¬ ['/', '>'] <:+: kids.text spelling

/-- Nothing in a closing tag looks like the end of a tag without content. -/
theorem closing_plain {t : Tag} (h : t.valid lex = true) {space : List Char}
    (hclose : t.close = some space) : ¬ ['/', '>'] <:+: t.closing := by
  simp only [Tag.valid, Bool.and_eq_true] at h
  obtain ⟨⟨⟨hname, -⟩, -⟩, hspace⟩ := h
  rw [hclose, Option.all_some] at hspace
  have hlast : ∀ c ∈ t.name ++ space, c ≠ '/' ∧ c ≠ '>' := by
    intro c hc
    rcases List.mem_append.mp hc with hc | hc
    · have hstop := validName_chars hname hc
      constructor
      · rintro rfl
        exact hstop (by decide) (by simp [nameStops])
      · rintro rfl
        exact hstop (by decide) (by simp [nameStops])
    · have hblank := List.all_eq_true.mp hspace c hc
      constructor
      · rintro rfl
        revert hblank
        decide
      · rintro rfl
        revert hblank
        decide
  have hwritten : t.closing = ['<', '/'] ++ (t.name ++ space ++ ['>']) := by
    rw [Tag.closing, hclose]
    rfl
  rw [hwritten]
  intro hpair
  rcases Text.pair_infix_append hpair with hin | hin | hmeet
  · exact absurd hin (by decide)
  · rcases Text.pair_infix_append hin with hin | hin | hmeet
    · exact (hlast '>' (hin.subset (by simp))).2 rfl
    · exact absurd hin.length_le (by simp)
    · exact (hlast '/' (List.mem_of_getLast? hmeet.1)).1 rfl
  · cases hn : t.name with
    | nil => exact validName_ne_nil hname hn
    | cons c name =>
        rw [hn] at hmeet
        have hc : c = '>' := Option.some.inj hmeet.2
        exact (hlast c (by rw [hn]; exact List.mem_append_left _ List.mem_cons_self)).2 hc

/-- **Which opening tag `extract_open_tag` finds.** -/
theorem openTagFound (h : ReadsTemplate lex lib src doc) (hmem : n ∈ doc.descendants)
    {e : Element} (he : n.element? = some e) (hown : OwnTagEnd src n) : OpenTagFound src n := by
  obtain ⟨c, t, kids, hp⟩ := exists_place h hmem he
  intro t' kids' htag
  have hends := hown t' kids' htag
  rw [hp.tagAt_eq h] at htag
  cases htag
  have hproper := @proper_node lex [] src h.wellFormed.proper c hp.mem t kids hp.item
  have hvalid : t.valid lex = true := by
    have htag := hproper.1
    simp only [properTag, Bool.and_eq_true] at htag
    exact htag.1.1
  have hlast := Tag.start_getLast hvalid
  have hmark : "/>".toList = ['/', '>'] := by decide
  cases hclose : t.close with
  | none =>
      rw [hclose] at hends
      have htext : Forest.nodeText spelling t kids = t.start ++ (['/', '>'] ++ []) := by
        rw [hproper.2.1 hclose, Forest.nodeText]
        show t.opening ++ [] ++ t.closing = _
        rw [Tag.opening, Tag.closing, hclose]
        simp
      have hfirst : Text.splitOnce ['/', '>'] (Forest.nodeText spelling t kids)
          = some (t.start, []) := by
        rw [htext]
        refine Text.splitOnce_first (by simp) (fun hin => ?_) []
        rcases Text.pair_infix_append hin with hin | hin | hmeet
        · exact hends hin
        · exact absurd hin.length_le (by simp)
        · exact absurd hmeet.2 (by simp)
      simp only [extractOpenTag, String.toList_ofList, hmark, hfirst, String.ofList_append]
  | some space =>
      rw [hclose] at hends
      have htext : Forest.nodeText spelling t kids
          = t.start ++ (['>'] ++ (kids.text spelling ++ t.closing)) := by
        rw [Forest.nodeText]
        show t.opening ++ kids.text spelling ++ t.closing = _
        rw [Tag.opening, hclose]
        simp
      -- the end of an empty tag is in none of the parts, and not where two of them meet
      have hnone : Text.splitOnce ['/', '>'] (Forest.nodeText spelling t kids) = none := by
        have hnot : ¬ ['/', '>'] <:+: Forest.nodeText spelling t kids := by
          rw [htext]
          intro hin
          rcases Text.pair_infix_append hin with hin | hin | hmeet
          · exact hends.1 (hin.subset (by simp))
          · rcases Text.pair_infix_append hin with hin | hin | hmeet
            · exact absurd hin (by decide)
            · rcases Text.pair_infix_append hin with hin | hin | hmeet
              · exact hends.2 hin
              · exact closing_plain hvalid hclose hin
              · rw [Tag.closing, hclose] at hmeet
                exact absurd hmeet.2 (by simp)
            · exact absurd hmeet.1 (by decide)
          · exact hlast hmeet.1
        rw [← Text.containsSub_iff, Text.containsSub, Bool.not_eq_true] at hnot
        exact Option.isNone_iff_eq_none.mp (Option.isSome_eq_false_iff.mp hnot)
      have hfirst : Text.splitOnce ['>'] (Forest.nodeText spelling t kids)
          = some (t.start, kids.text spelling ++ t.closing) := by
        rw [htext, Text.splitOnce_append hends.1, Text.splitOnce_marker]
        simp
      simp only [extractOpenTag, String.toList_ofList, hmark, hnone, hfirst, String.ofList_append]

end Prefix

/-! ## The four functions -/

/-- What is filled in. -/
inductive Filling where
  | emptyElement (localName newContent : String)
  | x509Data (x509Chain : List ByteArray)
  | keyValue (keyData : KeyData)
  | derEncodedKeyValue (keyData : KeyData)

namespace Filling

variable (lex : Lexicon) (lib : SignLibs) (src : Source) (doc : Document)

/-- The function that fills it in. -/
def run (xml : String) : Filling → Except Error String
  | .emptyElement localName newContent => replaceFirstEmptyElement lib xml localName newContent
  | .x509Data x509Chain => populateX509Data lib xml x509Chain
  | .keyValue keyData => populateKeyValue lib xml keyData
  | .derEncodedKeyValue keyData => populateDerEncodedKeyValue lib xml keyData

/-- The first element of a name, if it is unfilled and there is something to fill in. -/
def unfilled (nsUri localName : String) (content : Node → Bool) : List Node :=
  ((doc.findElement nsUri localName).filter (fun n => isUnfilled n && content n)).toList

/-- The KeyValue that is filled. -/
def keyValue? (keyData : KeyData) : Option Node :=
  (doc.findElement Ns.DSIG "KeyValue").filter
    (fun n => isUnfilled n && (toKeyValueXml lib (prefixOf n) keyData).isSome)

/-- The DEREncodedKeyValue that is filled. -/
def derEncodedKeyValue? (keyData : KeyData) : Option Node :=
  (doc.findElement Ns.DSIG11 "DEREncodedKeyValue").filter
    (fun n => isUnfilled n && (lib.toSpkiDer keyData).isSome)

/-- The elements that are filled. -/
def targets : Filling → List Node
  | .emptyElement localName _ => (firstEmptyElement doc localName).toList
  | .x509Data x509Chain =>
      match doc.findElement Ns.DSIG "X509Data" with
      | none => []
      | some data =>
          if hasElementChild data then
            match x509Chain with
            | [] => []
            | der :: _ => filledChildren lib der (lib.extractX509Info der) data
          else [data]
  | .keyValue keyData => (keyValue? lib doc keyData).toList
  | .derEncodedKeyValue keyData => (derEncodedKeyValue? lib doc keyData).toList

/-- What is written besides base64 is character data. -/
def Written : Filling → Prop
  | .emptyElement _ newContent => IsCharacterData lex (lib.writeText newContent).toList
  | .x509Data x509Chain => ∀ der ∈ x509Chain, InfoWritten lex lib (lib.extractX509Info der)
  | .keyValue _ => True
  | .derEncodedKeyValue _ => True

/-- The tag of an element is found in its text. -/
def Found (n : Node) : Filling → Prop
  | .derEncodedKeyValue _ => ¬ ColonMisleads lib (sourceText src) n ∧ OwnTagEnd src n
  | _ => ¬ ColonMisleads lib (sourceText src) n

/-- Nothing on the element is lost: a tag made anew has no attributes and declarations, and an
X509Data that is filled with certificates also loses its prefix where its text has something that
looks like a declaration of it. -/
def Keeps (n : Node) : Filling → Prop
  | .derEncodedKeyValue _ => True
  | .x509Data _ => IsBare n ∧ (doc.findElement Ns.DSIG "X509Data" = some n →
      ¬ (prefixOf n ≠ "" ∧ Text.containsSub ("xmlns:" ++ prefixOf n ++ "=").toList
        (originalOf lib (sourceText src) n).toList = true))
  | _ => IsBare n

/-- The source afterwards. -/
def filled : Filling → Source
  | .emptyElement localName newContent =>
      match firstEmptyElement doc localName with
      | none => src
      | some n =>
          src.replaceNode n.key (bareTag (newName n localName))
            (textKids (lib.writeText newContent).toList)
  | .x509Data x509Chain =>
      match doc.findElement Ns.DSIG "X509Data" with
      | none => src
      | some data =>
          if hasElementChild data then
            match x509Chain with
            | [] => src
            | der :: _ => childrenFilled lex lib src data der
          else certificatesFilled lib src data x509Chain
  | .keyValue keyData =>
      match keyValue? lib doc keyData with
      | none => src
      | some n =>
          src.replaceNode n.key (bareTag (newName n "KeyValue")) (keyMarkup lib (prefixOf n) keyData)
  | .derEncodedKeyValue keyData =>
      match derEncodedKeyValue? lib doc keyData with
      | none => src
      | some n =>
          derFilled src n (((lib.toSpkiDer keyData).map lib.base64Encode).getD "").toList

end Filling

/-- What signing relies on when it writes. -/
structure Writes (lex : Lexicon) (lib : SignLibs) : Prop where
  laws : WriterLaws lib
  words : WordsAllowed lex
  bytes : ∀ bytes, IsCharacterData lex (writtenBytes lib bytes)
  base64 : ∀ bytes, IsCharacterData lex (lib.base64Encode bytes).toList

section Filling

variable {lex : Lexicon} {lib : SignLibs} {src : Source} {doc : Document}

theorem unchanged (h : ReadsTemplate lex lib src doc) :
    OnlyContentChanges lib doc [] (sourceText src) :=
  ⟨doc, h.parsed, Forest.Frame.refl [] doc.top⟩

theorem toKeyValueXml_isSome (pfx pfx' : String) (keyData : KeyData) :
    (toKeyValueXml lib pfx keyData).isSome = (toKeyValueXml lib pfx' keyData).isSome := by
  cases keyData with
  | _ => rfl

theorem prefixFound (h : ReadsTemplate lex lib src doc) {n : Node} {nsUri localName : String}
    (hn : doc.findElement nsUri localName = some n)
    (hfound : ¬ ColonMisleads lib (sourceText src) n) :
    PrefixFound lib (sourceText src) localName n := by
  obtain ⟨hmem, e, he, hnamed⟩ := Document.findElement_some hn
  rw [← localName_of_isNamed hnamed]
  exact (prefixFound_iff h hmem he).mpr hfound

/-- The conclusion for one filling. -/
def ChangesContent (lib : SignLibs) (src : Source) (doc : Document) (f : Filling) : Prop :=
  ∃ result, f.run lib (sourceText src) = .ok result
    ∧ (OnlyContentChanges lib doc ((f.targets lib doc).map (fun n : Node => n.key)) result
      ↔ ∀ n ∈ f.targets lib doc, f.Keeps lib src doc n)

/-- Without targets the text stays as it is. -/
theorem changesContent_of_unchanged (h : ReadsTemplate lex lib src doc) {f : Filling}
    (htargets : f.targets lib doc = []) (hrun : f.run lib (sourceText src) = .ok (sourceText src)) :
    ChangesContent lib src doc f := by
  refine ⟨sourceText src, hrun, ?_⟩
  rw [htargets]
  exact ⟨fun _ n hn => absurd hn List.not_mem_nil, fun _ => unchanged h⟩

/-- With one target. -/
theorem changesContent_of_one {f : Filling} {n : Node} {result : String} {keeps : Prop}
    (htargets : f.targets lib doc = [n]) (hrun : f.run lib (sourceText src) = .ok result)
    (hiff : OnlyContentChanges lib doc [n.key] result ↔ keeps)
    (hkeeps : keeps ↔ f.Keeps lib src doc n) : ChangesContent lib src doc f := by
  refine ⟨result, hrun, ?_⟩
  rw [htargets, List.map_singleton, hiff, hkeeps]
  simp

theorem emptyElement_changesContent (h : ReadsTemplate lex lib src doc) (writes : Writes lex lib)
    {localName newContent : String}
    (hwritten : (Filling.emptyElement localName newContent).Written lex lib)
    (hfound : ∀ n ∈ (Filling.emptyElement localName newContent).targets lib doc,
      (Filling.emptyElement localName newContent).Found lib src n)
    (hunderstands : Understands lex lib.toUppsala
      ((Filling.emptyElement localName newContent).filled lex lib src doc)) :
    ChangesContent lib src doc (.emptyElement localName newContent) := by
  cases hn : firstEmptyElement doc localName with
  | none =>
      refine changesContent_of_unchanged h (by rw [Filling.targets, hn]; rfl) ?_
      have hparse : lib.parse (sourceText src) = .ok doc := h.parsed
      simp only [Filling.run, replaceFirstEmptyElement, hparse, hn]
  | some n =>
      have htargets : (Filling.emptyElement localName newContent).targets lib doc = [n] := by
        rw [Filling.targets, hn]
        rfl
      have hmem : n ∈ doc.descendants := List.mem_of_find?_eq_some hn
      have htest := List.find?_some hn
      rw [isEmptyElement, Bool.and_eq_true, Option.any_eq_true] at htest
      obtain ⟨⟨e, he, hlocal⟩, -⟩ := htest
      rw [Bool.and_eq_true, beq_iff_eq] at hlocal
      have hpfx := (prefixFound_iff h hmem he).mpr (hfound n (by rw [htargets]; simp))
      rw [hlocal.1] at hpfx
      rw [Filling.filled, hn] at hunderstands
      obtain ⟨result, hrun, hiff⟩ := replaceFirstEmptyElement_iff writes.laws h hn hpfx hwritten
        hunderstands
      exact changesContent_of_one htargets hrun hiff Iff.rfl

/-- Without markup for the key, `populate_key_value` writes nothing. -/
theorem populateKeyValue_none (h : ReadsTemplate lex lib src doc) {keyData : KeyData} {n : Node}
    (hn : doc.findElement Ns.DSIG "KeyValue" = some n)
    (hnone : toKeyValueXml lib (prefixOf n) keyData = none) :
    populateKeyValue lib (sourceText src) keyData = .ok (sourceText src) := by
  obtain ⟨hmem, e, he, -⟩ := Document.findElement_some hn
  obtain ⟨c, t, kids, hp⟩ := exists_place h hmem he
  have hanother : ∀ pfx, toKeyValueXml lib pfx keyData = none := by
    intro pfx
    have hsome := @toKeyValueXml_isSome lib pfx (prefixOf n) keyData
    rw [hnone] at hsome
    exact Option.isNone_iff_eq_none.mp (Option.isSome_eq_false_iff.mp hsome)
  simp only [populateKeyValue, parseXml_eq h, bind, Except.bind, hn]
  cases isUnfilled n with
  | false => simp only [Bool.false_eq_true, if_false]
  | true => simp only [if_true, hp.range_eq h hmem, hp.slice_eq h, hanother]

theorem keyValue_changesContent (h : ReadsTemplate lex lib src doc) (writes : Writes lex lib)
    {keyData : KeyData} (hfound : ∀ n ∈ (Filling.keyValue keyData).targets lib doc,
      (Filling.keyValue keyData).Found lib src n)
    (hunderstands : Understands lex lib.toUppsala
      ((Filling.keyValue keyData).filled lex lib src doc)) :
    ChangesContent lib src doc (.keyValue keyData) := by
  cases hn : doc.findElement Ns.DSIG "KeyValue" with
  | none =>
      refine changesContent_of_unchanged h ?_ ?_
      · rw [Filling.targets, Filling.keyValue?, hn]
        rfl
      · simp only [Filling.run, populateKeyValue, parseXml_eq h, bind, Except.bind, hn]
  | some n =>
      cases hu : isUnfilled n with
      | false =>
          refine changesContent_of_unchanged h ?_ ?_
          · rw [Filling.targets, Filling.keyValue?, hn, Option.filter_some, hu]
            rfl
          · simp only [Filling.run, populateKeyValue, parseXml_eq h, bind, Except.bind, hn]
            simp only [hu, Bool.false_eq_true, if_false]
      | true =>
          cases hx : toKeyValueXml lib (prefixOf n) keyData with
          | none =>
              refine changesContent_of_unchanged h ?_ (populateKeyValue_none h hn hx)
              rw [Filling.targets, Filling.keyValue?, hn, Option.filter_some, hu, hx]
              rfl
          | some innerXml =>
              have htarget : Filling.keyValue? lib doc keyData = some n := by
                rw [Filling.keyValue?, hn, Option.filter_some, hu, hx]
                rfl
              have htargets : (Filling.keyValue keyData).targets lib doc = [n] := by
                rw [Filling.targets, htarget]
                rfl
              have hpfx := prefixFound h hn (hfound n (by rw [htargets]; simp))
              rw [Filling.filled, htarget] at hunderstands
              obtain ⟨result, hrun, hiff⟩ := populateKeyValue_iff writes.laws writes.words
                writes.bytes h hn hu hx hpfx hunderstands
              exact changesContent_of_one htargets hrun hiff Iff.rfl

theorem derEncodedKeyValue_changesContent (h : ReadsTemplate lex lib src doc)
    (writes : Writes lex lib) {keyData : KeyData}
    (hfound : ∀ n ∈ (Filling.derEncodedKeyValue keyData).targets lib doc,
      (Filling.derEncodedKeyValue keyData).Found lib src n)
    (hunderstands : Understands lex lib.toUppsala
      ((Filling.derEncodedKeyValue keyData).filled lex lib src doc)) :
    ChangesContent lib src doc (.derEncodedKeyValue keyData) := by
  cases hn : doc.findElement Ns.DSIG11 "DEREncodedKeyValue" with
  | none =>
      refine changesContent_of_unchanged h ?_ ?_
      · rw [Filling.targets, Filling.derEncodedKeyValue?, hn]
        rfl
      · simp only [Filling.run, populateDerEncodedKeyValue, parseXml_eq h, bind, Except.bind, hn]
  | some n =>
      cases hu : isUnfilled n with
      | false =>
          refine changesContent_of_unchanged h ?_ ?_
          · rw [Filling.targets, Filling.derEncodedKeyValue?, hn, Option.filter_some, hu]
            rfl
          · simp only [Filling.run, populateDerEncodedKeyValue, parseXml_eq h, bind, Except.bind, hn]
            simp only [hu, Bool.false_eq_true, if_false]
      | true =>
          cases hx : lib.toSpkiDer keyData with
          | none =>
              refine changesContent_of_unchanged h ?_ ?_
              · rw [Filling.targets, Filling.derEncodedKeyValue?, hn, Option.filter_some, hu, hx]
                rfl
              · simp only [Filling.run, populateDerEncodedKeyValue, parseXml_eq h, bind, Except.bind, hn]
                simp only [hu, if_true, hx]
          | some spkiDer =>
              have htarget : Filling.derEncodedKeyValue? lib doc keyData = some n := by
                rw [Filling.derEncodedKeyValue?, hn, Option.filter_some, hu, hx]
                rfl
              have htargets : (Filling.derEncodedKeyValue keyData).targets lib doc = [n] := by
                rw [Filling.targets, htarget]
                rfl
              obtain ⟨hcolon, hown⟩ := hfound n (by rw [htargets]; simp)
              obtain ⟨hmem, e, he, -⟩ := Document.findElement_some hn
              have hpfx := prefixFound h hn hcolon
              have hopen := openTagFound h hmem he hown
              rw [Filling.filled, htarget, hx] at hunderstands
              obtain ⟨result, hrun, hchanges⟩ := populateDerEncodedKeyValue_changes h hn hu hx hpfx
                hopen (writes.base64 spkiDer) hunderstands
              exact changesContent_of_one htargets hrun (iff_true_intro hchanges) Iff.rfl

/-- The X509Data keeps its prefix exactly when its text has nothing like a declaration of it. -/
theorem dataTag_eq_iff {original pfx : String} : dataTag original pfx = pname pfx "X509Data"
    ↔ ¬ (pfx ≠ "" ∧ Text.containsSub ("xmlns:" ++ pfx ++ "=").toList original.toList = true) := by
  rw [dataTag]
  split
  · rename_i hlost
    refine ⟨fun he => ?_, fun hnot => absurd hlost hnot⟩
    have hlen := congrArg (fun s => s.toList.length) he
    rw [pname, if_neg hlost.1] at hlen
    simp only [String.toList_append, List.length_append] at hlen
    have hcolon : ":".toList.length = 1 := by decide
    omega
  · rename_i hkept
    exact ⟨fun _ => hkept, fun _ => rfl⟩

/-- A child that is filled is a node of the document, and not the X509Data. -/
theorem mem_filledChildren {der : ByteArray} {info : X509Info} {n child : Node}
    (hn : doc.findElement Ns.DSIG "X509Data" = some n)
    (hchild : child ∈ filledChildren lib der info n) : child ∈ doc.descendants ∧ child ≠ n := by
  obtain ⟨hmem, e, he, -⟩ := Document.findElement_some hn
  have hin : child ∈ n.children := (List.mem_filter.mp hchild).1
  refine ⟨Forest.mem_cursors_descendants hmem ((Forest.row_sublist _ _).subset hin), ?_⟩
  intro hsame
  have hpath := Node.path_of_child hin he
  rw [hsame] at hpath
  have hlen := congrArg List.length hpath
  rw [List.length_cons] at hlen
  omega

theorem x509Data_changesContent (h : ReadsTemplate lex lib src doc) (writes : Writes lex lib)
    {x509Chain : List ByteArray} (hwritten : (Filling.x509Data x509Chain).Written lex lib)
    (hfound : ∀ n ∈ (Filling.x509Data x509Chain).targets lib doc,
      (Filling.x509Data x509Chain).Found lib src n)
    (hunderstands : Understands lex lib.toUppsala
      ((Filling.x509Data x509Chain).filled lex lib src doc)) :
    ChangesContent lib src doc (.x509Data x509Chain) := by
  have hrun : (Filling.x509Data x509Chain).run lib (sourceText src)
      = populateX509Data lib (sourceText src) x509Chain := rfl
  cases hn : doc.findElement Ns.DSIG "X509Data" with
  | none =>
      refine changesContent_of_unchanged h (by rw [Filling.targets, hn]) ?_
      simp only [Filling.run, populateX509Data, parseXml_eq h, bind, Except.bind, hn]
  | some n =>
      cases hchildren : hasElementChild n with
      | false =>
          have htargets : (Filling.x509Data x509Chain).targets lib doc = [n] := by
            rw [Filling.targets, hn]
            simp only [hchildren, Bool.false_eq_true, if_false]
          have hpfx := prefixFound h hn (hfound n (by rw [htargets]; simp))
          rw [Filling.filled, hn] at hunderstands
          simp only [hchildren, Bool.false_eq_true, if_false] at hunderstands
          obtain ⟨result, hresult, hiff⟩ := populateX509Data_empty_iff writes.laws h hn hchildren
            hpfx writes.words writes.bytes hunderstands
          refine changesContent_of_one htargets hresult hiff ?_
          rw [Filling.Keeps, dataTag_eq_iff, hn]
          exact ⟨fun hk => ⟨hk.1, fun _ => hk.2⟩, fun hk => ⟨hk.1, hk.2 rfl⟩⟩
      | true =>
          cases x509Chain with
          | nil =>
              refine changesContent_of_unchanged h ?_ ?_
              · rw [Filling.targets, hn]
                simp only [hchildren, if_true]
              · simp only [hrun, populateX509Data, parseXml_eq h, bind, Except.bind, hn]
                simp only [hchildren, if_true]
          | cons der rest =>
              have htargets : (Filling.x509Data (der :: rest)).targets lib doc
                  = filledChildren lib der (lib.extractX509Info der) n := by
                rw [Filling.targets, hn]
                simp only [hchildren, if_true]
              rw [htargets] at hfound
              rw [Filling.filled, hn] at hunderstands
              simp only [hchildren, if_true] at hunderstands
              have hpfx : PrefixesFound lib (sourceText src)
                  (filledChildren lib der (lib.extractX509Info der) n) := by
                intro child hchild e he
                exact (prefixFound_iff h (mem_filledChildren hn hchild).1 he).mpr
                  (hfound child hchild)
              obtain ⟨result, hresult, hiff⟩ := populateX509Data_children_iff writes.laws
                writes.words writes.bytes (hwritten der List.mem_cons_self) h hn hchildren hpfx
                hunderstands
              refine ⟨result, hresult, ?_⟩
              rw [htargets, hiff]
              refine forall₂_congr fun child hchild => ?_
              -- the tag of the element itself is not written anew
              have hother : doc.findElement Ns.DSIG "X509Data" ≠ some child := by
                rw [hn]
                intro hsame
                exact (mem_filledChildren hn hchild).2 (Option.some.inj hsame).symm
              exact ⟨fun hbare => ⟨hbare, fun hsame => absurd hsame hother⟩, fun hk => hk.1⟩

/-- **Filling a template changes only the content of its targets** exactly when these have nothing
that is lost. -/
theorem filling_changes_content_iff (h : ReadsTemplate lex lib src doc) (writes : Writes lex lib)
    (f : Filling) (hwritten : f.Written lex lib)
    (hfound : ∀ n ∈ f.targets lib doc, f.Found lib src n)
    (hunderstands : Understands lex lib.toUppsala (f.filled lex lib src doc)) :
    ∃ result, f.run lib (sourceText src) = .ok result
      ∧ (OnlyContentChanges lib doc ((f.targets lib doc).map (fun n : Node => n.key)) result
        ↔ ∀ n ∈ f.targets lib doc, f.Keeps lib src doc n) := by
  cases f with
  | emptyElement localName newContent =>
      exact emptyElement_changesContent h writes hwritten hfound hunderstands
  | x509Data x509Chain => exact x509Data_changesContent h writes hwritten hfound hunderstands
  | keyValue keyData => exact keyValue_changesContent h writes hfound hunderstands
  | derEncodedKeyValue keyData =>
      exact derEncodedKeyValue_changesContent h writes hfound hunderstands

end Filling

/-! ## Libraries that know a table of documents -/

/-- A field as `XmlWriter` appends it. -/
def writtenFields (attrs : List (String × String)) : String :=
  String.join (attrs.map (fun a => " " ++ a.1 ++ "=\"" ++ a.2 ++ "\""))

/-- The octets of a known text have a known value; those of any other are added up. -/
def sumOr (known : List Char) (value : List UInt8) (octets : ByteArray) : ByteArray :=
  if octets = (String.ofList known).toUTF8 then ⟨value.toArray⟩
  else ⟨#[octets.data.toList.foldl (· + ·) 0]⟩

theorem sumOr_known {known text : List Char} {value : List UInt8} (h : text = known) :
    sumOr known value (String.ofList text).toUTF8 = ⟨value.toArray⟩ := if_pos (by rw [h])

/-- Libraries that know the documents of a table, for texts that need no escapes. -/
def tableLib (table : List Source) (sha : ByteArray → ByteArray) : SignLibs where
  parse := tableParse plainLexicon table
  getAttribute e name :=
    (e.attributes.find? (fun a => a.name.localName == name)).map Attribute.value
  getAttributeNs e nsUri name :=
    (e.attributes.find? (fun a => a.name.localName == name && a.name.uri == nsUri)).map
      Attribute.value
  utf8Error _ := "invalid utf-8 sequence"
  base64Decode s :=
    match Base64.decode s.toList with
    | some bytes => .ok ⟨bytes.toArray⟩
    | none => .error "invalid symbol"
  startElement tag attrs := "<" ++ tag ++ writtenFields attrs ++ ">"
  emptyElementExpanded tag attrs := "<" ++ tag ++ writtenFields attrs ++ "></" ++ tag ++ ">"
  emptyElement tag attrs := "<" ++ tag ++ writtenFields attrs ++ "/>"
  endElement tag := "</" ++ tag ++ ">"
  digest _ octets := .ok (sha octets)
  readFile _ := .ok ⟨#[]⟩
  pathExists _ := true
  joinPath a b := a ++ "/" ++ b
  nodeRange := tableRange table
  base64Encode bytes := String.ofList (Base64.encode bytes.data.toList)
  writeText s := s
  rsaNumbers k := (k, k)
  dsaNumbers k := (k, k, k, k)
  ecPoint k := k
  toSpkiDer _ := none
  extractX509Info _ := ⟨none, none, none, none⟩

section Table

variable (table : List Source) (sha : ByteArray → ByteArray)

theorem tableLib_parse : (tableLib table sha).parse = tableParse plainLexicon table := rfl

theorem tableLib_nodeRange : (tableLib table sha).nodeRange = tableRange table := rfl

theorem tableLib_laws : WriterLaws (tableLib table sha) where
  start tag := by simp [tableLib, writtenFields, String.join]
  stop tag := rfl
  startField tag name value _ := by
    simp [tableLib, writtenFields, String.join, String.append_assoc]
  emptyField tag name value _ := by
    simp [tableLib, writtenFields, String.join, String.append_assoc]

theorem tableLib_alphabet (bytes : ByteArray) :
    ∀ c ∈ ((tableLib table sha).base64Encode bytes).toList,
      Text.isWhitespace c = false ∧ c ≠ '<' ∧ c ≠ '&' := by
  intro c hc
  have hdigits : ∀ c ∈ '=' :: Base64.digits,
      Text.isWhitespace c = false ∧ c ≠ '<' ∧ c ≠ '&' := by decide +kernel
  have htext : ((tableLib table sha).base64Encode bytes).toList
      = Base64.encode bytes.data.toList := String.toList_ofList
  rw [htext] at hc
  exact hdigits c (Base64.mem_encode hc)

/-- Base64 is written as it is. -/
theorem tableLib_written (bytes : ByteArray) :
    ((tableLib table sha).base64Encode bytes).toList = []
        ∧ (tableLib table sha).base64Encode bytes = ""
      ∨ plainLexicon.text ((tableLib table sha).base64Encode bytes).toList
        = some ((tableLib table sha).base64Encode bytes).toList := by
  by_cases hempty : ((tableLib table sha).base64Encode bytes).toList = []
  · exact Or.inl ⟨hempty, String.ofList_toList.symm.trans (congrArg String.ofList hempty)⟩
  · refine Or.inr (if_pos ?_)
    rw [Bool.and_eq_true, List.all_eq_true, Bool.not_eq_true', List.isEmpty_eq_false_iff]
    refine ⟨hempty, fun c hc => ?_⟩
    simp [(tableLib_alphabet table sha bytes c hc).2]

theorem tableLib_decoded (bytes : ByteArray) :
    (tableLib table sha).base64Decode ((tableLib table sha).base64Encode bytes) = .ok bytes := by
  simp only [tableLib, String.toList_ofList, Base64.decode_encode]

end Table

/-! ## A digest value -/

namespace DigestSample

/-- `<DigestValue Id="d"/>`. -/
def marked : Source := .node 1 (fieldTag "DigestValue".toList "Id".toList "d" none) .nil .nil

/-- `<DigestValue>AA==</DigestValue>`. -/
def digested : Source :=
  .node 1 (bareTag "DigestValue".toList) (.leaf 2 (.text "AA==".toList) .nil) .nil

/-- A Reference with its DigestMethod, and a comment behind the DigestValue. -/
def reference (value : Source → Source) : Source :=
  .node 1 (fieldTag "Reference".toList "URI".toList "data.bin" (some []))
    (.node 2 (fieldTag "DigestMethod".toList "Algorithm".toList
      "http://www.w3.org/2001/04/xmlenc#sha256" none) .nil
        (value (.leaf 4 (.comment "to be filled".toList) .nil))) .nil

def waiting : Source := reference (.node 3 ⟨"DigestValue".toList, [], [], none⟩ .nil)

def served : Source :=
  reference (.node 3 (bareTag "DigestValue".toList) (.leaf 5 (.text "AA==".toList) .nil))

def table : List Source := [marked, digested, waiting, served]

/-- Libraries that know these documents. -/
def lib : SignLibs := tableLib table (sumOr [] [0])

theorem wordsAllowed : WordsAllowed plainLexicon where
  word w h := by
    have hstops : ∀ c ∈ nameStops, c.isAlphanum = false := by decide
    rw [isWord, Bool.and_eq_true] at h
    show (!w.isEmpty && w.all (fun c => !nameStops.contains c)) = true
    rw [Bool.and_eq_true]
    constructor
    · cases w with
      | nil => exact h.1
      | cons c w => rfl
    · refine List.all_eq_true.mpr fun c hc => ?_
      have halnum := List.all_eq_true.mp h.2 c hc
      cases hstop : nameStops.contains c with
      | false => rfl
      | true =>
          rw [hstops c (by simpa using hstop)] at halnum
          cases halnum
  plain value h := by
    refine if_pos (List.all_eq_true.mpr fun c hc => ?_)
    have hplain := List.all_eq_true.mp h c hc
    have hlt : c ≠ '<' := by
      rintro rfl
      revert hplain
      decide
    have hamp : c ≠ '&' := by
      rintro rfl
      revert hplain
      decide
    simp [hlt, hamp]

theorem isCharacterData (bytes : ByteArray) :
    IsCharacterData plainLexicon (lib.base64Encode bytes).toList := by
  rcases tableLib_written table (sumOr [] [0]) bytes with ⟨h, -⟩ | h
  · exact Or.inl h
  · refine Or.inr ?_
    rw [lib, h]
    rfl

theorem writes : Writes plainLexicon lib where
  laws := tableLib_laws _ _
  words := wordsAllowed
  bytes := isCharacterData
  base64 := isCharacterData

theorem table_entries : ∀ src ∈ table, table.find? (fun s => s.text spelling == src.text spelling)
    = some src ∧ (0 :: src.keys).Nodup ∧ WellFormed plainLexicon src := by
  decide +kernel

theorem reads_sample {src : Source} (hmem : src ∈ table) :
    ∃ doc, ReadsTemplate plainLexicon lib src doc := by
  obtain ⟨hfind, hkeys, hwf⟩ := table_entries src hmem
  obtain ⟨doc, -, h⟩ := @reads_table plainLexicon table lib.toUppsala lib.nodeRange src rfl rfl
    ((entryOf?_ofList _).trans hfind) hkeys hwf
  exact ⟨doc, h⟩

/-- The nodes of a source, by their number. -/
def nodeOf (src : Source) (i : Nat) : Node :=
  (((treeOf plainLexicon [] src).cursors [])[i]?).getD ⟨0, [], .leaf (.text "")⟩

/-- The source when a node of it is filled. -/
def filledAt (src : Source) (n : Node) : Source :=
  src.replaceNode n.key (bareTag (newName n "DigestValue")) (textKids "AA==".toList)

/-- The first DigestValue without a text, and the document of the table that it is filled to. -/
structure Waits (src result : Source) (n : Node) : Prop where
  found : ((treeOf plainLexicon [] src).cursors []).find? (isEmptyElement "DigestValue") = some n
  colon : Text.splitOnce [':'] (originalOf lib (sourceText src) n).toList = none
  entry : table.find? (fun s => s.text spelling == (filledAt src n).text spelling) = some result
  keys : (0 :: result.keys).Nodup
  shape : (treeOf plainLexicon [] result).shape = (treeOf plainLexicon [] (filledAt src n)).shape
  wellFormed : WellFormed plainLexicon (filledAt src n)

instance (src result : Source) (n : Node) : Decidable (Waits src result n) :=
  decidable_of_iff (_ ∧ _ ∧ _ ∧ _ ∧ _ ∧ _)
    ⟨fun h => ⟨h.1, h.2.1, h.2.2.1, h.2.2.2.1, h.2.2.2.2.1, h.2.2.2.2.2⟩,
      fun h => ⟨h.found, h.colon, h.entry, h.keys, h.shape, h.wellFormed⟩⟩

section Waits

variable {src result : Source} {n : Node} {doc : Document}

theorem Waits.first (w : Waits src result n) (h : ReadsTemplate plainLexicon lib src doc) :
    firstEmptyElement doc "DigestValue" = some n := by
  rw [firstEmptyElement, Document.descendants, h.tree]
  exact w.found

theorem Waits.targets (w : Waits src result n) (h : ReadsTemplate plainLexicon lib src doc) :
    (Filling.emptyElement "DigestValue" "AA==").targets lib doc = [n] := by
  rw [Filling.targets, w.first h]
  rfl

theorem Waits.not_colonMisleads (w : Waits src result n)
    (h : ReadsTemplate plainLexicon lib src doc) :
    ∀ m ∈ (Filling.emptyElement "DigestValue" "AA==").targets lib doc,
      ¬ ColonMisleads lib (sourceText src) m := by
  intro m hm
  rw [w.targets h, List.mem_singleton] at hm
  rw [hm]
  rintro ⟨e, -, -, before, after, hsplit, -⟩
  rw [w.colon] at hsplit
  cases hsplit

theorem Waits.understands (w : Waits src result n) (h : ReadsTemplate plainLexicon lib src doc) :
    Understands plainLexicon lib.toUppsala
      ((Filling.emptyElement "DigestValue" "AA==").filled plainLexicon lib src doc) := by
  rw [Filling.filled, w.first h]
  exact @understands_table plainLexicon table lib.toUppsala (filledAt src n) result rfl
    ((entryOf?_ofList _).trans w.entry) w.keys w.shape w.wellFormed

end Waits

theorem waits : Waits marked digested (nodeOf marked 0)
    ∧ Waits waiting served (nodeOf waiting 2) := by
  decide +kernel

/-- With an Id, the element does not keep it. -/
theorem filling_drops_attributes : ∃ doc, ReadsTemplate plainLexicon lib marked doc
    ∧ (Filling.emptyElement "DigestValue" "AA==").Written plainLexicon lib
    ∧ ¬ ∃ result, replaceFirstEmptyElement lib (sourceText marked) "DigestValue" "AA==" = .ok result
      ∧ OnlyContentChanges lib doc [1] result := by
  obtain ⟨doc, h⟩ := @reads_sample marked List.mem_cons_self
  have w := waits.1
  obtain ⟨result, hrun, hiff⟩ := emptyElement_changesContent h writes (Or.inr (by decide))
    (w.not_colonMisleads h) (w.understands h)
  refine ⟨doc, h, Or.inr (by decide), ?_⟩
  rintro ⟨result', hrun', hchange⟩
  have hsame : result' = result := by
    have hboth := hrun'.symm.trans hrun
    cases hboth
    rfl
  rw [hsame] at hchange
  rw [w.targets h] at hiff
  have hbare : IsBare (nodeOf marked 0) := hiff.mp hchange _ List.mem_cons_self
  exact absurd (hbare _ rfl).1 (by decide +kernel)

theorem filling_changes_content_sample : ∃ doc, ReadsTemplate plainLexicon lib waiting doc
    ∧ ∃ result, replaceFirstEmptyElement lib (sourceText waiting) "DigestValue" "AA==" = .ok result
      ∧ OnlyContentChanges lib doc [3] result := by
  obtain ⟨doc, h⟩ := @reads_sample waiting (List.mem_cons_of_mem _ (List.mem_cons_of_mem _
    List.mem_cons_self))
  have w := waits.2
  have hclaim := filling_changes_content_iff h writes (.emptyElement "DigestValue" "AA==")
    (Or.inr (by decide)) (w.not_colonMisleads h) (w.understands h)
  rw [w.targets h] at hclaim
  obtain ⟨result, hrun, hiff⟩ := hclaim
  refine ⟨doc, h, result, hrun, hiff.mpr fun n hn => ?_⟩
  rw [List.mem_singleton.mp hn]
  intro e he
  cases he
  exact ⟨by decide +kernel, by decide +kernel⟩

end DigestSample

end Sign

end Bergshamra
