import Bergshamra.Lib.Tagged
import Bergshamra.Proof.Injective
import Bergshamra.Proof.WrittenTree

/-!
# A written tree as markup

With a node set the text between two tags is not all escaped text: an element that
is left out leaves what is written of its axes as it stands, with plain quotation
marks. What is still true of all text between tags is that it holds no `<` and no
carriage return, and that is enough to find the tags again.
-/

namespace Bergshamra

/-! ## Text as it stands -/

/-- The code of a character of the output: itself. The two characters that never stand between
tags have codes that nothing else starts with. -/
def plainCode (c : Char) : List Char :=
  if c = '<' then ['\r', 'l'] else if c = '\r' then ['\r', 'r'] else [c]

/-- Text that holds neither of the two. -/
def Plain (s : List Char) : Prop := ∀ c ∈ s, c ≠ '<' ∧ c ≠ '\r'

theorem Plain.append {s t : List Char} (hs : Plain s) (ht : Plain t) : Plain (s ++ t) := by
  intro c hc
  rcases List.mem_append.mp hc with hc | hc
  · exact hs c hc
  · exact ht c hc

theorem plain_nil : Plain [] := by
  intro c hc
  cases hc

theorem Plain.of_decide {s : List Char} (h : s.all (fun c => c != '<' && c != '\r') = true) :
    Plain s := by
  intro c hc
  simpa using List.all_eq_true.mp h c hc

theorem plainCode_of_plain {c : Char} (h : c ≠ '<' ∧ c ≠ '\r') : plainCode c = [c] := by
  rw [plainCode, if_neg h.1, if_neg h.2]

/-- Plain text stands for itself. -/
theorem flatMap_plain {s : List Char} (hs : Plain s) :
    (s.map Markup.Leaf.char).flatMap (Markup.renderLeaf plainCode) = s := by
  induction s with
  | nil => rfl
  | cons c s ih =>
      have hc := plainCode_of_plain (hs c List.mem_cons_self)
      rw [List.map_cons, List.flatMap_cons, ih (fun d hd => hs d (List.mem_cons_of_mem _ hd)),
        Markup.renderLeaf, hc]
      rfl

/-- Read one character of plain text. -/
def plainDecode : List Char → Option (Char × List Char)
  | '\r' :: 'l' :: r => some ('<', r)
  | '\r' :: 'r' :: r => some ('\r', r)
  | c :: r => some (c, r)
  | [] => none

theorem plainDecode_code (c : Char) (r : List Char) :
    plainDecode (plainCode c ++ r) = some (c, r) := by
  unfold plainCode
  split
  · subst c
    rfl
  · split
    · subst c
      rfl
    · rename_i hc
      rw [List.singleton_append, plainDecode.eq_def]
      split <;> simp_all

theorem escape_plain : Markup.Escape plainCode '<' where
  separates := by
    intro a b r r' h
    have hdecode := congrArg plainDecode h
    rw [plainDecode_code, plainDecode_code, Option.some.injEq, Prod.mk.injEq] at hdecode
    exact hdecode
  head := by
    intro c
    unfold plainCode
    split
    · exact ⟨'\r', ['l'], rfl, by decide⟩
    · split
      · exact ⟨'\r', ['r'], rfl, by decide⟩
      · exact ⟨c, [], rfl, by assumption⟩

theorem plain_flatMap {α : Type} {code : α → List Char} {as : List α}
    (h : ∀ a ∈ as, Plain (code a)) : Plain (as.flatMap code) := by
  intro d hd
  obtain ⟨a, ha, hc⟩ := List.mem_flatMap.mp hd
  exact h a ha d hc

theorem plain_escapeText (s : String) : Plain (escapeText s) := by
  refine plain_flatMap (fun c _ => ?_)
  intro d hd
  unfold escapeTextChar at hd
  split at hd
  · exact Plain.of_decide (by decide) d hd
  · exact Plain.of_decide (by decide) d hd
  · exact Plain.of_decide (by decide) d hd
  · exact Plain.of_decide (by decide) d hd
  · simp_all

theorem plain_escapeAttr (s : String) : Plain (escapeAttr s) := by
  refine plain_flatMap (fun c _ => ?_)
  intro d hd
  unfold escapeAttrChar at hd
  split at hd
  · exact Plain.of_decide (by decide) d hd
  · exact Plain.of_decide (by decide) d hd
  · exact Plain.of_decide (by decide) d hd
  · exact Plain.of_decide (by decide) d hd
  · exact Plain.of_decide (by decide) d hd
  · exact Plain.of_decide (by decide) d hd
  · simp_all

/-! ## The leaves of a row -/

/-- What is written of a leaf, in pieces: text and line breaks character by character. -/
def leafPieces (withComments : Bool) (place : Place) : LeafKind → List Markup.Leaf
  | .text t => (escapeText t).map .char
  | .cdata t => (escapeText t).map .char
  | .comment t =>
      if withComments then
        place.before.map .char ++ .comment t.toList :: place.after.map .char
      else []
  | .pi target data =>
      place.before.map .char
        ++ .instruction target.toList (data.getD "").toList :: place.after.map .char

theorem plain_before (place : Place) : Plain place.before := by
  unfold Place.before
  split
  · exact Plain.of_decide (by decide)
  · exact plain_nil

theorem plain_after (place : Place) : Plain place.after := by
  unfold Place.after
  split
  · exact Plain.of_decide (by decide)
  · exact plain_nil

theorem processLeaf_eq_pieces {k : LeafKind} (hk : k.WellFormed) (withComments : Bool)
    (place : Place) :
    processLeaf withComments place k
      = (leafPieces withComments place k).flatMap (Markup.renderLeaf plainCode) := by
  cases k with
  | text t => exact (flatMap_plain (plain_escapeText t)).symm
  | cdata t => exact (flatMap_plain (plain_escapeText t)).symm
  | comment t =>
      cases withComments with
      | false => rfl
      | true =>
          rw [leafPieces, if_pos rfl, List.flatMap_append, List.flatMap_cons,
            flatMap_plain (plain_before place), flatMap_plain (plain_after place)]
          simp [processLeaf, Markup.renderLeaf]
  | pi target data =>
      have hdata := renderInstruction target hk.2.2
      rw [leafPieces, List.flatMap_append, List.flatMap_cons, flatMap_plain (plain_before place),
        flatMap_plain (plain_after place)]
      rw [show Markup.renderLeaf plainCode (.instruction target.toList (data.getD "").toList)
        = Markup.renderLeaf escapeTextChar (.instruction target.toList (data.getD "").toList)
        from rfl, ← hdata, processLeaf]
      simp only [List.append_assoc]

theorem leafPieces_valid {k : LeafKind} (hk : k.WellFormed) (withComments : Bool)
    (place : Place) : ∀ l ∈ leafPieces withComments place k, l.Valid := by
  have hchars : ∀ s : List Char, ∀ l ∈ s.map Markup.Leaf.char, l.Valid := by
    intro s l hl
    obtain ⟨c, _, rfl⟩ := List.mem_map.mp hl
    trivial
  intro l hl
  cases k with
  | text t => exact hchars _ l hl
  | cdata t => exact hchars _ l hl
  | comment t =>
      cases withComments with
      | false => cases hl
      | true =>
          rw [leafPieces, if_pos rfl, List.mem_append, List.mem_cons] at hl
          rcases hl with hl | rfl | hl
          · exact hchars _ l hl
          · exact hk
          · exact hchars _ l hl
  | pi target data =>
      rw [leafPieces, List.mem_append, List.mem_cons] at hl
      rcases hl with hl | rfl | hl
      · exact hchars _ l hl
      · exact ⟨hk.1, hk.2.1⟩
      · exact hchars _ l hl

/-! ## The tree -/

/-- A start tag as markup. -/
def StartTag.markup (t : StartTag) : Markup.Tag :=
  ⟨t.name, t.decls.map declField ++ t.attrs.map attrField⟩

theorem StartTag.opening_eq (t : StartTag) :
    t.opening = Markup.renderStart escapeAttrChar t.markup := by
  have hdecls : (t.decls.map declField).flatMap (Markup.renderField escapeAttrChar)
      = t.decls.flatMap NsDecl.render := by
    rw [List.flatMap_map]
    simp only [render_declField]
  have hattrs : (t.attrs.map attrField).flatMap (Markup.renderField escapeAttrChar)
      = t.attrs.flatMap Attr.render := by
    rw [List.flatMap_map]
    simp only [render_attrField]
  rw [opening, Markup.renderStart, markup, List.flatMap_append, hdecls, hattrs]
  simp only [List.append_assoc]

theorem StartTag.closing_eq (t : StartTag) : t.closing = Markup.renderEnd t.markup := by
  simp [closing, Markup.renderEnd, markup]

/-- The writer of an inclusive canonical form: it has the leaves that are in the set, and what it
leaves of an element of the row is plain text. -/
structure WritesText (withComments : Bool) (w : ElementWriter) (cs : List Node) : Prop where
  text : ∀ top preceding following i k, w.text top preceding following i k
    = if w.keep i then processLeaf withComments ⟨top, preceding, following⟩ k else []
  loose : ∀ c ∈ cs, ∀ e kids, Forest.Cursor.item c = .node e kids → Plain (w.loose c.path c.key e)

theorem WritesText.mono {withComments : Bool} {w : ElementWriter} {cs cs' : List Node}
    (h : WritesText withComments w cs) (hs : ∀ c ∈ cs', c ∈ cs) :
    WritesText withComments w cs' :=
  ⟨h.text, fun c hc => h.loose c (hs c hc)⟩

/-- The writer, with markup for its tags and its text. -/
def markupWriter (withComments : Bool) (w : ElementWriter) :
    Forest.Writer NodeId Element LeafKind Markup.Tag (List Markup.Leaf) where
  keep := w.keep
  tag path i e := (w.tag path i e).markup
  loose path i e := (w.loose path i e).map .char
  text top preceding following i k :=
    if w.keep i then leafPieces withComments ⟨top, preceding, following⟩ k else []

/-- **The text of a written tree is its markup.** -/
theorem chars_eq_render {withComments : Bool} {w : ElementWriter} {chain : List Element} {f : Nodes}
    (hf : WellFormedRow LeafKind.WellFormed chain f) {path : List (NodeId × Element)}
    (h : WritesText withComments w (f.cursors path)) (preceding : Bool) :
    WrittenTree.chars (w.write path preceding f)
      = Markup.render plainCode escapeAttrChar
          ((markupWriter withComments w).write path preceding f).flatten := by
  rw [Forest.render_flatten, WrittenTree.chars]
  induction f generalizing path preceding chain with
  | nil => rfl
  | leaf i k rest ih =>
      have hrest := ih hf.2 (h.mono (fun c hc => List.mem_cons_of_mem _ hc)) preceding
      rw [Forest.Writer.write, Forest.Writer.write, Forest.print, Forest.print, hrest, h.text]
      by_cases hk : w.keep i = true
      · have hleaf : (markupWriter withComments w).text path.isEmpty preceding rest.hasNode i k
            = leafPieces withComments ⟨path.isEmpty, preceding, rest.hasNode⟩ k := if_pos hk
        rw [if_pos hk, hleaf, ← processLeaf_eq_pieces hf.1]
        rfl
      · have hleaf : (markupWriter withComments w).text path.isEmpty preceding rest.hasNode i k
            = [] := if_neg hk
        rw [if_neg hk, hleaf]
        rfl
  | node i e kids rest ihk ihr =>
      have hkids := @ihk _ hf.2.1 ((i, e) :: path)
        (h.mono (fun c hc => List.mem_cons_of_mem _ (List.mem_append_left _ hc))) false
      have hrest := @ihr _ hf.2.2 path
        (h.mono (fun c hc => List.mem_cons_of_mem _ (List.mem_append_right _ hc))) true
      rw [Forest.Writer.write, Forest.Writer.write]
      by_cases hk : w.keep i = true
      · rw [if_pos hk, if_pos (show (markupWriter withComments w).keep i = true from hk),
          Forest.print, Forest.print, hkids, hrest, StartTag.opening_eq, StartTag.closing_eq]
        rfl
      · have hloose := flatMap_plain
          (h.loose ⟨i, path, .node e kids⟩ List.mem_cons_self e kids rfl)
        rw [if_neg hk, if_neg (show ¬ (markupWriter withComments w).keep i = true from hk),
          Forest.print, Forest.print, Forest.print_append, Forest.print_append, hkids, hrest]
        show w.loose path i e ++ _ = ((w.loose path i e).map Markup.Leaf.char).flatMap _ ++ _
        rw [hloose]

/-- Every item of a well-formed row is well-formed below the elements above it. -/
theorem wellFormed_cursor {leafOk : LeafKind → Prop} {f : Nodes} {path : List (NodeId × Element)}
    (hf : WellFormedRow leafOk (path.map Prod.snd) f) {c : Node} (hc : c ∈ f.cursors path) :
    match c.item with
    | .leaf k => leafOk k
    | .node e _ => e.WellFormed (c.path.map Prod.snd) := by
  induction f generalizing path with
  | nil => simp [Forest.cursors] at hc
  | leaf i k rest ih =>
      rw [Forest.cursors, List.mem_cons] at hc
      rcases hc with rfl | hc
      · exact hf.1
      · exact ih hf.2 hc
  | node i e kids rest ihk ihr =>
      rw [Forest.cursors, List.mem_cons, List.mem_append] at hc
      rcases hc with rfl | hc | hc
      · exact hf.1
      · exact @ihk ((i, e) :: path) hf.2.1 hc
      · exact ihr hf.2.2 hc

/-- So are the elements above it. -/
theorem wellFormed_above {leafOk : LeafKind → Prop} {f : Nodes} {path : List (NodeId × Element)}
    (hf : WellFormedRow leafOk (path.map Prod.snd) f)
    (hp : ∀ x ∈ path, ∃ chain, x.2.WellFormed chain) {c : Node} (hc : c ∈ f.cursors path) :
    ∀ x ∈ c.path, ∃ chain, x.2.WellFormed chain := by
  induction f generalizing path with
  | nil => simp [Forest.cursors] at hc
  | leaf i k rest ih =>
      rw [Forest.cursors, List.mem_cons] at hc
      rcases hc with rfl | hc
      · exact hp
      · exact ih hf.2 hp hc
  | node i e kids rest ihk ihr =>
      rw [Forest.cursors, List.mem_cons, List.mem_append] at hc
      rcases hc with rfl | hc | hc
      · exact hp
      · refine @ihk ((i, e) :: path) hf.2.1 ?_ hc
        intro x hx
        rcases List.mem_cons.mp hx with rfl | hx
        · exact ⟨_, hf.1⟩
        · exact hp x hx
      · exact ihr hf.2.2 hp hc

/-! ## Two writers for one document -/

/-- An attribute name that a reader takes neither for a declaration nor for part of a value. -/
structure Attr.Readable (a : Attr) : Prop where
  equals : '=' ∉ a.qualifiedName.toList
  name : splitName a.qualifiedName.toList ≠ (none, "xmlns")
  pfx : (splitName a.qualifiedName.toList).1 ≠ some "xmlns"

/-- A tag a reader can take apart. -/
structure StartTag.Readable (t : StartTag) (e : Element) : Prop where
  name : t.name = qualifiedElementName e
  decls : ∀ d ∈ t.decls, d.pfx = "" ∨ IsNCName d.pfx
  attrs : ∀ a ∈ t.attrs, a.Readable

theorem StartTag.Readable.valid {t : StartTag} {e : Element} {chain : List Element}
    (h : t.Readable e) (he : e.WellFormed chain) : t.markup.Valid where
  name := by
    show Markup.ValidName t.name
    rw [h.name]
    exact validName_qnameChars he.localName he.pfx
  fields := by
    intro f hf
    rcases List.mem_append.mp hf with hf | hf
    · obtain ⟨d, hd, rfl⟩ := List.mem_map.mp hf
      unfold declField
      by_cases hempty : d.pfx.isEmpty = true
      · rw [if_pos hempty]
        show '=' ∉ "xmlns".toList
        decide
      · rw [if_neg hempty]
        have hne : d.pfx ≠ "" := fun hd => hempty (String.isEmpty_iff.mpr hd)
        have hnc := (h.decls d hd).resolve_left hne
        have hx : '=' ∉ "xmlns:".toList := by decide
        intro hin
        rcases List.mem_append.mp hin with hin | hin
        · exact hx hin
        · exact hnc.2 '=' hin (by simp)
    · obtain ⟨a, ha, rfl⟩ := List.mem_map.mp hf
      exact (h.attrs a ha).equals

/-- Equal markup is equal declarations and as many attributes. -/
theorem StartTag.Readable.eq_of_markup {t t' : StartTag} {e : Element} (h : t.Readable e)
    (h' : t'.Readable e) (heq : t.markup = t'.markup) :
    t.decls = t'.decls ∧ t.attrs.length = t'.attrs.length := by
  have hfields : t.decls.map declField ++ t.attrs.map attrField
      = t'.decls.map declField ++ t'.attrs.map attrField := congrArg Markup.Tag.fields heq
  have hnot : ∀ {u : StartTag}, u.Readable e → ∀ f ∈ u.attrs.map attrField,
      splitName f.1 ≠ (none, "xmlns") ∧ (splitName f.1).1 ≠ some "xmlns" := by
    intro u hu f hf
    obtain ⟨a, ha, rfl⟩ := List.mem_map.mp hf
    exact ⟨(hu.attrs a ha).name, (hu.attrs a ha).pfx⟩
  obtain ⟨hdecls, hattrs⟩ := fields_split (hnot h) (hnot h') hfields
  have hlen := congrArg List.length hattrs
  rw [List.length_map, List.length_map] at hlen
  exact ⟨hdecls, hlen⟩

/-- Two writers for the same elements and leaves, the second of which never leaves less of an
element that is not kept. -/
structure Comparable (withComments : Bool) (doc : Document) (w w' : ElementWriter) : Prop where
  writesText : WritesText withComments w doc.descendants
  writesText' : WritesText withComments w' doc.descendants
  keep : ∀ i, w.keep i = w'.keep i
  loose : ∀ path i e, (w.loose path i e).length ≤ (w'.loose path i e).length
  readable : ∀ c ∈ doc.descendants, ∀ e kids, Forest.Cursor.item c = .node e kids →
    (w.tag c.path c.key e).Readable e
  readable' : ∀ c ∈ doc.descendants, ∀ e kids, Forest.Cursor.item c = .node e kids →
    (w'.tag c.path c.key e).Readable e

/-- **What equal text tells.** The writers declare the same at each element they keep, write as
many attributes, and leave as much of each other element. -/
theorem Comparable.agree {withComments : Bool} {doc : Document} {w w' : ElementWriter}
    (h : Comparable withComments doc w w') (hwf : doc.WellFormed)
    (heq : WrittenTree.chars (w.write [] false doc.top)
      = WrittenTree.chars (w'.write [] false doc.top))
    {c : Node} (hc : c ∈ doc.descendants) {e : Element} {kids : Nodes}
    (hi : c.item = .node e kids) :
    (w.keep c.key = true → (w.tag c.path c.key e).decls = (w'.tag c.path c.key e).decls
        ∧ (w.tag c.path c.key e).attrs.length = (w'.tag c.path c.key e).attrs.length)
      ∧ (w.keep c.key = false →
        (w.loose c.path c.key e).length = (w'.loose c.path c.key e).length) := by
  have hmore : Forest.Writer.LeavesMore (markupWriter withComments w)
      (markupWriter withComments w') := by
    refine ⟨h.keep, ?_, ?_⟩
    · intro top preceding following i k
      show (if w.keep i then _ else _) = (if w'.keep i then _ else _)
      rw [h.keep]
    · intro path i e
      show ((w.loose path i e).map Markup.Leaf.char).length
        ≤ ((w'.loose path i e).map Markup.Leaf.char).length
      rw [List.length_map, List.length_map]
      exact h.loose path i e
  -- what either writer puts down is markup that can be read back
  have hvalid : ∀ v : ElementWriter,
      (∀ c ∈ doc.descendants, ∀ e kids, Forest.Cursor.item c = .node e kids →
        (v.tag c.path c.key e).Readable e) →
      (markupWriter withComments v).Valid doc.descendants := by
    intro v hv
    refine ⟨?_, ?_, ?_⟩
    · intro c hc e kids hi _
      have he := @wellFormed_cursor _ doc.top [] hwf.nodes c hc
      rw [hi] at he
      exact (hv c hc e kids hi).valid he
    · intro path i e l hl
      obtain ⟨d, _, rfl⟩ := List.mem_map.mp hl
      trivial
    · intro c hc k hi top preceding following l hl
      have hk := @wellFormed_cursor _ doc.top [] hwf.nodes c hc
      rw [hi] at hk
      by_cases hkeep : v.keep c.key = true
      · have htext : (markupWriter withComments v).text top preceding following c.key k
            = leafPieces withComments ⟨top, preceding, following⟩ k := if_pos hkeep
        rw [htext] at hl
        exact leafPieces_valid hk withComments _ l hl
      · have htext : (markupWriter withComments v).text top preceding following c.key k = [] :=
          if_neg hkeep
        rw [htext] at hl
        cases hl
  rw [chars_eq_render hwf.nodes h.writesText, chars_eq_render hwf.nodes h.writesText'] at heq
  obtain ⟨htag, hloose⟩ := hmore.agree escape_plain escape_attr (hvalid w h.readable)
    (hvalid w' h.readable') heq hc hi
  refine ⟨?_, ?_⟩
  · intro hk
    exact (h.readable c hc e kids hi).eq_of_markup (h.readable' c hc e kids hi) (htag hk)
  · intro hk
    have hlen := hloose hk
    change ((w.loose c.path c.key e).map Markup.Leaf.char).length
      = ((w'.loose c.path c.key e).map Markup.Leaf.char).length at hlen
    rwa [List.length_map, List.length_map] at hlen

end Bergshamra
