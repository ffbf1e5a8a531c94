import Bergshamra.Proof.TemplateFilling

/-!
# An X509Data with children

The children are filled from the last to the first, each at the place it had in
the text that was parsed: what was written later in the text does not move what
stands before it. A child that is filled keeps its element exactly when it had
nothing but its name.
-/

namespace Bergshamra

open XmlSource

namespace Sign

/-! ## What is written -/

section Content

variable (lib : SignLibs) (der : ByteArray) (info : X509Info)

/-- What a child of the X509Data with this name is filled with. -/
def childContent (localName pfx : String) : Option Source :=
  if localName = "X509Certificate" then some (textKids (writtenBytes lib der))
  else if localName = "X509SubjectName" then
    info.subjectName.map (fun s => textKids (lib.writeText s).toList)
  else if localName = "X509IssuerSerial" then
    match info.issuerName, info.serialNumber with
    | some issuer, some serial =>
        some (textElements [((pname pfx "X509IssuerName").toList, (lib.writeText issuer).toList),
          ((pname pfx "X509SerialNumber").toList, (lib.writeText serial).toList)])
    | _, _ => none
  else if localName = "X509SKI" then info.skiB64.map (fun s => textKids (lib.writeText s).toList)
  else none

/-- What a child is filled with, if it has no text. -/
def populatedChild (child : Node) : Option Source :=
  if (trimStr child.textContentDeep).isEmpty then
    child.element?.bind (fun e => childContent lib der info e.name.localName (prefixOf child))
  else none

/-- The children that are filled. -/
def filledChildren (x509Data : Node) : List Node :=
  x509Data.children.filter (fun child : Node => (populatedChild lib der info child).isSome)

/-- The element of the tree for a tag in a row. -/
def rowNode (lex : Lexicon) (path : List (NodeId × Element)) (i : NodeId) (t : Tag)
    (kids : Source) : Node :=
  ⟨i, path, .node (elementOf lex path t) (treeOf lex ((i, elementOf lex path t) :: path) kids)⟩

/-- The row with its children filled. -/
def populatedRow (lex : Lexicon) (path : List (NodeId × Element)) : Source → Source
  | .nil => .nil
  | .leaf i p rest => .leaf i p (populatedRow lex path rest)
  | .node i t kids rest =>
      match populatedChild lib der info (rowNode lex path i t kids) with
      | some content => .node i (bareTag t.name) content (populatedRow lex path rest)
      | none => .node i t kids (populatedRow lex path rest)

variable {lib der info}

/-- The text that takes the place of a child is the one of the child with its content. -/
theorem childReplacement_eq (laws : WriterLaws lib) (localName pfx : String) :
    (childReplacement lib der info localName pfx).map String.toList
      = (childContent lib der info localName pfx).map
          (Forest.nodeText spelling (bareTag (pname pfx localName).toList)) := by
  rw [childReplacement, childContent]
  split
  · rename_i h
    rw [h, Option.map_some, Option.map_some, elementWithText_toList laws]
    rfl
  split
  · rename_i h
    rw [h, Option.map_map, Option.map_map]
    exact congrArg (Option.map · _) (funext fun s => elementWithText_toList laws _ s)
  split
  · rename_i h
    rw [h]
    cases info.issuerName with
    | none => rfl
    | some issuer =>
        cases info.serialNumber with
        | none => rfl
        | some serial =>
            rw [Option.map_some, Option.map_some]
            refine congrArg some (elementWithRaw_toList laws _ ?_)
            rw [String.toList_append, elementWithText_toList laws, elementWithText_toList laws,
              textElements_cons, textElements_cons]
            simp [textElements]
  split
  · rename_i h
    rw [h, Option.map_map, Option.map_map]
    exact congrArg (Option.map · _) (funext fun s => elementWithText_toList laws _ s)
  · rfl

/-- Whether a child is filled does not depend on its prefix. -/
theorem childContent_isSome (localName pfx pfx' : String) :
    (childContent lib der info localName pfx).isSome
      = (childContent lib der info localName pfx').isSome := by
  rw [childContent, childContent]
  split
  · rfl
  split
  · rfl
  split
  · cases info.issuerName with
    | none => rfl
    | some issuer =>
        cases info.serialNumber with
        | none => rfl
        | some serial => rfl
  split
  · rfl
  · rfl

theorem childReplacement_none (laws : WriterLaws lib) {localName pfx : String}
    (h : childContent lib der info localName pfx = none) (pfx' : String) :
    childReplacement lib der info localName pfx' = none := by
  have hsome := @childContent_isSome lib der info localName pfx pfx'
  rw [h] at hsome
  have hnone := Option.isNone_iff_eq_none.mp (Option.isSome_eq_false_iff.mp hsome.symm)
  have heq := @childReplacement_eq lib der info laws localName pfx'
  rw [hnone, Option.map_none, Option.map_eq_none_iff] at heq
  exact heq

/-- The texts of a certificate are written as character data. -/
def InfoWritten (lex : Lexicon) (lib : SignLibs) (info : X509Info) : Prop :=
  ∀ s, s ∈ info.subjectName ∨ s ∈ info.issuerName ∨ s ∈ info.serialNumber ∨ s ∈ info.skiB64 →
    IsCharacterData lex (lib.writeText s).toList

theorem childContent_proper {lex : Lexicon} (words : WordsAllowed lex)
    (hdata : ∀ bytes, IsCharacterData lex (writtenBytes lib bytes))
    (hinfo : InfoWritten lex lib info) {path : List (NodeId × Element)} {localName pfx : String}
    {content : Source} (h : childContent lib der info localName pfx = some content)
    (hscope : NameInScope lex path (pname pfx localName).toList) (hcolon : ':' ∉ pfx.toList) :
    Proper lex path content := by
  rw [childContent] at h
  split at h
  · cases h
    exact textKids_proper (hdata der)
  split at h
  · obtain ⟨s, hs, rfl⟩ := Option.map_eq_some_iff.mp h
    exact textKids_proper (hinfo s (Or.inl hs))
  split at h
  · cases hissuer : info.issuerName with
    | none =>
        rw [hissuer] at h
        cases h
    | some issuer =>
        cases hserial : info.serialNumber with
        | none =>
            rw [hissuer, hserial] at h
            cases h
        | some serial =>
            rw [hissuer, hserial] at h
            cases h
            refine textElements_proper fun item hitem => ?_
            rcases List.mem_cons.mp hitem with rfl | hitem
            · exact ⟨hscope.sibling hcolon (words.word _ (by decide)),
                hinfo issuer (Or.inr (Or.inl hissuer))⟩
            · rw [List.mem_singleton.mp hitem]
              exact ⟨hscope.sibling hcolon (words.word _ (by decide)),
                hinfo serial (Or.inr (Or.inr (Or.inl hserial)))⟩
  split at h
  · obtain ⟨s, hs, rfl⟩ := Option.map_eq_some_iff.mp h
    exact textKids_proper (hinfo s (Or.inr (Or.inr (Or.inr hs))))
  · cases h

end Content

/-! ## The row -/

section Row

variable {lex : Lexicon} {lib : SignLibs} {der : ByteArray} {info : X509Info}

/-- The elements of a row of the tree. -/
def rowElements (lex : Lexicon) (path : List (NodeId × Element)) (row : Source) : List Node :=
  ((treeOf lex path row).row path).filter (fun m : Node => m.element?.isSome)

theorem rowElements_leaf (path : List (NodeId × Element)) (i : NodeId) (p : Piece) (rest : Source) :
    rowElements lex path (.leaf i p rest) = rowElements lex path rest := by
  rw [rowElements, treeOf]
  cases leafOf lex p with
  | none => rfl
  | some k => rfl

theorem rowElements_node (path : List (NodeId × Element)) (i : NodeId) (t : Tag)
    (kids rest : Source) : rowElements lex path (.node i t kids rest)
      = rowNode lex path i t kids :: rowElements lex path rest := rfl

theorem isBare_rowNode {path : List (NodeId × Element)} {i : NodeId} {t : Tag} {kids : Source} :
    IsBare (rowNode lex path i t kids) ↔ t.fields = [] := by
  rw [@fields_eq_nil_iff lex path]
  constructor
  · intro h
    exact h _ rfl
  · intro h e he
    cases he
    exact h

theorem populatedChild_isSome {child : Node} :
    (populatedChild lib der info child).isSome = true → child.element?.isSome = true := by
  rw [populatedChild]
  split
  · cases child.element? with
    | none => exact id
    | some e => exact fun _ => rfl
  · exact (absurd · Bool.false_ne_true)

/-- What filling the children of a row changes: their elements, where these have more than a
name. -/
theorem frame_populatedRow {path : List (NodeId × Element)} {ks : List NodeId} (row : Source)
    (hks : ∀ m ∈ rowElements lex path row, (populatedChild lib der info m).isSome = true →
      m.key ∈ ks) :
    Forest.Frame ks (treeOf lex path row) (treeOf lex path (populatedRow lib der info lex path row))
      ↔ ∀ m ∈ rowElements lex path row, (populatedChild lib der info m).isSome = true →
        IsBare m := by
  induction row with
  | nil => exact ⟨fun _ _ hm => absurd hm List.not_mem_nil, fun _ => trivial⟩
  | leaf i p rest ih =>
      rw [rowElements_leaf] at hks ⊢
      rw [populatedRow, treeOf, treeOf, ← ih hks]
      cases leafOf lex p with
      | none => exact Iff.rfl
      | some k => exact ⟨fun h => h.2, fun h => ⟨rfl, h⟩⟩
  | node i t kids rest ihk ihr =>
      rw [rowElements_node] at hks ⊢
      rw [List.forall_mem_cons] at hks ⊢
      obtain ⟨hi, hrest⟩ := hks
      rw [← ihr hrest, populatedRow]
      cases hc : populatedChild lib der info (rowNode lex path i t kids) with
      | none =>
          rw [treeOf, treeOf]
          constructor
          · intro h
            exact ⟨(absurd · Bool.false_ne_true), h.2.2⟩
          · intro h
            exact ⟨rfl, Or.inr (Forest.Frame.refl _ _), h.2⟩
      | some content =>
          rw [hc] at hi
          rw [treeOf, treeOf, isBare_rowNode]
          constructor
          · intro h
            exact ⟨fun _ => fields_eq_nil_of_element h.1.symm, h.2.2⟩
          · intro h
            exact ⟨(elementOf_bareTag (h.1 rfl)).symm, Or.inl (hi rfl), h.2⟩

theorem startsWithText_populatedRow (path : List (NodeId × Element)) (row : Source) :
    startsWithText (populatedRow lib der info lex path row) = startsWithText row := by
  cases row with
  | nil => rfl
  | leaf i p rest => rfl
  | node i t kids rest =>
      rw [populatedRow]
      split
      · rfl
      · rfl

/-- The elements of a row that are filled. -/
def rowFilled (lib : SignLibs) (der : ByteArray) (info : X509Info) (lex : Lexicon)
    (path : List (NodeId × Element)) (row : Source) : List Node :=
  (rowElements lex path row).filter (fun m : Node => (populatedChild lib der info m).isSome)

theorem mem_rowFilled {path : List (NodeId × Element)} {row : Source} {m : Node} :
    m ∈ rowFilled lib der info lex path row
      ↔ m ∈ rowElements lex path row ∧ (populatedChild lib der info m).isSome = true :=
  List.mem_filter

theorem rowElements_key {path : List (NodeId × Element)} {row : Source} {m : Node}
    (h : m ∈ rowElements lex path row) : m.key ∈ row.keys := by
  induction row with
  | nil => cases h
  | leaf i p rest ih =>
      rw [rowElements_leaf] at h
      exact List.mem_cons_of_mem _ (ih h)
  | node i t kids rest ihk ihr =>
      rw [rowElements_node, List.mem_cons] at h
      rcases h with rfl | h
      · exact List.mem_cons_self
      · exact List.mem_cons_of_mem _ (List.mem_append_right _ (ihr h))

theorem validName_of_properTag {path : List (NodeId × Element)} {t : Tag}
    (h : properTag lex path t = true) : validName lex t.name = true := by
  simp only [properTag, Tag.valid, Bool.and_eq_true] at h
  exact h.1.1.1.1.1

/-- A child that is filled has content under its own name. -/
theorem content_of_populated {path : List (NodeId × Element)} {i : NodeId} {t : Tag}
    {kids content : Source}
    (hc : populatedChild lib der info (rowNode lex path i t kids) = some content) :
    childContent lib der info (elementOf lex path t).name.localName
      (prefixOf (rowNode lex path i t kids)) = some content := by
  rw [populatedChild] at hc
  split at hc
  · exact hc
  · cases hc

theorem proper_populatedRow (words : WordsAllowed lex)
    (hdata : ∀ bytes, IsCharacterData lex (writtenBytes lib bytes))
    (hinfo : InfoWritten lex lib info) {path : List (NodeId × Element)} {row : Source}
    (hp : Proper lex path row)
    (hbare : ∀ m ∈ rowElements lex path row, (populatedChild lib der info m).isSome = true →
      IsBare m) : Proper lex path (populatedRow lib der info lex path row) := by
  induction row with
  | nil => trivial
  | leaf i p rest ih =>
      rw [rowElements_leaf] at hbare
      refine ⟨hp.1, ?_, ih hp.2.2 hbare⟩
      rw [startsWithText_populatedRow]
      exact hp.2.1
  | node i t kids rest ihk ihr =>
      rw [rowElements_node, List.forall_mem_cons] at hbare
      have htag : properTag lex path t = true := hp.1
      have hrest : Proper lex path rest := hp.2.2.2
      rw [populatedRow]
      cases hc : populatedChild lib der info (rowNode lex path i t kids) with
      | none =>
          show Proper lex path (.node i t kids _)
          exact ⟨htag, hp.2.1, hp.2.2.1, ihr hrest hbare.2⟩
      | some content =>
          show Proper lex path (.node i (bareTag t.name) content _)
          have hfields := isBare_rowNode.mp (hbare.1 (Option.isSome_iff_exists.mpr ⟨_, hc⟩))
          have hbareTag := properTag_bareTag hfields htag
          have helem : (rowNode lex path i t kids).element? = some (elementOf lex path t) := rfl
          have hname := name_of_tag helem (validName_of_properTag htag) helem
          have hscope := (properTag_bareTag_iff.mp hbareTag).below (k := i)
            (e := elementOf lex path (bareTag t.name)) rfl
          rw [← hname] at hscope
          refine ⟨hbareTag, (absurd · (Option.some_ne_none _)), ?_, ihr hrest hbare.2⟩
          exact childContent_proper words hdata hinfo (content_of_populated hc) hscope
            (prefixOf_word helem (validName_of_properTag htag))

end Row

/-! ## The run -/

section Run

variable {lex : Lexicon} {lib : SignLibs} {der : ByteArray} {info : X509Info} {src : Source}
  {doc : Document}

/-- A row of the source, as it lies in it. -/
structure RowAt (lex : Lexicon) (src : Source) (doc : Document) (tags : List (NodeId × Tag))
    (front : List Char) (row : Source) : Prop where
  nodup : row.keys.Nodup
  written : ∀ c ∈ row.row tags, c ∈ src.cursors []
  parsed : ∀ m ∈ (treeOf lex (elementPath lex tags) row).row (elementPath lex tags),
    m ∈ doc.descendants
  before : ∀ c ∈ row.row tags, src.textBefore spelling c.key
    = front ++ row.textBefore spelling c.key

theorem RowAt.leaf {tags : List (NodeId × Tag)} {front : List Char} {i : NodeId} {p : Piece}
    {rest : Source} (h : RowAt lex src doc tags front (.leaf i p rest)) :
    RowAt lex src doc tags (front ++ p.written) rest := by
  have hnodup := h.nodup
  rw [Forest.keys_leaf, List.nodup_cons] at hnodup
  refine ⟨hnodup.2, fun c hc => h.written c (List.mem_cons_of_mem _ hc), fun m hm => ?_,
    fun c hc => ?_⟩
  · refine h.parsed m ?_
    rw [treeOf]
    cases leafOf lex p with
    | none => exact hm
    | some k => exact List.mem_cons_of_mem _ hm
  · have hkey : c.key ∈ rest.keys :=
      Forest.mem_cursors_key ((Forest.row_sublist tags rest).subset hc)
    have hne : i ≠ c.key := fun he => hnodup.1 (he ▸ hkey)
    rw [h.before c (List.mem_cons_of_mem _ hc), Forest.textBefore, if_neg hne, List.append_assoc]
    rfl

theorem RowAt.node {tags : List (NodeId × Tag)} {front : List Char} {i : NodeId} {t : Tag}
    {kids rest : Source} (h : RowAt lex src doc tags front (.node i t kids rest)) :
    RowAt lex src doc tags (front ++ Forest.nodeText spelling t kids) rest := by
  have hnodup := h.nodup
  rw [Forest.keys_node, List.nodup_cons, List.nodup_append] at hnodup
  obtain ⟨hi, -, hnr, hd⟩ := hnodup
  refine ⟨hnr, fun c hc => h.written c (List.mem_cons_of_mem _ hc),
    fun m hm => h.parsed m (List.mem_cons_of_mem _ hm), fun c hc => ?_⟩
  have hkey : c.key ∈ rest.keys :=
    Forest.mem_cursors_key ((Forest.row_sublist tags rest).subset hc)
  have hne : i ≠ c.key := by
    intro he
    exact hi (he ▸ List.mem_append_right _ hkey)
  have hkids : c.key ∉ kids.keys := fun hk => hd _ hk _ hkey rfl
  rw [h.before c (List.mem_cons_of_mem _ hc), Forest.textBefore, if_neg hne, if_neg hkids,
    List.append_assoc]

/-- The first node of a row is a node of the template. -/
theorem RowAt.place {tags : List (NodeId × Tag)} {front : List Char} {i : NodeId} {t : Tag}
    {kids rest : Source} (h : RowAt lex src doc tags front (.node i t kids rest)) :
    Place lex src (rowNode lex (elementPath lex tags) i t kids) ⟨i, tags, .node t kids⟩ t kids where
  mem := h.written _ List.mem_cons_self
  key := rfl
  item := rfl
  path := rfl
  node := rfl

theorem RowAt.textBefore_eq {tags : List (NodeId × Tag)} {front : List Char} {i : NodeId} {t : Tag}
    {kids rest : Source} (h : RowAt lex src doc tags front (.node i t kids rest)) :
    src.textBefore spelling i = front := by
  have hb := h.before _ List.mem_cons_self
  rw [Forest.textBefore, if_pos rfl, List.append_nil] at hb
  exact hb

/-- `extract_tag_prefix` finds the prefixes of the children that are filled. -/
def PrefixesFound (lib : SignLibs) (xml : String) (children : List Node) : Prop :=
  ∀ child ∈ children, ∀ e, child.element? = some e →
    PrefixFound lib xml e.name.localName child

/-- One turn of the loop: the child at its place in what stands before it. -/
theorem populateChild_eq (laws : WriterLaws lib) (h : ReadsTemplate lex lib src doc)
    {tags : List (NodeId × Tag)} {front : List Char} {i : NodeId} {t : Tag} {kids rest : Source}
    (hrow : RowAt lex src doc tags front (.node i t kids rest)) (back : List Char)
    (hpfx : (populatedChild lib der info
        (rowNode lex (elementPath lex tags) i t kids)).isSome = true →
      PrefixFound lib (sourceText src) (elementOf lex (elementPath lex tags) t).name.localName
        (rowNode lex (elementPath lex tags) i t kids)) :
    populateChild lib (sourceText src) der info
        (String.ofList (front ++ (Forest.nodeText spelling t kids ++ back)))
        (rowNode lex (elementPath lex tags) i t kids)
      = .ok (String.ofList (front ++ (match populatedChild lib der info
          (rowNode lex (elementPath lex tags) i t kids) with
        | some content => Forest.nodeText spelling (bareTag t.name) content
        | none => Forest.nodeText spelling t kids) ++ back)) := by
  have hplace := hrow.place
  have hmem := hrow.parsed _ List.mem_cons_self
  have hrange := hplace.range_eq h hmem
  rw [show (rowNode lex (elementPath lex tags) i t kids).key = i from rfl, hrow.textBefore_eq]
    at hrange
  have helem : (rowNode lex (elementPath lex tags) i t kids).element?
      = some (elementOf lex (elementPath lex tags) t) := rfl
  rw [populateChild, helem]
  simp only
  by_cases hblank : (trimStr (rowNode lex (elementPath lex tags) i t kids).textContentDeep).isEmpty
  · -- a child without text is filled, if it has a name that is known
    have hpop : populatedChild lib der info (rowNode lex (elementPath lex tags) i t kids)
        = childContent lib der info (elementOf lex (elementPath lex tags) t).name.localName
          (prefixOf (rowNode lex (elementPath lex tags) i t kids)) := by
      rw [populatedChild, if_pos hblank, helem]
      rfl
    rw [if_pos hblank]
    simp only [hrange, sliceStr_middle, bind, Except.bind]
    cases hc : populatedChild lib der info (rowNode lex (elementPath lex tags) i t kids) with
    | none =>
        rw [childReplacement_none laws (hpop.symm.trans hc)]
        simp only [List.append_assoc]
    | some content =>
        have hfound := hpfx (Option.isSome_iff_exists.mpr ⟨_, hc⟩) _ (hplace.original_eq h hmem)
        have hname := hplace.name_eq h helem
        have heq := @childReplacement_eq lib der info laws
          (elementOf lex (elementPath lex tags) t).name.localName
          (prefixOf (rowNode lex (elementPath lex tags) i t kids))
        rw [hpop.symm.trans hc, hname, Option.map_some, Option.map_eq_some_iff] at heq
        obtain ⟨replacement, hreplacement, htext⟩ := heq
        rw [hfound, hreplacement]
        simp only [overwrite_middle, htext]
  · have hpop : populatedChild lib der info (rowNode lex (elementPath lex tags) i t kids) = none := by
      rw [populatedChild, if_neg hblank]
    rw [if_neg hblank, hpop]
    simp only [List.append_assoc]

/-- **The loop fills the row** between what stands before it and after it. -/
theorem populateRow_eq (laws : WriterLaws lib) (h : ReadsTemplate lex lib src doc)
    {tags : List (NodeId × Tag)} {front : List Char} {row : Source}
    (hrow : RowAt lex src doc tags front row) (back : List Char)
    (hpfx : PrefixesFound lib (sourceText src)
      (rowFilled lib der info lex (elementPath lex tags) row)) :
    (rowElements lex (elementPath lex tags) row).reverse.foldlM
        (populateChild lib (sourceText src) der info)
        (String.ofList (front ++ (row.text spelling ++ back)))
      = .ok (String.ofList (front
          ++ ((populatedRow lib der info lex (elementPath lex tags) row).text spelling ++ back))) := by
  -- the children are filled from the last to the first, so the ranges before them stay
  rw [List.foldlM_reverse]
  induction row generalizing front with
  | nil => rfl
  | leaf i p rest ih =>
      rw [rowFilled, rowElements_leaf] at hpfx
      rw [rowElements_leaf]
      have hrest := ih hrow.leaf hpfx
      rw [populatedRow, Forest.text_leaf, Forest.text_leaf]
      simp only [List.append_assoc] at hrest ⊢
      exact hrest
  | node i t kids rest ihk ihr =>
      have hmem : ∀ child, child ∈ rowFilled lib der info lex (elementPath lex tags) rest →
          child ∈ rowFilled lib der info lex (elementPath lex tags) (.node i t kids rest) := by
        intro child hchild
        rw [mem_rowFilled] at hchild ⊢
        exact ⟨List.mem_cons_of_mem _ hchild.1, hchild.2⟩
      have hrest := ihr hrow.node (fun child hchild => hpfx child (hmem child hchild))
      have hturn := @populateChild_eq lex lib der info src doc laws h _ _ _ _ _ _ hrow
        ((populatedRow lib der info lex (elementPath lex tags) rest).text spelling ++ back)
        (fun hsome => hpfx _ (mem_rowFilled.mpr ⟨List.mem_cons_self, hsome⟩) _ rfl)
      rw [rowElements_node, List.foldrM_cons, Forest.text_node]
      simp only [List.append_assoc] at hrest hturn ⊢
      rw [hrest]
      simp only [bind, Except.bind]
      rw [hturn, populatedRow]
      cases populatedChild lib der info (rowNode lex (elementPath lex tags) i t kids) with
      | none =>
          rw [Forest.text_node, List.append_assoc]
      | some content =>
          rw [Forest.text_node, List.append_assoc]

/-- The children of a node, in the source and in the tree. -/
theorem Place.rowAt {n : Node} {c : Forest.Cursor NodeId Tag Piece} {t : Tag} {kids : Source}
    (hp : Place lex src n c t kids) (h : ReadsTemplate lex lib src doc) (hn : n ∈ doc.descendants) :
    RowAt lex src doc ((c.key, t) :: c.path) (src.textBefore spelling n.key ++ t.opening) kids := by
  have hkids : c.kids = kids := by
    rw [Forest.Cursor.kids, hp.item]
  have hkidsPath : c.kidsPath = (c.key, t) :: c.path := by
    rw [Forest.Cursor.kidsPath, hp.item]
  have hchild : ∀ d ∈ kids.row ((c.key, t) :: c.path), d ∈ c.descendants := by
    intro d hd
    rw [Forest.Cursor.descendants, hkids, hkidsPath]
    exact (Forest.row_sublist _ kids).subset hd
  refine ⟨?_, fun d hd => Forest.mem_cursors_descendants hp.mem (hchild d hd), fun m hm => ?_,
    fun d hd => ?_⟩
  · have hsub := (Forest.subtreeKeys_sublist hp.mem).nodup h.nodup
    rw [Forest.Cursor.subtreeKeys, List.nodup_cons, hkids] at hsub
    exact hsub.2
  · refine Forest.mem_cursors_descendants hn ?_
    rw [Forest.Cursor.descendants, Forest.Cursor.kids, Forest.Cursor.kidsPath, hp.node]
    have hrow := (Forest.row_sublist _ _).subset hm
    rw [elementPath, hp.key] at hrow
    rw [hp.path]
    exact hrow
  · have hkey : d.key ∈ kids.keys := Forest.mem_cursors_key ((Forest.row_sublist _ kids).subset hd)
    rw [Forest.textBefore_kids h.nodup hp.mem hp.key hp.item hkey]
    rfl

theorem Place.children_eq {n : Node} {c : Forest.Cursor NodeId Tag Piece} {t : Tag} {kids : Source}
    (hp : Place lex src n c t kids) : n.children
      = (treeOf lex (elementPath lex ((c.key, t) :: c.path)) kids).row
        (elementPath lex ((c.key, t) :: c.path)) := by
  rw [Forest.Cursor.children, Forest.Cursor.kids, Forest.Cursor.kidsPath, hp.node, elementPath,
    hp.key, hp.path]

/-- The children that are filled are elements of the row. -/
theorem Place.filledChildren_eq {n : Node} {c : Forest.Cursor NodeId Tag Piece} {t : Tag}
    {kids : Source} (hp : Place lex src n c t kids) : filledChildren lib der info n
      = rowFilled lib der info lex (elementPath lex ((c.key, t) :: c.path)) kids := by
  rw [filledChildren, rowFilled, rowElements, ← hp.children_eq, List.filter_filter]
  refine List.filter_congr fun m _ => ?_
  cases hm : (populatedChild lib der info m).isSome with
  | false => rfl
  | true =>
      rw [populatedChild_isSome hm]
      rfl

/-- The source with the children of an X509Data filled. -/
def childrenFilled (lex : Lexicon) (lib : SignLibs) (src : Source) (n : Node) (der : ByteArray) :
    Source :=
  match tagAt src n.key with
  | some (t, kids) =>
      src.replaceNode n.key t (populatedRow lib der (lib.extractX509Info der) lex n.kidsPath kids)
  | none => src

/-- An X509Data with elements in `populate_x509_data`. -/
theorem populateX509Data_children_iff (laws : WriterLaws lib) (words : WordsAllowed lex)
    (hdata : ∀ bytes, IsCharacterData lex (writtenBytes lib bytes))
    (hinfo : InfoWritten lex lib (lib.extractX509Info der)) (h : ReadsTemplate lex lib src doc)
    {n : Node} (hn : doc.findElement Ns.DSIG "X509Data" = some n)
    (hchildren : hasElementChild n = true) {rest : List ByteArray}
    (hpfx : PrefixesFound lib (sourceText src)
      (filledChildren lib der (lib.extractX509Info der) n))
    (hunderstands : Understands lex lib.toUppsala (childrenFilled lex lib src n der)) :
    ∃ result, populateX509Data lib (sourceText src) (der :: rest) = .ok result
      ∧ (OnlyContentChanges lib doc
          ((filledChildren lib der (lib.extractX509Info der) n).map (fun m : Node => m.key)) result
        ↔ ∀ child ∈ filledChildren lib der (lib.extractX509Info der) n, IsBare child) := by
  obtain ⟨hmem, e, he, -⟩ := Document.findElement_some hn
  obtain ⟨c, t, kids, hp⟩ := exists_place h hmem he
  have hrow := hp.rowAt h hmem
  have hkidsPath : n.kidsPath = elementPath lex ((c.key, t) :: c.path) := by
    rw [Forest.Cursor.kidsPath, hp.node, hp.path, elementPath, hp.key]
  rw [childrenFilled, hp.tagAt_eq h, hkidsPath] at hunderstands
  rw [hp.filledChildren_eq] at hpfx ⊢
  refine ⟨sourceText (src.replaceNode n.key t (populatedRow lib der (lib.extractX509Info der) lex
    (elementPath lex ((c.key, t) :: c.path)) kids)), ?_, ?_⟩
  · have hrun := populateRow_eq laws h hrow (t.closing ++ src.textAfter spelling n.key) hpfx
    have htext : src.text spelling = src.textBefore spelling n.key ++ t.opening
        ++ (kids.text spelling ++ (t.closing ++ src.textAfter spelling n.key)) := by
      rw [hp.text_eq h, Forest.nodeText]
      simp [spelling]
    simp only [populateX509Data, parseXml_eq h, bind, Except.bind, hn]
    simp only [hchildren, if_true]
    rw [← htext] at hrun
    rw [childrenToProcess, hp.children_eq, ← rowElements]
    refine hrun.trans ?_
    rw [sourceText, Forest.text_replaceNode h.nodup hp.mem hp.key hp.item, Forest.nodeText]
    simp [spelling]
  · have hkids : c.kids = kids := by
      rw [Forest.Cursor.kids, hp.item]
    have hkey : (n.key, elementOf lex (elementPath lex c.path) t) :: elementPath lex c.path
        = elementPath lex ((c.key, t) :: c.path) := by
      rw [elementPath, hp.key]
    have hframe := @frame_populatedRow lex lib der (lib.extractX509Info der)
      (elementPath lex ((c.key, t) :: c.path)) _ kids
      (fun m hm hsome => List.mem_map_of_mem (mem_rowFilled.mpr ⟨hm, hsome⟩))
    have hbelow : ∀ k ∈ (rowFilled lib der (lib.extractX509Info der) lex
        (elementPath lex ((c.key, t) :: c.path)) kids).map (fun m : Node => m.key),
        k ∈ kids.keys := by
      intro k hk
      obtain ⟨m, hm, rfl⟩ := List.mem_map.mp hk
      exact rowElements_key (mem_rowFilled.mp hm).1
    -- the X509Data is not among its children
    have hnot : n.key ∉ (rowFilled lib der (lib.extractX509Info der) lex
        (elementPath lex ((c.key, t) :: c.path)) kids).map (fun m : Node => m.key) := by
      intro hk
      have hsubtree := (Forest.subtreeKeys_sublist hp.mem).nodup h.nodup
      rw [Forest.Cursor.subtreeKeys, List.nodup_cons, hkids] at hsubtree
      exact hsubtree.1 (hp.key ▸ hbelow _ hk)
    simp only [mem_rowFilled, and_imp]
    rw [← hframe, hp.onlyContentChanges_iff h (fun k hk => ?_) hunderstands (fun _ hk => ?_)]
    · rw [RowKept, hkey]
      constructor
      · intro hk
        exact hk.2.resolve_left hnot
      · intro hk
        exact ⟨rfl, Or.inr hk⟩
    · rw [Forest.Cursor.subtreeKeys, hkids]
      exact List.mem_cons_of_mem _ (hbelow k hk)
    · have hproper := @proper_node lex [] src h.wellFormed.proper c hp.mem t kids hp.item
      rw [RowKept, hkey] at hk
      refine ⟨hproper.1, fun hclose => ?_, ?_⟩
      · rw [hproper.2.1 hclose]
        rfl
      · rw [hkey]
        exact proper_populatedRow words hdata hinfo hproper.2.2
          (hframe.mp (hk.resolve_left hnot))

end Run

end Sign

end Bergshamra
