import Bergshamra.Lib.XmlSource
import Bergshamra.Proof.Filled

/-!
# What the parser makes of a written document

`treeOf` is the tree of a document as it is written: names are resolved by the
declarations around them, references by the lexicon. `Reads` is what the parser
promises of a document that it is given, `Understands` what it promises of any
other text of this form: well-formed documents are accepted, as their tree, and
others are not.
-/

namespace Bergshamra

open XmlSource

/-- A document as it is written, with the ids of a parse. -/
abbrev Source := Forest NodeId Tag Piece

section Tree

variable (lex : Lexicon)

/-- The declaration that a field is, if it is one. -/
def declarationOf (f : Field) : Option (String × String) :=
  match nameParts f.name with
  | (none, l) => if l = "xmlns".toList then some ("", valueOf f) else none
  | (some p, l) => if p = "xmlns".toList then some (String.ofList l, valueOf f) else none
where
  valueOf (f : Field) : String := String.ofList ((lex.value f.value).getD [])

/-- The namespace that a prefix stands for below the elements of a chain. -/
def prefixNamespace (path : List (NodeId × Element)) (p : String) : Option String :=
  if p = "xml" then some Ns.XML else scopeNamespace path p

/-- The name of an element below the chain that starts with the element itself. -/
def elementName (path : List (NodeId × Element)) (n : List Char) : QName :=
  match nameParts n with
  | (some p, l) =>
      ⟨some (String.ofList p), String.ofList l, prefixNamespace path (String.ofList p)⟩
  | (none, l) => ⟨none, String.ofList l, scopeNamespace path ""⟩

/-- The name of an attribute; without a prefix it is in no namespace. -/
def attributeName (path : List (NodeId × Element)) (n : List Char) : QName :=
  match nameParts n with
  | (some p, l) =>
      ⟨some (String.ofList p), String.ofList l, prefixNamespace path (String.ofList p)⟩
  | (none, l) => ⟨none, String.ofList l, none⟩

/-- The declarations of a tag. -/
def declarationsOf (t : Tag) : List (String × String) := t.fields.filterMap (declarationOf lex)

/-- The chain below which the names of a tag are resolved. -/
def scopeOf (path : List (NodeId × Element)) (t : Tag) : List (NodeId × Element) :=
  (0, ⟨⟨none, "", none⟩, [], declarationsOf lex t⟩) :: path

/-- The attribute that a field is, if it is not a declaration. -/
def fieldAttribute (scope : List (NodeId × Element)) (f : Field) : Option Attribute :=
  match declarationOf lex f with
  | some _ => none
  | none => some ⟨attributeName scope f.name, String.ofList ((lex.value f.value).getD [])⟩

/-- The element of a tag. -/
def elementOf (path : List (NodeId × Element)) (t : Tag) : Element where
  name := elementName (scopeOf lex path t) t.name
  attributes := t.fields.filterMap (fieldAttribute lex (scopeOf lex path t))
  namespaceDeclarations := declarationsOf lex t

/-- The node of a piece; a declaration is none. -/
def leafOf : Piece → Option LeafKind
  | .text raw => some (.text (String.ofList ((lex.text raw).getD [])))
  | .cdata raw => some (.cdata (String.ofList raw))
  | .comment raw => some (.comment (String.ofList raw))
  | .instruction raw =>
      match lex.instruction raw with
      | some (target, data) => some (.pi (String.ofList target) (data.map String.ofList))
      | none => none
  | .declaration _ => none

/-- The tree of a row below the elements of a chain. -/
def treeOf (path : List (NodeId × Element)) : Source → Nodes
  | .nil => .nil
  | .leaf i p rest =>
      match leafOf lex p with
      | some k => .leaf i k (treeOf path rest)
      | none => treeOf path rest
  | .node i t kids rest =>
      .node i (elementOf lex path t) (treeOf ((i, elementOf lex path t) :: path) kids)
        (treeOf path rest)

/-- The elements of the tags of a chain. -/
def elementPath : List (NodeId × Tag) → List (NodeId × Element)
  | [] => []
  | (i, t) :: rest => (i, elementOf lex (elementPath rest) t) :: elementPath rest

/-! ## Well-formed documents -/

/-- Every prefix of a tag is declared. -/
def prefixesBound (path : List (NodeId × Element)) (t : Tag) : Bool :=
  (match nameParts t.name with
    | (some p, _) => (prefixNamespace (scopeOf lex path t) (String.ofList p)).isSome
    | (none, _) => true)
  && t.fields.all (fun f =>
    match declarationOf lex f with
    | some d => d.1 == "" || d.2 != ""
    | none =>
        match nameParts f.name with
        | (some p, _) => (prefixNamespace (scopeOf lex path t) (String.ofList p)).isSome
        | (none, _) => true)

/-- No two attributes of one expanded name, and no two declarations of one prefix. -/
def fieldsApart (path : List (NodeId × Element)) (t : Tag) : Bool :=
  decide (((elementOf lex path t).attributes.map
      (fun a => (a.name.namespaceUri, a.name.localName))).Nodup
    ∧ ((elementOf lex path t).namespaceDeclarations.map Prod.fst).Nodup)

/-- A tag as the grammar and the namespaces want it. -/
def properTag (path : List (NodeId × Element)) (t : Tag) : Bool :=
  t.valid lex && prefixesBound lex path t && fieldsApart lex path t

/-- A row as the grammar and the namespaces want it. -/
def Proper (path : List (NodeId × Element)) : Source → Prop
  | .nil => True
  | .leaf _ p rest =>
      p.valid lex = true ∧ (p.isText = true → startsWithText rest = false) ∧ Proper path rest
  | .node i t kids rest =>
      properTag lex path t = true ∧ (t.close = none → kids = .nil)
        ∧ Proper ((i, elementOf lex path t) :: path) kids ∧ Proper path rest

/-- One element, and no text beside it. -/
def OneRoot : Source → Prop
  | .nil => False
  | .leaf _ p rest => p.isText = false ∧ OneRoot rest
  | .node _ _ _ rest => NoRoot rest
where
  NoRoot : Source → Prop
    | .nil => True
    | .leaf _ p rest => p.isText = false ∧ NoRoot rest
    | .node _ _ _ _ => False

/-- A well-formed document. -/
structure WellFormed (src : Source) : Prop where
  proper : Proper lex [] src
  oneRoot : OneRoot src

instance decidableProper : ∀ path src, Decidable (Proper lex path src)
  | _, .nil => isTrue trivial
  | path, .leaf _ _ rest =>
      have := decidableProper path rest
      inferInstanceAs (Decidable (_ ∧ _ ∧ _))
  | path, .node i t kids rest =>
      have := decidableProper ((i, elementOf lex path t) :: path) kids
      have := decidableProper path rest
      inferInstanceAs (Decidable (_ ∧ _ ∧ _ ∧ _))

instance decidableNoRoot : ∀ src, Decidable (OneRoot.NoRoot src)
  | .nil => isTrue trivial
  | .leaf _ _ rest =>
      have := decidableNoRoot rest
      inferInstanceAs (Decidable (_ ∧ _))
  | .node _ _ _ _ => isFalse id

instance decidableOneRoot : ∀ src, Decidable (OneRoot src)
  | .nil => isFalse id
  | .leaf _ _ rest =>
      have := decidableOneRoot rest
      inferInstanceAs (Decidable (_ ∧ _))
  | .node _ _ _ rest => decidableNoRoot rest

instance (src : Source) : Decidable (WellFormed lex src) :=
  decidable_of_iff (Proper lex [] src ∧ OneRoot src) ⟨fun h => ⟨h.1, h.2⟩, fun h => ⟨h.1, h.2⟩⟩

/-! ## The parser -/

/-- **The parser reads a document.** It has its tree, and its nodes where they are written. -/
structure Reads (up : Uppsala) (nodeRange : String → Node → Option (Nat × Nat)) (src : Source)
    (doc : Document) : Prop where
  wellFormed : WellFormed lex src
  nodup : src.keys.Nodup
  parsed : up.parse (String.ofList (src.text spelling)) = .ok doc
  tree : doc.top = treeOf lex [] src
  range : ∀ n ∈ doc.descendants, ∀ c ∈ src.cursors [], c.key = n.key → ∀ t kids,
    c.item = .node t kids → nodeRange (String.ofList (src.text spelling)) n
      = some (Text.byteLength (src.textBefore spelling n.key),
        Text.byteLength (src.textBefore spelling n.key)
          + Text.byteLength (Forest.nodeText spelling t kids))

/-- **The parser takes a text of the form of a document for what it is.** -/
structure Understands (up : Uppsala) (src : Source) : Prop where
  accepts : WellFormed lex src →
    ∃ doc, up.parse (String.ofList (src.text spelling)) = .ok doc
      ∧ doc.top.shape = (treeOf lex [] src).shape
  rejects : ¬ WellFormed lex src →
    ∀ doc, up.parse (String.ofList (src.text spelling)) ≠ .ok doc

end Tree

/-! ## Nodes of the tree and nodes of the source -/

section Nodes

variable {lex : Lexicon}

/-- Every element of the tree is the element of a tag. -/
theorem exists_tag {tags : List (NodeId × Tag)} {src : Source} {n : Node}
    (hn : n ∈ (treeOf lex (elementPath lex tags) src).cursors (elementPath lex tags)) {e : Element}
    {ekids : Nodes} (hi : n.item = .node e ekids) :
    ∃ c ∈ src.cursors tags, ∃ t kids, c.key = n.key ∧ c.item = .node t kids
      ∧ n.path = elementPath lex c.path ∧ e = elementOf lex (elementPath lex c.path) t
      ∧ ekids = treeOf lex ((n.key, e) :: elementPath lex c.path) kids := by
  induction src generalizing tags with
  | nil => cases hn
  | leaf i p rest ih =>
      rw [treeOf] at hn
      have hrest : n ∈ (treeOf lex (elementPath lex tags) rest).cursors (elementPath lex tags) := by
        cases hp : leafOf lex p with
        | none =>
            rw [hp] at hn
            exact hn
        | some k =>
            rw [hp] at hn
            rcases List.mem_cons.mp hn with rfl | hn
            · cases hi
            · exact hn
      obtain ⟨c, hc, t, kids, h⟩ := ih hrest
      exact ⟨c, List.mem_cons_of_mem _ hc, t, kids, h⟩
  | node i t kids rest ihk ihr =>
      rw [treeOf, Forest.cursors, List.mem_cons, List.mem_append] at hn
      rcases hn with rfl | hn | hn
      · cases hi
        exact ⟨⟨i, tags, .node t kids⟩, List.mem_cons_self, t, kids, rfl, rfl, rfl, rfl, rfl⟩
      · obtain ⟨c, hc, t', kids', h⟩ := @ihk ((i, t) :: tags) hn
        exact ⟨c, List.mem_cons_of_mem _ (List.mem_append_left _ hc), t', kids', h⟩
      · obtain ⟨c, hc, t', kids', h⟩ := ihr hn
        exact ⟨c, List.mem_cons_of_mem _ (List.mem_append_right _ hc), t', kids', h⟩

/-- The row below a node is left open, or changes only where nodes in it are left open. -/
def RowKept (lex : Lexicon) (ks : List NodeId) (path : List (NodeId × Element)) (k : NodeId)
    (t t' : Tag) (kids kids' : Source) : Prop :=
  k ∈ ks ∨ Forest.Frame ks (treeOf lex ((k, elementOf lex path t) :: path) kids)
    (treeOf lex ((k, elementOf lex path t') :: path) kids')

/-- **What a node written anew changes.** The element of its tag and the row below it, and nothing
else; what the nodes `ks` hold is left open, all of which are in the node. -/
theorem frame_replaceNode {k : NodeId} {ks : List NodeId} {tags : List (NodeId × Tag)}
    {src : Source} (hn : src.keys.Nodup) {c : Forest.Cursor NodeId Tag Piece}
    (hc : c ∈ src.cursors tags) (hk : c.key = k) {t : Tag} {kids : Source}
    (hi : c.item = .node t kids) (hks : ∀ j ∈ src.keys, j ∈ ks → j ∈ c.subtreeKeys) (t' : Tag)
    (kids' : Source) :
    Forest.Frame ks (treeOf lex (elementPath lex tags) src)
        (treeOf lex (elementPath lex tags) (src.replaceNode k t' kids'))
      ↔ elementOf lex (elementPath lex c.path) t = elementOf lex (elementPath lex c.path) t'
        ∧ RowKept lex ks (elementPath lex c.path) k t t' kids kids' := by
  induction src generalizing tags with
  | nil => cases hc
  | leaf i p rest ih =>
      rw [Forest.keys_leaf, List.nodup_cons] at hn
      rcases List.mem_cons.mp hc with rfl | hc
      · cases hi
      · have hrest := ih hn.2 hc (fun j hj => hks j (List.mem_cons_of_mem i hj))
        rw [Forest.replaceNode, treeOf, treeOf, ← hrest]
        cases hp : leafOf lex p with
        | none => exact Iff.rfl
        | some l => exact ⟨fun h => h.2, fun h => ⟨rfl, h⟩⟩
  | node i t₀ kids₀ rest ihk ihr =>
      have hn' := hn
      rw [Forest.keys_node, List.nodup_cons, List.nodup_append] at hn'
      obtain ⟨hi₀, hnk, hnr, hd⟩ := hn'
      rw [Forest.cursors, List.mem_cons, List.mem_append] at hc
      rw [Forest.replaceNode]
      rcases hc with rfl | hc | hc
      · cases hi
        have hik : i = k := hk
        rw [if_pos hik, treeOf, treeOf, ← hik]
        exact ⟨fun h => ⟨h.1, h.2.1⟩, fun h => ⟨h.1, h.2, Forest.Frame.refl _ _⟩⟩
      · have hkids : k ∈ kids₀.keys := hk ▸ Forest.mem_cursors_key hc
        have hik : i ≠ k := by
          rintro rfl
          exact hi₀ (List.mem_append_left _ hkids)
        have hrest : k ∉ rest.keys := fun h => hd k hkids k h rfl
        -- what encloses the node is not left open
        have hiks : i ∉ ks := fun h =>
          Forest.not_mem_subtreeKeys_of_kids hn hc (Or.inl rfl) (hks i (by simp) h)
        have hsub := @ihk ((i, t₀) :: tags) hnk hc (fun j hj => hks j (by simp [hj]))
        rw [if_neg hik, Forest.replaceNode_of_not_mem t' kids' hrest, treeOf, treeOf, ← hsub]
        exact ⟨fun h => h.2.1.resolve_left hiks, fun h => ⟨rfl, Or.inr h, Forest.Frame.refl _ _⟩⟩
      · have hrest : k ∈ rest.keys := hk ▸ Forest.mem_cursors_key hc
        have hik : i ≠ k := by
          rintro rfl
          exact hi₀ (List.mem_append_right _ hrest)
        have hkids : k ∉ kids₀.keys := fun h => hd k h k hrest rfl
        have hsub := ihr hnr hc (fun j hj => hks j (by simp [hj]))
        rw [if_neg hik, Forest.replaceNode_of_not_mem t' kids' hkids, treeOf, treeOf, ← hsub]
        exact ⟨fun h => h.2.2, fun h => ⟨rfl, Or.inr (Forest.Frame.refl _ _), h⟩⟩

theorem startsWithText_replaceNode {k : NodeId} {t' : Tag} {kids' : Source} (src : Source) :
    startsWithText (src.replaceNode k t' kids') = startsWithText src := by
  cases src with
  | nil => rfl
  | leaf i p rest => rfl
  | node i t kids rest =>
      rw [Forest.replaceNode]
      split
      · rfl
      · rfl

/-- A proper node in the place of another leaves the row proper. -/
theorem proper_replaceNode {k : NodeId} {tags : List (NodeId × Tag)} {src : Source}
    (hn : src.keys.Nodup) (hp : Proper lex (elementPath lex tags) src)
    {c : Forest.Cursor NodeId Tag Piece} (hc : c ∈ src.cursors tags) (hk : c.key = k) {t : Tag}
    {kids : Source} (hi : c.item = .node t kids) {t' : Tag} {kids' : Source}
    (ht : properTag lex (elementPath lex c.path) t' = true) (hclose : t'.close = none → kids' = .nil)
    (hkids : Proper lex ((k, elementOf lex (elementPath lex c.path) t') :: elementPath lex c.path)
      kids') :
    Proper lex (elementPath lex tags) (src.replaceNode k t' kids') := by
  induction src generalizing tags with
  | nil => cases hc
  | leaf i p rest ih =>
      rw [Forest.keys_leaf, List.nodup_cons] at hn
      rcases List.mem_cons.mp hc with rfl | hc
      · cases hi
      · obtain ⟨hp₁, hp₂, hp₃⟩ := hp
        refine ⟨hp₁, ?_, ih hn.2 hp₃ hc⟩
        rw [startsWithText_replaceNode]
        exact hp₂
  | node i t₀ kids₀ rest ihk ihr =>
      have hn' := hn
      rw [Forest.keys_node, List.nodup_cons, List.nodup_append] at hn'
      obtain ⟨hi₀, hnk, hnr, hd⟩ := hn'
      obtain ⟨hp₁, hp₂, hp₃, hp₄⟩ := hp
      rw [Forest.cursors, List.mem_cons, List.mem_append] at hc
      rw [Forest.replaceNode]
      rcases hc with rfl | hc | hc
      · have hik : i = k := hk
        rw [if_pos hik]
        exact ⟨ht, hclose, hik ▸ hkids, hp₄⟩
      · have hkk : k ∈ kids₀.keys := hk ▸ Forest.mem_cursors_key hc
        have hik : i ≠ k := by
          rintro rfl
          exact hi₀ (List.mem_append_left _ hkk)
        have hrest : k ∉ rest.keys := fun h => hd k hkk k h rfl
        rw [if_neg hik, Forest.replaceNode_of_not_mem t' kids' hrest]
        refine ⟨hp₁, fun h => ?_, @ihk ((i, t₀) :: tags) hnk hp₃ hc, hp₄⟩
        -- an element without a closing tag holds nothing that could be replaced
        rw [hp₂ h] at hc
        cases hc
      · have hkr : k ∈ rest.keys := hk ▸ Forest.mem_cursors_key hc
        have hik : i ≠ k := by
          rintro rfl
          exact hi₀ (List.mem_append_right _ hkr)
        have hkk : k ∉ kids₀.keys := fun h => hd k h k hkr rfl
        rw [if_neg hik, Forest.replaceNode_of_not_mem t' kids' hkk]
        exact ⟨hp₁, hp₂, hp₃, ihr hnr hp₄ hc⟩

/-- A node of a proper row is proper. -/
theorem proper_node {tags : List (NodeId × Tag)} {src : Source}
    (hp : Proper lex (elementPath lex tags) src) {c : Forest.Cursor NodeId Tag Piece}
    (hc : c ∈ src.cursors tags) {t : Tag} {kids : Source} (hi : c.item = .node t kids) :
    properTag lex (elementPath lex c.path) t = true ∧ (t.close = none → kids = .nil)
      ∧ Proper lex ((c.key, elementOf lex (elementPath lex c.path) t) :: elementPath lex c.path)
        kids := by
  induction src generalizing tags with
  | nil => cases hc
  | leaf i p rest ih =>
      rcases List.mem_cons.mp hc with rfl | hc
      · cases hi
      · exact ih hp.2.2 hc
  | node i t₀ kids₀ rest ihk ihr =>
      rw [Forest.cursors, List.mem_cons, List.mem_append] at hc
      rcases hc with rfl | hc | hc
      · cases hi
        exact ⟨hp.1, hp.2.1, hp.2.2.1⟩
      · exact @ihk ((i, t₀) :: tags) hp.2.2.1 hc
      · exact ihr hp.2.2.2 hc

theorem noRoot_replaceNode {k : NodeId} {t' : Tag} {kids' : Source} {src : Source}
    (h : OneRoot.NoRoot src) : OneRoot.NoRoot (src.replaceNode k t' kids') := by
  induction src with
  | nil => exact h
  | leaf i p rest ih => exact ⟨h.1, ih h.2⟩
  | node i t kids rest => exact h.elim

theorem oneRoot_replaceNode {k : NodeId} {t' : Tag} {kids' : Source} {src : Source}
    (h : OneRoot src) : OneRoot (src.replaceNode k t' kids') := by
  induction src with
  | nil => exact h
  | leaf i p rest ih => exact ⟨h.1, ih h.2⟩
  | node i t kids rest =>
      rw [Forest.replaceNode]
      split
      · exact h
      · exact noRoot_replaceNode h

/-! ## A tag without fields -/

/-- The tag that is left when an element is written anew under a name. -/
def bareTag (name : List Char) : Tag := ⟨name, [], [], some []⟩

theorem elementOf_bareTag {path : List (NodeId × Element)} {t : Tag} (h : t.fields = []) :
    elementOf lex path (bareTag t.name) = elementOf lex path t := by
  rw [elementOf, elementOf, scopeOf, scopeOf, declarationsOf, declarationsOf, h]
  rfl

/-- Each field of a tag is a declaration or an attribute. -/
theorem fields_eq_nil_iff {path : List (NodeId × Element)} {t : Tag} : t.fields = []
    ↔ (elementOf lex path t).attributes = [] ∧ (elementOf lex path t).namespaceDeclarations = [] := by
  constructor
  · intro h
    simp [elementOf, declarationsOf, h]
  · intro h
    obtain ⟨hattr, hdecl⟩ := h
    rw [List.eq_nil_iff_forall_not_mem]
    intro f hf
    have hd := List.filterMap_eq_nil_iff.mp hdecl f hf
    have ha := List.filterMap_eq_nil_iff.mp hattr f hf
    rw [fieldAttribute, hd] at ha
    cases ha

theorem fields_eq_nil_of_element {path : List (NodeId × Element)} {t : Tag} {name : List Char}
    (h : elementOf lex path (bareTag name) = elementOf lex path t) : t.fields = [] :=
  fields_eq_nil_iff.mpr ⟨(congrArg Element.attributes h).symm,
    (congrArg Element.namespaceDeclarations h).symm⟩

theorem properTag_bareTag {path : List (NodeId × Element)} {t : Tag} (h : t.fields = [])
    (hp : properTag lex path t = true) : properTag lex path (bareTag t.name) = true := by
  have helem := @elementOf_bareTag lex path t h
  rw [properTag, Bool.and_eq_true, Bool.and_eq_true] at hp ⊢
  obtain ⟨⟨hvalid, hbound⟩, hapart⟩ := hp
  refine ⟨⟨?_, ?_⟩, ?_⟩
  · rw [Tag.valid, h] at hvalid
    simp only [Bool.and_eq_true] at hvalid
    rw [Tag.valid]
    simp [bareTag, hvalid.1.1.1]
  · rw [prefixesBound, scopeOf, declarationsOf, h] at hbound
    exact hbound
  · rw [fieldsApart, helem]
    exact hapart

end Nodes

end Bergshamra
