import Bergshamra.Proof.FullEvaluation
import Bergshamra.Proof.NoAttributes

/-!
# The XPath transform and the nodes it does not evaluate

The set that the transform leaves, written by the inclusive canonicalizer, against
the set that holds every tree, namespace and attribute node at which the expression
is true. Both keep the same elements and write the same of every leaf, so the two
canonical forms are equal exactly when the declarations of every element agree, as
many of its attributes are written, and nothing is written of the axes of an element
that is left out unless both write it.
-/

namespace Bergshamra

/-- The characters of the prefixes and attribute names of an element are those of names: neither
of the two that cannot stand between tags is one. -/
structure Element.PlainNames (e : Element) : Prop where
  prefixes : ∀ d ∈ e.namespaceDeclarations, Plain d.1.toList
  attributes : ∀ a ∈ e.attributes, Plain (qnameChars a.name)

def Document.PlainNames (doc : Document) : Prop :=
  ∀ c ∈ doc.descendants, ∀ e kids, Forest.Cursor.item c = .node e kids → e.PlainNames

/-! ## The condition -/

/-- What is written for the namespace nodes of an element is the same whether all of them are
shown or only those at which the expression is true. An element that is selected is written with
the declarations that lead from the bindings of the nearest one above to its own; one that is not
must show no binding that is not shown above. -/
def NamespacesAgreeAt (doc : Document) (expr : XPathBoolExpr) (c : Node) (e : Element) : Prop :=
  let above := nearestSelected doc expr c.path
  let path := (c.key, e) :: c.path
  if evalXPathBool c expr then
    ∀ d, Change (bindings above) (bindings path) d
      ↔ Change (shownBindings expr above) (shownBindings expr path) d
  else
    ∀ p uri, p ≠ "xml" → shownBindings expr path p = some uri →
      shownBindings expr above p = some uri

/-- The namespace nodes are evaluated, or it would make no difference. -/
def NamespacesAgree (doc : Document) (expr : XPathBoolExpr) : Prop :=
  exprReferencesNsNodes expr = true
    ∨ ∀ c ∈ doc.descendants, ∀ e kids, Forest.Cursor.item c = .node e kids →
      NamespacesAgreeAt doc expr c e

/-- The expression says of every attribute what it says of the element. With `@*`, which says the
opposite of the two, an element that is selected below one that is not must inherit nothing. -/
def AttributesAgreeAt (expr : XPathBoolExpr) (c : Node) (e : Element) : Prop :=
  if expr = .hasAttributes then
    e.attributes ≠ [] → (∀ p ∈ c.path.head?, p.2.attributes = []) →
      ∀ x ∈ c.path, ∀ a ∈ x.2.attributes, a.name.namespaceUri = some Ns.XML →
        ∃ b ∈ e.attributes, b.name.namespaceUri = some Ns.XML
          ∧ b.name.localName = a.name.localName
  else
    ∀ a ∈ e.attributes, attributeSelected expr (c.path.map Prod.snd) e a = evalXPathBool c expr

def AttributesAgree (doc : Document) (expr : XPathBoolExpr) : Prop :=
  ∀ c ∈ doc.descendants, ∀ e kids, Forest.Cursor.item c = .node e kids → AttributesAgreeAt expr c e

/-! ## What can be read back -/

section Readable

variable {doc : Document} {expr : XPathBoolExpr} {withComments : Bool}

theorem declared_of_bindings {path : List (NodeId × Element)} {p uri : String}
    (h : bindings path p = some uri) : ∃ x ∈ path, (p, uri) ∈ x.2.namespaceDeclarations := by
  obtain ⟨e, he, hd⟩ := declared_of_inscope h
  obtain ⟨x, hx, rfl⟩ := List.mem_map.mp he
  exact ⟨x, hx, hd⟩

/-- What is declared at an element is undone or bound there. -/
theorem Change.bound {above inner : String → Option String} {d : NsDecl} (h : Change above inner d) :
    d.pfx = "" ∨ inner d.pfx = some d.uri := by
  rcases h with ⟨_, hin, _⟩ | ⟨rfl, _⟩
  · exact Or.inr hin
  · exact Or.inl rfl

/-- A prefix that is bound on a chain of well-formed elements is a name. -/
theorem ncName_of_bindings {path : List (NodeId × Element)}
    (hd : ∀ e ∈ path.map Prod.snd, e.DeclaresWell) {p uri : String}
    (h : bindings path p = some uri) : p = "" ∨ IsNCName p := by
  obtain ⟨x, hx, hdecl⟩ := declared_of_bindings h
  by_cases hp : p = ""
  · exact Or.inl hp
  · exact Or.inr (hd _ (List.mem_map_of_mem hx) _ hdecl hp).1

/-- An element of a well-formed document, with those above it, declares well. -/
theorem declaresWell_selfPath (hwf : doc.WellFormed) {c : Node} (hc : c ∈ doc.descendants)
    {e : Element} {kids : Nodes} (hi : c.item = .node e kids) :
    ∀ e' ∈ e :: c.path.map Prod.snd, e'.DeclaresWell := by
  intro e' he'
  rcases List.mem_cons.mp he' with rfl | he'
  · have he := @wellFormed_cursor _ doc.top [] hwf.nodes c hc
    rw [hi] at he
    exact he.declarations
  · obtain ⟨x, hx, rfl⟩ := List.mem_map.mp he'
    obtain ⟨chain, hchain⟩ := @wellFormed_above _ doc.top [] hwf.nodes
      (fun x hx => by cases hx) c hc x hx
    exact hchain.declarations

/-- A reader takes an attribute of a well-formed element for what it is. -/
theorem readable_attrOf {chain : List Element} {a : Attribute} (ha : a.WellFormed chain) :
    (Inclusive.attrOf a).Readable := by
  have hname : (Inclusive.attrOf a).qualifiedName.toList = qnameChars a.name :=
    congrArg Prod.fst (Inclusive.attrField_attrOf ha)
  have hpfx : ∀ p, a.name.pfx = some p → IsNCName p := by
    intro p hp
    have h2 := ha.2
    rw [hp] at h2
    exact h2.1
  have hnot := not_declaration ha
  refine ⟨?_, ?_, ?_⟩
  · rw [hname]
    exact equals_not_mem_qnameChars ha.1 hpfx
  · rw [hname]
    exact hnot.1
  · rw [hname]
    exact hnot.2

/-- So does it one that is inherited. -/
theorem readable_xmlAttr {name value : String} (hn : IsNCName name) :
    (xmlAttr name value).Readable := by
  have hname : (xmlAttr name value).qualifiedName.toList
      = qnameChars ⟨some "xml", name, some Ns.XML⟩ := by
    simp [xmlAttr, qnameChars]
  have hxml : IsNCName "xml" := by decide
  have hsplit := @splitName_qnameChars ⟨some "xml", name, some Ns.XML⟩ hn
    (by rintro p ⟨⟩; exact hxml)
  refine ⟨?_, ?_, ?_⟩
  · rw [hname]
    exact equals_not_mem_qnameChars hn (by rintro p ⟨⟩; exact hxml)
  · rw [hname, hsplit]
    simp
  · rw [hname, hsplit]
    simp

/-- The attributes that are inherited can be read. -/
theorem readable_inheritedAttrs (hwf : doc.WellFormed) {c : Node} (hc : c ∈ doc.descendants)
    {existing : List Attr} :
    ∀ a ∈ Inclusive.collectInheritedXmlAttrs (c.path.map Prod.snd) existing, a.Readable := by
  intro a ha
  obtain ⟨name, value, hv, _, rfl⟩ := Inclusive.mem_collectInheritedXmlAttrs.mp ha
  obtain ⟨e, he, hev⟩ := List.exists_of_findSome?_eq_some hv
  obtain ⟨x, hx, rfl⟩ := List.mem_map.mp he
  obtain ⟨chain, hchain⟩ := @wellFormed_above _ doc.top [] hwf.nodes
    (fun x hx => by cases hx) c hc x hx
  unfold Element.xmlAttr? at hev
  obtain ⟨b, hb, _⟩ := Option.map_eq_some_iff.mp hev
  have hname := List.find?_some hb
  rw [Bool.and_eq_true, beq_iff_eq, beq_iff_eq] at hname
  rw [← hname.2]
  exact readable_xmlAttr (hchain.attributes b (List.mem_of_find?_eq_some hb)).1

/-- Some attributes of an element, with what it inherits, can be read. -/
theorem readable_attrs (hwf : doc.WellFormed) {c : Node} (hc : c ∈ doc.descendants) {e : Element}
    {kids : Nodes} (hi : c.item = .node e kids) {own : List Attribute}
    (hown : ∀ a ∈ own, a ∈ e.attributes) :
    ∀ a ∈ sortAttrs (sortAttrs (own.map Inclusive.attrOf) ++ inheritedAttrs doc expr c.path e),
      a.Readable := by
  intro a ha
  rw [mem_sortAttrs, List.mem_append, mem_sortAttrs] at ha
  rcases ha with ha | ha
  · obtain ⟨b, hb, rfl⟩ := List.mem_map.mp ha
    have he := @wellFormed_cursor _ doc.top [] hwf.nodes c hc
    rw [hi] at he
    exact readable_attrOf (he.attributes b (hown b hb))
  · unfold inheritedAttrs at ha
    split at ha
    · exact readable_inheritedAttrs hwf hc a ha
    · cases ha

/-- What is written of bindings of a chain with plain prefixes is plain. -/
theorem plain_decls (hp : doc.PlainNames) {c : Node} (hc : c ∈ doc.descendants) {e : Element}
    {kids : Nodes} (hi : c.item = .node e kids) {ds : List NsDecl}
    (hds : ∀ d ∈ ds, ∃ uri, bindings ((c.key, e) :: c.path) d.pfx = some uri) :
    Plain (ds.flatMap NsDecl.render) := by
  refine plain_flatMap (fun d hd => ?_)
  have hname : Plain d.pfx.toList := by
    obtain ⟨uri, huri⟩ := hds d hd
    obtain ⟨x, hx, hdecl⟩ := declared_of_bindings huri
    rcases List.mem_cons.mp hx with rfl | hx
    · exact (hp c hc e kids hi).prefixes _ hdecl
    · obtain ⟨below, above, hpath⟩ := List.append_of_mem hx
      obtain ⟨kids', hnode⟩ := exists_ancestor hc ⟨below, hpath.symm⟩
      exact (hp _ hnode x.2 kids' rfl).prefixes _ hdecl
  have hvalue := (plain_escapeAttr d.uri).append (Plain.of_decide (s := ['"']) (by decide))
  unfold NsDecl.render
  split
  · rw [List.append_assoc]
    exact (Plain.of_decide (by decide)).append hvalue
  · simp only [List.append_assoc]
    exact (Plain.of_decide (by decide)).append
      (hname.append ((Plain.of_decide (by decide)).append hvalue))

theorem plain_attrOf {chain : List Element} {a : Attribute} (ha : a.WellFormed chain)
    (hp : Plain (qnameChars a.name)) : Plain (Inclusive.attrOf a).render := by
  have hname : (Inclusive.attrOf a).qualifiedName.toList = qnameChars a.name :=
    congrArg Prod.fst (Inclusive.attrField_attrOf ha)
  have hvalue := (plain_escapeAttr (Inclusive.attrOf a).value).append
    (Plain.of_decide (s := ['"']) (by decide))
  rw [Attr.render, hname, List.append_assoc, List.append_assoc]
  exact (Plain.of_decide (s := [' ']) (by decide)).append
    (hp.append ((Plain.of_decide (by decide)).append hvalue))

theorem plain_shownAttrs (hwf : doc.WellFormed) (hp : doc.PlainNames) {c : Node}
    (hc : c ∈ doc.descendants) {e : Element} {kids : Nodes} (hi : c.item = .node e kids) :
    Plain ((FullEvaluation.shownAttrs expr (c.path.map Prod.snd) e).flatMap Attr.render) := by
  have he := @wellFormed_cursor _ doc.top [] hwf.nodes c hc
  rw [hi] at he
  refine plain_flatMap (fun a ha => ?_)
  rw [FullEvaluation.shownAttrs, mem_sortAttrs] at ha
  obtain ⟨b, hb, rfl⟩ := List.mem_map.mp ha
  have hmem := (List.mem_filter.mp hb).1
  exact plain_attrOf (he.attributes b hmem) ((hp c hc e kids hi).attributes b hmem)

end Readable

/-! ## The two writers -/

section Writers

variable {doc : Document} {expr : XPathBoolExpr} {withComments : Bool}

/-- The transform's writer. -/
abbrev parsedWriter (doc : Document) (expr : XPathBoolExpr) (withComments : Bool) : ElementWriter :=
  Inclusive.writer ⟨withComments, some (parsedXPathNodeSet doc none expr), false⟩

/-- Where namespace nodes are evaluated the transform's set lacks nothing but attribute nodes. -/
theorem parsed_eq_nodeSet (h : exprReferencesNsNodes expr = true) :
    parsedXPathNodeSet doc none expr = FullEvaluation.nodeSet doc expr := by
  have hne : expr ≠ .hasAttributes := by
    rintro rfl
    cases h
  unfold parsedXPathNodeSet
  dsimp only
  rw [if_neg hne, if_pos h]
  rfl

theorem loose_plain (h : exprReferencesNsNodes expr = false) (path : List (NodeId × Element))
    (i : NodeId) (e : Element) : (parsedWriter doc expr withComments).loose path i e = [] :=
  if_neg (by rw [hasNsFilter_parsed h]; decide)

/-- The namespace nodes shown at an element that is left out, if they are not shown above. -/
theorem mem_looseDecls {c : Node} (hc : c ∈ doc.descendants) {e : Element} {kids : Nodes}
    (hi : c.item = .node e kids) (d : NsDecl) :
    d ∈ Inclusive.changedDecls
        (Inclusive.inheritedAt ⟨withComments, some (FullEvaluation.nodeSet doc expr), false⟩ c.path)
        (Inclusive.visibleNs ⟨withComments, some (FullEvaluation.nodeSet doc expr), false⟩ c.key
          c.path e)
      ↔ d.pfx ≠ "xml" ∧ shownBindings expr ((c.key, e) :: c.path) d.pfx = some d.uri
        ∧ shownBindings expr (nearestSelected doc expr c.path) d.pfx ≠ some d.uri := by
  obtain ⟨i, path, item⟩ := c
  subst hi
  rw [Inclusive.mem_changedDecls, getElem?_visibleNs_full withComments hc]
  constructor
  · rintro ⟨hin, hp, hout, _⟩
    rw [inheritedAt_full hc (List.suffix_refl path) hp] at hout
    exact ⟨hp, hin, hout⟩
  · rintro ⟨hp, hin, hout⟩
    refine ⟨hin, hp, by rw [inheritedAt_full hc (List.suffix_refl path) hp]; exact hout, ?_⟩
    rintro ⟨hempty, _⟩
    have hb := shownBindings_eq_some hin
    rw [String.isEmpty_iff.mp hempty] at hb
    exact bindings_ne_empty _ _ hb

/-- Nothing is written of them exactly when each is shown above. -/
theorem looseDecls_eq_nil_iff {c : Node} (hc : c ∈ doc.descendants) {e : Element} {kids : Nodes}
    (hi : c.item = .node e kids) :
    (Inclusive.writer ⟨withComments, some (FullEvaluation.nodeSet doc expr), false⟩).loose c.path
        c.key e = []
      ↔ ∀ p uri, p ≠ "xml" → shownBindings expr ((c.key, e) :: c.path) p = some uri →
        shownBindings expr (nearestSelected doc expr c.path) p = some uri := by
  have hmem := fun d => @mem_looseDecls doc expr withComments c hc e kids hi d
  have hrender : ∀ d : NsDecl, d.render ≠ [] := by
    intro d
    unfold NsDecl.render
    split <;> simp
  show (sortNsDecls _).flatMap NsDecl.render = [] ↔ _
  rw [List.flatMap_eq_nil_iff]
  constructor
  · intro h p uri hp hin
    by_contra hout
    exact hrender _ (h ⟨p, uri⟩ (mem_sortNsDecls.mpr ((hmem ⟨p, uri⟩).mpr ⟨hp, hin, hout⟩)))
  · intro h d hd
    obtain ⟨hp, hin, hout⟩ := (hmem d).mp (mem_sortNsDecls.mp hd)
    exact absurd (h d.pfx d.uri hp hin) hout

theorem plain_loose (hp : doc.PlainNames) {c : Node} (hc : c ∈ doc.descendants) {e : Element}
    {kids : Nodes} (hi : c.item = .node e kids) :
    Plain ((Inclusive.writer ⟨withComments, some (FullEvaluation.nodeSet doc expr), false⟩).loose
      c.path c.key e) := by
  refine plain_decls hp hc hi (fun d hd => ?_)
  obtain ⟨_, hin, _⟩ := (mem_looseDecls hc hi d).mp (mem_sortNsDecls.mp hd)
  exact ⟨d.uri, shownBindings_eq_some hin⟩

/-- What the walk over all nodes declares can be read. -/
theorem readable_decls_full (hwf : doc.WellFormed) {c : Node} (hc : c ∈ doc.descendants)
    {e : Element} {kids : Nodes} (hi : c.item = .node e kids) :
    ∀ d ∈ ((Inclusive.writer ⟨withComments, some (FullEvaluation.nodeSet doc expr), false⟩).tag
      c.path c.key e).decls, d.pfx = "" ∨ IsNCName d.pfx := by
  intro d hd
  rcases ((mem_decls_full hc hi d).mp hd).bound with h | h
  · exact Or.inl h
  · exact @ncName_of_bindings ((c.key, e) :: c.path) (declaresWell_selfPath hwf hc hi) _ _
      (shownBindings_eq_some h)

/-- So can what the transform's set declares. -/
theorem readable_decls_parsed (hwf : doc.WellFormed) {c : Node} (hc : c ∈ doc.descendants)
    {e : Element} {kids : Nodes} (hi : c.item = .node e kids) :
    ∀ d ∈ ((parsedWriter doc expr withComments).tag c.path c.key e).decls,
      d.pfx = "" ∨ IsNCName d.pfx := by
  cases href : exprReferencesNsNodes expr with
  | true =>
      rw [parsedWriter, parsed_eq_nodeSet href]
      exact readable_decls_full hwf hc hi
  | false =>
      have hwell := declaresWell_selfPath hwf hc hi
      intro d hd
      rcases ((mem_decls_plain href hwell d).mp hd).bound with h | h
      · exact Or.inl h
      · exact @ncName_of_bindings ((c.key, e) :: c.path) hwell _ _ h

theorem attrs_excluded (path : List (NodeId × Element)) (i : NodeId) (e : Element) :
    ((parsedWriter doc .hasAttributes withComments).tag path i e).attrs = [] :=
  @Inclusive.attrsToRender_excluded
    ⟨withComments, some (parsedXPathNodeSet doc none .hasAttributes), false⟩
    (parsedXPathNodeSet_excludeAttrs doc none .hasAttributes) path e

theorem readable_attrs_parsed (hwf : doc.WellFormed) {c : Node} (hc : c ∈ doc.descendants)
    {e : Element} {kids : Nodes} (hi : c.item = .node e kids) :
    ∀ a ∈ ((parsedWriter doc expr withComments).tag c.path c.key e).attrs, a.Readable := by
  by_cases hex : expr = .hasAttributes
  · subst hex
    rw [attrs_excluded]
    intro a ha
    cases ha
  · have hattrs : ((parsedWriter doc expr withComments).tag c.path c.key e).attrs = _ :=
      attrsToRender_parsed withComments hex c.path e
    rw [hattrs]
    exact readable_attrs hwf hc hi (fun _ ha => ha)

/-- **The two writers write the same leaves for the same elements**, and the transform's leaves
no more of the elements that are left out. -/
theorem comparable (hwf : doc.WellFormed) (hp : doc.PlainNames) :
    Comparable withComments doc (parsedWriter doc expr withComments)
      (FullEvaluation.writer doc expr withComments) where
  writesText := by
    refine ⟨fun _ _ _ _ _ => rfl, ?_⟩
    intro c hc e kids hi
    cases href : exprReferencesNsNodes expr with
    | true =>
        rw [parsedWriter, parsed_eq_nodeSet href]
        exact plain_loose hp hc hi
    | false =>
        rw [loose_plain href]
        exact plain_nil
  writesText' := by
    refine ⟨fun _ _ _ _ _ => rfl, ?_⟩
    intro c hc e kids hi
    exact (plain_loose hp hc hi).append (plain_shownAttrs hwf hp hc hi)
  keep := containsId_parsed doc expr
  loose := by
    intro path i e
    show _ ≤ (_ ++ _ : List Char).length
    rw [List.length_append]
    cases href : exprReferencesNsNodes expr with
    | true =>
        rw [parsedWriter, parsed_eq_nodeSet href]
        exact Nat.le_add_right _ _
    | false =>
        rw [loose_plain href]
        exact Nat.zero_le _
  readable := by
    intro c hc e kids hi
    exact ⟨rfl, readable_decls_parsed hwf hc hi, readable_attrs_parsed hwf hc hi⟩
  readable' := by
    intro c hc e kids hi
    refine ⟨rfl, readable_decls_full hwf hc hi, ?_⟩
    show ∀ a ∈ FullEvaluation.attrsToRender doc expr c.path e, _
    rw [attrsToRender_full]
    exact readable_attrs hwf hc hi (fun _ ha => (List.mem_filter.mp ha).1)

end Writers

/-! ## Element by element -/

section Elements

variable {doc : Document} {expr : XPathBoolExpr} {withComments : Bool}

/-- The declarations agree exactly where the namespace nodes do. -/
theorem decls_eq_iff (hwf : doc.WellFormed) {c : Node} (hc : c ∈ doc.descendants) {e : Element}
    {kids : Nodes} (hi : c.item = .node e kids) (hv : evalXPathBool c expr = true) :
    ((parsedWriter doc expr withComments).tag c.path c.key e).decls
        = ((FullEvaluation.writer doc expr withComments).tag c.path c.key e).decls
      ↔ exprReferencesNsNodes expr = true ∨ NamespacesAgreeAt doc expr c e := by
  cases href : exprReferencesNsNodes expr with
  | true =>
      rw [parsedWriter, parsed_eq_nodeSet href]
      exact iff_of_true rfl (Or.inl rfl)
  | false =>
      have hplain := fun d =>
        @mem_decls_plain doc expr withComments href c.key e c.path (declaresWell_selfPath hwf hc hi) d
      have hfull := fun d => @mem_decls_full doc expr withComments c hc e kids hi d
      have hat : NamespacesAgreeAt doc expr c e
          ↔ ∀ d, Change (bindings (nearestSelected doc expr c.path)) (bindings ((c.key, e) :: c.path)) d
            ↔ Change (shownBindings expr (nearestSelected doc expr c.path))
              (shownBindings expr ((c.key, e) :: c.path)) d := by
        rw [NamespacesAgreeAt, if_pos hv]
      have hmem := Inclusive.nsDecls_eq_iff (hasNsFilter (some (parsedXPathNodeSet doc none expr)))
        (hasNsFilter (some (FullEvaluation.nodeSet doc expr)))
        (Inclusive.inheritedAt ⟨withComments, some (parsedXPathNodeSet doc none expr), false⟩ c.path)
        (Inclusive.visibleNs ⟨withComments, some (parsedXPathNodeSet doc none expr), false⟩ c.key
          c.path e)
        (Inclusive.inheritedAt ⟨withComments, some (FullEvaluation.nodeSet doc expr), false⟩ c.path)
        (Inclusive.visibleNs ⟨withComments, some (FullEvaluation.nodeSet doc expr), false⟩ c.key
          c.path e)
      refine hmem.trans ((forall_congr' (fun d => ?_)).trans
        (hat.symm.trans ⟨Or.inr, fun h => h.resolve_left (by decide)⟩))
      exact iff_congr (hplain d) (hfull d)

/-- Nothing is inherited with `@*` exactly when the parent is selected, or no ancestor has
anything to hand down. -/
theorem inheritedAttrs_eq_nil_iff {c : Node} (hc : c ∈ doc.descendants) (e : Element) :
    inheritedAttrs doc .hasAttributes c.path e = []
      ↔ ((∀ p ∈ c.path.head?, p.2.attributes = []) →
        ∀ x ∈ c.path, ∀ a ∈ x.2.attributes, a.name.namespaceUri = some Ns.XML →
          ∃ b ∈ e.attributes, b.name.namespaceUri = some Ns.XML
            ∧ b.name.localName = a.name.localName) := by
  have hparent : Inclusive.parentNotVisible
      (some (FullEvaluation.nodeSet doc .hasAttributes)) c.path = true
        ↔ ∀ p ∈ c.path.head?, p.2.attributes = [] := by
    cases hpath : c.path with
    | nil => simp [Inclusive.parentNotVisible]
    | cons x above =>
        obtain ⟨i, f⟩ := x
        have hsuffix : (i, f) :: above <:+ c.path := hpath ▸ List.suffix_refl ((i, f) :: above)
        obtain ⟨kids, hnode⟩ := exists_ancestor hc hsuffix
        have hsel := @containsId_selected doc .hasAttributes _ hnode
        show (!(selected doc .hasAttributes).containsId i) = true ↔ _
        rw [show (selected doc .hasAttributes).containsId i = !f.attributes.isEmpty from hsel]
        simp
  have hlist := collectInheritedXmlAttrs_eq_nil_iff (c.path.map Prod.snd) e
  rw [List.forall_mem_map] at hlist
  unfold inheritedAttrs
  by_cases hp : ∀ p ∈ c.path.head?, p.2.attributes = []
  · rw [if_pos (hparent.mpr hp), hlist]
    exact ⟨fun h _ => h, fun h => h hp⟩
  · rw [if_neg (fun h => hp (hparent.mp h))]
    exact iff_of_true rfl (fun h => absurd h hp)

/-- As many attributes are written exactly where the attribute nodes agree, and then they are the
same. -/
theorem attrs_eq_iff {c : Node} (hc : c ∈ doc.descendants) {e : Element} {kids : Nodes}
    (hi : c.item = .node e kids) (hv : evalXPathBool c expr = true) :
    (((parsedWriter doc expr withComments).tag c.path c.key e).attrs.length
        = ((FullEvaluation.writer doc expr withComments).tag c.path c.key e).attrs.length
      → AttributesAgreeAt expr c e)
    ∧ (AttributesAgreeAt expr c e →
      ((parsedWriter doc expr withComments).tag c.path c.key e).attrs
        = ((FullEvaluation.writer doc expr withComments).tag c.path c.key e).attrs) := by
  have hfull : ((FullEvaluation.writer doc expr withComments).tag c.path c.key e).attrs
      = sortAttrs (FullEvaluation.shownAttrs expr (c.path.map Prod.snd) e
        ++ inheritedAttrs doc expr c.path e) := attrsToRender_full c.path e
  rw [hfull]
  by_cases hex : expr = .hasAttributes
  · subst hex
    -- the one expression for which the parsed filter leaves all attributes out
    have hown : e.attributes ≠ [] := by
      have hbool : c.element?.any (fun e => !e.attributes.isEmpty) = true := hv
      simpa [Node.element?, hi] using hbool
    have hshown := (shownAttrs_eq_nil_iff (c.path.map Prod.snd) e).mpr
      (fun a _ => attributeSelected_hasAttributes (c.path.map Prod.snd) e a)
    have hat : AttributesAgreeAt .hasAttributes c e
        ↔ inheritedAttrs doc .hasAttributes c.path e = [] := by
      rw [AttributesAgreeAt, if_pos rfl, inheritedAttrs_eq_nil_iff hc]
      exact ⟨fun h => h hown, fun h _ => h⟩
    rw [attrs_excluded, hshown, List.nil_append, hat, length_sortAttrs]
    refine ⟨fun h => List.length_eq_zero_iff.mp h.symm, ?_⟩
    intro h
    rw [h]
    rfl
  · have hparsed : ((parsedWriter doc expr withComments).tag c.path c.key e).attrs
        = sortAttrs (sortAttrs (e.attributes.map Inclusive.attrOf)
          ++ inheritedAttrs doc expr c.path e) := attrsToRender_parsed withComments hex c.path e
    have hat : AttributesAgreeAt expr c e
        ↔ ∀ a ∈ e.attributes, attributeSelected expr (c.path.map Prod.snd) e a = true := by
      rw [AttributesAgreeAt, if_neg hex, hv]
    rw [hparsed, hat]
    refine ⟨?_, ?_⟩
    · -- the lists can only be equal if none of the attributes is missing
      intro hlen
      rw [length_sortAttrs, length_sortAttrs, List.length_append, List.length_append,
        length_sortAttrs, List.length_map] at hlen
      exact (shownAttrs_eq_iff (c.path.map Prod.snd) e).mp (by omega)
    · intro hall
      rw [shownAttrs_of_all hall]

/-- As much is left of an element that is not selected exactly where namespace and attribute nodes
agree, and then nothing else is. -/
theorem loose_eq_iff {c : Node} (hc : c ∈ doc.descendants) {e : Element} {kids : Nodes}
    (hi : c.item = .node e kids) (hv : evalXPathBool c expr = false) :
    (((parsedWriter doc expr withComments).loose c.path c.key e).length
        = ((FullEvaluation.writer doc expr withComments).loose c.path c.key e).length
      → (exprReferencesNsNodes expr = true ∨ NamespacesAgreeAt doc expr c e)
        ∧ AttributesAgreeAt expr c e)
    ∧ ((exprReferencesNsNodes expr = true ∨ NamespacesAgreeAt doc expr c e)
        ∧ AttributesAgreeAt expr c e →
      (parsedWriter doc expr withComments).loose c.path c.key e
        = (FullEvaluation.writer doc expr withComments).loose c.path c.key e) := by
  have hfull : (FullEvaluation.writer doc expr withComments).loose c.path c.key e
      = (Inclusive.writer ⟨withComments, some (FullEvaluation.nodeSet doc expr), false⟩).loose
          c.path c.key e
        ++ (FullEvaluation.shownAttrs expr (c.path.map Prod.snd) e).flatMap Attr.render := rfl
  -- no attribute is shown exactly where the attribute nodes agree
  have hattrs : (FullEvaluation.shownAttrs expr (c.path.map Prod.snd) e).flatMap Attr.render = []
      ↔ AttributesAgreeAt expr c e := by
    have hnil : (FullEvaluation.shownAttrs expr (c.path.map Prod.snd) e).flatMap Attr.render = []
        ↔ FullEvaluation.shownAttrs expr (c.path.map Prod.snd) e = [] := by
      rw [List.flatMap_eq_nil_iff, List.eq_nil_iff_forall_not_mem]
      refine forall_congr' (fun a => imp_congr_right (fun _ => ?_))
      simp [Attr.render]
    rw [hnil, shownAttrs_eq_nil_iff, AttributesAgreeAt]
    by_cases hex : expr = .hasAttributes
    · subst hex
      have hown : e.attributes = [] := by
        have hbool : c.element?.any (fun e => !e.attributes.isEmpty) = false := hv
        simpa [Node.element?, hi] using hbool
      rw [if_pos rfl]
      exact iff_of_true (fun _ _ => rfl) (fun h => absurd hown h)
    · rw [if_neg hex, hv]
  have hnames : (Inclusive.writer ⟨withComments, some (FullEvaluation.nodeSet doc expr), false⟩).loose
      c.path c.key e = [] ↔ NamespacesAgreeAt doc expr c e := by
    rw [looseDecls_eq_nil_iff hc hi, NamespacesAgreeAt, if_neg (by rw [hv]; decide)]
  rw [hfull]
  cases href : exprReferencesNsNodes expr with
  | true =>
      rw [parsedWriter, parsed_eq_nodeSet href]
      refine ⟨?_, ?_⟩
      · intro hlen
        rw [List.length_append] at hlen
        exact ⟨Or.inl rfl, hattrs.mp (List.length_eq_zero_iff.mp (by omega))⟩
      · rintro ⟨_, hat⟩
        rw [hattrs.mpr hat, List.append_nil]
  | false =>
      rw [loose_plain href]
      refine ⟨?_, ?_⟩
      · intro hlen
        rw [List.length_append, List.length_nil] at hlen
        refine ⟨Or.inr (hnames.mp (List.length_eq_zero_iff.mp (by omega))),
          hattrs.mp (List.length_eq_zero_iff.mp (by omega))⟩
      · rintro ⟨hns, hat⟩
        rw [hnames.mpr (hns.resolve_left (by decide)), hattrs.mpr hat]
        rfl

end Elements

/-! ## The canonical forms -/

section Main

variable {doc : Document} {expr : XPathBoolExpr}

/-- The canonical forms are equal exactly when the two writers write the same text. -/
theorem canonicalForm_eq_iff_chars {mode : C14nMode} (hx : mode.isExclusive = false)
    (h11 : mode.isC14n11 = false) (ps : List String) :
    canonicalizeDoc doc mode (some (parsedXPathNodeSet doc none expr)) ps
        = FullEvaluation.canonicalForm doc expr mode.withComments
      ↔ WrittenTree.chars ((parsedWriter doc expr mode.withComments).write [] false doc.top)
        = WrittenTree.chars
          ((FullEvaluation.writer doc expr mode.withComments).write [] false doc.top) := by
  have htext : canonicalText doc mode (some (parsedXPathNodeSet doc none expr)) ps
      = WrittenTree.chars ((parsedWriter doc expr mode.withComments).write [] false doc.top) := by
    rw [canonicalText_eq_chars, writtenTree, writerOf, if_neg (by rw [hx]; decide), h11]
  rw [canonicalizeDoc, htext, FullEvaluation.canonicalForm]
  rw [String.toUTF8_eq_toByteArray, String.toUTF8_eq_toByteArray, String.toByteArray_inj]
  exact ⟨fun h => String.ofList_injective h, fun h => by rw [h]⟩

/-- **The transform's canonical form is that of all nodes at which the expression is true** exactly
when namespace nodes and attribute nodes agree with the elements they belong to. -/
theorem canonicalizeDoc_parsed_eq_iff {mode : C14nMode} (hx : mode.isExclusive = false)
    (h11 : mode.isC14n11 = false) (ps : List String) (hwf : doc.WellFormed)
    (hp : doc.PlainNames) :
    canonicalizeDoc doc mode (some (parsedXPathNodeSet doc none expr)) ps
        = FullEvaluation.canonicalForm doc expr mode.withComments
      ↔ NamespacesAgree doc expr ∧ AttributesAgree doc expr := by
  have hkeep : ∀ {c : Node}, c ∈ doc.descendants →
      (parsedWriter doc expr mode.withComments).keep c.key = evalXPathBool c expr :=
    fun hc => (containsId_parsed doc expr _).trans (containsId_selected hc)
  rw [canonicalForm_eq_iff_chars hx h11]
  constructor
  · intro heq
    -- equal octets are equal tags, element by element
    have hat : ∀ c ∈ doc.descendants, ∀ e kids, Forest.Cursor.item c = .node e kids →
        (exprReferencesNsNodes expr = true ∨ NamespacesAgreeAt doc expr c e)
          ∧ AttributesAgreeAt expr c e := by
      intro c hc e kids hi
      obtain ⟨hkept, hleft⟩ := (comparable hwf hp).agree hwf heq hc hi
      by_cases hv : evalXPathBool c expr = true
      · obtain ⟨hdecls, hattrs⟩ := hkept ((hkeep hc).trans hv)
        exact ⟨(decls_eq_iff hwf hc hi hv).mp hdecls, (attrs_eq_iff hc hi hv).1 hattrs⟩
      · have hvF := Bool.eq_false_iff.mpr hv
        exact (loose_eq_iff hc hi hvF).1 (hleft ((hkeep hc).trans hvF))
    refine ⟨?_, fun c hc e kids hi => (hat c hc e kids hi).2⟩
    by_cases href : exprReferencesNsNodes expr = true
    · exact Or.inl href
    · exact Or.inr (fun c hc e kids hi => (hat c hc e kids hi).1.resolve_left href)
  · rintro ⟨hns, hat⟩
    have hnsAt : ∀ c ∈ doc.descendants, ∀ e kids, Forest.Cursor.item c = .node e kids →
        exprReferencesNsNodes expr = true ∨ NamespacesAgreeAt doc expr c e :=
      fun c hc e kids hi => hns.imp_right (fun h => h c hc e kids hi)
    refine congrArg WrittenTree.chars ?_
    refine Forest.Writer.write_eq_of_cursors (containsId_parsed doc expr) ?_ false ?_
    · intro top preceding following i k
      show (if (parsedWriter doc expr mode.withComments).keep i then _ else _) = (if _ then _ else _)
      rw [show (parsedWriter doc expr mode.withComments).keep i
        = (FullEvaluation.writer doc expr mode.withComments).keep i from containsId_parsed doc expr i]
      rfl
    · intro c hc e kids hi
      refine ⟨?_, ?_⟩
      · intro hk
        have hv := (hkeep hc).symm.trans hk
        have hdecls := (@decls_eq_iff doc expr mode.withComments hwf c hc e kids hi hv).mpr
          (hnsAt c hc e kids hi)
        have hattrs := (@attrs_eq_iff doc expr mode.withComments c hc e kids hi hv).2
          (hat c hc e kids hi)
        exact congrArg₂ (StartTag.mk (qualifiedElementName e)) hdecls hattrs
      · intro hk
        have hv := (hkeep hc).symm.trans hk
        exact (loose_eq_iff hc hi hv).2 ⟨hnsAt c hc e kids hi, hat c hc e kids hi⟩

/-- **When skipping namespace and attribute nodes is sound.** The inclusive canonical form of the
set that the transform builds of a whole document is that of the set of all nodes, of any kind, at
which the expression is true, exactly when the nodes it does not evaluate agree. -/
theorem canonical_full_evaluation_iff {lib : TransformLibs} {data : TransformData}
    {xmlText : String} {doc : Document} (hinput : data.asXml? = some (xmlText, none))
    (hparse : lib.parse xmlText = .ok doc) (hwf : doc.WellFormed) (hp : doc.PlainNames)
    (expr : XPathBoolExpr) {mode : C14nMode} (hx : mode.isExclusive = false)
    (h11 : mode.isC14n11 = false) (ps : List String) :
    (∃ s, applyParsedXPathFilter lib data expr = .ok (.xml xmlText (some s))
        ∧ canonicalizeDoc doc mode (some s) ps
          = FullEvaluation.canonicalForm doc expr mode.withComments)
      ↔ NamespacesAgree doc expr ∧ AttributesAgree doc expr := by
  have happly : applyParsedXPathFilter lib data expr
      = .ok (.xml xmlText (some (parsedXPathNodeSet doc none expr))) :=
    applyParsedXPathFilter_ok.mpr ⟨xmlText, none, doc, hinput, hparse, rfl⟩
  rw [← canonicalizeDoc_parsed_eq_iff hx h11 ps hwf hp, happly]
  constructor
  · rintro ⟨s, hs, heq⟩
    simp only [Except.ok.injEq, TransformData.xml.injEq, Option.some.injEq, true_and] at hs
    rw [hs]
    exact heq
  · intro heq
    exact ⟨_, rfl, heq⟩

end Main

/-! ## Expressions about ancestors -/

/-- Expressions that ask for nothing but elements on the ancestor-or-self axis. -/
def ancestral : XPathBoolExpr → Bool
  | .true => true
  | .ancestorOrSelf _ _ => true
  | .not inner => ancestral inner
  | .and left right => ancestral left && ancestral right
  | .or left right => ancestral left && ancestral right
  | _ => false

section Ancestral

variable {doc : Document} {expr : XPathBoolExpr} {c : Node} {e : Element} {kids : Nodes}

/-- They say of a namespace node what they say of its element. -/
theorem evalXPathBoolNs_ancestral (h : ancestral expr = true) (hi : c.item = .node e kids)
    (p uri : String) :
    evalXPathBoolNs ⟨p, uri, e, c.path.map Prod.snd⟩ expr = evalXPathBool c expr := by
  induction expr with
  | true => rfl
  | ancestorOrSelf nsUri localName =>
      rw [evalXPathBoolNs, evalXPathBool, Forest.Cursor.selfPath, hi, List.any_cons, List.any_cons,
        List.any_map]
      rfl
  | not inner ih => rw [evalXPathBoolNs, evalXPathBool, ih h]
  | and left right ihl ihr =>
      obtain ⟨hl, hr⟩ := Bool.and_eq_true_iff.mp h
      rw [evalXPathBoolNs, evalXPathBool, ihl hl, ihr hr]
  | or left right ihl ihr =>
      obtain ⟨hl, hr⟩ := Bool.and_eq_true_iff.mp h
      rw [evalXPathBoolNs, evalXPathBool, ihl hl, ihr hr]
  | _ => cases h

/-- And of an attribute. -/
theorem attributeSelected_ancestral (h : ancestral expr = true) (hi : c.item = .node e kids)
    (a : Attribute) :
    attributeSelected expr (c.path.map Prod.snd) e a = evalXPathBool c expr := by
  induction expr with
  | true => rfl
  | ancestorOrSelf nsUri localName =>
      rw [attributeSelected, evalXPathBoolAttr, evalXPathBool, Forest.Cursor.selfPath, hi,
        List.any_cons, List.any_cons, List.any_map]
      rfl
  | not inner ih =>
      have hinner := ih h
      rw [attributeSelected] at hinner ⊢
      rw [evalXPathBoolAttr, evalXPathBool, hinner]
  | and left right ihl ihr =>
      obtain ⟨hl, hr⟩ := Bool.and_eq_true_iff.mp h
      have hleft := ihl hl
      have hright := ihr hr
      rw [attributeSelected] at hleft hright ⊢
      rw [evalXPathBoolAttr, evalXPathBool, hleft, hright]
  | or left right ihl ihr =>
      obtain ⟨hl, hr⟩ := Bool.and_eq_true_iff.mp h
      have hleft := ihl hl
      have hright := ihr hr
      rw [attributeSelected] at hleft hright ⊢
      rw [evalXPathBoolAttr, evalXPathBool, hleft, hright]
  | _ => cases h

/-- All bindings of an element are shown if it is selected, and none if it is not. -/
theorem shownBindings_ancestral (h : ancestral expr = true) (hi : c.item = .node e kids)
    (p : String) :
    shownBindings expr ((c.key, e) :: c.path) p
      = if evalXPathBool c expr then bindings ((c.key, e) :: c.path) p else none := by
  rw [shownBindings]
  cases hb : bindings ((c.key, e) :: c.path) p with
  | none => simp
  | some uri =>
      have heval := evalXPathBoolNs_ancestral h hi p uri
      cases hv : evalXPathBool c expr with
      | true => simp [Option.filter, heval, hv]
      | false => simp [Option.filter, heval, hv]

theorem shownBindings_nearestSelected (h : ancestral expr = true) (hc : c ∈ doc.descendants)
    (p : String) :
    shownBindings expr (nearestSelected doc expr c.path) p
      = bindings (nearestSelected doc expr c.path) p := by
  cases hn : nearestSelected doc expr c.path with
  | nil => rfl
  | cons x above =>
      obtain ⟨i, f⟩ := x
      obtain ⟨kids', hnode⟩ := exists_ancestor hc (hn ▸ nearestSelected_suffix c.path)
      -- the first of them was kept because it is selected
      have hsel : (selected doc expr).containsId i = true := by
        have hhead := List.head?_dropWhile_not (fun x => !(selected doc expr).containsId x.1) c.path
        rw [← nearestSelected, hn] at hhead
        simpa using hhead
      have hv : evalXPathBool ⟨i, above, .node f kids'⟩ expr = true :=
        (containsId_selected hnode).symm.trans hsel
      have hshown := shownBindings_ancestral h (c := ⟨i, above, .node f kids'⟩) rfl p
      rw [hv, if_pos rfl] at hshown
      exact hshown

/-- **Expressions about ancestors are filtered soundly**, whatever the document. -/
theorem agree_of_ancestral (h : ancestral expr = true) :
    NamespacesAgree doc expr ∧ AttributesAgree doc expr := by
  have hne : expr ≠ .hasAttributes := by
    rintro rfl
    cases h
  refine ⟨Or.inr ?_, ?_⟩
  · intro c hc e kids hi
    unfold NamespacesAgreeAt
    by_cases hv : evalXPathBool c expr = true
    · rw [if_pos hv]
      have hself : shownBindings expr ((c.key, e) :: c.path) = bindings ((c.key, e) :: c.path) := by
        funext p
        rw [shownBindings_ancestral h hi, if_pos hv]
      have habove : shownBindings expr (nearestSelected doc expr c.path)
          = bindings (nearestSelected doc expr c.path) := by
        funext p
        exact shownBindings_nearestSelected h hc p
      intro d
      rw [hself, habove]
    · rw [if_neg hv]
      intro p uri _ hshown
      rw [shownBindings_ancestral h hi, if_neg hv] at hshown
      cases hshown
  · intro c hc e kids hi
    rw [AttributesAgreeAt, if_neg hne]
    intro a _
    exact attributeSelected_ancestral h hi a

end Ancestral

/-! ## `self::A` -/

/-- `<A xmlns:p="u"/>`. -/
def sampleDeclaredPrefix : Document where
  root := 0
  top := .node 1 ⟨⟨none, "A", none⟩, [], [("p", "u")]⟩ .nil .nil
  nodup := by decide

theorem sampleDeclaredPrefix_wellFormed : sampleDeclaredPrefix.WellFormed where
  nodes := by
    refine ⟨⟨by decide, by simp, by decide, by simp, ?_⟩, trivial, trivial⟩
    intro d hd _
    rw [List.mem_singleton.mp hd]
    exact ⟨by decide, by decide⟩
  noText := trivial

theorem sampleDeclaredPrefix_plainNames : sampleDeclaredPrefix.PlainNames := by
  intro c hc e kids hi
  have hc : c = ⟨1, [], .node ⟨⟨none, "A", none⟩, [], [("p", "u")]⟩ .nil⟩ := by
    simpa [sampleDeclaredPrefix, Document.descendants, Forest.cursors] using hc
  subst hc
  obtain ⟨rfl, _⟩ := Forest.Item.node.inj hi
  refine ⟨?_, by simp⟩
  intro d hd
  rw [List.mem_singleton.mp hd]
  exact Plain.of_decide (by decide)

def sampleDeclaredPrefixLibs : TransformLibs := .ofParser (fun _ => .ok sampleDeclaredPrefix)

theorem canonical_full_evaluation_iff_sample :
    (∃ s, applyParsedXPathFilter sampleDeclaredPrefixLibs (.xml "" none) (.selfElement "" "A")
          = .ok (.xml "" (some s))
        ∧ canonicalizeDoc sampleDeclaredPrefix .inclusive (some s) []
          = FullEvaluation.canonicalForm sampleDeclaredPrefix (.selfElement "" "A") false)
      ↔ NamespacesAgree sampleDeclaredPrefix (.selfElement "" "A")
        ∧ AttributesAgree sampleDeclaredPrefix (.selfElement "" "A") :=
  @canonical_full_evaluation_iff sampleDeclaredPrefixLibs (.xml "" none) "" sampleDeclaredPrefix rfl
    rfl sampleDeclaredPrefix_wellFormed sampleDeclaredPrefix_plainNames (.selfElement "" "A")
    .inclusive rfl rfl []

/-- `self::A` is true at the element and at none of its namespace nodes; the declaration is
written all the same. -/
theorem self_test_keeps_declaration :
    parseXPathBoolExpr "self::A".toList ⟨9, [], .node ⟨⟨none, "XPath", none⟩, [], []⟩ .nil⟩
        = some (.selfElement "" "A")
      ∧ exprReferencesNsNodes (.selfElement "" "A") = false
      ∧ ∃ s, applyParsedXPathFilter sampleDeclaredPrefixLibs (.xml "" none) (.selfElement "" "A")
            = .ok (.xml "" (some s))
          ∧ canonicalText sampleDeclaredPrefix .inclusive (some s) []
            = "<A xmlns:p=\"u\"></A>".toList
          ∧ FullEvaluation.canonicalForm sampleDeclaredPrefix (.selfElement "" "A") false
            = "<A></A>".toUTF8
          ∧ canonicalizeDoc sampleDeclaredPrefix .inclusive (some s) []
            ≠ FullEvaluation.canonicalForm sampleDeclaredPrefix (.selfElement "" "A") false := by
  have hcode : canonicalText sampleDeclaredPrefix .inclusive
      (some (parsedXPathNodeSet sampleDeclaredPrefix none (.selfElement "" "A"))) []
        = "<A xmlns:p=\"u\"></A>".toList := by decide +kernel
  have hfull : FullEvaluation.canonicalForm sampleDeclaredPrefix (.selfElement "" "A") false
      = "<A></A>".toUTF8 := by decide +kernel
  refine ⟨by decide +kernel, rfl, _, rfl, hcode, hfull, ?_⟩
  rw [hfull, canonicalizeDoc, hcode]
  decide +kernel

end Bergshamra
