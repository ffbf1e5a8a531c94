import Bergshamra.Proof.ReadBack

/-!
# Canonicalization is injective

Two documents with the same canonical octets, in a mode that keeps comments and
with no node set, have the same content.

The output is markup (`formOf`), and markup can be read back, so the two
documents have the same tags, fields and leaves. What remains is to read the
content off the tags: names and attributes are there as they were, and bindings
follow from the declarations by `Readable`.
-/

namespace Bergshamra

/-! ## Names and attributes -/

def qnameChars (q : QName) : List Char :=
  match q.pfx with
  | some p => p.toList ++ ':' :: q.localName.toList
  | none => q.localName.toList

/-- Cut a name at its colon. -/
def splitName (s : List Char) : Option String × String :=
  if ':' ∈ s then
    (some (String.ofList (s.takeWhile (fun c => c != ':'))),
      String.ofList (s.dropWhile (fun c => c != ':')).tail)
  else (none, String.ofList s)

theorem IsNCName.no_colon {s : String} (h : IsNCName s) : ':' ∉ s.toList :=
  fun hc => h.2 ':' hc (by simp)

theorem splitName_qnameChars {q : QName} (hl : IsNCName q.localName)
    (hp : ∀ p, q.pfx = some p → IsNCName p) :
    splitName (qnameChars q) = (q.pfx, q.localName) := by
  unfold splitName qnameChars
  cases hq : q.pfx with
  | none =>
      dsimp only
      rw [if_neg hl.no_colon, String.ofList_toList]
  | some p =>
      have hpc := (hp p hq).no_colon
      have htake : ∀ l : List Char, ':' ∉ l → ∀ r,
          (l ++ ':' :: r).takeWhile (fun c => c != ':') = l
            ∧ (l ++ ':' :: r).dropWhile (fun c => c != ':') = ':' :: r := by
        intro l hl r
        induction l with
        | nil => simp
        | cons c l ih =>
            rw [List.mem_cons, not_or] at hl
            have hc : (c != ':') = true := by simpa using fun h => hl.1 h.symm
            obtain ⟨h1, h2⟩ := ih hl.2
            rw [List.cons_append, List.takeWhile_cons, List.dropWhile_cons, if_pos hc, if_pos hc,
              h1, h2]
            exact ⟨rfl, rfl⟩
      obtain ⟨h1, h2⟩ := htake p.toList hpc q.localName.toList
      dsimp only
      rw [if_pos (by simp), h1, h2, String.ofList_toList, List.tail_cons, String.ofList_toList]

theorem qualifiedElementName_eq (e : Element) : qualifiedElementName e = qnameChars e.name := rfl

/-- How an attribute is written. -/
def fieldOf (a : Attribute) : List Char × List Char := (qnameChars a.name, a.value.toList)

/-- Read an attribute, given what its prefix is bound to. -/
def readField (bound : String → Option String) (f : List Char × List Char) : Attribute where
  name := ⟨(splitName f.1).1, (splitName f.1).2, (splitName f.1).1.bind bound⟩
  value := String.ofList f.2

theorem Attribute.WellFormed.split {chain : List Element} {a : Attribute}
    (h : a.WellFormed chain) : splitName (qnameChars a.name) = (a.name.pfx, a.name.localName) := by
  refine splitName_qnameChars h.1 ?_
  intro p hp
  have := h.2
  rw [hp] at this
  exact this.1

theorem readField_fieldOf {chain : List Element} {a : Attribute} (h : a.WellFormed chain) :
    readField (resolve chain) (fieldOf a) = a := by
  have hsplit := h.split
  unfold readField fieldOf
  rw [hsplit, String.ofList_toList]
  obtain ⟨⟨pfx, localName, uri⟩, value⟩ := a
  have h2 := h.2
  cases pfx with
  | none => simp_all
  | some p => simp_all

theorem Inclusive.attrField_attrOf {chain : List Element} {a : Attribute}
    (h : a.WellFormed chain) : attrField (Inclusive.attrOf a) = fieldOf a := by
  obtain ⟨⟨pfx, localName, uri⟩, value⟩ := a
  have h2 := h.2
  unfold attrField Inclusive.attrOf Inclusive.findAttrPrefix fieldOf qnameChars
  cases pfx with
  | none =>
      simp only at h2
      simp [h2.1]
  | some p =>
      simp only at h2
      obtain ⟨-, -, hsome, -, hxml⟩ := h2
      obtain ⟨u, rfl⟩ := Option.isSome_iff_exists.mp hsome
      by_cases hu : u = Ns.XML
      · simp [hu, hxml (by rw [hu])]
      · simp [hu]

theorem Exclusive.getAttrPrefix_eq {chain : List Element} {a : Attribute}
    (h : a.WellFormed chain) : Exclusive.getAttrPrefix a = a.name.pfx := by
  obtain ⟨⟨pfx, localName, uri⟩, value⟩ := a
  have h2 := h.2
  unfold Exclusive.getAttrPrefix
  cases pfx with
  | none =>
      simp only at h2
      simp [h2.1]
  | some p =>
      simp only at h2
      obtain ⟨-, -, hsome, -, hxml⟩ := h2
      obtain ⟨u, rfl⟩ := Option.isSome_iff_exists.mp hsome
      by_cases hu : u = Ns.XML
      · simp [hu, hxml (by rw [hu])]
      · simp [hu]

theorem IsNCName.not_isEmpty {s : String} (h : IsNCName s) : s.isEmpty = false := by
  rw [← Bool.not_eq_true, String.isEmpty_iff]
  intro he
  exact h.1 (by rw [he]; rfl)

theorem Exclusive.attrField_attrOf {chain : List Element} {a : Attribute}
    (h : a.WellFormed chain) : attrField (Exclusive.attrOf a) = fieldOf a := by
  unfold attrField Exclusive.attrOf fieldOf qnameChars
  rw [Exclusive.getAttrPrefix_eq h]
  cases hp : a.name.pfx with
  | none => rfl
  | some p =>
      have h2 := h.2
      rw [hp] at h2
      simp [h2.1.not_isEmpty]

/-! ## From equal tags to equal content -/

/-- The attributes a canonicalizer writes are the element's, in some order. -/
def WritesAttributes (attrs : Element → List Attr) : Prop :=
  ∀ (chain : List Element) (e : Element), (∀ a ∈ e.attributes, a.WellFormed chain) →
    ((attrs e).map attrField).Perm (e.attributes.map fieldOf)

theorem writesAttributes_of {attrs : Element → List Attr} (attrOf : Attribute → Attr)
    (hperm : ∀ e, (attrs e).Perm (e.attributes.map attrOf))
    (hfield : ∀ chain a, a.WellFormed chain → attrField (attrOf a) = fieldOf a) :
    WritesAttributes attrs := by
  intro chain e hwf
  have h := (hperm e).map attrField
  rw [List.map_map] at h
  have heq : e.attributes.map (attrField ∘ attrOf) = e.attributes.map fieldOf :=
    List.map_congr_left (fun a ha => hfield chain a (hwf a ha))
  rwa [heq] at h

theorem Inclusive.writesAttributes : WritesAttributes Inclusive.attrsOf := by
  refine writesAttributes_of Inclusive.attrOf ?_ (fun _ _ => Inclusive.attrField_attrOf)
  intro e
  exact (List.perm_insertionSort _ _).trans (List.perm_insertionSort _ _)

theorem Exclusive.writesAttributes : WritesAttributes Exclusive.attrsToRender := by
  refine writesAttributes_of Exclusive.attrOf ?_ (fun _ _ => Exclusive.attrField_attrOf)
  intro e
  exact List.perm_insertionSort _ _

/-- The prefixes that are relevant depend on the name and the attributes alone, and those an
element uses are among them. -/
structure RelevantOk (relevant : Element → String → Bool) : Prop where
  ofName : ∀ e, relevant e (e.name.pfx.getD "") = true
  ofAttribute : ∀ {chain : List Element} {e a p}, a ∈ e.attributes → a.WellFormed chain →
    a.name.pfx = some p → relevant e p = true
  ofEq : ∀ {chain chain' : List Element} {e e' : Element} {p}, e.name.pfx = e'.name.pfx →
    (∀ a ∈ e.attributes, a.WellFormed chain) → (∀ a ∈ e'.attributes, a.WellFormed chain') →
    (∀ q, q ∈ e.attributes.map (fun a => a.name.pfx) ↔
      q ∈ e'.attributes.map (fun a => a.name.pfx)) → relevant e p = relevant e' p

theorem Inclusive.relevantOk : RelevantOk (fun _ _ => true) :=
  ⟨fun _ => rfl, fun _ _ _ => rfl, fun _ _ _ _ => rfl⟩

theorem Exclusive.mem_utilizedPrefixes {ps : List String} {chain : List Element} {e : Element}
    (h : ∀ a ∈ e.attributes, a.WellFormed chain) {p : String} :
    p ∈ Exclusive.utilizedPrefixes ps e
      ↔ p = e.name.pfx.getD "" ∨ some p ∈ e.attributes.map (fun a => a.name.pfx)
        ∨ p ∈ ps.map (fun p => if p = "#default" then "" else p) := by
  unfold Exclusive.utilizedPrefixes
  rw [List.mem_dedup, List.cons_append, List.mem_cons, List.mem_append, List.mem_filter,
    List.mem_filterMap]
  have hattr : ((∃ a ∈ e.attributes, Exclusive.getAttrPrefix a = some p) ∧ (!p.isEmpty) = true)
      ↔ some p ∈ e.attributes.map (fun a => a.name.pfx) := by
    rw [List.mem_map]
    constructor
    · rintro ⟨⟨a, ha, hp⟩, _⟩
      exact ⟨a, ha, by rw [← Exclusive.getAttrPrefix_eq (h a ha), hp]⟩
    · rintro ⟨a, ha, hp⟩
      refine ⟨⟨a, ha, by rw [Exclusive.getAttrPrefix_eq (h a ha), hp]⟩, ?_⟩
      have hwf := (h a ha).2
      rw [hp] at hwf
      rw [hwf.1.not_isEmpty]
      rfl
  rw [hattr]
  rfl

theorem Exclusive.relevantOk (ps : List String) :
    RelevantOk (fun e p => (Exclusive.utilizedPrefixes ps e).contains p) where
  ofName := by
    intro e
    simp [Exclusive.utilizedPrefixes, Exclusive.getElementPrefix]
  ofAttribute := by
    intro chain e a p ha hwf hp
    have hget := Exclusive.getAttrPrefix_eq hwf
    have hne : p.isEmpty = false := by
      have := hwf.2
      rw [hp] at this
      exact this.1.not_isEmpty
    rw [List.contains_iff_mem, Exclusive.utilizedPrefixes, List.mem_dedup, List.cons_append,
      List.mem_cons, List.mem_append, List.mem_filter, List.mem_filterMap]
    exact Or.inr (Or.inl ⟨⟨a, ha, by rw [hget, hp]⟩, by simpa using hne⟩)
  ofEq := by
    intro chain chain' e e' p hname hwf hwf' hpfx
    rw [Bool.eq_iff_iff, List.contains_iff_mem, List.contains_iff_mem,
      Exclusive.mem_utilizedPrefixes hwf, Exclusive.mem_utilizedPrefixes hwf', hname, hpfx]

/-- The fields of a tag split in one way into declarations and attributes. -/
theorem fields_split {ds ds' : List NsDecl} {fs fs' : List (List Char × List Char)}
    (hfs : ∀ f ∈ fs, splitName f.1 ≠ (none, "xmlns") ∧ (splitName f.1).1 ≠ some "xmlns")
    (hfs' : ∀ f ∈ fs', splitName f.1 ≠ (none, "xmlns") ∧ (splitName f.1).1 ≠ some "xmlns")
    (h : ds.map declField ++ fs = ds'.map declField ++ fs') : ds = ds' ∧ fs = fs' := by
  -- a declaration can be told from an attribute by its name
  have hdecl : ∀ d : NsDecl, splitName (declField d).1 = (none, "xmlns")
      ∨ (splitName (declField d).1).1 = some "xmlns" := by
    intro d
    unfold declField
    by_cases hd : d.pfx.isEmpty = true
    · rw [if_pos hd]
      have hx : splitName "xmlns".toList = (none, "xmlns") := by decide
      exact Or.inl hx
    · rw [if_neg hd]
      refine Or.inr ?_
      unfold splitName
      simp
  have hinj : ∀ d d' : NsDecl, declField d = declField d' → d = d' := by
    intro d d' he
    obtain ⟨p, u⟩ := d
    obtain ⟨p', u'⟩ := d'
    simp only [declField, Prod.mk.injEq] at he
    obtain ⟨hp, hu⟩ := he
    rw [String.toList_inj] at hu
    subst hu
    by_cases h1 : p.isEmpty = true
    · by_cases h2 : p'.isEmpty = true
      · rw [String.isEmpty_iff.mp h1, String.isEmpty_iff.mp h2]
      · rw [if_pos h1, if_neg h2] at hp
        exact absurd (congrArg List.length hp) (by simp)
    · by_cases h2 : p'.isEmpty = true
      · rw [if_neg h1, if_pos h2] at hp
        exact absurd (congrArg List.length hp) (by simp)
      · rw [if_neg h1, if_neg h2] at hp
        rw [String.toList_inj.mp (List.append_cancel_left hp)]
  induction ds generalizing ds' with
  | nil =>
      cases ds' with
      | nil => exact ⟨rfl, by simpa using h⟩
      | cons d' ds' =>
          cases fs with
          | nil => simp at h
          | cons f fs =>
              rw [List.map_nil, List.nil_append, List.map_cons, List.cons_append,
                List.cons.injEq] at h
              have := hfs f List.mem_cons_self
              rw [h.1] at this
              rcases hdecl d' with hd | hd
              · exact absurd hd this.1
              · exact absurd hd this.2
  | cons d ds ih =>
      cases ds' with
      | nil =>
          cases fs' with
          | nil => simp at h
          | cons f fs' =>
              rw [List.map_nil, List.nil_append, List.map_cons, List.cons_append,
                List.cons.injEq] at h
              have := hfs' f List.mem_cons_self
              rw [← h.1] at this
              rcases hdecl d with hd | hd
              · exact absurd hd this.1
              · exact absurd hd this.2
      | cons d' ds' =>
          rw [List.map_cons, List.map_cons, List.cons_append, List.cons_append,
            List.cons.injEq] at h
          obtain ⟨hds, hf⟩ := ih h.2
          exact ⟨by rw [hinj _ _ h.1, hds], hf⟩

/-- No attribute of a well-formed element looks like a declaration. -/
theorem not_declaration {chain : List Element} {a : Attribute} (h : a.WellFormed chain) :
    splitName (fieldOf a).1 ≠ (none, "xmlns") ∧ (splitName (fieldOf a).1).1 ≠ some "xmlns" := by
  have h2 := h.2
  unfold fieldOf
  rw [h.split]
  cases hp : a.name.pfx with
  | none =>
      rw [hp] at h2
      simp [h2.2]
  | some p =>
      rw [hp] at h2
      simp [h2.2.1]

/-- The prefixes of the attributes, read off the fields. -/
theorem pfxs_eq {chain : List Element} {as : List Attribute} (h : ∀ a ∈ as, a.WellFormed chain) :
    as.map (fun a => a.name.pfx) = (as.map fieldOf).map (fun f => (splitName f.1).1) := by
  rw [List.map_map]
  refine List.map_congr_left ?_
  intro a ha
  simp [fieldOf, (h a ha).split]

/-- The attributes themselves, given what their prefixes are bound to. -/
theorem attributes_eq {chain : List Element} {as : List Attribute}
    (h : ∀ a ∈ as, a.WellFormed chain) {bound : String → Option String}
    (hb : ∀ a ∈ as, ∀ p, a.name.pfx = some p → bound p = resolve chain p) :
    (as.map fieldOf).map (readField bound) = as := by
  rw [List.map_map]
  calc as.map (readField bound ∘ fieldOf) = as.map id := by
        refine List.map_congr_left ?_
        intro a ha
        have hread : readField bound (fieldOf a) = readField (resolve chain) (fieldOf a) := by
          unfold readField
          rw [show splitName (fieldOf a).1 = (a.name.pfx, a.name.localName) from (h a ha).split]
          cases hap : a.name.pfx with
          | none => rfl
          | some p =>
              simp only [Option.bind_some]
              rw [hb a ha p hap]
        rw [Function.comp_apply, hread, readField_fieldOf (h a ha), id]
    _ = as := List.map_id as

section Tags

variable {rule : NsRule} {relevant : Element → String → Bool} {Inv : NsMap → List Element → Prop}
  {attrs : Element → List Attr} {chain chain' : List Element} {state state' : NsMap}
  {e e' : Element}

/-- Equal declarations over equal states: equal bindings. -/
theorem bindings_eq (hr : Readable rule relevant Inv) (hinv : Inv state chain)
    (hinv' : Inv state' chain') (he : e.DeclaresWell) (he' : e'.DeclaresWell)
    (hstate : ∀ p, p ≠ "xml" → nonEmpty state[p]? = nonEmpty state'[p]?)
    (hdecls : rule.decls state (e :: chain) = rule.decls state' (e' :: chain')) {p : String}
    (hre : relevant e p = true) (hre' : relevant e' p = true) :
    resolve (e :: chain) p = resolve (e' :: chain') p := by
  by_cases hp : p = "xml"
  · simp [resolve, hp]
  · by_cases hw : ∃ uri, ⟨p, uri⟩ ∈ rule.decls state (e :: chain)
    · obtain ⟨uri, hw⟩ := hw
      rw [(hr.written hw hp).1, (hr.written (hdecls ▸ hw) hp).1]
    · rw [not_exists] at hw
      rw [hr.unwritten_binding hinv he hre hw hp,
        hr.unwritten_binding hinv' he' hre' (hdecls ▸ hw) hp, hstate p hp]

/-- Equal declarations over equal states: equal states below. -/
theorem next_eq (hr : Readable rule relevant Inv)
    (hstate : ∀ p, p ≠ "xml" → nonEmpty state[p]? = nonEmpty state'[p]?)
    (hdecls : rule.decls state (e :: chain) = rule.decls state' (e' :: chain')) (p : String)
    (hp : p ≠ "xml") :
    nonEmpty (rule.next state (e :: chain))[p]?
      = nonEmpty (rule.next state' (e' :: chain'))[p]? := by
  by_cases hw : ∃ uri, ⟨p, uri⟩ ∈ rule.decls state (e :: chain)
  · obtain ⟨uri, hw⟩ := hw
    rw [(hr.written hw hp).2, (hr.written (hdecls ▸ hw) hp).2]
  · rw [not_exists] at hw
    rw [hr.unwritten hw hp, hr.unwritten (hdecls ▸ hw) hp, hstate p hp]

/-- Equal tags have equal declarations and the same attribute fields. -/
theorem tag_eq (hattrs : WritesAttributes attrs) (he : e.WellFormed chain)
    (he' : e'.WellFormed chain')
    (hfields : (rule.decls state (e :: chain)).map declField ++ (attrs e).map attrField
      = (rule.decls state' (e' :: chain')).map declField ++ (attrs e').map attrField) :
    rule.decls state (e :: chain) = rule.decls state' (e' :: chain')
      ∧ (e.attributes.map fieldOf).Perm (e'.attributes.map fieldOf) := by
  have hperm := hattrs (e :: chain) e he.attributes
  have hperm' := hattrs (e' :: chain') e' he'.attributes
  have hnot : ∀ f ∈ (attrs e).map attrField,
      splitName f.1 ≠ (none, "xmlns") ∧ (splitName f.1).1 ≠ some "xmlns" := by
    intro f hf
    obtain ⟨a, ha, rfl⟩ := List.mem_map.mp (hperm.mem_iff.mp hf)
    exact not_declaration (he.attributes a ha)
  have hnot' : ∀ f ∈ (attrs e').map attrField,
      splitName f.1 ≠ (none, "xmlns") ∧ (splitName f.1).1 ≠ some "xmlns" := by
    intro f hf
    obtain ⟨a, ha, rfl⟩ := List.mem_map.mp (hperm'.mem_iff.mp hf)
    exact not_declaration (he'.attributes a ha)
  obtain ⟨hdecls, hfs⟩ := fields_split hnot hnot' hfields
  exact ⟨hdecls, hperm.symm.trans (hfs ▸ hperm')⟩

/-- **One tag.** Equal tags, written by two walks that handed down the same, are tags of equal
elements. -/
theorem elementView_eq (hr : Readable rule relevant Inv) (hrel : RelevantOk relevant)
    (hinv : Inv state chain) (hinv' : Inv state' chain') (he : e.WellFormed chain)
    (he' : e'.WellFormed chain')
    (hstate : ∀ p, p ≠ "xml" → nonEmpty state[p]? = nonEmpty state'[p]?)
    (hname : qualifiedElementName e = qualifiedElementName e')
    (hdecls : rule.decls state (e :: chain) = rule.decls state' (e' :: chain'))
    (hfield : (e.attributes.map fieldOf).Perm (e'.attributes.map fieldOf)) :
    elementView relevant chain e = elementView relevant chain' e' := by
  have hsplit := congrArg splitName hname
  rw [qualifiedElementName_eq, qualifiedElementName_eq, splitName_qnameChars he.localName he.pfx,
    splitName_qnameChars he'.localName he'.pfx, Prod.mk.injEq] at hsplit
  obtain ⟨hpfx, hlocal⟩ := hsplit
  -- the relevant prefixes are the same, and bound alike
  have hrelevant : ∀ p, relevant e p = relevant e' p := by
    intro p
    refine hrel.ofEq hpfx he.attributes he'.attributes ?_
    intro q
    rw [pfxs_eq he.attributes, pfxs_eq he'.attributes]
    exact (hfield.map _).mem_iff
  have hbound : ∀ p, relevant e p = true → resolve (e :: chain) p = resolve (e' :: chain') p :=
    fun p hre => bindings_eq hr hinv hinv' he.declarations he'.declarations hstate hdecls hre
      (hrelevant p ▸ hre)
  have huri : e.name.namespaceUri = e'.name.namespaceUri := by
    rw [he.namespaceUri, he'.namespaceUri, ← hpfx]
    exact hbound _ (hrel.ofName e)
  have hqname : e.name = e'.name := by
    rcases hn : e.name with ⟨p, l, u⟩
    rcases hn' : e'.name with ⟨p', l', u'⟩
    rw [hn, hn'] at hpfx hlocal huri
    simp_all
  have hatts : e.attributes.Perm e'.attributes := by
    have h := hfield.map (readField (resolve (e' :: chain')))
    rw [attributes_eq he'.attributes (fun _ _ _ _ => rfl)] at h
    rwa [attributes_eq he.attributes] at h
    intro a ha p hp
    exact (hbound p (hrel.ofAttribute ha (he.attributes a ha) hp)).symm
  unfold elementView
  rw [ElementView.mk.injEq]
  refine ⟨hqname, Quot.sound hatts, ?_⟩
  funext p
  rw [hrelevant p]
  by_cases hp : p ≠ "xml" ∧ relevant e' p = true
  · rw [if_pos hp, if_pos hp]
    exact hbound p (by rw [hrelevant p]; exact hp.2)
  · rw [if_neg hp, if_neg hp]

/-- **The content can be read off the markup.** -/
theorem contentView_eq (hr : Readable rule relevant Inv) (hrel : RelevantOk relevant)
    (hattrs : WritesAttributes attrs) {f f' : Forest Unit Element Markup.Leaf}
    (hinv : Inv state chain) (hinv' : Inv state' chain')
    (hwf : WellFormedRow Markup.Leaf.Valid chain f)
    (hwf' : WellFormedRow Markup.Leaf.Valid chain' f')
    (hstate : ∀ p, p ≠ "xml" → nonEmpty state[p]? = nonEmpty state'[p]?)
    (h : formOf rule attrs chain state f = formOf rule attrs chain' state' f') :
    contentView relevant chain f = contentView relevant chain' f' := by
  -- the two walks may have come down different chains, with equal bindings so far
  induction f generalizing f' chain chain' state state' with
  | nil =>
      cases f' with
      | nil => rfl
      | leaf | node => simp [formOf] at h
  | leaf _ l rest ih =>
      cases f' with
      | nil | node => simp [formOf] at h
      | leaf _ l' rest' =>
          simp only [formOf, Forest.leaf.injEq, true_and] at h
          rw [contentView, contentView, h.1, ih hinv hinv' hwf.2 hwf'.2 hstate h.2]
  | node _ e kids rest ihk ihr =>
      cases f' with
      | nil | leaf => simp [formOf] at h
      | node _ e' kids' rest' =>
          simp only [formOf, Forest.node.injEq, Markup.Tag.mk.injEq, true_and] at h
          obtain ⟨⟨hname, hfields⟩, hkids, hrest⟩ := h
          obtain ⟨hdecls, hfield⟩ := tag_eq hattrs hwf.1 hwf'.1 hfields
          rw [contentView, contentView,
            elementView_eq hr hrel hinv hinv' hwf.1 hwf'.1 hstate hname hdecls hfield,
            ihk (hr.next hinv hwf.1.declarations) (hr.next hinv' hwf'.1.declarations) hwf.2.1
              hwf'.2.1 (next_eq hr hstate hdecls) hkids,
            ihr hinv hinv' hwf.2.2 hwf'.2.2 hstate hrest]

end Tags

/-! ## The markup of a well-formed document is valid -/

theorem wellFormed_pushLeaves {chain : List Element} {ls : List Markup.Leaf}
    {rest : Forest Unit Element Markup.Leaf} (hls : ∀ l ∈ ls, l.Valid)
    (hrest : WellFormedRow Markup.Leaf.Valid chain rest) :
    WellFormedRow Markup.Leaf.Valid chain (pushLeaves ls rest) := by
  induction ls with
  | nil => exact hrest
  | cons l ls ih =>
      exact ⟨hls l List.mem_cons_self, ih (fun l' hl' => hls l' (List.mem_cons_of_mem _ hl'))⟩

theorem LeafKind.WellFormed.content {k : LeafKind} (h : k.WellFormed) :
    ∀ l ∈ k.content, l.Valid := by
  intro l hl
  cases k with
  | text t | cdata t =>
      obtain ⟨c, _, rfl⟩ := List.mem_map.mp hl
      trivial
  | comment t =>
      rw [List.mem_singleton.mp hl]
      exact h
  | pi target data =>
      rw [List.mem_singleton.mp hl]
      exact ⟨h.1, h.2.1⟩

theorem wellFormed_content {chain : List Element} {f : Nodes}
    (h : WellFormedRow LeafKind.WellFormed chain f) :
    WellFormedRow Markup.Leaf.Valid chain (content f) := by
  induction f generalizing chain with
  | nil => trivial
  | leaf i k rest ih => exact wellFormed_pushLeaves h.1.content (ih h.2)
  | node i e kids rest ihk ihr => exact ⟨h.1, ihk h.2.1, ihr h.2.2⟩

theorem equals_not_mem_qnameChars {q : QName} (hl : IsNCName q.localName)
    (hp : ∀ p, q.pfx = some p → IsNCName p) : '=' ∉ qnameChars q := by
  have hnot : ∀ {s : String}, IsNCName s → '=' ∉ s.toList :=
    fun hs hc => hs.2 '=' hc (by simp)
  unfold qnameChars
  cases hq : q.pfx with
  | none => exact hnot hl
  | some p =>
      simp only [List.mem_append, List.mem_cons]
      rintro (h | h | h)
      · exact hnot (hp p hq) h
      · simp at h
      · exact hnot hl h

theorem validName_qnameChars {q : QName} (hl : IsNCName q.localName)
    (hp : ∀ p, q.pfx = some p → IsNCName p) : Markup.ValidName (qnameChars q) := by
  have hchar : ∀ {s : String}, IsNCName s → ∀ c ∈ s.toList, c ∉ [' ', '>', '/', '!', '?'] := by
    intro s hs c hc hin
    refine hs.2 c hc ?_
    simp only [List.mem_cons, List.not_mem_nil, or_false] at hin ⊢
    tauto
  unfold qnameChars
  cases hq : q.pfx with
  | none => exact ⟨hl.1, hchar hl⟩
  | some p =>
      refine ⟨by simp, ?_⟩
      intro c hc
      rcases List.mem_append.mp hc with hc | hc
      · exact hchar (hp p hq) c hc
      · rcases List.mem_cons.mp hc with hc | hc
        · rw [hc]
          decide
        · exact hchar hl c hc

theorem Attribute.WellFormed.pfx {chain : List Element} {a : Attribute} (h : a.WellFormed chain) :
    ∀ p, a.name.pfx = some p → IsNCName p := by
  intro p hp
  have := h.2
  rw [hp] at this
  exact this.1

section Valid

variable {rule : NsRule} {relevant : Element → String → Bool} {Inv : NsMap → List Element → Prop}
  {attrs : Element → List Attr}

theorem tag_valid (hr : Readable rule relevant Inv) (hattrs : WritesAttributes attrs)
    {chain : List Element} (hchain : ∀ e ∈ chain, e.DeclaresWell) {e : Element}
    (he : e.WellFormed chain) (state : NsMap) :
    Markup.Tag.Valid ⟨qualifiedElementName e,
      (rule.decls state (e :: chain)).map declField ++ (attrs e).map attrField⟩ where
  name := validName_qnameChars he.localName he.pfx
  fields := by
    intro f hf
    rcases List.mem_append.mp hf with hf | hf
    · obtain ⟨d, hd, rfl⟩ := List.mem_map.mp hf
      unfold declField
      by_cases hempty : d.pfx.isEmpty = true
      · rw [if_pos hempty]
        show '=' ∉ "xmlns".toList
        decide
      · rw [if_neg hempty]
        have hne : d.pfx ≠ "" := fun h => hempty (String.isEmpty_iff.mpr h)
        rcases hr.declared hd with h | ⟨e', he', hmem⟩
        · exact absurd h hne
        · -- the prefix is one that the element or one above it declares
          have hdecl : e'.DeclaresWell := by
            rcases List.mem_cons.mp he' with he' | he'
            · exact he' ▸ he.declarations
            · exact hchain e' he'
          have hnc := (hdecl _ hmem hne).1
          have hx : '=' ∉ "xmlns:".toList := by decide
          intro hin
          rcases List.mem_append.mp hin with hin | hin
          · exact hx hin
          · exact hnc.2 '=' hin (by simp)
    · have hmem := (hattrs (e :: chain) e he.attributes).mem_iff.mp hf
      obtain ⟨a, ha, rfl⟩ := List.mem_map.mp hmem
      have hwf := he.attributes a ha
      exact equals_not_mem_qnameChars hwf.1 hwf.pfx

theorem formOf_valid (hr : Readable rule relevant Inv) (hattrs : WritesAttributes attrs)
    {chain : List Element} (hchain : ∀ e ∈ chain, e.DeclaresWell)
    {f : Forest Unit Element Markup.Leaf} (hf : WellFormedRow Markup.Leaf.Valid chain f)
    (state : NsMap) : Markup.Valid (formOf rule attrs chain state f) := by
  induction f generalizing chain state with
  | nil => trivial
  | leaf _ l rest ih => exact ⟨hf.1, ih hchain hf.2 state⟩
  | node _ e kids rest ihk ihr =>
      have hchain' : ∀ e' ∈ e :: chain, e'.DeclaresWell := by
        intro e' he'
        rcases List.mem_cons.mp he' with he' | he'
        · exact he' ▸ hf.1.declarations
        · exact hchain e' he'
      exact ⟨tag_valid hr hattrs hchain hf.1 state, ihk hchain' hf.2.1 _, ihr hchain hf.2.2 state⟩

/-- At the top there is no text, so the leaves there are not characters. -/
theorem formOf_topValid (hr : Readable rule relevant Inv) (hattrs : WritesAttributes attrs)
    {f : Nodes} (hf : WellFormedRow LeafKind.WellFormed [] f) (ht : NoText f) (state : NsMap) :
    Markup.TopValid (formOf rule attrs [] state (content f)) := by
  induction f with
  | nil => trivial
  | leaf i k rest ih =>
      obtain ⟨l, hl, hchar, _⟩ := processLeaf_top hf.1 ht.1 true true
      rw [content, hl, formOf_pushLeaves, pushLeaves_singleton]
      exact ⟨hf.1.content l (by rw [hl]; exact List.mem_cons_self), hchar, ih hf.2 ht.2⟩
  | node i e kids rest ihk ihr =>
      have hnone : ∀ e' ∈ ([] : List Element), e'.DeclaresWell := by simp
      have hchain : ∀ e' ∈ [e], e'.DeclaresWell := by
        intro e' he'
        rw [List.mem_singleton.mp he']
        exact hf.1.declarations
      exact ⟨tag_valid hr hattrs hnone hf.1 state,
        formOf_valid hr hattrs hchain (wellFormed_content hf.2.1) _, ihr hf.2.2 ht⟩

/-- Equal output at the top: equal content. -/
theorem contentView_eq_of_renderTop (hr : Readable rule relevant Inv) (hrel : RelevantOk relevant)
    (hattrs : WritesAttributes attrs) {f f' : Nodes}
    (hwf : WellFormedRow LeafKind.WellFormed [] f) (ht : NoText f)
    (hwf' : WellFormedRow LeafKind.WellFormed [] f') (ht' : NoText f')
    (h : Markup.renderTop escapeTextChar escapeAttrChar false
          (formOf rule attrs [] ∅ (content f))
        = Markup.renderTop escapeTextChar escapeAttrChar false
          (formOf rule attrs [] ∅ (content f'))) :
    contentView relevant [] (content f) = contentView relevant [] (content f') := by
  have hform := Markup.renderTop_injective escape_text escape_attr
    (formOf_topValid hr hattrs hwf ht ∅) (formOf_topValid hr hattrs hwf' ht' ∅)
    (congrArg Markup.dropBreaks h)
  exact contentView_eq hr hrel hattrs hr.init hr.init (wellFormed_content hwf)
    (wellFormed_content hwf') (fun _ _ => rfl) hform

end Valid

/-- **Canonicalization is injective.** In each mode that keeps comments, with no node set, two
well-formed documents with the same canonical octets have the same view: they are equal up to
the order of attributes, declarations that bind nothing new (in exclusive mode: nothing that is
utilized), and how text is cut into text and CDATA nodes. -/
theorem canonicalizeDoc_injective (mode : C14nMode) (inclusivePrefixes : List String)
    (hmode : mode.withComments = true) (doc doc' : Document) (hwf : doc.WellFormed)
    (hwf' : doc'.WellFormed)
    (h : canonicalizeDoc doc mode none inclusivePrefixes
      = canonicalizeDoc doc' mode none inclusivePrefixes) :
    doc.view mode inclusivePrefixes = doc'.view mode inclusivePrefixes := by
  rw [canonicalizeDoc_eq_iff, canonicalText, canonicalText] at h
  unfold Document.view relevantPrefix
  by_cases hx : mode.isExclusive = true
  · rw [if_pos hx, if_pos hx, Exclusive.canonicalize, Exclusive.canonicalize, hmode,
      Exclusive.processNodes_eq_renderTop inclusivePrefixes false ∅ hwf.nodes hwf.noText,
      Exclusive.processNodes_eq_renderTop inclusivePrefixes false ∅ hwf'.nodes hwf'.noText] at h
    simp only [hx, Bool.not_true, Bool.false_or]
    exact contentView_eq_of_renderTop (Exclusive.readable inclusivePrefixes)
      (Exclusive.relevantOk inclusivePrefixes) Exclusive.writesAttributes hwf.nodes hwf.noText
      hwf'.nodes hwf'.noText h
  · rw [if_neg hx, if_neg hx, Inclusive.canonicalizeWithOptions,
      Inclusive.canonicalizeWithOptions, hmode,
      Inclusive.processNodes_eq_renderTop mode.isC14n11 false ∅ hwf.nodes hwf.noText,
      Inclusive.processNodes_eq_renderTop mode.isC14n11 false ∅ hwf'.nodes hwf'.noText] at h
    simp only [Bool.eq_false_iff.mpr hx, Bool.not_false, Bool.true_or]
    exact contentView_eq_of_renderTop Inclusive.readable Inclusive.relevantOk
      Inclusive.writesAttributes hwf.nodes hwf.noText hwf'.nodes hwf'.noText h

/-- `<a x="1" y="2">hi</a>` and `<a y="2" x="1" xmlns=""><![CDATA[h]]>i</a>`. -/
def sampleText : Document where
  root := 0
  top := .node 1 ⟨⟨none, "a", none⟩, [⟨⟨none, "x", none⟩, "1"⟩, ⟨⟨none, "y", none⟩, "2"⟩], []⟩
    (.leaf 2 (.text "hi") .nil) .nil
  nodup := by decide

def sampleCData : Document where
  root := 0
  top := .node 1 ⟨⟨none, "a", none⟩, [⟨⟨none, "y", none⟩, "2"⟩, ⟨⟨none, "x", none⟩, "1"⟩],
      [("", "")]⟩
    (.leaf 2 (.cdata "h") (.leaf 3 (.text "i") .nil)) .nil
  nodup := by decide

theorem sampleText_wellFormed : sampleText.WellFormed where
  nodes := by
    refine ⟨⟨by decide, by simp, by decide, ?_, ?_⟩, ⟨trivial, trivial⟩, trivial⟩
    · intro a ha
      rcases List.mem_cons.mp ha with rfl | ha
      · exact ⟨by decide, rfl, by decide⟩
      · rw [List.mem_singleton.mp ha]
        exact ⟨by decide, rfl, by decide⟩
    · intro d hd
      simp at hd
  noText := trivial

theorem sampleCData_wellFormed : sampleCData.WellFormed where
  nodes := by
    refine ⟨⟨by decide, by simp, by decide, ?_, ?_⟩,
      ⟨trivial, trivial, trivial⟩, trivial⟩
    · intro a ha
      rcases List.mem_cons.mp ha with rfl | ha
      · exact ⟨by decide, rfl, by decide⟩
      · rw [List.mem_singleton.mp ha]
        exact ⟨by decide, rfl, by decide⟩
    · intro d hd hne
      rw [List.mem_singleton.mp hd] at hne
      exact absurd rfl hne
  noText := trivial

theorem canonicalizeDoc_injective_sample :
    sampleText.view .inclusiveWithComments [] = sampleCData.view .inclusiveWithComments [] :=
  canonicalizeDoc_injective .inclusiveWithComments [] rfl sampleText sampleCData
    sampleText_wellFormed sampleCData_wellFormed
    (canonicalizeDoc_eq_iff.mpr (by decide +kernel))

/-! ## Where a prefix is undeclared -/

/-- `<r xmlns:p="u"><c/></r>`, with the declarations of the inner element. -/
def sampleUndeclaring (declarations : List (String × String)) : Document where
  root := 0
  top := .node 1 ⟨⟨none, "r", none⟩, [], [("p", "u")]⟩
    (.node 2 ⟨⟨none, "c", none⟩, [], declarations⟩ .nil .nil) .nil
  nodup := by simp

/-- Equal octets mean equal views, for all that is parsed. -/
def CanonicalizationInjective : Prop :=
  ∀ (mode : C14nMode) (inclusivePrefixes : List String) (doc doc' : Document),
    mode.withComments = true → doc.Parsed → doc'.Parsed →
    canonicalizeDoc doc mode none inclusivePrefixes
      = canonicalizeDoc doc' mode none inclusivePrefixes →
    doc.view mode inclusivePrefixes = doc'.view mode inclusivePrefixes

/-- Where only `p` is declared, there is no default namespace. -/
theorem resolve_default_none {chain : List Element}
    (h : ∀ e ∈ chain, ∀ d ∈ e.namespaceDeclarations, d.1 = "p") : resolve chain "" = none := by
  rw [resolve, if_neg (by decide), Option.eq_none_iff_forall_ne_some]
  intro uri huri
  obtain ⟨e, he, hd⟩ := declared_of_inscope huri
  have hne : "" ≠ "p" := by decide
  exact hne (h e he _ hd)

theorem sampleUndeclaring_parsed {declarations : List (String × String)}
    (h : ∀ d ∈ declarations, d.1 = "p") : (sampleUndeclaring declarations).Parsed where
  elements := by
    have hrow : IsNCName "r" := by decide
    have hcell : IsNCName "c" := by decide
    have hpfx : IsNCName "p" := by decide
    intro c hc e he
    simp only [Document.descendants, sampleUndeclaring, Forest.cursors, List.append_nil,
      List.mem_cons, List.not_mem_nil, or_false] at hc
    rcases hc with rfl | rfl
    · cases he
      refine ⟨hrow, by simp, (resolve_default_none (by simp)).symm, by simp, List.nodup_nil, ?_⟩
      intro d hd _
      rw [List.mem_singleton.mp hd]
      exact hpfx
    · cases he
      refine ⟨hcell, by simp, (resolve_default_none (by simpa using h)).symm, by simp,
        List.nodup_nil, ?_⟩
      intro d hd _
      rw [h d hd]
      exact hpfx
  leaves := by
    intro c hc k hk
    simp only [Document.descendants, sampleUndeclaring, Forest.cursors, List.append_nil,
      List.mem_cons, List.not_mem_nil, or_false] at hc
    rcases hc with rfl | rfl <;> cases hk
  noText := trivial

/-- `<c xmlns:p=""/>` is written as `<c/>` is, but binds less. -/
theorem undeclared_prefix_collides : ¬ CanonicalizationInjective := by
  intro hinj
  have h := hinj .inclusiveWithComments [] (sampleUndeclaring [("p", "")]) (sampleUndeclaring [])
    rfl (sampleUndeclaring_parsed (by simp)) (sampleUndeclaring_parsed (by simp))
    (canonicalizeDoc_eq_iff.mpr (by decide +kernel))
  -- the view of the inner element, and in it the binding of the prefix
  have hc := (Forest.node.inj (Forest.node.inj h).2.2.1).2.1
  have hp := congrFun (congrArg ElementView.bindings hc) "p"
  revert hp
  decide +kernel

end Bergshamra
