import Bergshamra.Proof.WholeDocument
import Bergshamra.Proof.NoAttributes

/-!
# What Canonical XML 1.1 adds at the apex of a document subset

An element whose parent is left out is given the `xml:*` attributes of its
ancestors. The code has one walk for every name, which takes the nearest value,
and one more for `xml:base`, which joins the values of all ancestors. Both walks
go up to the document element and do not ask which ancestors are in the node set.
-/

namespace Bergshamra

/-- The `xml:base` values on a chain, the outermost first. -/
def xmlBases (chain : List Element) : List String := chain.reverse.filterMap Inclusive.xmlBase?

/-- `xml:base` values joined from the outermost in; nothing where there are none. -/
def joinBases (values : List String) : Option String :=
  if values = [] then none
  else some (String.ofList (values.foldl
    (fun absolute base =>
      if absolute.isEmpty then base.toList
      else Inclusive.resolveUriReference absolute base.toList) []))

namespace Inclusive

/-! ## Joining -/

theorem length_pos_of_contains {pat s : List Char} (hp : pat ≠ [])
    (h : Text.containsSub pat s = true) : s ≠ [] := by
  intro hs
  subst hs
  cases pat with
  | nil => exact hp rfl
  | cons c pat => simp [Text.containsSub, Text.splitOnce] at h

theorem resolveUriReference_ne_nil {base reference : List Char} (hb : base ≠ []) :
    resolveUriReference base reference ≠ [] := by
  unfold resolveUriReference
  by_cases hc : Text.containsSub "://".toList reference = true
  · rw [if_pos hc]
    exact length_pos_of_contains (by simp) hc
  · rw [if_neg hc]
    dsimp only
    by_cases hs : Text.startsWith ['/'] reference = true
    · rw [if_pos hs]
      intro h
      obtain ⟨_, hr⟩ := List.append_eq_nil_iff.mp h
      rw [hr] at hs
      simp [Text.startsWith, Text.stripPrefix?] at hs
    · rw [if_neg hs]
      by_cases he : reference.isEmpty = true
      · rw [if_pos he]
        exact hb
      · rw [if_neg he]
        have hr : reference ≠ [] := by
          intro hr
          simp [hr] at he
        split <;> simp [hr]

/-- Joining yields nothing only where every value is empty. -/
theorem joined_eq_nil {values : List String} {absolute : List Char}
    (h : values.foldl (fun absolute base =>
      if absolute.isEmpty then base.toList
      else resolveUriReference absolute base.toList) absolute = []) :
    absolute = [] ∧ ∀ v ∈ values, v = "" := by
  induction values generalizing absolute with
  | nil => exact ⟨h, by simp⟩
  | cons v values ih =>
      rw [List.foldl_cons] at h
      obtain ⟨hstep, hrest⟩ := ih h
      by_cases ha : absolute = []
      · rw [ha, if_pos List.isEmpty_nil] at hstep
        refine ⟨ha, ?_⟩
        intro w hw
        rcases List.mem_cons.mp hw with hw | hw
        · rw [hw]
          exact String.toList_eq_nil_iff.mp hstep
        · exact hrest w hw
      · rw [if_neg (by simpa using ha)] at hstep
        exact absurd hstep (resolveUriReference_ne_nil ha)

theorem findSome?_eq_none_iff_xmlBases {chain : List Element} :
    xmlBases chain = [] ↔ chain.findSome? xmlBase? = none := by
  rw [xmlBases, List.filterMap_eq_nil_iff, List.findSome?_eq_none_iff]
  simp

theorem mem_xmlBases_of_findSome? {chain : List Element} {v : String}
    (h : chain.findSome? xmlBase? = some v) : v ∈ xmlBases chain := by
  obtain ⟨e, he, hv⟩ := List.exists_of_findSome?_eq_some h
  exact List.mem_filterMap.mpr ⟨e, List.mem_reverse.mpr he, hv⟩

/-- The two walks agree on `xml:base` where there is nothing to join. -/
theorem joinBases_eq (chain : List Element) :
    joinBases (xmlBases chain)
      = if (computeAbsoluteBaseUri chain).isEmpty then chain.findSome? xmlBase?
        else some (String.ofList (computeAbsoluteBaseUri chain)) := by
  unfold joinBases
  by_cases hv : xmlBases chain = []
  · have habs : computeAbsoluteBaseUri chain = [] := by
      unfold computeAbsoluteBaseUri
      have hv' : chain.reverse.filterMap xmlBase? = [] := hv
      rw [hv']
      rfl
    rw [if_pos hv, habs, if_pos List.isEmpty_nil, findSome?_eq_none_iff_xmlBases.mp hv]
  · rw [if_neg hv]
    by_cases habs : computeAbsoluteBaseUri chain = []
    · obtain ⟨_, hall⟩ := joined_eq_nil habs
      cases hf : chain.findSome? xmlBase? with
      | none => exact absurd (findSome?_eq_none_iff_xmlBases.mpr hf) hv
      | some v =>
          have hv0 : v = "" := hall v (mem_xmlBases_of_findSome? hf)
          have hjoin : (xmlBases chain).foldl (fun absolute base =>
              if absolute.isEmpty then base.toList
              else resolveUriReference absolute base.toList) [] = [] := habs
          rw [hjoin, habs, if_pos List.isEmpty_nil, hv0]
    · rw [if_neg (by simpa using habs)]
      rfl

/-! ## Inherited attributes by name -/

theorem mem_collectInheritedXmlAttrs {ancestors : List Element} {existing : List Attr} {a : Attr} :
    a ∈ collectInheritedXmlAttrs ancestors existing
      ↔ ∃ name value, ancestors.findSome? (fun e => e.xmlAttr? name) = some value
        ∧ existing.any (isXmlNamed name) = false ∧ a = xmlAttr name value := by
  rw [collectInheritedXmlAttrs, List.mem_filterMap]
  constructor
  · rintro ⟨d, hd, h⟩
    rw [Std.ExtTreeMap.mem_toList_iff_getElem?_eq_some, getElem?_inheritedXml] at hd
    split at h
    · simp at h
    · rename_i hex
      exact ⟨d.1, d.2, hd, Bool.eq_false_iff.mpr hex, (Option.some.inj h).symm⟩
  · rintro ⟨name, value, hv, hex, rfl⟩
    refine ⟨(name, value), ?_, ?_⟩
    · rw [Std.ExtTreeMap.mem_toList_iff_getElem?_eq_some, getElem?_inheritedXml]
      exact hv
    · have hex' : ¬ existing.any (fun a => a.nsUri == Ns.XML && a.localName == name) = true :=
        Bool.eq_false_iff.mp hex
      rw [if_neg hex']
      rfl

theorem isXmlNamed_xmlAttr (name other value : String) :
    isXmlNamed name (xmlAttr other value) = (other == name) := by
  simp [isXmlNamed, xmlAttr]

theorem find?_collectInheritedXmlAttrs (ancestors : List Element) (existing : List Attr)
    (name : String) :
    (collectInheritedXmlAttrs ancestors existing).find? (isXmlNamed name)
      = if existing.any (isXmlNamed name) then none
        else (ancestors.findSome? (fun e => e.xmlAttr? name)).map (xmlAttr name) := by
  have hnamed : ∀ a ∈ collectInheritedXmlAttrs ancestors existing, isXmlNamed name a = true →
      existing.any (isXmlNamed name) = false ∧
        ∃ value, ancestors.findSome? (fun e => e.xmlAttr? name) = some value
          ∧ a = xmlAttr name value := by
    intro a ha hn
    obtain ⟨other, value, hv, hex, rfl⟩ := mem_collectInheritedXmlAttrs.mp ha
    rw [isXmlNamed_xmlAttr, beq_iff_eq] at hn
    subst hn
    exact ⟨hex, value, hv, rfl⟩
  cases hf : (collectInheritedXmlAttrs ancestors existing).find? (isXmlNamed name) with
  | some a =>
      obtain ⟨hex, value, hv, ha⟩ := hnamed a (List.mem_of_find?_eq_some hf) (List.find?_some hf)
      rw [hex, if_neg (by simp), hv, ha]
      rfl
  | none =>
      cases hex : existing.any (isXmlNamed name) with
      | true => rfl
      | false =>
          cases hv : ancestors.findSome? (fun e => e.xmlAttr? name) with
          | none => rfl
          | some value =>
              have hmem := mem_collectInheritedXmlAttrs.mpr ⟨name, value, hv, hex, rfl⟩
              have hnot := List.find?_eq_none.mp hf _ hmem
              simp [isXmlNamed_xmlAttr] at hnot

/-- The merged attributes by name: the element's own value, or the nearest ancestor's. -/
theorem find?_merged (ancestors : List Element) (e : Element) (name : String) :
    (sortAttrs (e.attributes.map attrOf) ++ collectInheritedXmlAttrs ancestors
        (sortAttrs (e.attributes.map attrOf))).find? (isXmlNamed name)
      = ((e.xmlAttr? name).or (ancestors.findSome? (fun a => a.xmlAttr? name))).map
          (xmlAttr name) := by
  rw [List.find?_append, find?_collectInheritedXmlAttrs, any_isXmlNamed, find?_own]
  cases e.xmlAttr? name <;> simp

/-! ## Rewriting `xml:base` -/

/-- A test that does not look at the value of an `xml:base`. -/
theorem filter_replaceXmlBase {p : Attr → Bool} (hp : ∀ a, isXmlBase a = true → p a = false)
    (base : String) (as : List Attr) : (replaceXmlBase base as).filter p = as.filter p := by
  induction as with
  | nil => rfl
  | cons a as ih =>
      rw [replaceXmlBase]
      cases ha : isXmlBase a with
      | true =>
          have ha' : isXmlBase { a with value := base } = true := ha
          rw [if_pos rfl, List.filter_cons, List.filter_cons, hp a ha, hp _ ha']
          simp
      | false => rw [if_neg (by simp), List.filter_cons, List.filter_cons, ih]

theorem find?_replaceXmlBase_other {name : String} (hn : name ≠ "base") (base : String)
    (as : List Attr) :
    (replaceXmlBase base as).find? (isXmlNamed name) = as.find? (isXmlNamed name) := by
  have hp : ∀ a, isXmlBase a = true → isXmlNamed name a = false := by
    intro a ha
    simp only [isXmlBase, Bool.and_eq_true, beq_iff_eq] at ha
    simp [isXmlNamed, ha.2, hn.symm]
  rw [← List.head?_filter, ← List.head?_filter, filter_replaceXmlBase hp]

theorem find?_replaceXmlBase_self (base : String) (as : List Attr) :
    (replaceXmlBase base as).find? isXmlBase
      = (as.find? isXmlBase).map (fun a => { a with value := base }) := by
  induction as with
  | nil => rfl
  | cons a as ih =>
      rw [replaceXmlBase]
      cases ha : isXmlBase a with
      | true =>
          have ha' : isXmlBase { a with value := base } = true := ha
          rw [if_pos rfl, List.find?_cons_of_pos ha', List.find?_cons_of_pos ha]
          rfl
      | false =>
          rw [if_neg (by simp), List.find?_cons_of_neg (by simp [ha]),
            List.find?_cons_of_neg (by simp [ha]), ih]

theorem find?_absolutizeBase_other {name : String} (hn : name ≠ "base") (absBase : List Char)
    (as : List Attr) :
    (absolutizeBase absBase as).find? (isXmlNamed name) = as.find? (isXmlNamed name) := by
  unfold absolutizeBase
  split
  · rfl
  · split
    · exact find?_replaceXmlBase_other hn _ as
    · have hlast : isXmlNamed name ⟨Ns.XML, "base", "xml:base", String.ofList absBase⟩ = false := by
        simp [isXmlNamed, hn.symm]
      rw [List.find?_append, List.find?_cons_of_neg (by simp [hlast]), List.find?_nil,
        Option.or_none]

theorem find?_absolutizeBase_self {as : List Attr} {value : Option String}
    (h : as.find? isXmlBase = value.map (xmlAttr "base")) (absBase : List Char) :
    (absolutizeBase absBase as).find? isXmlBase
      = (if absBase.isEmpty then value else some (String.ofList absBase)).map (xmlAttr "base") := by
  unfold absolutizeBase
  by_cases he : absBase.isEmpty = true
  · rw [if_pos he, if_pos he, h]
  · rw [if_neg he, if_neg he]
    cases value with
    | none =>
        have hany : as.any isXmlBase = false := by
          rw [isXmlBase_eq, any_isXmlNamed, ← isXmlBase_eq, h]
          rfl
        rw [hany, if_neg (by simp), List.find?_append, h, Option.map_none, Option.none_or]
        rfl
    | some v =>
        have hany : as.any isXmlBase = true := by
          rw [isXmlBase_eq, any_isXmlNamed, ← isXmlBase_eq, h]
          rfl
        rw [if_pos hany, find?_replaceXmlBase_self, h]
        rfl

/-! ## How often a name is written -/

theorem countP_le_one {p : Attr → Bool} {as : List Attr}
    (h : as.Pairwise (fun a b => p a = true → p b = false)) : as.countP p ≤ 1 := by
  induction as with
  | nil => simp
  | cons a as ih =>
      rw [List.pairwise_cons] at h
      rw [List.countP_cons]
      cases ha : p a with
      | true =>
          have hnone : as.countP p = 0 := by
            rw [List.countP_eq_zero]
            intro b hb
            simp [h.1 b hb ha]
          simp [hnone]
      | false => simpa using ih h.2

/-- What is inherited is inherited once, and not beside a value of the element's own. -/
theorem countP_merged (ancestors : List Element) (own : List Attr) (name : String) :
    (own ++ collectInheritedXmlAttrs ancestors own).countP (isXmlNamed name)
      ≤ max 1 (own.countP (isXmlNamed name)) := by
  rw [List.countP_append]
  cases hany : own.any (isXmlNamed name) with
  | true =>
      have hnone : (collectInheritedXmlAttrs ancestors own).countP (isXmlNamed name) = 0 := by
        rw [List.countP_eq_zero]
        intro a ha hn
        have hf := find?_collectInheritedXmlAttrs ancestors own name
        rw [hany, if_pos rfl] at hf
        exact List.find?_eq_none.mp hf a ha hn
      omega
  | false =>
      have hown : own.countP (isXmlNamed name) = 0 := by
        rw [List.countP_eq_zero]
        intro a ha hn
        have := List.any_eq_true.mpr ⟨a, ha, hn⟩
        rw [hany] at this
        exact absurd this (by simp)
      have hone : (collectInheritedXmlAttrs ancestors own).countP (isXmlNamed name) ≤ 1 := by
        refine countP_le_one ?_
        rw [collectInheritedXmlAttrs, List.pairwise_filterMap]
        refine (OrdMap.toList_pairwise_ne _).imp ?_
        intro d d' hne a ha b hb hn
        split at ha
        · simp at ha
        · split at hb
          · simp at hb
          · have hla : a.localName = d.1 := (congrArg Attr.localName (Option.some.inj ha)).symm
            have hlb : b.localName = d'.1 := (congrArg Attr.localName (Option.some.inj hb)).symm
            simp only [isXmlNamed, Bool.and_eq_true, beq_iff_eq] at hn
            have hbn : b.localName ≠ name := by
              intro hb'
              exact hne (by rw [← hla, ← hlb, hn.2, hb'])
            simp [isXmlNamed, hbn]
      omega

theorem countP_replaceXmlBase (name base : String) (as : List Attr) :
    (replaceXmlBase base as).countP (isXmlNamed name) = as.countP (isXmlNamed name) := by
  induction as with
  | nil => rfl
  | cons a as ih =>
      rw [replaceXmlBase]
      split
      · rw [List.countP_cons, List.countP_cons]
        rfl
      · rw [List.countP_cons, List.countP_cons, ih]

theorem countP_absolutizeBase (name : String) (absBase : List Char) (as : List Attr) :
    (absolutizeBase absBase as).countP (isXmlNamed name)
      ≤ max 1 (as.countP (isXmlNamed name)) := by
  unfold absolutizeBase
  split
  · omega
  · split
    · rw [countP_replaceXmlBase]
      omega
    · rename_i hany
      rw [List.countP_append, List.countP_singleton]
      by_cases hn : name = "base"
      · -- the one that is added is the only one
        have hzero : as.countP (isXmlNamed name) = 0 := by
          rw [List.countP_eq_zero]
          intro a ha hb
          rw [hn] at hb
          exact hany (List.any_eq_true.mpr ⟨a, ha, hb⟩)
        rw [hzero]
        split <;> omega
      · have hother : ¬ isXmlNamed name ⟨Ns.XML, "base", "xml:base", String.ofList absBase⟩ = true := by
          simpa [isXmlNamed] using Ne.symm hn
        rw [if_neg hother]
        omega

/-! ## The apex -/

/-- The attributes written where the parent is left out: the element's own; of each `xml:*` name
that it lacks the value of the nearest ancestor; and for `xml:base` all values joined. -/
structure InheritsXml (e : Element) (ancestors : List Element) (as : List Attr) : Prop where
  others : as.filter (fun a => a.nsUri != Ns.XML)
    = (sortAttrs (e.attributes.map attrOf)).filter (fun a => a.nsUri != Ns.XML)
  named : ∀ name, name ≠ "base" → as.find? (isXmlNamed name)
    = ((e.xmlAttr? name).or (ancestors.findSome? (fun a => a.xmlAttr? name))).map (xmlAttr name)
  base : as.find? (isXmlNamed "base")
    = (joinBases (xmlBases (e :: ancestors))).map (xmlAttr "base")
  once : ∀ name, as.countP (isXmlNamed name)
    ≤ max 1 ((sortAttrs (e.attributes.map attrOf)).countP (isXmlNamed name))

theorem filter_collectInheritedXmlAttrs (ancestors : List Element) (existing : List Attr) :
    (collectInheritedXmlAttrs ancestors existing).filter (fun a => a.nsUri != Ns.XML) = [] := by
  rw [List.filter_eq_nil_iff]
  intro a ha
  obtain ⟨name, value, _, _, rfl⟩ := mem_collectInheritedXmlAttrs.mp ha
  simp [xmlAttr]

theorem filter_absolutizeBase (absBase : List Char) (as : List Attr) :
    (absolutizeBase absBase as).filter (fun a => a.nsUri != Ns.XML)
      = as.filter (fun a => a.nsUri != Ns.XML) := by
  have hp : ∀ a, isXmlBase a = true → (a.nsUri != Ns.XML) = false := by
    intro a ha
    simp only [isXmlBase, Bool.and_eq_true, beq_iff_eq] at ha
    simp [ha.1]
  unfold absolutizeBase
  split
  · rfl
  · split
    · exact filter_replaceXmlBase hp _ as
    · rw [List.filter_append]
      simp

/-- **The attributes at the apex**, in 1.1 mode. -/
theorem inheritsXml_apex (withComments : Bool) {s : NodeSet} (hex : s.excludesAttrs = false)
    {path : List (NodeId × Element)} (hp : parentNotVisible (some s) path = true) (e : Element) :
    InheritsXml e (path.map Prod.snd) (attrsToRender ⟨withComments, some s, true⟩ path e) := by
  have hattrs : attrsToRender ⟨withComments, some s, true⟩ path e
      = sortAttrs (absolutizeBase (computeAbsoluteBaseUri (e :: path.map Prod.snd))
          (sortAttrs (e.attributes.map attrOf)
            ++ collectInheritedXmlAttrs (path.map Prod.snd)
                (sortAttrs (e.attributes.map attrOf)))) := by
    simp [attrsToRender, hex, hp]
  rw [hattrs]
  constructor
  · rw [sortAttrs, List.filter_insertionSort, filter_absolutizeBase, List.filter_append,
      filter_collectInheritedXmlAttrs, List.append_nil]
    show List.insertionSort Attr.le (List.filter _ (sortAttrs _)) = _
    rw [← List.filter_insertionSort]
    exact congrArg _ (sortAttrs_sortAttrs _)
  · intro name hn
    rw [find?_sortAttrs, find?_absolutizeBase_other hn, find?_merged]
  · rw [find?_sortAttrs, joinBases_eq, ← isXmlBase_eq,
      find?_absolutizeBase_self (find?_merged (path.map Prod.snd) e "base"),
      List.findSome?_cons]
    cases hb : xmlBase? e with
    | none =>
        have hb' : e.xmlAttr? "base" = none := hb
        rw [hb', Option.none_or]
        rfl
    | some v =>
        have hb' : e.xmlAttr? "base" = some v := hb
        rw [hb', Option.some_or]
  · intro name
    have hsort : ∀ l : List Attr, (sortAttrs l).countP (isXmlNamed name)
        = l.countP (isXmlNamed name) := fun l => (List.perm_insertionSort Attr.le l).countP_eq _
    have h1 := countP_absolutizeBase name (computeAbsoluteBaseUri (e :: path.map Prod.snd))
      (sortAttrs (e.attributes.map attrOf) ++ collectInheritedXmlAttrs (path.map Prod.snd)
        (sortAttrs (e.attributes.map attrOf)))
    have h2 := countP_merged (path.map Prod.snd) (sortAttrs (e.attributes.map attrOf)) name
    rw [hsort]
    omega

/-- Where the parent is in the set, or there is none, the element writes its own attributes. -/
theorem attrsToRender_below (withComments : Bool) (s : Option NodeSet)
    (hex : s.any NodeSet.excludesAttrs = false) {path : List (NodeId × Element)}
    (hp : ∀ p, path.head? = some p → isVisible s p.1 = true) (e : Element) :
    attrsToRender ⟨withComments, s, true⟩ path e = sortAttrs (e.attributes.map attrOf) := by
  cases path with
  | nil =>
      cases s with
      | none => simp [attrsToRender]
      | some s =>
          rw [attrsToRender_whole withComments true (by simpa using hex) (by simp) e]
          simp [attrsToRender]
  | cons p path =>
      have hvis := hp p rfl
      simp [attrsToRender, hex, parentNotVisible, hvis]

end Inclusive

/-- **What 1.1 mode writes at each element of a document subset.** -/
theorem c14n11_attributes (doc : Document) (mode : C14nMode) (hm : mode.isC14n11 = true)
    (s : Option NodeSet) (ps : List String) :
    canonicalText doc mode s ps = WrittenTree.chars (writtenTree doc mode s ps)
    ∧ ∀ n ∈ (writtenTree doc mode s ps).cursors [], ∀ t kids, n.item = .node t kids →
      ∃ c ∈ doc.descendants, c.key = n.key ∧ ∃ e, Node.element? c = some e ∧
        (s.any NodeSet.excludesAttrs = true → t.attrs = [])
        ∧ (s.any NodeSet.excludesAttrs = false →
            (∀ p, Node.parentElement? c = some p → isVisible s p.1 = true) →
            t.attrs = sortAttrs (e.attributes.map Inclusive.attrOf))
        ∧ (s.any NodeSet.excludesAttrs = false →
            (∃ p, Node.parentElement? c = some p ∧ isVisible s p.1 = false) →
            Inclusive.InheritsXml e (c.path.map Prod.snd) t.attrs) := by
  refine ⟨canonicalText_eq_chars doc mode s ps, ?_⟩
  intro n hn t kids hi
  obtain ⟨c, hc, e, hw⟩ := exists_source hn hi
  obtain ⟨kids', hi'⟩ := hw.source
  have hx : mode.isExclusive = false := by cases mode <;> simp_all [C14nMode.isC14n11,
    C14nMode.isExclusive]
  have htag : t.attrs = Inclusive.attrsToRender ⟨mode.withComments, s, true⟩ c.path e := by
    rw [hw.tag, writerOf, if_neg (by simp [hx]), hm]
    rfl
  refine ⟨c, hc, hw.key.symm, e, by simp [Node.element?, hi'], ?_, ?_, ?_⟩
  · intro hex
    rw [htag]
    exact Inclusive.attrsToRender_excluded hex c.path e
  · intro hex hp
    rw [htag]
    exact Inclusive.attrsToRender_below mode.withComments s hex hp e
  · intro hex hp
    obtain ⟨p, hp, hv⟩ := hp
    rw [htag]
    cases s with
    | none => simp [isVisible] at hv
    | some s =>
        refine Inclusive.inheritsXml_apex mode.withComments (by simpa using hex) ?_ e
        -- the parent is the head of the chain
        have hhead : c.path.head? = some p := hp
        cases hpath : c.path with
        | nil => rfl
        | cons q path =>
            rw [hpath, List.head?_cons, Option.some.injEq] at hhead
            rw [Inclusive.parentNotVisible, hhead, hv]
            rfl

/-- `<a xml:base="http://h/x/" xml:id="i"><b xml:base="y/"><c/></b></a>`. -/
def sampleBases : Document where
  root := 0
  top := .node 1 ⟨⟨none, "a", none⟩,
      [⟨⟨some "xml", "base", some Ns.XML⟩, "http://h/x/"⟩, ⟨⟨some "xml", "id", some Ns.XML⟩, "i"⟩], []⟩
    (.node 2 ⟨⟨none, "b", none⟩, [⟨⟨some "xml", "base", some Ns.XML⟩, "y/"⟩], []⟩
      (.node 3 ⟨⟨none, "c", none⟩, [], []⟩ .nil .nil) .nil) .nil
  nodup := by decide

/-- The outer and the inner element of the sample. -/
def sampleOuterInner : NodeSet := NodeSet.fromIds {1, 3} .normal

theorem c14n11_attributes_sample :
    canonicalText sampleBases .inclusive11 (some sampleOuterInner) []
        = WrittenTree.chars (writtenTree sampleBases .inclusive11 (some sampleOuterInner) [])
    ∧ ∀ n ∈ (writtenTree sampleBases .inclusive11 (some sampleOuterInner) []).cursors [],
      ∀ t kids, n.item = .node t kids →
      ∃ c ∈ sampleBases.descendants, c.key = n.key ∧ ∃ e, Node.element? c = some e ∧
        ((some sampleOuterInner).any NodeSet.excludesAttrs = true → t.attrs = [])
        ∧ ((some sampleOuterInner).any NodeSet.excludesAttrs = false →
            (∀ p, Node.parentElement? c = some p → isVisible (some sampleOuterInner) p.1 = true) →
            t.attrs = sortAttrs (e.attributes.map Inclusive.attrOf))
        ∧ ((some sampleOuterInner).any NodeSet.excludesAttrs = false →
            (∃ p, Node.parentElement? c = some p
              ∧ isVisible (some sampleOuterInner) p.1 = false) →
            Inclusive.InheritsXml e (c.path.map Prod.snd) t.attrs) :=
  c14n11_attributes sampleBases .inclusive11 rfl (some sampleOuterInner) []

/-- The inner element is given the `xml:id` of the outer one, and an `xml:base` joined with that
of the outer one, which is in the set and writes it itself. -/
theorem outer_base_and_id_inherited :
    canonicalText sampleBases .inclusive11 (some sampleOuterInner) []
        = ("<a xml:base=\"http://h/x/\" xml:id=\"i\">"
            ++ "<c xml:base=\"http://h/x/y/\" xml:id=\"i\"></c></a>").toList
    ∧ ∃ n ∈ (writtenTree sampleBases .inclusive11 (some sampleOuterInner) []).cursors [],
        n.key = 3 ∧ ∃ t, n.item = .node t .nil
          ∧ t.attrs.find? (isXmlNamed "id") ≠ none
          ∧ t.attrs.find? (isXmlNamed "base") ≠ (joinBases ["y/"]).map (xmlAttr "base") := by
  refine ⟨by decide +kernel, ?_⟩
  refine ⟨⟨3, [(1, ⟨"a".toList, [], [xmlAttr "base" "http://h/x/", xmlAttr "id" "i"]⟩)],
    .node ⟨"c".toList, [], [xmlAttr "base" "http://h/x/y/", xmlAttr "id" "i"]⟩ .nil⟩,
    by decide +kernel, rfl, _, rfl, by decide, by decide +kernel⟩

end Bergshamra
