import Bergshamra.C14n.Inclusive
import Bergshamra.Proof.RenderOrder

/-!
# The `xml:*` attributes by name

The inclusive canonicalizer treats the attributes of the XML namespace one name at
a time: it searches for the element's own, gathers the nearest value of each from
the ancestors, and rewrites `xml:base`. A name is looked up here in an element, in
the map gathered from the ancestors and in a list of attributes to be written.
-/

namespace Bergshamra

/-- The element's own attribute `xml:name`, if it has one. -/
def Element.xmlAttr? (e : Element) (name : String) : Option String :=
  (e.attributes.find? (fun a => a.name.namespaceUri == some Ns.XML
    && a.name.localName == name)).map Attribute.value

/-- The attribute `xml:name` as it is written. -/
def xmlAttr (name value : String) : Attr := ⟨Ns.XML, name, "xml:" ++ name, value⟩

/-- Is this the attribute `xml:name`? -/
def isXmlNamed (name : String) (a : Attr) : Bool := a.nsUri == Ns.XML && a.localName == name

theorem le_of_isXmlNamed {name : String} {a b : Attr} (ha : isXmlNamed name a = true)
    (hb : isXmlNamed name b = true) : Attr.le a b := by
  simp only [isXmlNamed, Bool.and_eq_true, beq_iff_eq] at ha hb
  exact Attr.le_iff.mpr (.inr ⟨ha.1.trans hb.1.symm, le_of_eq (ha.2.trans hb.2.symm)⟩)

/-- Sorting keeps the first attribute of a name first. -/
theorem find?_sortAttrs (name : String) (as : List Attr) :
    (sortAttrs as).find? (isXmlNamed name) = as.find? (isXmlNamed name) :=
  List.find?_insertionSort (fun _ _ => le_of_isXmlNamed) as

theorem any_isXmlNamed (name : String) (as : List Attr) :
    as.any (isXmlNamed name) = (as.find? (isXmlNamed name)).isSome := by
  rw [Bool.eq_iff_iff, List.find?_isSome, List.any_eq_true]

namespace Inclusive

theorem isXmlBase_eq : isXmlBase = isXmlNamed "base" := rfl

theorem xmlBase?_eq (e : Element) : xmlBase? e = e.xmlAttr? "base" := rfl

/-- One attribute after the other, a map keeps the first value of each `xml:*` name. -/
theorem getElem?_foldl_xml (as : List Attribute) (m : NsMap) (name : String) :
    (as.foldl (fun m a =>
        if a.name.namespaceUri = some Ns.XML ∧ m[a.name.localName]? = none then
          m.insert a.name.localName a.value
        else m) m)[name]?
      = m[name]?.or ((as.find? (fun a => a.name.namespaceUri == some Ns.XML
          && a.name.localName == name)).map Attribute.value) := by
  induction as generalizing m with
  | nil => simp
  | cons a as ih =>
      rw [List.foldl_cons, ih, List.find?_cons]
      by_cases hx : a.name.namespaceUri = some Ns.XML
      · by_cases hn : a.name.localName = name
        · subst hn
          cases hm : m[a.name.localName]? with
          | none => simp [hx]
          | some v => simp [hx, hm]
        · have hne : (a.name.localName == name) = false := by simpa using hn
          simp only [hne, Bool.and_false]
          split
          · rw [OrdMap.getElem?_insert_ne m _ (Ne.symm hn)]
          · rfl
      · have hne : (a.name.namespaceUri == some Ns.XML) = false := by simpa using hx
        rw [if_neg (fun h => hx h.1)]
        simp only [hne, Bool.false_and]

/-- The nearest ancestor that has the attribute decides. -/
theorem getElem?_inheritedXml (ancestors : List Element) (name : String) :
    (inheritedXml ancestors)[name]? = ancestors.findSome? (fun e => e.xmlAttr? name) := by
  rw [inheritedXml, getElem?_foldl_xml]
  induction ancestors with
  | nil => simp
  | cons e ancestors ih =>
      rw [List.flatMap_cons, List.find?_append, List.findSome?_cons]
      rw [show (∅ : NsMap)[name]? = none by simp, Option.none_or] at ih ⊢
      unfold Element.xmlAttr? at ih ⊢
      rw [← ih]
      cases e.attributes.find? (fun a => a.name.namespaceUri == some Ns.XML
        && a.name.localName == name) <;> simp

/-! ## The element's own -/

theorem isXmlNamed_attrOf (name : String) (a : Attribute) :
    isXmlNamed name (attrOf a)
      = (a.name.namespaceUri == some Ns.XML && a.name.localName == name) := by
  have huri : (a.name.uri == Ns.XML) = (a.name.namespaceUri == some Ns.XML) := by
    unfold QName.uri
    cases a.name.namespaceUri with
    | none => decide
    | some uri => rfl
  rw [isXmlNamed, ← huri]
  rfl

theorem attrOf_xml {name : String} {a : Attribute}
    (h : (a.name.namespaceUri == some Ns.XML && a.name.localName == name) = true) :
    attrOf a = xmlAttr name a.value := by
  simp only [Bool.and_eq_true, beq_iff_eq] at h
  simp [attrOf, xmlAttr, findAttrPrefix, QName.uri, h.1, h.2]

/-- The element's `xml:name` among its attributes as they are written. -/
theorem find?_own (e : Element) (name : String) :
    (sortAttrs (e.attributes.map attrOf)).find? (isXmlNamed name)
      = (e.xmlAttr? name).map (xmlAttr name) := by
  have hcomp : isXmlNamed name ∘ attrOf
      = fun a => a.name.namespaceUri == some Ns.XML && a.name.localName == name :=
    funext (isXmlNamed_attrOf name)
  rw [find?_sortAttrs, List.find?_map, hcomp]
  unfold Element.xmlAttr?
  cases hf : e.attributes.find? (fun a => a.name.namespaceUri == some Ns.XML
      && a.name.localName == name) with
  | none => rfl
  | some a =>
      have ha : (a.name.namespaceUri == some Ns.XML && a.name.localName == name) = true := by
        simpa using List.find?_some hf
      rw [Option.map_some, Option.map_some, Option.map_some, attrOf_xml ha]

end Inclusive

end Bergshamra
