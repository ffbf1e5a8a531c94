import Bergshamra.Dsig.Transform
import Bergshamra.Lib.Sort
import Mathlib.Data.String.Basic

/-!
# The relationship transform

What is written depends on the relationships of the part and on what the references
name, not on the order of either. The values of the references are only ever searched,
so that the set of references decides what is selected. And where no two relationships
have one Id, sorting by Id tells all of them apart, so that the order of the part is
lost.
-/

namespace Bergshamra

section

variable (up : Uppsala)

/-- The reference children of the transform. -/
def referenceElements (transformNode : Node) : List Element :=
  (transformNode.children.filterMap Node.element?).filter fun e =>
    e.isNamed Ns.RELATIONSHIP_REFERENCE "RelationshipReference"
      || e.isNamed Ns.RELATIONSHIP_REFERENCE "RelationshipsGroupReference"

/-- The Relationship children of an element. -/
def relationshipElements (root : Node) : List Element :=
  (root.children.filterMap Node.element?).filter fun e =>
    e.isNamed Ns.RELATIONSHIPS "Relationship"

/-- A reference selects a relationship: by its Id, or by its Type. -/
def refersTo (ref e : Element) : Bool :=
  (ref.isNamed Ns.RELATIONSHIP_REFERENCE "RelationshipReference"
      && up.getAttribute ref "SourceId" == some ((up.getAttribute e "Id").getD ""))
    || (ref.isNamed Ns.RELATIONSHIP_REFERENCE "RelationshipsGroupReference"
      && up.getAttribute ref "SourceType" == some ((up.getAttribute e "Type").getD ""))

/-- One of the references selects the relationship. -/
def isSelected (refs : List Element) (e : Element) : Bool :=
  refs.any fun ref => refersTo up ref e

end

variable {up : Uppsala}

/-! ## Selection -/

/-- What a list of nodes gives through its elements. -/
theorem filterMap_element {β : Type} (p : Element → Bool) (f : Element → Option β)
    (nodes : List Node) :
    nodes.filterMap (fun c : Node => c.element?.bind (fun e => if p e then f e else none))
      = ((nodes.filterMap Node.element?).filter p).filterMap f := by
  rw [List.filterMap_filter, List.filterMap_filterMap]

theorem mem_referenceValues {transformNode : Node} {localName attrName value : String}
    (hname : localName = "RelationshipReference" ∨ localName = "RelationshipsGroupReference") :
    value ∈ referenceValues up transformNode localName attrName
      ↔ ∃ ref ∈ referenceElements transformNode,
          ref.isNamed Ns.RELATIONSHIP_REFERENCE localName = true
            ∧ up.getAttribute ref attrName = some value := by
  rw [referenceValues, filterMap_element]
  simp only [referenceElements, List.mem_filterMap, List.mem_filter, Bool.or_eq_true]
  constructor
  · rintro ⟨ref, ⟨hmem, hnamed⟩, hvalue⟩
    refine ⟨ref, ⟨hmem, ?_⟩, hnamed, hvalue⟩
    rcases hname with rfl | rfl
    · exact Or.inl hnamed
    · exact Or.inr hnamed
  · rintro ⟨ref, ⟨hmem, -⟩, hnamed, hvalue⟩
    exact ⟨ref, ⟨hmem, hnamed⟩, hvalue⟩

/-- The two lists of values are searched for what the references select. -/
theorem selected_iff (transformNode : Node) (e : Element) :
    ((referenceValues up transformNode "RelationshipReference" "SourceId").contains
        (relInfoOf up e).id
      || (referenceValues up transformNode "RelationshipsGroupReference" "SourceType").contains
        (relInfoOf up e).relType)
      = isSelected up (referenceElements transformNode) e := by
  rw [Bool.eq_iff_iff]
  simp only [Bool.or_eq_true, List.contains_iff_mem, mem_referenceValues (Or.inl rfl),
    mem_referenceValues (Or.inr rfl), isSelected, List.any_eq_true, refersTo,
    Bool.and_eq_true, beq_iff_eq, relInfoOf]
  constructor
  · rintro (⟨ref, hmem, h⟩ | ⟨ref, hmem, h⟩)
    · exact ⟨ref, hmem, Or.inl h⟩
    · exact ⟨ref, hmem, Or.inr h⟩
  · rintro ⟨ref, hmem, h | h⟩
    · exact Or.inl ⟨ref, hmem, h⟩
    · exact Or.inr ⟨ref, hmem, h⟩

/-- The selected relationships, in document order. -/
theorem selectedRels_eq (transformNode root : Node) :
    selectedRels up (referenceValues up transformNode "RelationshipReference" "SourceId")
        (referenceValues up transformNode "RelationshipsGroupReference" "SourceType") root
      = ((relationshipElements root).filter
          (isSelected up (referenceElements transformNode))).map (relInfoOf up) := by
  rw [selectedRels, filterMap_element, List.filterMap_eq_map', List.filter_map]
  congr 1
  exact List.filter_congr fun e _ => selected_iff transformNode e

/-- The set of references decides. -/
theorem isSelected_congr {refs refs' : List Element} (h : ∀ ref, ref ∈ refs ↔ ref ∈ refs')
    (e : Element) : isSelected up refs e = isSelected up refs' e := by
  rw [Bool.eq_iff_iff, isSelected, isSelected, List.any_eq_true, List.any_eq_true]
  simp only [h]

/-! ## Sorting -/

instance : Std.Total RelInfo.le where
  total a b := le_total a.id b.id

instance : IsTrans RelInfo RelInfo.le where
  trans _ _ _ := le_trans

/-- The relationships of a part that the references select. -/
def selectedElements (up : Uppsala) (refs : List Element) (root : Node) : List Element :=
  (relationshipElements root).filter (isSelected up refs)

/-- By the Id, as the relationships are sorted. -/
def relationshipLe (up : Uppsala) (a b : Element) : Prop :=
  RelInfo.le (relInfoOf up a) (relInfoOf up b)

instance (up : Uppsala) : DecidableRel (relationshipLe up) :=
  fun _ _ => inferInstanceAs (Decidable (_ ≤ _))

instance (up : Uppsala) : Std.Total (relationshipLe up) where
  total _ _ := Std.Total.total (r := RelInfo.le) _ _

instance (up : Uppsala) : IsTrans Element (relationshipLe up) where
  trans _ _ _ := le_trans

/-- The selected relationships in the order they are written in. -/
def sortedElements (up : Uppsala) (refs : List Element) (root : Node) : List Element :=
  (selectedElements up refs root).insertionSort (relationshipLe up)

/-- The Id of a relationship. -/
def relationshipId (up : Uppsala) (e : Element) : String := (up.getAttribute e "Id").getD ""

/-- The Ids of the relationships of the part. -/
def relationshipIds (up : Uppsala) (root : Node) : List String :=
  (relationshipElements root).map (relationshipId up)

theorem perm_sortedElements (up : Uppsala) (refs : List Element) (root : Node) :
    (sortedElements up refs root).Perm (selectedElements up refs root) :=
  List.perm_insertionSort _ _

/-- Sorting what the elements state is sorting the elements. -/
theorem map_sortedElements (up : Uppsala) (refs : List Element) (root : Node) :
    (sortedElements up refs root).map (relInfoOf up)
      = ((selectedElements up refs root).map (relInfoOf up)).insertionSort RelInfo.le :=
  List.map_insertionSort _ _ _ _ (fun _ _ _ _ => Iff.rfl)

variable {root : Node}

theorem selectedIds_nodup (h : (relationshipIds up root).Nodup) (refs : List Element) :
    ((selectedElements up refs root).map (relationshipId up)).Nodup :=
  h.sublist ((List.filter_sublist).map _)

/-- No two relationships are written with one Id, and the Ids increase. -/
theorem sortedElements_increase (h : (relationshipIds up root).Nodup) (refs : List Element) :
    (sortedElements up refs root).Pairwise
      fun a b => relationshipId up a < relationshipId up b := by
  have hsorted := List.pairwise_insertionSort (relationshipLe up) (selectedElements up refs root)
  have hids := (((perm_sortedElements up refs root).map (relationshipId up)).nodup_iff).mpr
    (selectedIds_nodup h refs)
  have hne : (sortedElements up refs root).Pairwise
      fun a b => relationshipId up a ≠ relationshipId up b := List.pairwise_map.mp hids
  exact (hsorted.and hne).imp fun h => lt_of_le_of_ne h.1 h.2

/-- The order of the relationships and of the references is lost. -/
theorem sortedElements_congr {root' : Node} {refs refs' : List Element}
    (h : (relationshipIds up root).Nodup)
    (hrels : (relationshipElements root').Perm (relationshipElements root))
    (hrefs : ∀ ref, ref ∈ refs' ↔ ref ∈ refs) :
    sortedElements up refs' root' = sortedElements up refs root := by
  have hsel : isSelected up refs' = isSelected up refs := funext (isSelected_congr hrefs)
  rw [sortedElements, sortedElements, selectedElements, selectedElements, hsel]
  refine (List.insertionSort_eq_of_perm (hrels.filter _).symm ?_).symm
  intro a ha b hb hab hba
  exact List.inj_on_of_nodup_map (selectedIds_nodup h refs) ha hb (le_antisymm hab hba)

/-! ## The transform -/

/-- The data are the text of a part with this document element. -/
def IsPart (lib : TransformLibs) (data : TransformData) (root : Node) : Prop :=
  ∃ xmlText nodeSet doc, data.asXml? = some (xmlText, nodeSet) ∧ lib.parse xmlText = .ok doc
    ∧ doc.documentElement = some root

theorem applyRelationshipTransform_eq {lib : TransformLibs} {data : TransformData}
    (h : IsPart lib data root) (transformNode : Node) :
    applyRelationshipTransform lib data transformNode
      = .ok (.binary (writeRelationships lib ((sortedElements lib.toUppsala
          (referenceElements transformNode) root).map (relInfoOf lib.toUppsala))).toUTF8) := by
  obtain ⟨xmlText, nodeSet, doc, hxml, hparse, hroot⟩ := h
  have htext : ∀ mapErr, inputText lib mapErr data = .ok xmlText := by
    intro mapErr
    cases data with
    | xml text s =>
        cases hxml
        rfl
    | binary bytes =>
        obtain ⟨text, hutf8, heq⟩ := Option.map_eq_some_iff.mp hxml
        cases heq
        exact fromUtf8_ok.mpr hutf8
  rw [applyRelationshipTransform, htext]
  simp only [bind, Except.bind]
  rw [hparse]
  dsimp only
  rw [hroot]
  dsimp only
  rw [selectedRels_eq, map_sortedElements, selectedElements]

/-- **What the relationship transform writes**, for a part whose Ids are distinct: a root element
around one empty element for each of the selected relationships, by increasing Id, with its Id, its
Target, the target mode it has, be it by default, and its Type; and the same octets for every order
of the relationships and every order and number of the same references. -/
theorem relationship_transform_exact (lib : TransformLibs) (data : TransformData) (root : Node)
    (hpart : IsPart lib data root) (hids : (relationshipIds lib.toUppsala root).Nodup)
    (transformNode : Node) :
    ∃ written : List Element,
      applyRelationshipTransform lib data transformNode
          = .ok (.binary
            (lib.startElement "Relationships"
                [("xmlns", "http://schemas.openxmlformats.org/package/2006/relationships")]
              ++ String.join (written.map fun e => lib.emptyElementExpanded "Relationship"
                [("Id", (lib.getAttribute e "Id").getD ""),
                  ("Target", (lib.getAttribute e "Target").getD ""),
                  ("TargetMode", (lib.getAttribute e "TargetMode").getD "Internal"),
                  ("Type", (lib.getAttribute e "Type").getD "")])
              ++ lib.endElement "Relationships").toUTF8)
      ∧ written.Perm ((relationshipElements root).filter
          (isSelected lib.toUppsala (referenceElements transformNode)))
      ∧ written.Pairwise (fun a b =>
          (lib.getAttribute a "Id").getD "" < (lib.getAttribute b "Id").getD "")
      ∧ ∀ data' root' transformNode', IsPart lib data' root' →
          (relationshipElements root').Perm (relationshipElements root) →
          (∀ ref, ref ∈ referenceElements transformNode' ↔ ref ∈ referenceElements transformNode) →
          applyRelationshipTransform lib data' transformNode'
            = applyRelationshipTransform lib data transformNode := by
  refine ⟨sortedElements lib.toUppsala (referenceElements transformNode) root, ?_,
    perm_sortedElements _ _ _, sortedElements_increase hids _, ?_⟩
  · rw [applyRelationshipTransform_eq hpart transformNode, writeRelationships, List.map_map]
    rfl
  · intro data' root' transformNode' hpart' hrels hrefs
    rw [applyRelationshipTransform_eq hpart', applyRelationshipTransform_eq hpart,
      sortedElements_congr hids hrels hrefs]

namespace SampleRels

/-- `name="value"` attributes, as the writer writes values without special characters. -/
def writeAttrs (attrs : List (String × String)) : String :=
  String.join (attrs.map fun a => " " ++ a.1 ++ "=\"" ++ a.2 ++ "\"")

def xmlText : String :=
  "<Relationships xmlns=\"http://schemas.openxmlformats.org/package/2006/relationships\">"
    ++ "<Relationship Id=\"r3\" Type=\"image\" Target=\"i.png\"/>"
    ++ "<Relationship Id=\"r2\" Type=\"styles\" Target=\"s.xml\"/>"
    ++ "<Relationship Id=\"r1\" Type=\"slide\" Target=\"t.xml\"/></Relationships>"

def attributeOf (a : String × String) : Attribute := ⟨⟨none, a.1, none⟩, a.2⟩

def relationship (id relType target : String) : Element :=
  ⟨⟨none, "Relationship", some Ns.RELATIONSHIPS⟩,
    [("Id", id), ("Type", relType), ("Target", target)].map attributeOf, []⟩

def partRoot : Node :=
  ⟨1, [], .node ⟨⟨none, "Relationships", some Ns.RELATIONSHIPS⟩, [], [("", Ns.RELATIONSHIPS)]⟩
    (.node 2 (relationship "r3" "image" "i.png") .nil
      (.node 3 (relationship "r2" "styles" "s.xml") .nil
        (.node 4 (relationship "r1" "slide" "t.xml") .nil .nil)))⟩

def doc : Document where
  root := 0
  top := partRoot.toForest
  nodup := by decide

def parsePart (text : String) : Except String Document :=
  if text = xmlText then .ok doc else .error "unexpected"

def lib : TransformLibs :=
  { TransformLibs.ofParser parsePart with
    startElement := fun name attrs => "<" ++ name ++ writeAttrs attrs ++ ">"
    emptyElementExpanded := fun name attrs => "<" ++ name ++ writeAttrs attrs ++ "></" ++ name ++ ">" }

def reference (localName attrName value : String) : Element :=
  ⟨⟨some "mdssi", localName, some Ns.RELATIONSHIP_REFERENCE⟩, [attributeOf (attrName, value)], []⟩

/-- One relationship is named by its Id and by its Type, one by its Id only. -/
def transformNode : Node :=
  ⟨10, [], .node ⟨⟨none, "Transform", some Ns.DSIG⟩, [], []⟩
    (.node 11 (reference "RelationshipReference" "SourceId" "r3") .nil
      (.node 12 (reference "RelationshipsGroupReference" "SourceType" "image") .nil
        (.node 13 (reference "RelationshipReference" "SourceId" "r1") .nil .nil)))⟩

theorem isPart : IsPart lib (.xml xmlText none) partRoot := by
  have hlib : lib.parse = parsePart := rfl
  have hparse : lib.parse xmlText = .ok doc := by
    rw [hlib, parsePart, if_pos (Eq.refl xmlText)]
  exact ⟨xmlText, none, doc, rfl, hparse, rfl⟩

end SampleRels

/-- Two of three relationships are written, the first by Id first. -/
theorem relationship_transform_sample :
    applyRelationshipTransform SampleRels.lib (.xml SampleRels.xmlText none) SampleRels.transformNode
      = .ok (.binary
        ("<Relationships xmlns=\"http://schemas.openxmlformats.org/package/2006/relationships\">"
          ++ "<Relationship Id=\"r1\" Target=\"t.xml\" TargetMode=\"Internal\" Type=\"slide\">"
          ++ "</Relationship>"
          ++ "<Relationship Id=\"r3\" Target=\"i.png\" TargetMode=\"Internal\" Type=\"image\">"
          ++ "</Relationship></Relationships>").toUTF8) := by
  obtain ⟨written, hout, hperm, hsorted, -⟩ :=
    relationship_transform_exact SampleRels.lib _ _ SampleRels.isPart (by decide)
      SampleRels.transformNode
  have hselected : written.Perm [SampleRels.relationship "r1" "slide" "t.xml",
      SampleRels.relationship "r3" "image" "i.png"] := hperm.trans (List.Perm.swap _ _ [])
  have hwritten : written = [SampleRels.relationship "r1" "slide" "t.xml",
      SampleRels.relationship "r3" "image" "i.png"] := by
    refine hselected.eq_of_pairwise ?_ hsorted (by decide)
    intro a b _ _ hab hba
    exact absurd (lt_trans hab hba) (lt_irrefl _)
  rw [hout, hwritten]
  exact congrArg (fun text : String => Except.ok (TransformData.binary text.toUTF8))
    (by decide +kernel)

end Bergshamra
