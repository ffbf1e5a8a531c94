import Bergshamra.Xml.Document
import Bergshamra.Lib.Text

/-!
# References by id

`xpath.rs`, and the map from id values to elements that `build_id_map` makes of
a document. The map is the list of its entries in the order they were inserted;
a value that occurs twice is an error, so no entry hides another.
-/

namespace Bergshamra

/-- `str::starts_with`. -/
def startsWithStr (pat s : String) : Bool := Text.startsWith pat.toList s.toList

/-- `str::trim`. -/
def trimStr (s : String) : String := String.ofList (Text.trim s.toList)

/-- `s.chars().filter(|c| !c.is_whitespace()).collect()`. -/
def withoutWhitespace (s : String) : String :=
  String.ofList (s.toList.filter (fun c => !Text.isWhitespace c))

/-- `parse_same_document_ref`. -/
def parseSameDocumentRef (uri : String) : Option String :=
  (Text.stripPrefix? ['#'] uri.toList).map String.ofList

/-- The character `'`. -/
def apostrophe : Char := Char.ofNat 39

/-- `parse_xpointer_id`. -/
def parseXPointerId (expr : String) : Option String :=
  match Text.stripPrefix? ("xpointer(id(".toList ++ [apostrophe]) expr.toList with
  | some inner => (Text.stripSuffix? (apostrophe :: "))".toList) inner).map String.ofList
  | none =>
      match Text.stripPrefix? "xpointer(id(\"".toList expr.toList with
      | some inner => (Text.stripSuffix? "\"))".toList inner).map String.ofList
      | none => none

/-- `HashMap<String, NodeId>`. -/
abbrev IdMap := List (String × Node)

/-- `HashMap::get`. -/
def IdMap.get? (m : IdMap) (id : String) : Option Node :=
  (m.find? (fun p : String × Node => p.1 == id)).map Prod.snd

/-- The id values of a document with the elements that carry them, in document order. -/
def idEntries (up : Uppsala) (attrNames : List String) (doc : Document) : List (String × Node) :=
  doc.descendants.flatMap (fun n : Node =>
    match n.element? with
    | none => []
    | some e =>
        (attrNames ++ ["xml:id"]).filterMap (fun a => (up.getAttribute e a).map (fun v => (v, n))))

/-- Insert entries; stop at a value the map has already. -/
def insertIds (m : IdMap) : List (String × Node) → Except Error IdMap
  | [] => .ok m
  | p :: ps =>
      if (m.get? p.1).isSome then .error (.xmlStructure ("duplicate ID: " ++ p.1))
      else insertIds (m ++ [p]) ps

/-- The values that `values` reads off the elements, with the elements, in document order. -/
def entriesBy (values : Element → List String) (doc : Document) : List (String × Node) :=
  doc.descendants.flatMap (fun n : Node =>
    match n.element? with
    | none => []
    | some e => (values e).map (fun v => (v, n)))

/-- `HashMap::insert`, which replaces. -/
def IdMap.insert (m : IdMap) (p : String × Node) : IdMap :=
  m.filter (fun q : String × Node => q.1 != p.1) ++ [p]

/-- `build_id_map`. -/
def buildIdMap (up : Uppsala) (doc : Document) (attrNames : List String) : Except Error IdMap :=
  insertIds [] (idEntries up attrNames doc)

/-- `resolve_id`. -/
def resolveId (idMap : IdMap) (id : String) : Except Error Node :=
  match idMap.get? id with
  | some n => .ok n
  | none => .error (.invalidUri ("ID not found: " ++ id))

/-- `is_ancestor_or_self`, for a target below the document node. -/
def isAncestorOrSelf (ancestor node : Node) : Bool :=
  node.key == ancestor.key || node.path.any (fun a => a.1 == ancestor.key)

/-- The id of the parent; the document node has one too. -/
def Document.parentId (doc : Document) (n : Node) : NodeId :=
  match n.path with
  | p :: _ => p.1
  | [] => doc.root

/-- `is_sibling`. -/
def isSibling (doc : Document) (a b : Node) : Bool := doc.parentId a == doc.parentId b

/-- With no error, the map is exactly the entries. -/
theorem insertIds_ok {m m' : IdMap} {ps : List (String × Node)} (h : insertIds m ps = .ok m') :
    m' = m ++ ps := by
  induction ps generalizing m with
  | nil =>
      rw [insertIds, Except.ok.injEq] at h
      simp [h]
  | cons p ps ih =>
      rw [insertIds] at h
      split at h
      · simp at h
      · rw [ih h]
        simp

theorem buildIdMap_ok {up : Uppsala} {doc : Document} {attrNames : List String} {m : IdMap}
    (h : buildIdMap up doc attrNames = .ok m) : m = idEntries up attrNames doc := by
  rw [insertIds_ok h, List.nil_append]

theorem IdMap.mem_of_get? {m : IdMap} {id : String} {n : Node} (h : m.get? id = some n) :
    (id, n) ∈ m := by
  unfold IdMap.get? at h
  rw [Option.map_eq_some_iff] at h
  obtain ⟨p, hp, rfl⟩ := h
  have hk : p.1 = id := by simpa using List.find?_some hp
  rw [← hk]
  exact List.mem_of_find?_eq_some hp

/-- An entry is a node of the document. -/
theorem mem_idEntries {up : Uppsala} {attrNames : List String} {doc : Document} {id : String}
    {n : Node} (h : (id, n) ∈ idEntries up attrNames doc) : n ∈ doc.descendants := by
  unfold idEntries at h
  rw [List.mem_flatMap] at h
  obtain ⟨m, hm, hin⟩ := h
  cases he : m.element? with
  | none => simp [he] at hin
  | some e =>
      simp only [he, List.mem_filterMap, Option.map_eq_some_iff] at hin
      obtain ⟨_, _, v, _, hv⟩ := hin
      rw [Prod.mk.injEq] at hv
      exact hv.2 ▸ hm

end Bergshamra
