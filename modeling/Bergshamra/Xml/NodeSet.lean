import Bergshamra.Xml.Document
import Mathlib.Data.Finset.Basic

/-!
# Node sets

A node set is three pieces of state: the listed ids, read through a set type;
an optional visibility map for the namespace nodes, which the tree does not
model as nodes of their own; and a flag that hides every attribute node.

`containsId`, `isNsVisible` and `excludesAttrs` are the three questions the
canonicalizers ask, so the lemmas here say what each operation does to the
answers.
-/

namespace Bergshamra

/-- How the listed ids are read. -/
inductive NodeSetType where
  | normal
  | invert
  | tree
  | treeWithoutComments
  | treeInvert
deriving DecidableEq, Repr

/-- `HashMap<(usize, String), bool>`: (element id, prefix) to visible. -/
abbrev NsVisible := NodeId → String → Option Bool

structure NodeSet where
  nodes : Finset NodeId
  setType : NodeSetType
  nsVisible : Option NsVisible
  excludeAttrs : Bool

namespace NodeSet

/-- `NodeSet::from_ids`. -/
def fromIds (ids : Finset NodeId) (setType : NodeSetType) : NodeSet :=
  ⟨ids, setType, none, false⟩

/-- `NodeSet::all`. -/
def all (doc : Document) : NodeSet :=
  fromIds (insert doc.root doc.top.keys.toFinset) .normal

/-- `NodeSet::all_without_comments`. -/
def allWithoutComments (doc : Document) : NodeSet :=
  fromIds (insert doc.root (doc.top.keysWhere (fun k => !k.isComment)).toFinset) .normal

/-- `collect_subtree`: the node and what lies below it. -/
def collectSubtree (includeComments : Bool) (n : Node) : List NodeId :=
  match n.item with
  | .leaf k => if includeComments || !k.isComment then [n.key] else []
  | .node _ kids => n.key :: kids.keysWhere (fun k => includeComments || !k.isComment)

/-- `NodeSet::tree_without_comments`. -/
def treeWithoutComments (n : Node) : NodeSet :=
  fromIds (collectSubtree false n).toFinset .normal

/-- `NodeSet::tree_with_comments`. -/
def treeWithComments (n : Node) : NodeSet :=
  fromIds (collectSubtree true n).toFinset .normal

/-- `NodeSet::contains_id`. -/
def containsId (s : NodeSet) (id : NodeId) : Bool :=
  match s.setType with
  | .invert => id ∉ s.nodes
  | .normal | .tree | .treeWithoutComments | .treeInvert => id ∈ s.nodes

/-- `NodeSet::insert_id`. -/
def insertId (s : NodeSet) (id : NodeId) : NodeSet := { s with nodes := insert id s.nodes }

/-- `NodeSet::remove_id`. -/
def removeId (s : NodeSet) (id : NodeId) : NodeSet := { s with nodes := s.nodes.erase id }

/-- `merge_ns_visible_intersection`: both must agree. -/
def mergeNsVisibleIntersection : Option NsVisible → Option NsVisible → Option NsVisible
  | none, none => none
  | some m, none => some m
  | none, some m => some m
  | some ma, some mb => some fun id p =>
      if ma id p = some true ∧ (mb id p).getD false then some true else none

/-- `merge_ns_visible_union`: either one suffices. -/
def mergeNsVisibleUnion : Option NsVisible → Option NsVisible → Option NsVisible
  | none, _ => none
  | _, none => none
  | some ma, some mb => some fun id p => if mb id p = some true then some true else ma id p

/-- `merge_ns_visible_subtract`: remove those in the other. -/
def mergeNsVisibleSubtract : Option NsVisible → Option NsVisible → Option NsVisible
  | none, none => none
  | some m, none => some m
  -- all visible minus those in `mb`: the map only records the removed ones
  | none, some mb => some fun id p => if mb id p = some true then some false else none
  | some ma, some mb => some fun id p => if mb id p = some true then some false else ma id p

/-- `NodeSet::intersection`. -/
def intersection (a b : NodeSet) : NodeSet :=
  { nodes := a.nodes ∩ b.nodes
    setType := .normal
    nsVisible := mergeNsVisibleIntersection a.nsVisible b.nsVisible
    excludeAttrs := a.excludeAttrs || b.excludeAttrs }

/-- `NodeSet::union`. -/
def union (a b : NodeSet) : NodeSet :=
  { nodes := a.nodes ∪ b.nodes
    setType := .normal
    nsVisible := mergeNsVisibleUnion a.nsVisible b.nsVisible
    excludeAttrs := a.excludeAttrs && b.excludeAttrs }

/-- `NodeSet::subtract`. -/
def subtract (a b : NodeSet) : NodeSet :=
  { nodes := a.nodes \ b.nodes
    setType := .normal
    nsVisible := mergeNsVisibleSubtract a.nsVisible b.nsVisible
    excludeAttrs := a.excludeAttrs }

/-- `NodeSet::set_ns_visible`. -/
def setNsVisible (s : NodeSet) (map : NsVisible) : NodeSet := { s with nsVisible := some map }

/-- `NodeSet::set_exclude_attrs`. -/
def setExcludeAttrs (s : NodeSet) (val : Bool) : NodeSet := { s with excludeAttrs := val }

/-- `NodeSet::is_ns_visible`. -/
def isNsVisible (s : NodeSet) (id : NodeId) (pfx : String) : Bool :=
  match s.nsVisible with
  | none => true
  | some map => (map id pfx).getD false

/-- `NodeSet::has_ns_visible`. -/
def hasNsVisible (s : NodeSet) : Bool := s.nsVisible.isSome

/-- `NodeSet::excludes_attrs`. -/
def excludesAttrs (s : NodeSet) : Bool := s.excludeAttrs

/-! ## What the constructors contain -/

@[simp] theorem containsId_fromIds_normal (ids : Finset NodeId) (id : NodeId) :
    (fromIds ids .normal).containsId id = decide (id ∈ ids) := rfl

@[simp] theorem isNsVisible_fromIds (ids : Finset NodeId) (t : NodeSetType) (id : NodeId)
    (p : String) : (fromIds ids t).isNsVisible id p = true := rfl

@[simp] theorem excludesAttrs_fromIds (ids : Finset NodeId) (t : NodeSetType) :
    (fromIds ids t).excludesAttrs = false := rfl

@[simp] theorem hasNsVisible_fromIds (ids : Finset NodeId) (t : NodeSetType) :
    (fromIds ids t).hasNsVisible = false := rfl

/-- Only the inverted type reads the listed ids the other way round. -/
theorem containsId_of_ne_invert {s : NodeSet} (h : s.setType ≠ .invert) (id : NodeId) :
    s.containsId id = decide (id ∈ s.nodes) := by
  unfold containsId
  cases ht : s.setType with
  | invert => exact absurd ht h
  | normal => rfl
  | tree => rfl
  | treeWithoutComments => rfl
  | treeInvert => rfl

theorem containsId_of_invert {s : NodeSet} (h : s.setType = .invert) (id : NodeId) :
    s.containsId id = decide (id ∉ s.nodes) := by
  unfold containsId
  rw [h]

theorem isNsVisible_of_not_has {s : NodeSet} (h : s.hasNsVisible = false) (id : NodeId)
    (p : String) : s.isNsVisible id p = true := by
  unfold isNsVisible
  cases hv : s.nsVisible with
  | none => rfl
  | some m => rw [hasNsVisible, hv] at h; exact absurd h (by simp)

/-! ## Combining sets -/

theorem containsId_intersection (a b : NodeSet) (id : NodeId) :
    (a.intersection b).containsId id = decide (id ∈ a.nodes ∧ id ∈ b.nodes) := by
  simp [intersection, containsId]

theorem isNsVisible_intersection (a b : NodeSet) (id : NodeId) (p : String) :
    (a.intersection b).isNsVisible id p = (a.isNsVisible id p && b.isNsVisible id p) := by
  unfold intersection isNsVisible
  cases a.nsVisible with
  | none => cases b.nsVisible <;> simp [mergeNsVisibleIntersection]
  | some ma =>
      cases b.nsVisible with
      | none => simp [mergeNsVisibleIntersection]
      | some mb =>
          simp only [mergeNsVisibleIntersection]
          rcases ma id p with _ | _ | _ <;> rcases mb id p with _ | _ | _ <;> simp

@[simp] theorem excludesAttrs_intersection (a b : NodeSet) :
    (a.intersection b).excludesAttrs = (a.excludesAttrs || b.excludesAttrs) := rfl

end NodeSet

end Bergshamra
