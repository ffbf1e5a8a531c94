import Bergshamra.Xml.NodeSet

/-!
# Which answers the set operations preserve

The operations combine the listed ids and always hand out a normal set, so the
answers of an inverted argument are lost: its list is read the right way round
from then on. A subtraction also combines the two maps of visible namespace
nodes, and there an argument without a map stands for all of them in
`isNsVisible` but for none of them in the result.
-/

namespace Bergshamra

namespace NodeSet

/-! ## The reading of the listed ids -/

/-- What a set answers is what its list says, unless the list is read inverted. -/
theorem containsId_eq (s : NodeSet) (id : NodeId) :
    s.containsId id = (decide (id ∈ s.nodes) ^^ decide (s.setType = .invert)) := by
  by_cases h : s.setType = .invert
  · rw [containsId_of_invert h, decide_eq_true h]
    simp
  · rw [containsId_of_ne_invert h, decide_eq_false h]
    simp

theorem containsId_union (a b : NodeSet) (id : NodeId) :
    (a.union b).containsId id = decide (id ∈ a.nodes ∨ id ∈ b.nodes) := by
  rw [containsId_of_ne_invert (by simp [union])]
  simp [union]

theorem containsId_subtract (a b : NodeSet) (id : NodeId) :
    (a.subtract b).containsId id = decide (id ∈ a.nodes ∧ id ∉ b.nodes) := by
  rw [containsId_of_ne_invert (by simp [subtract])]
  simp [subtract]

/-! ## Where a combination of lists is the combination of the answers -/

/-- Intersecting the lists intersects the answers at `id`: an inverted set meets a plain one
where the plain one does not list the node, and two inverted sets where one of them does. -/
def MeetsAt (a b : NodeSet) (id : NodeId) : Prop :=
  (a.setType = .invert → b.setType ≠ .invert → id ∉ b.nodes)
    ∧ (a.setType ≠ .invert → b.setType = .invert → id ∉ a.nodes)
    ∧ (a.setType = .invert → b.setType = .invert → (id ∈ a.nodes ↔ id ∉ b.nodes))

/-- Uniting the lists unites the answers at `id`. -/
def JoinsAt (a b : NodeSet) (id : NodeId) : Prop :=
  (a.setType = .invert → b.setType ≠ .invert → id ∈ b.nodes)
    ∧ (a.setType ≠ .invert → b.setType = .invert → id ∈ a.nodes)
    ∧ (a.setType = .invert → b.setType = .invert → (id ∈ a.nodes ↔ id ∉ b.nodes))

/-- Subtracting the lists subtracts the answers at `id`. -/
def LeavesAt (a b : NodeSet) (id : NodeId) : Prop :=
  (a.setType = .invert → b.setType ≠ .invert → id ∈ b.nodes)
    ∧ (a.setType ≠ .invert → b.setType = .invert → id ∉ a.nodes)
    ∧ (a.setType = .invert → b.setType = .invert → (id ∈ a.nodes ↔ id ∈ b.nodes))

theorem intersection_iff_meetsAt (a b : NodeSet) (id : NodeId) :
    (a.intersection b).containsId id = (a.containsId id && b.containsId id)
      ↔ MeetsAt a b id := by
  rw [containsId_intersection, containsId_eq, containsId_eq]
  unfold MeetsAt
  by_cases ia : a.setType = .invert <;> by_cases ib : b.setType = .invert <;>
    by_cases ha : id ∈ a.nodes <;> by_cases hb : id ∈ b.nodes <;> simp [ia, ib, ha, hb]

theorem union_iff_joinsAt (a b : NodeSet) (id : NodeId) :
    (a.union b).containsId id = (a.containsId id || b.containsId id) ↔ JoinsAt a b id := by
  rw [containsId_union, containsId_eq, containsId_eq]
  unfold JoinsAt
  by_cases ia : a.setType = .invert <;> by_cases ib : b.setType = .invert <;>
    by_cases ha : id ∈ a.nodes <;> by_cases hb : id ∈ b.nodes <;> simp [ia, ib, ha, hb]

theorem subtract_iff_leavesAt (a b : NodeSet) (id : NodeId) :
    (a.subtract b).containsId id = (a.containsId id && !b.containsId id)
      ↔ LeavesAt a b id := by
  rw [containsId_subtract, containsId_eq, containsId_eq]
  unfold LeavesAt
  by_cases ia : a.setType = .invert <;> by_cases ib : b.setType = .invert <;>
    by_cases ha : id ∈ a.nodes <;> by_cases hb : id ∈ b.nodes <;> simp [ia, ib, ha, hb]

/-! ## Namespace nodes -/

theorem isNsVisible_union (a b : NodeSet) (e : NodeId) (p : String) :
    (a.union b).isNsVisible e p = (a.isNsVisible e p || b.isNsVisible e p) := by
  unfold union isNsVisible
  cases a.nsVisible with
  | none => simp [mergeNsVisibleUnion]
  | some ma =>
      cases b.nsVisible with
      | none => simp [mergeNsVisibleUnion]
      | some mb =>
          simp only [mergeNsVisibleUnion]
          rcases ma e p with _ | _ | _ <;> rcases mb e p with _ | _ | _ <;> simp

/-- Subtracting the maps subtracts the visible namespace nodes at `(e, p)`: without a map
nothing is subtracted, and subtracting from a set without one leaves nothing. -/
def LeavesNsAt (a b : NodeSet) (e : NodeId) (p : String) : Prop :=
  (b.hasNsVisible = false → a.isNsVisible e p = false)
    ∧ (a.hasNsVisible = false → b.hasNsVisible = true → b.isNsVisible e p = true)

theorem subtract_iff_leavesNsAt (a b : NodeSet) (e : NodeId) (p : String) :
    (a.subtract b).isNsVisible e p = (a.isNsVisible e p && !b.isNsVisible e p)
      ↔ LeavesNsAt a b e p := by
  unfold LeavesNsAt subtract isNsVisible hasNsVisible
  cases ha : a.nsVisible with
  | none =>
      cases hb : b.nsVisible with
      | none => simp [mergeNsVisibleSubtract]
      | some mb =>
          simp only [mergeNsVisibleSubtract]
          rcases mb e p with _ | _ | _ <;> simp
  | some ma =>
      cases hb : b.nsVisible with
      | none =>
          simp only [mergeNsVisibleSubtract]
          rcases ma e p with _ | _ | _ <;> simp
      | some mb =>
          simp only [mergeNsVisibleSubtract]
          rcases ma e p with _ | _ | _ <;> rcases mb e p with _ | _ | _ <;> simp

/-! ## One node more or less -/

theorem insertId_self_iff (a : NodeSet) (id : NodeId) :
    (a.insertId id).containsId id = true ↔ a.setType ≠ .invert := by
  rw [containsId_eq]
  by_cases h : a.setType = .invert <;> simp [insertId, h]

theorem removeId_self_iff (a : NodeSet) (id : NodeId) :
    (a.removeId id).containsId id = false ↔ a.setType ≠ .invert := by
  rw [containsId_eq]
  by_cases h : a.setType = .invert <;> simp [removeId, h]

theorem containsId_insertId_ne (a : NodeSet) {id other : NodeId} (h : other ≠ id) :
    (a.insertId id).containsId other = a.containsId other := by
  show (NodeSet.containsId { a with nodes := _ } other) = a.containsId other
  unfold containsId
  cases a.setType <;> simp [h]

theorem containsId_removeId_ne (a : NodeSet) {id other : NodeId} (h : other ≠ id) :
    (a.removeId id).containsId other = a.containsId other := by
  show (NodeSet.containsId { a with nodes := _ } other) = a.containsId other
  unfold containsId
  cases a.setType <;> simp [h]

/-- **The operations against the answers**, pointwise and each with the exact condition. The
visible namespace nodes of a meet and of a join are always right, and so is every membership
but the one that is inserted or removed. -/
theorem algebra_iff (a b : NodeSet) (id e : NodeId) (p : String) :
    ((a.intersection b).containsId id = (a.containsId id && b.containsId id) ↔ MeetsAt a b id)
    ∧ ((a.union b).containsId id = (a.containsId id || b.containsId id) ↔ JoinsAt a b id)
    ∧ ((a.subtract b).containsId id = (a.containsId id && !b.containsId id) ↔ LeavesAt a b id)
    ∧ (a.intersection b).isNsVisible e p = (a.isNsVisible e p && b.isNsVisible e p)
    ∧ (a.union b).isNsVisible e p = (a.isNsVisible e p || b.isNsVisible e p)
    ∧ ((a.subtract b).isNsVisible e p = (a.isNsVisible e p && !b.isNsVisible e p)
        ↔ LeavesNsAt a b e p)
    ∧ ((a.insertId id).containsId id = true ↔ a.setType ≠ .invert)
    ∧ ((a.removeId id).containsId id = false ↔ a.setType ≠ .invert)
    ∧ (∀ other, other ≠ id → (a.insertId id).containsId other = a.containsId other
        ∧ (a.removeId id).containsId other = a.containsId other)
    ∧ (a.insertId id).isNsVisible e p = a.isNsVisible e p
    ∧ (a.removeId id).isNsVisible e p = a.isNsVisible e p :=
  ⟨intersection_iff_meetsAt a b id, union_iff_joinsAt a b id, subtract_iff_leavesAt a b id,
    isNsVisible_intersection a b e p, isNsVisible_union a b e p, subtract_iff_leavesNsAt a b e p,
    insertId_self_iff a id, removeId_self_iff a id,
    fun _ h => ⟨containsId_insertId_ne a h, containsId_removeId_ne a h⟩, rfl, rfl⟩

/-- All nodes, written as all but none, against node 1: both hold node 1 and their meet does
not, although the difference of their namespace nodes should be visible at node 2 it is hidden,
and node 1 is gone once it is inserted. -/
theorem all_but_none_against_one :
    let all := fromIds ∅ .invert
    let one := fromIds {1} .normal
    let hidden := one.setNsVisible (fun _ _ => none)
    (all.intersection one).containsId 1 ≠ (all.containsId 1 && one.containsId 1)
    ∧ (all.subtract hidden).isNsVisible 2 "" ≠ (all.isNsVisible 2 "" && !hidden.isNsVisible 2 "")
    ∧ (all.insertId 1).containsId 1 ≠ true := by
  refine ⟨?_, ?_, ?_⟩
  · simp [intersection, containsId, fromIds]
  · simp [subtract, isNsVisible, setNsVisible, fromIds, mergeNsVisibleSubtract]
  · simp [insertId, containsId, fromIds]

end NodeSet

end Bergshamra
