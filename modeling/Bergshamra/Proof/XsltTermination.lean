import Bergshamra.Dsig.XsltCalls
import Mathlib.Algebra.Order.Monoid.Unbundled.WithTop
import Mathlib.Data.Prod.Lex
import Mathlib.Order.WithBot

/-!
# The XSLT processor terminates

Every call is on the node it comes from or on a node below it, and where it is on the
same node the template's body gets smaller, except when a template is entered
(`Descends`). A template is only entered for a node that templates were applied to,
and within a body that node is a node below. So the size of the input subtree and the
size of the body decrease lexicographically, where applying templates comes above
every body (`measure_lt`). What the calls return is what `applyTemplates` and
`executeBody` compute by recursion on the two trees.
-/

namespace Bergshamra

namespace Xslt

/-! ## Smaller subtrees -/

/-- A node strictly below another; its subtree has fewer nodes. -/
structure Smaller (m n : Node) : Prop where
  below : m ∈ n.descendants
  size : m.subtreeKeys.length < n.subtreeKeys.length

theorem Smaller.of_below {m n : Node} (h : m ∈ n.descendants) : Smaller m n := by
  refine ⟨h, ?_⟩
  have hle := (Forest.subtreeKeys_sublist h).length_le
  rw [Forest.Cursor.subtreeKeys, Forest.Cursor.subtreeKeys, List.length_cons, List.length_cons]
  rw [Forest.Cursor.subtreeKeys, List.length_cons] at hle
  omega

theorem Smaller.of_child {m n : Node} (h : m ∈ n.children) : Smaller m n :=
  Smaller.of_below ((Forest.row_sublist _ _).subset h)

theorem Smaller.trans {l m n : Node} (h₁ : Smaller l m) (h₂ : Smaller m n) : Smaller l n :=
  Smaller.of_below (Forest.mem_cursors_descendants h₂.below h₁.below)

theorem Smaller.irrefl (n : Node) : ¬ Smaller n n := fun h => Nat.lt_irrefl _ h.size

/-! ## What a call can do -/

/-- The input node of a call. -/
def Call.node : Call → Node
  | .applyTemplatesToNode node => node
  | .executeBody _ contextNode => contextNode

/-- The calls of a call: a template is entered with the node it is for, templates are applied to a
smaller part of the input, or a smaller part of the body is executed. -/
inductive Descends (st : Stylesheet) : Call → Call → Prop where
  | enter {tmpl node : Node} (h : tmpl ∈ st.templates) :
      Descends st (.applyTemplatesToNode node) (.executeBody tmpl node)
  | byDefault {child node : Node} (h : Smaller child node) :
      Descends st (.applyTemplatesToNode node) (.applyTemplatesToNode child)
  | apply {body child contextNode : Node} (h : Smaller child contextNode) :
      Descends st (.executeBody body contextNode) (.applyTemplatesToNode child)
  | inside {inner body contextNode : Node} (h : Smaller inner body) :
      Descends st (.executeBody body contextNode) (.executeBody inner contextNode)

variable {up : Uppsala} {st : Stylesheet}

theorem mem_templates {node tmpl : Node} (h : matchingTemplate up st node = some tmpl) :
    tmpl ∈ st.templates := by
  obtain ⟨e, -, hfind⟩ := Option.bind_eq_some_iff.mp h
  exact List.mem_of_find?_eq_some hfind

theorem selectedChildren_subset (contextNode : Node) (select : Option String) :
    selectedChildren contextNode select ⊆ contextNode.children := by
  intro ch hch
  cases select with
  | none => exact hch
  | some sel => exact List.mem_of_mem_filter hch

/-- One child of a body. -/
theorem childCallees_descends {body contextNode child : Node} (hchild : child ∈ body.children)
    {d : Call} (hd : d ∈ childCallees up contextNode child) :
    Descends st (.executeBody body contextNode) d := by
  unfold childCallees at hd
  cases hitem : child.item with
  | leaf k =>
      rw [hitem] at hd
      cases hd
  | node e kids =>
      rw [hitem] at hd
      dsimp only at hd
      split_ifs at hd with hxsl happly hvalue hcopy
      · obtain ⟨ch, hch, rfl⟩ := List.mem_map.mp hd
        exact .apply (Smaller.of_child (selectedChildren_subset _ _ hch))
      · cases hd
      · cases hcontext : contextNode.item with
        | leaf k =>
            rw [hcontext] at hd
            cases hd
        | node e' kids' =>
            rw [hcontext] at hd
            obtain rfl := List.mem_singleton.mp hd
            exact .inside (Smaller.of_child hchild)
      · cases hd
      · obtain rfl := List.mem_singleton.mp hd
        exact .inside (Smaller.of_child hchild)

/-- **What a step can do.** -/
theorem descends_of_calls {c d : Call} (h : (calls up st).Calls c d) : Descends st c d := by
  replace h : d ∈ callees up st c := h
  cases c with
  | applyTemplatesToNode node =>
      rw [callees] at h
      cases htmpl : matchingTemplate up st node with
      | some tmpl =>
          rw [htmpl] at h
          obtain rfl := List.mem_singleton.mp h
          exact .enter (mem_templates htmpl)
      | none =>
          rw [htmpl] at h
          cases hitem : node.item with
          | leaf k =>
              rw [hitem] at h
              cases h
          | node e kids =>
              rw [hitem] at h
              obtain ⟨child, hchild, rfl⟩ := List.mem_map.mp h
              exact .byDefault (Smaller.of_child hchild)
  | executeBody body contextNode =>
      obtain ⟨child, hchild, hd⟩ := List.mem_flatMap.mp h
      exact childCallees_descends hchild hd

/-! ## The measure -/

/-- The size of the input subtree, then that of the body. -/
def Call.measure : Call → Nat ×ₗ WithTop Nat
  | .applyTemplatesToNode node => toLex (node.subtreeKeys.length, ⊤)
  | .executeBody body contextNode =>
      toLex (contextNode.subtreeKeys.length, body.subtreeKeys.length)

theorem measure_lt {c d : Call} (h : Descends st c d) : d.measure < c.measure := by
  cases h with
  | enter h => exact Prod.Lex.toLex_lt_toLex.mpr (Or.inr ⟨rfl, WithTop.coe_lt_top _⟩)
  | byDefault h => exact Prod.Lex.toLex_lt_toLex.mpr (Or.inl h.size)
  | apply h => exact Prod.Lex.toLex_lt_toLex.mpr (Or.inl h.size)
  | inside h =>
      exact Prod.Lex.toLex_lt_toLex.mpr (Or.inr ⟨rfl, WithTop.coe_lt_coe.mpr h.size⟩)

/-- No chain of calls is endless. -/
theorem calls_wellFounded : WellFounded (fun d c => (calls up st).Calls c d) := by
  refine Subrelation.wf ?_ (InvImage.wf Call.measure wellFounded_lt)
  intro d c h
  exact measure_lt (descends_of_calls h)

/-! ## Within a body -/

theorem Descends.node {c d : Call} (h : Descends st c d) :
    d.node = c.node ∨ Smaller d.node c.node := by
  cases h with
  | enter h => exact Or.inl rfl
  | byDefault h => exact Or.inr h
  | apply h => exact Or.inr h
  | inside h => exact Or.inl rfl

/-- What happens while a body is executed is on a part of the body, or below the node. -/
theorem within_body {body contextNode : Node} {d : Call}
    (h : Relation.TransGen (calls up st).Calls (.executeBody body contextNode) d) :
    (∃ inner, d = .executeBody inner contextNode ∧ Smaller inner body)
      ∨ Smaller d.node contextNode := by
  induction h with
  | single h =>
      cases descends_of_calls h with
      | apply hlt => exact Or.inr hlt
      | inside hlt => exact Or.inl ⟨_, rfl, hlt⟩
  | tail _ h ih =>
      have hstep := descends_of_calls h
      rcases ih with ⟨inner, rfl, hinner⟩ | hbelow
      · cases hstep with
        | apply hlt => exact Or.inr hlt
        | inside hlt => exact Or.inl ⟨_, rfl, hlt.trans hinner⟩
      · rcases hstep.node with heq | hlt
        · rw [heq]
          exact Or.inr hbelow
        · exact Or.inr (hlt.trans hbelow)

/-- **A body is entered again only for a node strictly below.** -/
theorem reentered_below {body n m : Node}
    (h : Relation.TransGen (calls up st).Calls (.executeBody body n) (.executeBody body m)) :
    Smaller m n := by
  rcases within_body h with ⟨inner, heq, hinner⟩ | hbelow
  · cases heq
    exact absurd hinner (Smaller.irrefl body)
  · exact hbelow

/-! ## What the calls return -/

variable (up st)

/-- What a call pushes. -/
def pushed : Call → List Char
  | .applyTemplatesToNode node =>
      match node.item with
      | .leaf k => leafOutput st node.path k
      | .node e kids =>
          let below := applyTemplates up st ((node.key, e) :: node.path) kids
          match findMatchingTemplate up st.templates node.path e with
          | some template => executeBody up st node below template.kids
          | none => below.flatMap Prod.snd
  | .executeBody body contextNode =>
      executeBody up st contextNode
        (applyTemplates up st contextNode.kidsPath contextNode.kids) body.kids

/-- Templates are applied to every node of a row. -/
theorem applyTemplates_eq (path : List (NodeId × Element)) (row : Nodes) :
    applyTemplates up st path row
      = (row.row path).map fun n => (n, pushed up st (.applyTemplatesToNode n)) := by
  induction row with
  | nil => rfl
  | leaf i k rest ih => rw [applyTemplates, ih, Forest.row, List.map_cons, pushed]
  | node i e kids rest _ ih =>
      rw [applyTemplates, ih, Forest.row, List.map_cons]
      rfl

theorem below_eq (n : Node) : applyTemplates up st n.kidsPath n.kids
    = n.children.map fun m => (m, pushed up st (.applyTemplatesToNode m)) :=
  applyTemplates_eq up st _ _

/-- The outputs of the children that are selected. -/
theorem applyBelow_eq (n : Node) (select : Option String) :
    applyBelow select (applyTemplates up st n.kidsPath n.kids)
      = (selectedChildren n select).flatMap
          fun m => pushed up st (.applyTemplatesToNode m) := by
  rw [below_eq]
  cases select with
  | none =>
      rw [applyBelow, selectedChildren, List.flatMap_map]
  | some sel =>
      rw [applyBelow, selectedChildren, List.flatMap_map]
      induction n.children with
      | nil => rfl
      | cons m ms ih =>
          rw [List.flatMap_cons, ih, List.filter_cons]
          split
          · rfl
          · rfl

/-- A body, child by child. -/
theorem executeBody_eq (n : Node) (path : List (NodeId × Element)) (row : Nodes) :
    pushAll (executeChild up st (some ∘ pushed up st) n) (row.row path)
      = some (executeBody up st n (applyTemplates up st n.kidsPath n.kids) row) := by
  induction row with
  | nil => rfl
  | leaf i k rest ih =>
      rw [Forest.row, pushAll, ih]
      rfl
  | node i e kids rest _ ih =>
      rw [Forest.row, pushAll, ih, executeBody, executeChild]
      dsimp only
      split_ifs with hxsl happly hvalue hcopy
      · have hall : pushAll (fun ch => (some ∘ pushed up st) (Call.applyTemplatesToNode ch))
              (selectedChildren n (up.getAttribute e "select"))
            = some (applyBelow (up.getAttribute e "select")
                (applyTemplates up st n.kidsPath n.kids)) := by
          rw [applyBelow_eq]
          exact pushAll_some _ _
        rw [hall]
        rfl
      · rfl
      · cases hitem : n.item with
        | leaf k =>
            rw [copyContext, copyContext, hitem]
            rfl
        | node e' kids' => rfl
      · rfl
      · rfl

/-- Every call pushes what its calls make of it. -/
theorem pushed_fixed (c : Call) :
    (calls up st).step (some ∘ pushed up st) c = some (pushed up st c) := by
  cases c with
  | executeBody body contextNode => exact executeBody_eq up st contextNode _ body.kids
  | applyTemplatesToNode node =>
      obtain ⟨i, path, item⟩ := node
      cases item with
      | leaf k => rfl
      | node e kids =>
          show callStep up st (some ∘ pushed up st)
            (.applyTemplatesToNode ⟨i, path, .node e kids⟩) = _
          rw [callStep, pushed, matchingTemplate]
          simp only [Node.element?, Option.bind_some]
          cases htmpl : findMatchingTemplate up st.templates path e with
          | some tmpl => rfl
          | none =>
              have hbelow := below_eq up st ⟨i, path, .node e kids⟩
              have hall := pushAll_some (fun m => pushed up st (.applyTemplatesToNode m))
                (Forest.Cursor.children ⟨i, path, .node e kids⟩)
              dsimp only [Forest.Cursor.kidsPath, Forest.Cursor.kids] at hbelow ⊢
              rw [hbelow, List.flatMap_map]
              exact hall

end Xslt

open Xslt in
/-- **The processor terminates**, for every stylesheet and every node: every call returns what
`applyTemplates` and `executeBody` compute, no chain of calls is endless, every call descends, and
a body that is entered again is entered for a smaller part of the input. -/
theorem xslt_terminates (up : Uppsala) (st : Stylesheet) :
    (∀ call, ∃ fuel, ∀ more, (calls up st).run (fuel + more) call = some (pushed up st call))
      ∧ WellFounded (fun d c => (calls up st).Calls c d)
      ∧ (∀ c d, (calls up st).Calls c d → Descends st c d)
      ∧ ∀ body n m, Relation.TransGen (calls up st).Calls (.executeBody body n)
          (.executeBody body m) → Smaller m n := by
  refine ⟨?_, calls_wellFounded, fun _ _ h => descends_of_calls h,
    fun _ _ _ h => reentered_below h⟩
  intro call
  exact (calls up st).run_total (pushed_fixed up st) (calls_wellFounded.apply call)

end Bergshamra
