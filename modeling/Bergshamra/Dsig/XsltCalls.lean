import Bergshamra.Dsig.Xslt
import Bergshamra.Lib.Calls

/-!
# The two functions of the XSLT processor and their calls

`xslt_apply_templates_to_node` and `xslt_execute_body` as the source has them: they
call each other, and themselves, on whatever node of the input and of the stylesheet
they come to. Nothing here says that this ends. `Calls` follows the calls, `callees`
lists them.
-/

namespace Bergshamra

namespace Xslt

/-- A call of `xslt_apply_templates_to_node`, or of `xslt_execute_body`. -/
inductive Call where
  | applyTemplatesToNode (node : Node)
  | executeBody (body contextNode : Node)

variable (up : Uppsala) (st : Stylesheet)

/-- What is pushed for each of a list, one after another, when every call for it returns. -/
def pushAll {α : Type} (f : α → Option (List Char)) : List α → Option (List Char)
  | [] => some []
  | x :: xs => (f x).bind (fun out => (pushAll f xs).map (fun rest => out ++ rest))

/-- `find_matching_template`, which only elements have. -/
def matchingTemplate (node : Node) : Option Node :=
  node.element?.bind (fun e => findMatchingTemplate up st.templates node.path e)

/-- The children that an `xsl:apply-templates` is for. -/
def selectedChildren (contextNode : Node) (select : Option String) : List Node :=
  match select with
  | some sel =>
      contextNode.children.filter (fun ch : Node =>
        ch.element?.any (fun e => nodeMatchesSelect e sel))
  | none => contextNode.children

/-- What `xslt_execute_body` does for one child of the body. -/
def executeChild (answer : Call → Option (List Char)) (contextNode child : Node) :
    Option (List Char) :=
  match child.item with
  | .leaf k =>
      some (match k.text? with
        | some t => if Text.trim t.toList = [] then [] else escapeText t
        | none => [])
  | .node e _ =>
      if e.name.namespaceUri = some Ns.XSL then
        if e.name.localName = "apply-templates" then
          pushAll (fun ch => answer (.applyTemplatesToNode ch))
            (selectedChildren contextNode (up.getAttribute e "select"))
        else if e.name.localName = "value-of" then
          some (((up.getAttribute e "select").map
            (fun sel => escapeText (evalValueOf contextNode sel))).getD [])
        else if e.name.localName = "copy" then
          match contextNode.item with
          | .node _ _ => (answer (.executeBody child contextNode)).map (copyContext contextNode)
          | .leaf _ => some (copyContext contextNode [])
        else some []
      else
        (answer (.executeBody child contextNode)).map
          (renderElement e.name.localName (literalAttributes st e))

/-- The calls that `xslt_execute_body` makes for one child of the body. -/
def childCallees (contextNode child : Node) : List Call :=
  match child.item with
  | .leaf _ => []
  | .node e _ =>
      if e.name.namespaceUri = some Ns.XSL then
        if e.name.localName = "apply-templates" then
          (selectedChildren contextNode (up.getAttribute e "select")).map .applyTemplatesToNode
        else if e.name.localName = "value-of" then []
        else if e.name.localName = "copy" then
          match contextNode.item with
          | .node _ _ => [.executeBody child contextNode]
          | .leaf _ => []
        else []
      else [.executeBody child contextNode]

/-- One call of either function, given what the calls it makes push. -/
def callStep (answer : Call → Option (List Char)) : Call → Option (List Char)
  | .applyTemplatesToNode node =>
      match matchingTemplate up st node with
      | some tmpl => answer (.executeBody tmpl node)
      | none =>
          match node.item with
          | .leaf k => some (leafOutput st node.path k)
          | .node _ _ => pushAll (fun child => answer (.applyTemplatesToNode child)) node.children
  | .executeBody body contextNode =>
      pushAll (executeChild up st answer contextNode) body.children

/-- The calls that a call makes. -/
def callees : Call → List Call
  | .applyTemplatesToNode node =>
      match matchingTemplate up st node with
      | some tmpl => [.executeBody tmpl node]
      | none =>
          match node.item with
          | .leaf _ => []
          | .node _ _ => node.children.map .applyTemplatesToNode
  | .executeBody body contextNode => body.children.flatMap (childCallees up contextNode)

/-! ## The calls a function makes are the ones listed -/

theorem pushAll_congr {α : Type} {f g : α → Option (List Char)} {xs : List α}
    (h : ∀ x ∈ xs, f x = g x) : pushAll f xs = pushAll g xs := by
  induction xs with
  | nil => rfl
  | cons x xs ih =>
      rw [pushAll, pushAll, h x List.mem_cons_self, ih fun y hy => h y (List.mem_cons_of_mem x hy)]

theorem pushAll_isSome {α : Type} {f : α → Option (List Char)} {xs : List α} :
    (pushAll f xs).isSome = true ↔ ∀ x ∈ xs, (f x).isSome = true := by
  induction xs with
  | nil => simp [pushAll]
  | cons x xs ih =>
      rw [pushAll, List.forall_mem_cons, ← ih]
      cases f x with
      | none => simp
      | some out => simp

theorem pushAll_some {α : Type} (f : α → List Char) (xs : List α) :
    pushAll (fun x => some (f x)) xs = some (xs.flatMap f) := by
  induction xs with
  | nil => rfl
  | cons x xs ih =>
      rw [pushAll, ih]
      rfl

theorem executeChild_congr {f g : Call → Option (List Char)} {contextNode child : Node}
    (h : ∀ d ∈ childCallees up contextNode child, f d = g d) :
    executeChild up st f contextNode child = executeChild up st g contextNode child := by
  unfold childCallees at h
  unfold executeChild
  cases hitem : child.item with
  | leaf k => rfl
  | node e kids =>
      rw [hitem] at h
      dsimp only at h ⊢
      split_ifs at h ⊢ with hxsl happly hvalue hcopy
      · exact pushAll_congr fun ch hch => h _ (List.mem_map_of_mem hch)
      · rfl
      · cases hcontext : contextNode.item with
        | leaf k => rfl
        | node e' kids' =>
            rw [hcontext] at h
            dsimp only at h ⊢
            rw [h _ List.mem_cons_self]
      · rfl
      · rw [h _ List.mem_cons_self]

theorem executeChild_isSome {f : Call → Option (List Char)} {contextNode child : Node} :
    (executeChild up st f contextNode child).isSome = true
      ↔ ∀ d ∈ childCallees up contextNode child, (f d).isSome = true := by
  unfold childCallees executeChild
  cases hitem : child.item with
  | leaf k => simp
  | node e kids =>
      dsimp only
      split_ifs with hxsl happly hvalue hcopy
      · rw [pushAll_isSome]
        simp
      · simp
      · cases hcontext : contextNode.item with
        | leaf k => simp
        | node e' kids' => simp
      · simp
      · simp

theorem callStep_congr {f g : Call → Option (List Char)} {c : Call}
    (h : ∀ d ∈ callees up st c, f d = g d) : callStep up st f c = callStep up st g c := by
  cases c with
  | applyTemplatesToNode node =>
      rw [callees] at h
      rw [callStep, callStep]
      cases htmpl : matchingTemplate up st node with
      | some tmpl =>
          rw [htmpl] at h
          exact h _ List.mem_cons_self
      | none =>
          rw [htmpl] at h
          cases hitem : node.item with
          | leaf k => rfl
          | node e kids =>
              rw [hitem] at h
              exact pushAll_congr fun ch hch => h _ (List.mem_map_of_mem hch)
  | executeBody body contextNode =>
      exact pushAll_congr fun child hchild =>
        executeChild_congr up st fun d hd => h d (List.mem_flatMap.mpr ⟨child, hchild, hd⟩)

theorem callStep_isSome {f : Call → Option (List Char)} {c : Call} :
    (callStep up st f c).isSome = true ↔ ∀ d ∈ callees up st c, (f d).isSome = true := by
  cases c with
  | applyTemplatesToNode node =>
      rw [callees, callStep]
      cases htmpl : matchingTemplate up st node with
      | some tmpl => simp
      | none =>
          cases hitem : node.item with
          | leaf k => simp
          | node e kids =>
              dsimp only
              rw [pushAll_isSome]
              simp
  | executeBody body contextNode =>
      rw [callStep, pushAll_isSome]
      simp only [executeChild_isSome, callees, List.mem_flatMap]
      constructor
      · rintro h d ⟨child, hchild, hd⟩
        exact h child hchild d hd
      · intro h child hchild d hd
        exact h d ⟨child, hchild, hd⟩

/-- The processor's calls. -/
def calls : CallSystem Call (List Char) where
  step := callStep up st
  callees := callees up st
  step_congr _ _ _ := callStep_congr up st
  step_isSome _ _ := callStep_isSome up st

end Xslt

end Bergshamra
