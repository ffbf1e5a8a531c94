import Bergshamra.Proof.SameView

/-!
# Narrowing a view

A transform that filters replaces its input set by a smaller one. When two
documents show the same through the input sets and the smaller sets treat
matched nodes alike, the documents show the same through the smaller sets too.

What a filter asks about a node is the node itself and the elements above it;
both are the same at matched nodes (`Matched`).
-/

namespace Bergshamra

/-- Two chains of elements: the same elements, at nodes that may be matched. -/
def MatchedChain (same : NodeId → NodeId → Prop) (path path' : List (NodeId × Element)) : Prop :=
  List.Forall₂ (fun a a' => a.2 = a'.2 ∧ same a.1 a'.1) path path'

/-- Two nodes that a view matches. -/
structure Matched (same : NodeId → NodeId → Prop) (s s' : Option NodeSet) (c c' : Node) : Prop where
  matched : same c.key c'.key
  chain : MatchedChain same c.path c'.path
  element : c.element? = c'.element?
  leaf : c.leaf? = c'.leaf?
  visible : isVisible s c.key = isVisible s' c'.key
  ns : c.element?.isSome = true → ∀ p, showsNs s c.key p = showsNs s' c'.key p

section

variable {same : NodeId → NodeId → Prop} {path path' : List (NodeId × Element)}

theorem MatchedChain.elements (h : MatchedChain same path path') :
    path.map Prod.snd = path'.map Prod.snd := by
  induction h with
  | nil => rfl
  | cons ha _ ih => rw [List.map_cons, List.map_cons, ha.1, ih]

theorem MatchedChain.length (h : MatchedChain same path path') : path.length = path'.length :=
  List.Forall₂.length_eq h

/-- A test of the elements gives one answer on both chains. -/
theorem MatchedChain.any (h : MatchedChain same path path') {f f' : NodeId × Element → Bool}
    (hf : ∀ a a', a.2 = a'.2 → same a.1 a'.1 → f a = f' a') : path.any f = path'.any f' := by
  induction h with
  | nil => rfl
  | cons ha _ ih => rw [List.any_cons, List.any_cons, ih, hf _ _ ha.1 ha.2]

end

namespace Matched

variable {same : NodeId → NodeId → Prop} {s s' : Option NodeSet} {c c' : Node}

theorem selfPath (h : Matched same s s' c c') : MatchedChain same c.selfPath c'.selfPath := by
  have he := h.element
  have hs := h.matched
  have hc := h.chain
  obtain ⟨key, path, item⟩ := c
  obtain ⟨key', path', item'⟩ := c'
  cases item with
  | leaf k =>
      cases item' with
      | leaf k' => exact hc
      | node e' kids' => simp [Node.element?] at he
  | node e kids =>
      cases item' with
      | leaf k' => simp [Node.element?] at he
      | node e' kids' =>
          simp only [Node.element?, Option.some.injEq] at he
          exact .cons ⟨he, hs⟩ hc

theorem parentElement (h : Matched same s s' c c') :
    c.parentElement?.map Prod.snd = c'.parentElement?.map Prod.snd := by
  have hl : c.path.map Prod.snd = c'.path.map Prod.snd := h.chain.elements
  unfold Node.parentElement?
  rw [← List.head?_map, ← List.head?_map, hl]

end Matched

/-- Among some nodes, `r` shows no node that `s` hides, and no namespace node that would be
written at a node where `s` shows none. -/
structure Narrower (floats floats' : String → Bool) (s r : Option NodeSet)
    (ids : List NodeId) : Prop where
  visible : ∀ i ∈ ids, isVisible s i = false → isVisible r i = false
  ns : ∀ i ∈ ids, (hasNsFilter s = true → ∀ p, floats p → showsNs s i p = false) →
    hasNsFilter r = true → ∀ p, floats' p → showsNs r i p = false

theorem Narrower.subset {floats floats' : String → Bool} {s r : Option NodeSet}
    {ids ids' : List NodeId} (h : Narrower floats floats' s r ids) (hs : ids' ⊆ ids) :
    Narrower floats floats' s r ids' :=
  ⟨fun i hi => h.visible i (hs hi), fun i hi => h.ns i (hs hi)⟩

/-- What is dark in a set is dark in a narrower one. -/
theorem Dark.narrow {floats floats' : String → Bool} {s r : Option NodeSet} {f : Nodes}
    (h : Dark floats s f) (hr : Narrower floats floats' s r f.keys) : Dark floats' r f := by
  induction f with
  | nil => trivial
  | leaf i k rest ih =>
      refine ⟨hr.visible i (by simp) h.1, ih h.2 (hr.subset ?_)⟩
      simp
  | node i e kids rest ihk ihr =>
      obtain ⟨hi, hns, hk, hrest⟩ := h
      refine ⟨hr.visible i (by simp) hi, hr.ns i (by simp) hns, ihk hk (hr.subset ?_),
        ihr hrest (hr.subset ?_)⟩
      · intro j hj
        simp [hj]
      · intro j hj
        simp [hj]

/-- The keys of a row that start with those of a shorter row. -/
theorem keys_node_nil_subset (i : NodeId) (e : Element) (kids rest : Nodes) :
    (Forest.node i e kids .nil : Nodes).keys ⊆ (Forest.node i e kids rest : Nodes).keys := by
  intro j hj
  simp only [Forest.keys_node, Forest.keys_nil, List.append_nil, List.mem_cons] at hj
  simp only [Forest.keys_node, List.mem_cons, List.mem_append]
  rcases hj with hj | hj
  · exact Or.inl hj
  · exact Or.inr (Or.inl hj)

/-- **A view can be narrowed.** It is enough that the narrower sets treat matched nodes alike. -/
theorem SameView.narrow {floats floats' : String → Bool} {same : NodeId → NodeId → Prop}
    {s s' r r' : Option NodeSet} {top : Bool} {f f' : Nodes}
    (h : SameView floats same s s' top f f') {path path' : List (NodeId × Element)}
    (hp : MatchedChain same path path') (hr : Narrower floats floats' s r f.keys)
    (hr' : Narrower floats floats' s' r' f'.keys)
    (hm : ∀ c ∈ f.cursors path, ∀ c' ∈ f'.cursors path', Matched same s s' c c' →
      isVisible r c.key = isVisible r' c'.key
        ∧ ((Node.element? c).isSome = true → ∀ p, showsNs r c.key p = showsNs r' c'.key p)) :
    SameView floats' same r r' top f f' := by
  -- on the derivation: a pair stays a pair, and what was passed over still is
  induction h generalizing path path' with
  | nil => exact .nil
  | leaf hsame hi _ ih =>
      rename_i top i i' k rest rest' hrest
      have hmatch : Matched same s s' ⟨i, path, .leaf k⟩ ⟨i', path', .leaf k⟩ :=
        ⟨hsame, hp, rfl, rfl, hi, fun he => absurd he (by simp [Node.element?])⟩
      have hv := (hm _ List.mem_cons_self _ List.mem_cons_self hmatch).1
      refine .leaf hsame hv (ih hp (hr.subset ?_) (hr'.subset ?_) ?_)
      · simp
      · simp
      · intro c hc c' hc'
        exact hm c (List.mem_cons_of_mem _ hc) c' (List.mem_cons_of_mem _ hc')
  | node hsame hi _ _ ihk ihr =>
      rename_i top i i' e kids kids' rest rest' hkids hrest
      have hmatch : Matched same s s' ⟨i, path, .node e kids⟩ ⟨i', path', .node e kids'⟩ :=
        ⟨hsame, hp, rfl, rfl, hi.self, fun _ => hi.ns⟩
      obtain ⟨hv, hns⟩ := hm _ List.mem_cons_self _ List.mem_cons_self hmatch
      have hp' : MatchedChain same ((i, e) :: path) ((i', e) :: path') := .cons ⟨rfl, hsame⟩ hp
      refine .node hsame ⟨hv, hns rfl⟩ (ihk hp' (hr.subset ?_) (hr'.subset ?_) ?_)
        (ihr hp (hr.subset ?_) (hr'.subset ?_) ?_)
      · intro j hj
        simp [hj]
      · intro j hj
        simp [hj]
      · intro c hc c' hc'
        exact hm c (List.mem_cons_of_mem _ (List.mem_append_left _ hc)) c'
          (List.mem_cons_of_mem _ (List.mem_append_left _ hc'))
      · intro j hj
        simp [hj]
      · intro j hj
        simp [hj]
      · intro c hc c' hc'
        exact hm c (List.mem_cons_of_mem _ (List.mem_append_right _ hc)) c'
          (List.mem_cons_of_mem _ (List.mem_append_right _ hc'))
  | skipLeaf hi _ ih =>
      refine .skipLeaf (hr.visible _ (by simp) hi) (ih hp (hr.subset ?_) hr' ?_)
      · simp
      · intro c hc
        exact hm c (List.mem_cons_of_mem _ hc)
  | skipLeaf' hi _ ih =>
      refine .skipLeaf' (hr'.visible _ (by simp) hi) (ih hp hr (hr'.subset ?_) ?_)
      · simp
      · intro c hc c' hc'
        exact hm c hc c' (List.mem_cons_of_mem _ hc')
  | skipNode hd _ ih =>
      refine .skipNode (hd.narrow (hr.subset (keys_node_nil_subset _ _ _ _)))
        (ih hp (hr.subset ?_) hr' ?_)
      · intro j hj
        simp [hj]
      · intro c hc
        exact hm c (List.mem_cons_of_mem _ (List.mem_append_right _ hc))
  | skipNode' hd _ ih =>
      refine .skipNode' (hd.narrow (hr'.subset (keys_node_nil_subset _ _ _ _)))
        (ih hp hr (hr'.subset ?_) ?_)
      · intro j hj
        simp [hj]
      · intro c hc c' hc'
        exact hm c hc c' (List.mem_cons_of_mem _ (List.mem_append_right _ hc'))
  | hole hd hd' _ ih =>
      refine .hole (hd.narrow (hr.subset (keys_node_nil_subset _ _ _ _)))
        (hd'.narrow (hr'.subset (keys_node_nil_subset _ _ _ _)))
        (ih hp (hr.subset ?_) (hr'.subset ?_) ?_)
      · intro j hj
        simp [hj]
      · intro j hj
        simp [hj]
      · intro c hc c' hc'
        exact hm c (List.mem_cons_of_mem _ (List.mem_append_right _ hc)) c'
          (List.mem_cons_of_mem _ (List.mem_append_right _ hc'))

/-- The texts of the visible leaves, in document order. -/
def visibleTexts (s : Option NodeSet) (ns : List Node) : List String :=
  ns.filterMap (fun n : Node =>
    if isVisible s n.key then n.leaf?.bind LeafKind.text? else none)

theorem visibleTexts_append (s : Option NodeSet) (ns ms : List Node) :
    visibleTexts s (ns ++ ms) = visibleTexts s ns ++ visibleTexts s ms := List.filterMap_append

/-- A node without a text of its own adds nothing. -/
theorem visibleTexts_node (s : Option NodeSet) (i : NodeId) (path : List (NodeId × Element))
    (e : Element) (kids : Nodes) (ns : List Node) :
    visibleTexts s ((⟨i, path, .node e kids⟩ : Node) :: ns) = visibleTexts s ns := by
  unfold visibleTexts
  rw [List.filterMap_cons]
  simp [Node.leaf?]

theorem visibleTexts_hidden (s : Option NodeSet) {n : Node} (h : isVisible s n.key = false)
    (ns : List Node) : visibleTexts s (n :: ns) = visibleTexts s ns := by
  unfold visibleTexts
  rw [List.filterMap_cons, h]
  rfl

theorem visibleTexts_dark {floats : String → Bool} {s : Option NodeSet} {f : Nodes}
    (h : Dark floats s f) (path : List (NodeId × Element)) :
    visibleTexts s (f.cursors path) = [] := by
  induction f generalizing path with
  | nil => rfl
  | leaf i k rest ih =>
      rw [Forest.cursors, visibleTexts_hidden s (by exact h.1)]
      exact ih h.2 path
  | node i e kids rest ihk ihr =>
      rw [Forest.cursors, visibleTexts_node, visibleTexts_append, ihk h.2.2.1, ihr h.2.2.2]
      rfl

theorem visibleTexts_dark_node {floats : String → Bool} {s : Option NodeSet} {i : NodeId}
    {e : Element} {kids : Nodes} (h : Dark floats s (.node i e kids .nil)) (rest : Nodes)
    (path : List (NodeId × Element)) :
    visibleTexts s ((Forest.node i e kids rest : Nodes).cursors path)
      = visibleTexts s (rest.cursors path) := by
  rw [Forest.cursors, visibleTexts_node, visibleTexts_append, visibleTexts_dark h.2.2.1]
  rfl

/-- **Views have one text.** -/
theorem SameView.visibleTexts {floats : String → Bool} {same : NodeId → NodeId → Prop}
    {s s' : Option NodeSet} {top : Bool} {f f' : Nodes} (h : SameView floats same s s' top f f')
    (path path' : List (NodeId × Element)) :
    Bergshamra.visibleTexts s (f.cursors path) = Bergshamra.visibleTexts s' (f'.cursors path') := by
  induction h generalizing path path' with
  | nil => rfl
  | leaf _ hi _ ih =>
      have := ih path path'
      unfold Bergshamra.visibleTexts at this ⊢
      rw [Forest.cursors, Forest.cursors, List.filterMap_cons, List.filterMap_cons, this, hi]
      rfl
  | node _ _ _ _ ihk ihr =>
      rw [Forest.cursors, Forest.cursors, visibleTexts_node, visibleTexts_node, visibleTexts_append,
        visibleTexts_append, ihk _ _, ihr path path']
  | skipLeaf hi _ ih =>
      rw [Forest.cursors, visibleTexts_hidden s (by exact hi)]
      exact ih path path'
  | skipLeaf' hi _ ih =>
      rw [Forest.cursors, visibleTexts_hidden s' (by exact hi)]
      exact ih path path'
  | skipNode hd _ ih =>
      rw [visibleTexts_dark_node hd]
      exact ih path path'
  | skipNode' hd _ ih =>
      rw [visibleTexts_dark_node hd]
      exact ih path path'
  | hole hd hd' _ ih =>
      rw [visibleTexts_dark_node hd, visibleTexts_dark_node hd']
      exact ih path path'

end Bergshamra
