import Bergshamra.Dsig.Filter2
import Bergshamra.Lib.Fold

/-!
# What a Filter 2.0 selection depends on

Whether a node is in the filter set is decided by the elements from the document
element down to the node (`ReadsChain`): `//name` looks for an element on the
chain, a path compares the chain's outer end with its steps, step by step, and
the set operations combine the answers. So two documents agree on a node that
has one chain in both, whatever else they hold.
-/

namespace Bergshamra

/-- The elements from a node upwards, the node's own first. -/
def Node.elements (n : Node) : List Element := n.selfPath.map Prod.snd

/-- Two sets over two documents agree on the nodes that have one chain in both. -/
def AgreeOnChains (doc doc' : Document) (s s' : NodeSet) : Prop :=
  ∀ c ∈ doc.descendants, ∀ c' ∈ doc'.descendants, c.elements = c'.elements →
    (c.key ∈ s.nodes ↔ c'.key ∈ s'.nodes)

/-- The selection decides by the chain alone. -/
def ReadsChain (select : Document → Except Error NodeSet) : Prop :=
  ∀ doc doc' s s', select doc = .ok s → select doc' = .ok s' → AgreeOnChains doc doc' s s'

theorem AgreeOnChains.intersection {doc doc' : Document} {a a' b b' : NodeSet}
    (ha : AgreeOnChains doc doc' a a') (hb : AgreeOnChains doc doc' b b') :
    AgreeOnChains doc doc' (a.intersection b) (a'.intersection b') := by
  intro c hc c' hc' he
  simp only [NodeSet.intersection, Finset.mem_inter]
  rw [ha c hc c' hc' he, hb c hc c' hc' he]

theorem AgreeOnChains.union {doc doc' : Document} {a a' b b' : NodeSet}
    (ha : AgreeOnChains doc doc' a a') (hb : AgreeOnChains doc doc' b b') :
    AgreeOnChains doc doc' (a.union b) (a'.union b') := by
  intro c hc c' hc' he
  simp only [NodeSet.union, Finset.mem_union]
  rw [ha c hc c' hc' he, hb c hc c' hc' he]

theorem AgreeOnChains.subtract {doc doc' : Document} {a a' b b' : NodeSet}
    (ha : AgreeOnChains doc doc' a a') (hb : AgreeOnChains doc doc' b b') :
    AgreeOnChains doc doc' (a.subtract b) (a'.subtract b') := by
  intro c hc c' hc' he
  simp only [NodeSet.subtract, Finset.mem_sdiff]
  rw [ha c hc c' hc' he, hb c hc c' hc' he]

theorem agreeOnChains_all (doc doc' : Document) :
    AgreeOnChains doc doc' (NodeSet.all doc) (NodeSet.all doc') := by
  intro c hc c' hc' _
  have h := Document.mem_descendants_key hc
  have h' := Document.mem_descendants_key hc'
  simp [NodeSet.all, NodeSet.fromIds, h, h']

/-! ## Subtrees -/

theorem elements_of_node (key : NodeId) (path : List (NodeId × Element)) (e : Element)
    (kids : Nodes) : Node.elements ⟨key, path, .node e kids⟩ = e :: path.map Prod.snd := rfl

/-- A node is in a selected subtree when an outer end of its chain, with an element to start
with, is one that the selection looks for. -/
theorem mem_subtreesOf_iff {doc : Document} {ns : List Node} {q : List Element → Prop}
    (hns : ∀ m, m ∈ ns ↔ m ∈ doc.descendants ∧ m.element?.isSome = true ∧ q m.elements)
    {c : Node} (hc : c ∈ doc.descendants) :
    c.key ∈ (subtreesOf ns).nodes ↔ ∃ e t, e :: t <:+ c.elements ∧ q (e :: t) := by
  simp only [subtreesOf, NodeSet.fromIds, List.mem_toFinset, List.mem_flatMap]
  constructor
  · rintro ⟨m, hm, hk⟩
    obtain ⟨hmd, hme, hq⟩ := (hns m).mp hm
    obtain ⟨key, path, item⟩ := m
    cases item with
    | leaf k => simp [Node.element?] at hme
    | node e kids =>
        refine ⟨e, path.map Prod.snd, ?_, hq⟩
        have hs : (key, e) :: path <:+ c.selfPath := by
          rcases List.mem_cons.mp hk with hk | hk
          · rw [Forest.cursor_eq_of_key doc.nodup_top hc hmd hk]
            exact List.suffix_rfl
          · rw [← Forest.cursors_keys ((key, e) :: path), List.mem_map] at hk
            obtain ⟨d, hd, hdk⟩ := hk
            have hdoc := Forest.mem_cursors_descendants hmd hd
            rw [Forest.cursor_eq_of_key doc.nodup_top hdoc hc hdk] at hd
            have hp : (key, e) :: path <:+ c.path := Forest.suffix_path hd
            obtain ⟨ckey, cpath, citem⟩ := c
            cases citem with
            | leaf k => exact hp
            | node e' kids' => exact hp.trans (List.suffix_cons _ _)
        exact hs.map Prod.snd
  · rintro ⟨e, t, hs, hq⟩
    obtain ⟨l, hl⟩ := hs
    obtain ⟨l₁, l₂, hsplit, _, h₂⟩ := List.map_eq_append_iff.mp hl.symm
    cases l₂ with
    | nil => simp at h₂
    | cons p t' =>
        rw [List.map_cons, List.cons.injEq] at h₂
        obtain ⟨rfl, rfl⟩ := h₂
        have hsuf : p :: t' <:+ c.selfPath := ⟨l₁, hsplit.symm⟩
        obtain ⟨key, path, item⟩ := c
        -- the outer end is the node's own chain, or that of an ancestor
        have hcase : (∃ kids, (⟨p.1, t', .node p.2 kids⟩ : Node) = ⟨key, path, item⟩)
            ∨ p :: t' <:+ path := by
          cases item with
          | leaf k => exact Or.inr hsuf
          | node e kids =>
              rcases List.suffix_cons_iff.mp hsuf with h | h
              · obtain ⟨rfl, rfl⟩ := List.cons.inj h
                exact Or.inl ⟨kids, rfl⟩
              · exact Or.inr h
        rcases hcase with ⟨kids, heq⟩ | hpath
        · refine ⟨⟨p.1, t', .node p.2 kids⟩, (hns _).mpr ⟨heq ▸ hc, rfl, hq⟩, ?_⟩
          rw [← heq]
          exact List.mem_cons_self
        · rcases Forest.exists_of_suffix hc hpath with h | ⟨kids, hm, hd⟩
          · simp at h
          · refine ⟨⟨p.1, t', .node p.2 kids⟩, (hns _).mpr ⟨hm, rfl, hq⟩, ?_⟩
            refine List.mem_cons_of_mem _ ?_
            rw [← Forest.cursors_keys ((p.1, p.2) :: t')]
            exact List.mem_map_of_mem hd

/-- Subtrees selected by one test of the chain, in two documents. -/
theorem agreeOnChains_subtreesOf {doc doc' : Document} {ns ns' : List Node}
    {q : List Element → Prop}
    (hns : ∀ m, m ∈ ns ↔ m ∈ doc.descendants ∧ m.element?.isSome = true ∧ q m.elements)
    (hns' : ∀ m, m ∈ ns' ↔ m ∈ doc'.descendants ∧ m.element?.isSome = true ∧ q m.elements) :
    AgreeOnChains doc doc' (subtreesOf ns) (subtreesOf ns') := by
  intro c hc c' hc' he
  rw [mem_subtreesOf_iff hns hc, mem_subtreesOf_iff hns' hc', he]

/-- The head of an element's chain is its own element. -/
theorem element?_eq_head {m : Node} (h : m.element?.isSome = true) :
    m.element? = m.elements.head? := by
  obtain ⟨key, path, item⟩ := m
  cases item with
  | leaf k => simp [Node.element?] at h
  | node e kids => rfl

/-- The elements that pass a test of the element. -/
theorem mem_filter_element {doc : Document} {test : Element → Bool} (m : Node) :
    m ∈ doc.descendants.filter (fun n : Node => n.element?.any test)
      ↔ m ∈ doc.descendants ∧ m.element?.isSome = true
        ∧ m.elements.head?.any test = true := by
  rw [List.mem_filter]
  refine and_congr_right (fun _ => ?_)
  constructor
  · intro h
    have hs : m.element?.isSome = true := by
      cases hm : m.element? with
      | none => simp [hm] at h
      | some e => rfl
    exact ⟨hs, element?_eq_head hs ▸ h⟩
  · rintro ⟨hs, h⟩
    rw [element?_eq_head hs]
    exact h

theorem readsChain_selectByName (xpathNode : Node) (name : List Char) :
    ReadsChain (fun doc => selectByName doc xpathNode name) := by
  intro doc doc' s s' h h'
  unfold selectByName at h h'
  split at h
  · rename_i pfx localName hsplit
    rw [hsplit] at h'
    dsimp only at h'
    split at h
    · simp at h
    · rename_i uri hu
      rw [hu] at h'
      cases h
      cases h'
      let test (e : Element) : Bool := e.isNamed uri (String.ofList localName)
      exact agreeOnChains_subtreesOf (q := fun es => es.head?.any test = true)
        mem_filter_element mem_filter_element
  · rename_i hsplit
    rw [hsplit] at h'
    cases h
    cases h'
    let test (e : Element) : Bool := e.name.localName == String.ofList name
    exact agreeOnChains_subtreesOf (q := fun es => es.head?.any test = true)
      mem_filter_element mem_filter_element

/-! ## Paths -/

/-- Does a step accept an element? -/
def PathStep.Accepts (up : Uppsala) (xpathNode : Node) (s : PathStep) (e : Element) : Prop :=
  ∀ n : Node, n.element? = some e → s.holds up xpathNode n = .ok true

/-- A step looks at the node's element only. -/
theorem PathStep.holds_congr {up : Uppsala} {xpathNode : Node} (s : PathStep) {n n' : Node}
    (h : n.element? = n'.element?) : s.holds up xpathNode n = s.holds up xpathNode n' := by
  unfold PathStep.holds
  rw [h]

theorem PathStep.holds_iff {up : Uppsala} {xpathNode : Node} {s : PathStep} {n : Node} {e : Element}
    (h : n.element? = some e) :
    s.holds up xpathNode n = .ok true ↔ s.Accepts up xpathNode e := by
  constructor
  · intro hs m hm
    rw [s.holds_congr (hm.trans h.symm)]
    exact hs
  · intro ha
    exact ha n h

theorem PathStep.element_of_holds {up : Uppsala} {xpathNode : Node} {s : PathStep} {n : Node}
    (h : s.holds up xpathNode n = .ok true) : ∃ e, n.element? = some e := by
  unfold PathStep.holds at h
  cases he : n.element? with
  | none => simp [he] at h
  | some e => exact ⟨e, rfl⟩

/-- The chain, read from the outside, is accepted step by step. -/
def StepsAccept (up : Uppsala) (xpathNode : Node) (steps : List PathStep)
    (chain : List Element) : Prop :=
  List.Forall₂ (fun s e => PathStep.Accepts up xpathNode s e) steps.reverse chain

/-- The nodes a path has reached after some steps. -/
def Reached (up : Uppsala) (doc : Document) (xpathNode : Node) (steps : List PathStep)
    (ns : List Node) : Prop :=
  ∀ m, m ∈ ns ↔ m ∈ doc.descendants ∧ m.element?.isSome = true
    ∧ StepsAccept up xpathNode steps m.elements

/-- The first step chooses among the children of the document node. -/
theorem reached_first {up : Uppsala} {doc : Document} {xpathNode : Node} {s : PathStep}
    {ns : List Node} (h : matchStep up xpathNode s doc.children = .ok ns) :
    Reached up doc xpathNode [s] ns := by
  intro m
  rw [Fold.mem_filterM h, Document.children, Forest.mem_row_iff]
  obtain ⟨key, path, item⟩ := m
  constructor
  · rintro ⟨⟨hm, hp⟩, hs⟩
    obtain ⟨e, he⟩ := PathStep.element_of_holds hs
    cases item with
    | leaf k => simp [Node.element?] at he
    | node e' kids =>
        dsimp only at hp
        subst hp
        refine ⟨hm, rfl, ?_⟩
        exact .cons ((PathStep.holds_iff rfl).mp hs) .nil
  · rintro ⟨hm, he, hacc⟩
    cases item with
    | leaf k => simp [Node.element?] at he
    | node e kids =>
        rw [elements_of_node, StepsAccept, List.reverse_singleton, List.forall₂_cons] at hacc
        have hpath : path = [] := List.map_eq_nil_iff.mp (List.forall₂_nil_left_iff.mp hacc.2)
        subst hpath
        exact ⟨⟨hm, rfl⟩, (PathStep.holds_iff rfl).mpr hacc.1⟩

/-- A child's chain is its element and its parent's chain. -/
theorem mem_children_of_chain {doc : Document} {key : NodeId} {p : NodeId × Element}
    {path : List (NodeId × Element)} {e : Element} {kids : Nodes}
    (h : (⟨key, p :: path, .node e kids⟩ : Node) ∈ doc.descendants) :
    ∃ kids', (⟨p.1, path, .node p.2 kids'⟩ : Node) ∈ doc.descendants
      ∧ (⟨key, p :: path, .node e kids⟩ : Node)
        ∈ (⟨p.1, path, .node p.2 kids'⟩ : Node).children := by
  rcases Forest.exists_of_suffix h List.suffix_rfl with hs | ⟨kids', hm, hd⟩
  · simp at hs
  · exact ⟨kids', hm, Forest.mem_row_iff.mpr ⟨hd, rfl⟩⟩

/-- Each further step chooses among the children of the nodes reached. -/
theorem reached_next {up : Uppsala} {doc : Document} {xpathNode : Node} {steps : List PathStep}
    (hsteps : steps ≠ []) {current ns : List Node} (hc : Reached up doc xpathNode steps current)
    {s : PathStep}
    (h : matchStep up xpathNode s (current.flatMap Forest.Cursor.children) = .ok ns) :
    Reached up doc xpathNode (steps ++ [s]) ns := by
  intro m
  rw [Fold.mem_filterM h, List.mem_flatMap]
  obtain ⟨key, path, item⟩ := m
  constructor
  · rintro ⟨⟨parent, hparent, hm⟩, hs⟩
    obtain ⟨hpd, hpe, hacc⟩ := (hc parent).mp hparent
    obtain ⟨e', he'⟩ := PathStep.element_of_holds hs
    cases item with
    | leaf k => simp [Node.element?] at he'
    | node e kids =>
        refine ⟨Forest.mem_cursors_descendants hpd ((Forest.row_sublist _ _).subset hm), rfl, ?_⟩
        have hpath : path = parent.selfPath := Forest.row_path hm
        subst hpath
        rw [elements_of_node, StepsAccept, List.reverse_append]
        exact .cons ((PathStep.holds_iff rfl).mp hs) hacc
  · rintro ⟨hm, he, hacc⟩
    cases item with
    | leaf k => simp [Node.element?] at he
    | node e kids =>
        rw [elements_of_node, StepsAccept, List.reverse_append, List.reverse_singleton,
          List.singleton_append, List.forall₂_cons] at hacc
        obtain ⟨hlast, hfront⟩ := hacc
        cases path with
        | nil =>
            rw [List.map_nil, List.forall₂_nil_right_iff, List.reverse_eq_nil_iff] at hfront
            exact absurd hfront hsteps
        | cons p path =>
            obtain ⟨kids', hp, hchild⟩ := mem_children_of_chain hm
            exact ⟨⟨_, (hc _).mpr ⟨hp, rfl, hfront⟩, hchild⟩, (PathStep.holds_iff rfl).mpr hlast⟩

/-- **A path selects by the chain.** -/
theorem reached_steps {up : Uppsala} {doc : Document} {xpathNode : Node} {done steps : List PathStep}
    (hdone : done ≠ []) {current ns : List Node} (hc : Reached up doc xpathNode done current)
    (h : steps.foldlM (fun current s =>
      matchStep up xpathNode s (current.flatMap Forest.Cursor.children)) current = .ok ns) :
    Reached up doc xpathNode (done ++ steps) ns := by
  induction steps generalizing done current with
  | nil =>
      cases h
      rw [List.append_nil]
      exact hc
  | cons s steps ih =>
      obtain ⟨next, hstep, hrest⟩ := Fold.cons_ok.mp h
      have := ih (by simp) (reached_next hdone hc hstep) hrest
      rwa [List.append_assoc, List.singleton_append] at this

theorem readsChain_path (up : Uppsala) (xpathNode : Node) (path : List Char) :
    ReadsChain (fun doc => do
      let steps ← parseXPathPathSteps path
      let ns ← evaluatePathSteps up doc xpathNode steps
      .ok (subtreesOf ns)) := by
  intro doc doc' s s' h h'
  rw [bind_eq_ok] at h h'
  obtain ⟨steps, hp, h⟩ := h
  obtain ⟨steps', hp', h'⟩ := h'
  rw [hp, Except.ok.injEq] at hp'
  subst hp'
  rw [bind_eq_ok] at h h'
  obtain ⟨ns, hn, hr⟩ := h
  obtain ⟨ns', hn', hr'⟩ := h'
  cases hr
  cases hr'
  cases steps with
  | nil =>
      cases hn
      cases hn'
      intro c _ c' _ _
      simp [subtreesOf, NodeSet.fromIds]
  | cons first steps =>
      rw [evaluatePathSteps, bind_eq_ok] at hn hn'
      obtain ⟨start, hstart, hrun⟩ := hn
      obtain ⟨start', hstart', hrun'⟩ := hn'
      have hq := reached_steps (by simp) (reached_first hstart) hrun
      have hq' := reached_steps (by simp) (reached_first hstart') hrun'
      exact agreeOnChains_subtreesOf hq hq'

/-! ## Expressions and filters -/

/-- **An expression selects by the chain.** -/
theorem readsChain_evaluateWithFuel (up : Uppsala) (xpathNode : Node) (fuel : Nat)
    (expr : List Char) : ReadsChain (fun doc => evaluateWithFuel up doc xpathNode fuel expr) := by
  induction fuel generalizing expr with
  | zero =>
      intro doc doc' s s' h
      simp [evaluateWithFuel] at h
  | succ fuel ih =>
      intro doc doc' s s' h h'
      dsimp only at h h'
      rw [evaluateWithFuel] at h h'
      by_cases hroot : expr = ['/']
      · -- each form of expression reads the document at the chain of a node only
        rw [if_pos hroot] at h h'
        cases h
        cases h'
        exact agreeOnChains_all doc doc'
      · rw [if_neg hroot] at h h'
        cases hu : splitXPathUnion expr with
        | some parts =>
            obtain ⟨left, right⟩ := parts
            simp only [hu, bind_eq_ok] at h h'
            obtain ⟨l, hl, r, hr, hres⟩ := h
            obtain ⟨l', hl', r', hr', hres'⟩ := h'
            cases hres
            cases hres'
            exact (ih _ doc doc' l l' hl hl').union (ih _ doc doc' r r' hr hr')
        | none =>
            simp only [hu] at h h'
            cases hd : Text.stripPrefix? "//".toList expr with
            | some name =>
                simp only [hd] at h h'
                exact readsChain_selectByName xpathNode name doc doc' s s' h h'
            | none =>
                simp only [hd] at h h'
                cases hs : Text.stripPrefix? ['/'] expr with
                | some path =>
                    simp only [hs] at h h'
                    exact readsChain_path up xpathNode path doc doc' s s' h h'
                | none =>
                    simp only [hs] at h
                    exact absurd h (by simp)

/-- One `<XPath>` child keeps the agreement. -/
theorem agreeOnChains_filter2Step {up : Uppsala} {doc doc' : Document} {child : Node}
    {s s' t t' : NodeSet} (ha : AgreeOnChains doc doc' s s')
    (h : filter2Step up doc s child = .ok t) (h' : filter2Step up doc' s' child = .ok t') :
    AgreeOnChains doc doc' t t' := by
  unfold filter2Step at h h'
  cases he : child.element? with
  | none =>
      simp only [he] at h h'
      cases h
      cases h'
      exact ha
  | some e =>
      simp only [he] at h h'
      by_cases hn : e.name.localName ≠ "XPath"
      · rw [if_pos hn] at h h'
        cases h
        cases h'
        exact ha
      · rw [if_neg hn, bind_eq_ok] at h h'
        obtain ⟨x, hx, h⟩ := h
        obtain ⟨x', hx', h'⟩ := h'
        -- the three operations keep the agreement
        have hax := readsChain_evaluateWithFuel up child _ _ doc doc' x x' hx hx'
        split at h
        · rename_i hf
          rw [if_pos hf] at h'
          cases h
          cases h'
          exact ha.intersection hax
        · rename_i hf
          rw [if_neg hf] at h'
          split at h
          · rename_i hf
            rw [if_pos hf] at h'
            cases h
            cases h'
            exact ha.subtract hax
          · rename_i hf
            rw [if_neg hf] at h'
            split at h
            · rename_i hf
              rw [if_pos hf] at h'
              cases h
              cases h'
              exact ha.union hax
            · simp at h

/-- **A Filter 2.0 transform selects by the chain.** -/
theorem readsChain_filter2Ns (up : Uppsala) (transformNode : Node) :
    ReadsChain (fun doc => filter2Ns up doc transformNode) := by
  intro doc doc' s s' h h'
  refine Fold.related (R := AgreeOnChains doc doc') ?_ (agreeOnChains_all doc doc') h h'
  intro child s s' t t' ha hs hs'
  exact agreeOnChains_filter2Step ha hs hs'

/-! ## No namespace nodes, no attribute nodes -/

/-- The set lists nodes and nothing else. -/
structure NodeSet.Plain (s : NodeSet) : Prop where
  nsVisible : s.nsVisible = none
  excludeAttrs : s.excludeAttrs = false

theorem NodeSet.Plain.combine {a b : NodeSet} (ha : a.Plain) (hb : b.Plain) :
    (a.intersection b).Plain ∧ (a.union b).Plain ∧ (a.subtract b).Plain := by
  obtain ⟨hn, he⟩ := ha
  obtain ⟨hn', he'⟩ := hb
  refine ⟨⟨?_, ?_⟩, ⟨?_, ?_⟩, ⟨?_, ?_⟩⟩
  · simp [NodeSet.intersection, NodeSet.mergeNsVisibleIntersection, hn, hn']
  · simp [NodeSet.intersection, he, he']
  · simp [NodeSet.union, NodeSet.mergeNsVisibleUnion, hn, hn']
  · simp [NodeSet.union, he]
  · simp [NodeSet.subtract, NodeSet.mergeNsVisibleSubtract, hn, hn']
  · simp [NodeSet.subtract, he]

theorem selectByName_plain {doc : Document} {xpathNode : Node} {name : List Char} {s : NodeSet}
    (h : selectByName doc xpathNode name = .ok s) : s.Plain := by
  unfold selectByName at h
  split at h
  · split at h
    · simp at h
    · cases h
      exact ⟨rfl, rfl⟩
  · cases h
    exact ⟨rfl, rfl⟩

theorem evaluateWithFuel_plain {up : Uppsala} {doc : Document} {xpathNode : Node} {fuel : Nat}
    {expr : List Char} {s : NodeSet} (h : evaluateWithFuel up doc xpathNode fuel expr = .ok s) :
    s.Plain := by
  induction fuel generalizing expr s with
  | zero => simp [evaluateWithFuel] at h
  | succ fuel ih =>
      rw [evaluateWithFuel] at h
      split at h
      · cases h
        exact ⟨rfl, rfl⟩
      · split at h
        · rw [bind_eq_ok] at h
          obtain ⟨l, hl, h⟩ := h
          rw [bind_eq_ok] at h
          obtain ⟨r, hr, hres⟩ := h
          cases hres
          exact ((ih hl).combine (ih hr)).2.1
        · split at h
          · exact selectByName_plain h
          · split at h
            · rw [bind_eq_ok] at h
              obtain ⟨steps, _, h⟩ := h
              rw [bind_eq_ok] at h
              obtain ⟨ns, _, hres⟩ := h
              cases hres
              exact ⟨rfl, rfl⟩
            · simp at h

theorem filter2Ns_plain {up : Uppsala} {doc : Document} {transformNode : Node} {s : NodeSet}
    (h : filter2Ns up doc transformNode = .ok s) : s.Plain := by
  refine Fold.invariant (P := NodeSet.Plain) ?_ ⟨rfl, rfl⟩ h
  intro s child t hs hstep
  unfold filter2Step at hstep
  split at hstep
  · cases hstep
    exact hs
  · split at hstep
    · cases hstep
      exact hs
    · rw [bind_eq_ok] at hstep
      obtain ⟨x, hx, hstep⟩ := hstep
      obtain ⟨hi, hu, hd⟩ := hs.combine (evaluateWithFuel_plain hx)
      split at hstep
      · cases hstep
        exact hi
      · split at hstep
        · cases hstep
          exact hd
        · split at hstep
          · cases hstep
            exact hu
          · simp at hstep

end Bergshamra
