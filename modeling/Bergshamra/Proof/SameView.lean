import Bergshamra.C14n.Canonicalize

/-!
# Two documents that show the same through a node set

The canonicalizers read a document through a node set. Two documents that differ
only where the set shows nothing must have one canonical form. `SameView` is the
relation that makes this precise: it walks two rows of siblings side by side,
asks for equal nodes where a node shows, and lets either side have extra nodes
where nothing shows.

An element that is not in the set is not simply absent. It still writes its
visible namespace nodes, when the set filters them, and it still counts as an
ancestor; so a node can be left out only when it is *dark*: it and everything
below it is outside the set, with no visible namespace node that would be
written. At the top level one more thing counts, the presence of an element
before or after a comment, so there a dark element can change but not vanish.
-/

namespace Bergshamra

/-- Does the set show the namespace node of prefix `p` at element `id`? -/
def showsNs (s : Option NodeSet) (id : NodeId) (p : String) : Bool :=
  s.all (fun ns => ns.isNsVisible id p)

theorem getElem?_visibleNamespaces (s : Option NodeSet) (id : NodeId) (current : NsMap)
    (p : String) :
    (visibleNamespaces s id current)[p]? = if showsNs s id p then current[p]? else none := by
  unfold visibleNamespaces showsNs
  cases s with
  | none => simp
  | some ns =>
      dsimp only
      by_cases h : ns.hasNsVisible = true
      · rw [if_pos h, Std.ExtTreeMap.getElem?_filter']
        cases hc : current[p]? <;> simp [Option.filter]
      · have hv := NodeSet.isNsVisible_of_not_has (by simpa using h) id p
        rw [if_neg h]
        simp [hv]

/-- Every element and leaf of the row is outside the set, and the elements show no namespace
node that an element outside the set would write (`floats`). -/
def Dark (floats : String → Bool) (s : Option NodeSet) : Nodes → Prop
  | .nil => True
  | .leaf i _ rest => isVisible s i = false ∧ Dark floats s rest
  | .node i _ kids rest =>
      isVisible s i = false ∧ (hasNsFilter s = true → ∀ p, floats p → showsNs s i p = false)
        ∧ Dark floats s kids ∧ Dark floats s rest

/-- The two sets show an element alike: the element itself and each of its namespace nodes. -/
structure ShownAlike (s s' : Option NodeSet) (i i' : NodeId) : Prop where
  self : isVisible s i = isVisible s' i'
  ns : ∀ p, showsNs s i p = showsNs s' i' p

/-- Two rows show the same. `top` tells that the row is the document node's; `same` restricts
which nodes may be matched with each other. -/
inductive SameView (floats : String → Bool) (same : NodeId → NodeId → Prop)
    (s s' : Option NodeSet) : Bool → Nodes → Nodes → Prop
  | nil {top} : SameView floats same s s' top .nil .nil
  | leaf {top i i' k rest rest'} (hsame : same i i') (hi : isVisible s i = isVisible s' i')
      (hrest : SameView floats same s s' top rest rest') :
      SameView floats same s s' top (.leaf i k rest) (.leaf i' k rest')
  | node {top i i' e kids kids' rest rest'} (hsame : same i i') (hi : ShownAlike s s' i i')
      (hkids : SameView floats same s s' false kids kids')
      (hrest : SameView floats same s s' top rest rest') :
      SameView floats same s s' top (.node i e kids rest) (.node i' e kids' rest')
  | skipLeaf {top i k rest f'} (hi : isVisible s i = false)
      (hrest : SameView floats same s s' top rest f') :
      SameView floats same s s' top (.leaf i k rest) f'
  | skipLeaf' {top f i' k rest'} (hi : isVisible s' i' = false)
      (hrest : SameView floats same s s' top f rest') :
      SameView floats same s s' top f (.leaf i' k rest')
  | skipNode {i e kids rest f'} (hd : Dark floats s (.node i e kids .nil))
      (hrest : SameView floats same s s' false rest f') :
      SameView floats same s s' false (.node i e kids rest) f'
  | skipNode' {f i' e kids' rest'} (hd : Dark floats s' (.node i' e kids' .nil))
      (hrest : SameView floats same s s' false f rest') :
      SameView floats same s s' false f (.node i' e kids' rest')
  | hole {top i i' e e' kids kids' rest rest'} (hd : Dark floats s (.node i e kids .nil))
      (hd' : Dark floats s' (.node i' e' kids' .nil))
      (hrest : SameView floats same s s' top rest rest') :
      SameView floats same s s' top (.node i e kids rest) (.node i' e' kids' rest')

theorem dark_of_keys {floats : String → Bool} {s : Option NodeSet} {f : Nodes}
    (hv : ∀ i ∈ f.keys, isVisible s i = false)
    (hns : hasNsFilter s = true → ∀ i ∈ f.keys, ∀ p, floats p → showsNs s i p = false) :
    Dark floats s f := by
  induction f with
  | nil => trivial
  | leaf i k rest ih =>
      refine ⟨hv i (by simp), ih (fun j hj => hv j (by simp [hj])) ?_⟩
      intro hf j hj
      exact hns hf j (by simp [hj])
  | node i e kids rest ihk ihr =>
      refine ⟨hv i (by simp), fun hf => hns hf i (by simp), ?_, ?_⟩
      · refine ihk (fun j hj => hv j (by simp [hj])) ?_
        intro hf j hj
        exact hns hf j (by simp [hj])
      · refine ihr (fun j hj => hv j (by simp [hj])) ?_
        intro hf j hj
        exact hns hf j (by simp [hj])

/-- A row whose nodes both sets show alike. -/
theorem SameView.of_alike {floats : String → Bool} {s s' : Option NodeSet} (top : Bool) (f : Nodes)
    (h : ∀ i ∈ f.keys, ShownAlike s s' i i) : SameView floats Eq s s' top f f := by
  induction f generalizing top with
  | nil => exact .nil
  | leaf i k rest ih =>
      exact .leaf rfl (h i (by simp)).self (ih top (fun j hj => h j (by simp [hj])))
  | node i e kids rest ihk ihr =>
      exact .node rfl (h i (by simp)) (ihk false (fun j hj => h j (by simp [hj])))
        (ihr top (fun j hj => h j (by simp [hj])))

/-- **Replacing a dark subtree by a dark subtree does not show.** -/
theorem SameView.replaceNode {floats : String → Bool} {s s' : Option NodeSet} (top : Bool)
    {path : List (NodeId × Element)} {f : Nodes} (hn : f.keys.Nodup) {n : Node}
    (hmem : n ∈ f.cursors path) {e : Element} {kids : Nodes} (hi : n.item = .node e kids)
    {e' : Element} {kids' : Nodes}
    (hout : ∀ i ∈ f.keys, i ∉ n.subtreeKeys → ShownAlike s s' i i)
    (hd : Dark floats s (.node n.key e kids .nil))
    (hd' : Dark floats s' (.node n.key e' kids' .nil)) :
    SameView floats Eq s s' top f (f.replaceNode n.key e' kids') := by
  induction f generalizing path top with
  | nil => simp [Forest.cursors] at hmem
  | leaf i k rest ih =>
      rw [Forest.cursors, List.mem_cons] at hmem
      rw [Forest.keys_leaf, List.nodup_cons] at hn
      rcases hmem with hmem | hmem
      · subst hmem
        simp at hi
      · have hni : i ∉ n.subtreeKeys := fun h => hn.1 (Forest.subtreeKeys_subset hmem h)
        exact .leaf rfl (hout i (by simp) hni).self
          (ih top hn.2 hmem (fun j hj => hout j (by simp [hj])))
  | node i e₀ kids₀ rest ihk ihr =>
      have hn' := hn
      rw [Forest.keys_node, List.nodup_cons, List.nodup_append] at hn'
      obtain ⟨_, hk, hr, hdisj⟩ := hn'
      rw [Forest.cursors, List.mem_cons, List.mem_append] at hmem
      rcases hmem with hmem | hmem | hmem
      · subst hmem
        simp only [Forest.Item.node.injEq] at hi
        obtain ⟨rfl, rfl⟩ := hi
        rw [Forest.replaceNode, if_pos rfl]
        -- the node itself: its rest is beside what is replaced
        refine .hole hd hd' (.of_alike top rest ?_)
        intro j hj
        refine hout j (by simp [hj]) ?_
        intro hs
        rcases List.mem_cons.mp hs with hs | hs
        · subst hs
          exact (List.nodup_cons.mp hn).1 (List.mem_append_right _ hj)
        · exact hdisj j hs j hj rfl
      · have hni : i ∉ n.subtreeKeys := Forest.not_mem_subtreeKeys_of_kids hn hmem (Or.inl rfl)
        have hne : i ≠ n.key := fun he => hni (he ▸ List.mem_cons_self)
        have hrest : n.key ∉ rest.keys :=
          fun h => hdisj _ (Forest.mem_cursors_key hmem) _ h rfl
        rw [Forest.replaceNode, if_neg hne, Forest.replaceNode_of_not_mem e' kids' hrest]
        refine .node rfl (hout i (by simp) hni)
          (ihk false hk hmem (fun j hj => hout j (by simp [hj]))) (.of_alike top rest ?_)
        intro j hj
        exact hout j (by simp [hj]) (Forest.not_mem_subtreeKeys_of_kids hn hmem (Or.inr hj))
      · have hni : i ∉ n.subtreeKeys := Forest.not_mem_subtreeKeys_of_rest hn hmem (Or.inl rfl)
        have hne : i ≠ n.key := fun he => hni (he ▸ List.mem_cons_self)
        have hkids : n.key ∉ kids₀.keys :=
          fun h => hdisj _ h _ (Forest.mem_cursors_key hmem) rfl
        rw [Forest.replaceNode, if_neg hne, Forest.replaceNode_of_not_mem e' kids' hkids]
        refine .node rfl (hout i (by simp) hni) (.of_alike false kids₀ ?_)
          (ihr top hr hmem (fun j hj => hout j (by simp [hj])))
        intro j hj
        exact hout j (by simp [hj]) (Forest.not_mem_subtreeKeys_of_rest hn hmem (Or.inr hj))

/-- At the top level both rows have an element, or neither has. -/
theorem SameView.hasNode {floats : String → Bool} {same : NodeId → NodeId → Prop}
    {s s' : Option NodeSet} {top : Bool} {f f' : Nodes} (h : SameView floats same s s' top f f')
    (ht : top = true) :
    f.hasNode = f'.hasNode := by
  induction h with
  | nil => rfl
  | leaf _ _ _ ih => exact ih ht
  | node => rfl
  | skipLeaf _ _ ih => exact ih ht
  | skipLeaf' _ _ ih => exact ih ht
  | skipNode | skipNode' => exact absurd ht (by simp)
  | hole => rfl

/-- The chains above two rows: the same elements, shown alike. -/
def SameChain (s s' : Option NodeSet) (path path' : List (NodeId × Element)) : Prop :=
  List.Forall₂ (fun a a' => a.2 = a'.2 ∧ isVisible s a.1 = isVisible s' a'.1) path path'

theorem SameChain.elements {s s' : Option NodeSet} {path path' : List (NodeId × Element)}
    (h : SameChain s s' path path') : path.map Prod.snd = path'.map Prod.snd := by
  induction h with
  | nil => rfl
  | cons ha _ ih => rw [List.map_cons, List.map_cons, ha.1, ih]

theorem SameChain.isEmpty {s s' : Option NodeSet} {path path' : List (NodeId × Element)}
    (h : SameChain s s' path path') : path.isEmpty = path'.isEmpty := by
  cases h <;> rfl

/-- A leaf below an element is written without looking at its siblings; at the top level
it looks for elements before and after it. -/
theorem processLeaf_place (withComments : Bool) {root b b' w w' : Bool} (k : LeafKind)
    (h : root = true → b = w ∧ b' = w') :
    processLeaf withComments ⟨root, b, b'⟩ k = processLeaf withComments ⟨root, w, w'⟩ k := by
  cases root with
  | true =>
      obtain ⟨rfl, rfl⟩ := h rfl
      rfl
  | false => cases k <;> simp [processLeaf, Place.before, Place.after]

section Shown

variable {s s' : Option NodeSet} {i i' : NodeId}

theorem visibleNamespaces_alike (h : ∀ p, showsNs s i p = showsNs s' i' p) (current : NsMap) :
    visibleNamespaces s i current = visibleNamespaces s' i' current := by
  apply Std.ExtTreeMap.ext_getElem?
  intro p
  rw [getElem?_visibleNamespaces, getElem?_visibleNamespaces, h p]

/-- A dark element's visible bindings are all of prefixes that do not float. -/
theorem not_floats_of_dark {floats : String → Bool} (hf : hasNsFilter s = true)
    (hd : hasNsFilter s = true → ∀ p, floats p → showsNs s i p = false) {current : NsMap}
    {d : String × String} (hmem : d ∈ (visibleNamespaces s i current).toList) :
    floats d.1 = false := by
  have hget := Std.ExtTreeMap.mem_toList_iff_getElem?_eq_some.mp hmem
  rw [getElem?_visibleNamespaces] at hget
  by_contra hne
  rw [hd hf d.1 (by simpa using hne)] at hget
  exact absurd hget (by simp)

end Shown

/-! ## Inclusive canonicalization -/

namespace Inclusive

variable {floats : String → Bool} {same : NodeId → NodeId → Prop}

theorem processNodes_dark {ctx : C14nContext} (hfl : ∀ p, p ≠ "xml" → floats p = true)
    (path : List (NodeId × Element)) (preceding : Bool) (inherited : NsMap) (f : Nodes)
    (h : Dark floats ctx.nodeSet f) : processNodes ctx path preceding inherited f = [] := by
  induction f generalizing path preceding inherited with
  | nil => rfl
  | leaf i k rest ih =>
      rw [processNodes, h.1, ih _ _ _ h.2]
      rfl
  | node i e kids rest ihk ihr =>
      obtain ⟨hi, hns, hk, hr⟩ := h
      rw [processNodes, hi, ihr _ _ _ hr, if_neg (by simp), ihk _ _ _ hk]
      by_cases hf : hasNsFilter ctx.nodeSet = true
      · -- only the `xml` prefix can be visible, and it is never written
        have hnone : changedDecls inherited (visibleNs ctx i path e) = [] := by
          unfold changedDecls
          rw [List.filterMap_eq_nil_iff]
          intro d hd
          have hxml : d.1 = "xml" := by
            by_contra hne
            have := not_floats_of_dark hf hns hd
            rw [hfl d.1 hne] at this
            exact absurd this (by simp)
          rw [if_pos hxml]
        rw [hnone]
        simp [sortNsDecls]
      · simp [hf]

/-- A dark element is passed over. -/
theorem processNodes_dark_node {ctx : C14nContext} (hfl : ∀ p, p ≠ "xml" → floats p = true)
    (path : List (NodeId × Element)) (preceding : Bool) (inherited : NsMap) {i : NodeId}
    {e : Element} {kids rest : Nodes} (h : Dark floats ctx.nodeSet (.node i e kids .nil)) :
    processNodes ctx path preceding inherited (.node i e kids rest)
      = processNodes ctx path true inherited rest := by
  have hd := processNodes_dark hfl path preceding inherited _ h
  rw [processNodes, processNodes, List.append_nil] at hd
  rw [processNodes, hd, List.nil_append]

/-- The attributes written depend on the element, its ancestors, and whether the parent shows. -/
theorem attrsToRender_alike {ctx ctx' : C14nContext} {path path' : List (NodeId × Element)}
    (hset : ctx.nodeSet.isSome = ctx'.nodeSet.isSome)
    (hex : ctx.nodeSet.any NodeSet.excludesAttrs = ctx'.nodeSet.any NodeSet.excludesAttrs)
    (h11 : ctx.c14n11Mode = ctx'.c14n11Mode) (hp : SameChain ctx.nodeSet ctx'.nodeSet path path')
    (e : Element) : attrsToRender ctx path e = attrsToRender ctx' path' e := by
  have hparent : parentNotVisible ctx.nodeSet path = parentNotVisible ctx'.nodeSet path' := by
    cases hp with
    | nil => rfl
    | cons ha _ => simp [parentNotVisible, ha.2]
  simp only [attrsToRender, hset, hex, h11, hparent, hp.elements]

/-- **Inclusive canonicalization sees only what shows.** -/
theorem processNodes_sameView (ctx ctx' : C14nContext) (hfl : ∀ p, p ≠ "xml" → floats p = true)
    (hwc : ctx.withComments = ctx'.withComments) (h11 : ctx.c14n11Mode = ctx'.c14n11Mode)
    (hset : ctx.nodeSet.isSome = ctx'.nodeSet.isSome)
    (hex : ctx.nodeSet.any NodeSet.excludesAttrs = ctx'.nodeSet.any NodeSet.excludesAttrs)
    (hnf : hasNsFilter ctx.nodeSet = hasNsFilter ctx'.nodeSet)
    {top : Bool} {f f' : Nodes} (h : SameView floats same ctx.nodeSet ctx'.nodeSet top f f')
    {path path' : List (NodeId × Element)} (hp : SameChain ctx.nodeSet ctx'.nodeSet path path')
    (htop : path.isEmpty = top) {preceding preceding' : Bool}
    (hpre : top = true → preceding = preceding') (inherited : NsMap) :
    processNodes ctx path preceding inherited f
      = processNodes ctx' path' preceding' inherited f' := by
  induction h generalizing path path' preceding preceding' inherited with
  | nil => rfl
  | leaf _hsame hi hrest ih =>
      rename_i top i i' k rest rest'
      have hplace : top = true → preceding = preceding' ∧ rest.hasNode = rest'.hasNode :=
        fun ht => ⟨hpre ht, hrest.hasNode ht⟩
      rw [processNodes, processNodes, ih hp htop hpre inherited, hi, hwc, ← hp.isEmpty, htop,
        processLeaf_place _ k hplace]
  | node _hsame hi hkids hrest ihk ihr =>
      rename_i top i i' e kids kids' rest rest'
      -- the chains agree, so the same bindings are in scope and the same are handed down
      have hns : visibleNs ctx i path e = visibleNs ctx' i' path' e := by
        unfold visibleNs
        rw [hp.elements]
        exact visibleNamespaces_alike hi.ns _
      have hp' : SameChain ctx.nodeSet ctx'.nodeSet ((i, e) :: path) ((i', e) :: path') :=
        .cons ⟨rfl, hi.self⟩ hp
      have hk : ∀ m, processNodes ctx ((i, e) :: path) false m kids
          = processNodes ctx' ((i', e) :: path') false m kids' :=
        fun m => ihk hp' rfl (by simp) m
      rw [processNodes, processNodes, ihr hp htop (fun _ => rfl) inherited, hi.self, hnf, hns, hk,
        hk, attrsToRender_alike hset hex h11 hp e]
  | skipLeaf hi _ ih =>
      rw [processNodes, hi, ih hp htop hpre inherited]
      rfl
  | skipLeaf' hi _ ih =>
      rw [ih hp htop hpre inherited, processNodes, hi]
      rfl
  | skipNode hd _ ih =>
      rw [processNodes_dark_node hfl _ _ _ hd]
      exact ih hp htop (fun ht => absurd ht (by simp)) inherited
  | skipNode' hd _ ih =>
      rw [processNodes_dark_node hfl _ _ _ hd]
      exact ih hp htop (fun ht => absurd ht (by simp)) inherited
  | hole hd hd' _ ih =>
      rw [processNodes_dark_node hfl _ _ _ hd, processNodes_dark_node hfl _ _ _ hd']
      exact ih hp htop (fun _ => rfl) inherited

end Inclusive

/-! ## Exclusive canonicalization -/

namespace Exclusive

variable {floats : String → Bool} {same : NodeId → NodeId → Prop}

theorem processNodes_dark {ctx : ExcC14nContext}
    (hfl : ∀ p, p ≠ "xml" → inPrefixList ctx.inclusivePrefixes p = true → floats p = true)
    (path : List (NodeId × Element)) (preceding : Bool) (rendered : NsMap) (f : Nodes)
    (h : Dark floats ctx.nodeSet f) : processNodes ctx path preceding rendered f = [] := by
  induction f generalizing path preceding rendered with
  | nil => rfl
  | leaf i k rest ih =>
      rw [processNodes, h.1, ih _ _ _ h.2]
      rfl
  | node i e kids rest ihk ihr =>
      obtain ⟨hi, hns, hk, hr⟩ := h
      rw [processNodes, hi, ihr _ _ _ hr, if_neg (by simp), ihk _ _ _ hk]
      by_cases hf : hasNsFilter ctx.nodeSet = true
      · have hnone : floatingDecls ctx.inclusivePrefixes rendered (visibleNs ctx i path e) = [] := by
          unfold floatingDecls
          rw [List.filterMap_eq_nil_iff.mpr]
          · rfl
          · intro d hd
            have hout : d.1 = "xml" ∨ inPrefixList ctx.inclusivePrefixes d.1 = false := by
              by_contra hne
              rw [not_or, Bool.not_eq_false] at hne
              have := not_floats_of_dark hf hns hd
              rw [hfl d.1 hne.1 hne.2] at this
              exact absurd this (by simp)
            rw [if_pos (or_assoc.mp (Or.inl hout))]
        rw [hnone]
        simp
      · simp [hf]

/-- A dark element is passed over. -/
theorem processNodes_dark_node {ctx : ExcC14nContext}
    (hfl : ∀ p, p ≠ "xml" → inPrefixList ctx.inclusivePrefixes p = true → floats p = true)
    (path : List (NodeId × Element)) (preceding : Bool) (rendered : NsMap) {i : NodeId}
    {e : Element} {kids rest : Nodes} (h : Dark floats ctx.nodeSet (.node i e kids .nil)) :
    processNodes ctx path preceding rendered (.node i e kids rest)
      = processNodes ctx path true rendered rest := by
  have hd := processNodes_dark hfl path preceding rendered _ h
  rw [processNodes, processNodes, List.append_nil] at hd
  rw [processNodes, hd, List.nil_append]

/-- **Exclusive canonicalization sees only what shows.** -/
theorem processNodes_sameView (ctx ctx' : ExcC14nContext)
    (hfl : ∀ p, p ≠ "xml" → inPrefixList ctx.inclusivePrefixes p = true → floats p = true)
    (hwc : ctx.withComments = ctx'.withComments)
    (hpl : ctx.inclusivePrefixes = ctx'.inclusivePrefixes)
    (hnf : hasNsFilter ctx.nodeSet = hasNsFilter ctx'.nodeSet)
    {top : Bool} {f f' : Nodes} (h : SameView floats same ctx.nodeSet ctx'.nodeSet top f f')
    {path path' : List (NodeId × Element)} (hp : SameChain ctx.nodeSet ctx'.nodeSet path path')
    (htop : path.isEmpty = top) {preceding preceding' : Bool}
    (hpre : top = true → preceding = preceding') (rendered : NsMap) :
    processNodes ctx path preceding rendered f
      = processNodes ctx' path' preceding' rendered f' := by
  -- here only the prefixes of the list float
  have hfl' : ∀ p, p ≠ "xml" → inPrefixList ctx'.inclusivePrefixes p = true → floats p = true := by
    rw [← hpl]
    exact hfl
  induction h generalizing path path' preceding preceding' rendered with
  | nil => rfl
  | leaf _hsame hi hrest ih =>
      rename_i top i i' k rest rest'
      have hplace : top = true → preceding = preceding' ∧ rest.hasNode = rest'.hasNode :=
        fun ht => ⟨hpre ht, hrest.hasNode ht⟩
      rw [processNodes, processNodes, ih hp htop hpre rendered, hi, hwc, ← hp.isEmpty, htop,
        processLeaf_place _ k hplace]
  | node _hsame hi hkids hrest ihk ihr =>
      rename_i top i i' e kids kids' rest rest'
      have hns : visibleNs ctx i path e = visibleNs ctx' i' path' e := by
        unfold visibleNs
        rw [hp.elements]
        exact visibleNamespaces_alike hi.ns _
      have hp' : SameChain ctx.nodeSet ctx'.nodeSet ((i, e) :: path) ((i', e) :: path') :=
        .cons ⟨rfl, hi.self⟩ hp
      have hk : ∀ m, processNodes ctx ((i, e) :: path) false m kids
          = processNodes ctx' ((i', e) :: path') false m kids' :=
        fun m => ihk hp' rfl (by simp) m
      rw [processNodes, processNodes, ihr hp htop (fun _ => rfl) rendered, hi.self, hnf, hns, hk,
        hk, hpl]
  | skipLeaf hi _ ih =>
      rw [processNodes, hi, ih hp htop hpre rendered]
      rfl
  | skipLeaf' hi _ ih =>
      rw [ih hp htop hpre rendered, processNodes, hi]
      rfl
  | skipNode hd _ ih =>
      rw [processNodes_dark_node hfl _ _ _ hd]
      exact ih hp htop (fun ht => absurd ht (by simp)) rendered
  | skipNode' hd _ ih =>
      rw [processNodes_dark_node hfl' _ _ _ hd]
      exact ih hp htop (fun ht => absurd ht (by simp)) rendered
  | hole hd hd' _ ih =>
      rw [processNodes_dark_node hfl _ _ _ hd, processNodes_dark_node hfl' _ _ _ hd']
      exact ih hp htop (fun _ => rfl) rendered

end Exclusive

/-! ## All six modes -/

/-- Would an element outside the set write its namespace node of this prefix, if it shows? -/
def floats (mode : C14nMode) (inclusivePrefixes : List String) (p : String) : Bool :=
  p != "xml" && (!mode.isExclusive || Exclusive.inPrefixList inclusivePrefixes p)

/-- Two node sets with the same settings: present or not, filtering namespaces or not,
hiding attributes or not. -/
structure SameSettingsOf (s s' : Option NodeSet) : Prop where
  isSome : s.isSome = s'.isSome
  hasNsFilter : hasNsFilter s = Bergshamra.hasNsFilter s'
  excludesAttrs : s.any NodeSet.excludesAttrs = s'.any NodeSet.excludesAttrs

/-- **The canonical form is a function of the view.** -/
theorem canonicalizeDoc_sameView (mode : C14nMode) (inclusivePrefixes : List String)
    {same : NodeId → NodeId → Prop} {doc doc' : Document} {s s' : Option NodeSet}
    (hs : SameSettingsOf s s')
    (h : SameView (floats mode inclusivePrefixes) same s s' true doc.top doc'.top) :
    canonicalizeDoc doc mode s inclusivePrefixes
      = canonicalizeDoc doc' mode s' inclusivePrefixes := by
  rw [canonicalizeDoc_eq_iff]
  unfold canonicalText
  by_cases hx : mode.isExclusive = true
  · rw [if_pos hx, if_pos hx]
    refine Exclusive.processNodes_sameView ⟨mode.withComments, s, inclusivePrefixes⟩
      ⟨mode.withComments, s', inclusivePrefixes⟩ ?_ rfl rfl hs.hasNsFilter h .nil rfl (fun _ => rfl) ∅
    intro p hp hin
    rw [floats, hx]
    simpa [hp] using hin
  · rw [if_neg hx, if_neg hx]
    refine Inclusive.processNodes_sameView ⟨mode.withComments, s, mode.isC14n11⟩
      ⟨mode.withComments, s', mode.isC14n11⟩ ?_ rfl rfl hs.isSome hs.excludesAttrs hs.hasNsFilter h
      .nil rfl (fun _ => rfl) ∅
    intro p hp
    rw [floats]
    simp [hp, hx]

end Bergshamra
