import Bergshamra.Proof.SameView

/-!
# What the canonical form must contain

The other half of `SameView`: what shows is written. The canonical form of an
element stands as it is in the canonical form of the document, in the state the
walk has when it gets there (`Inclusive.inheritedAt`, `Exclusive.renderedAt`), so
a text or a namespace declaration that shows makes the whole at least as long as
it is itself. Nothing more is needed to tell two documents apart.
-/

namespace Bergshamra

/-! ## Lengths -/

theorem length_le_flatMap {escape : Char → List Char} (h : ∀ c, 1 ≤ (escape c).length)
    (s : List Char) : s.length ≤ (s.flatMap escape).length := by
  induction s with
  | nil => simp
  | cons c s ih =>
      have := h c
      rw [List.flatMap_cons, List.length_append, List.length_cons]
      omega

theorem length_le_escapeText (s : String) : s.length ≤ (escapeText s).length := by
  rw [← String.length_toList]
  refine length_le_flatMap ?_ _
  intro c
  unfold escapeTextChar
  split <;> simp

theorem length_le_escapeAttr (s : String) : s.length ≤ (escapeAttr s).length := by
  rw [← String.length_toList]
  refine length_le_flatMap ?_ _
  intro c
  unfold escapeAttrChar
  split <;> simp

theorem length_le_render (d : NsDecl) : d.uri.length ≤ d.render.length := by
  have := length_le_escapeAttr d.uri
  unfold NsDecl.render
  split
  · simp only [List.length_append]
    omega
  · simp only [List.length_append]
    omega

/-- A declaration among those sorted and written is in the output. -/
theorem length_le_of_mem_decls {d : NsDecl} {ds : List NsDecl} (h : d ∈ ds) :
    d.uri.length ≤ ((sortNsDecls ds).flatMap NsDecl.render).length := by
  have hmem : d ∈ sortNsDecls ds := (List.perm_insertionSort NsDecl.le ds).mem_iff.mpr h
  have hin : d.render <:+: (sortNsDecls ds).flatMap NsDecl.render := by
    rw [List.flatMap_def]
    exact List.infix_of_mem_flatten (List.mem_map_of_mem hmem)
  exact (length_le_render d).trans hin.length_le

/-- An element's one declaration is what it binds the prefix to. -/
theorem getElem?_collectInscope_declared {drop : String → String → Bool} {e : Element}
    {p uri : String} (he : e.namespaceDeclarations = [(p, uri)]) (hd : drop p uri = false)
    (chain : List Element) : (collectInscope drop (e :: chain))[p]? = some uri := by
  have hl : (nsLevel e)[p]? = some uri := by
    rw [nsLevel, he]
    simp
  rw [getElem?_collectInscope_cons, hl]
  simp [hd]

theorem hasNsFilter_visible {s : Option NodeSet} {i : NodeId} {p : String}
    (h : showsNs s i p = true) {current : NsMap} {uri : String} (hc : current[p]? = some uri) :
    (p, uri) ∈ (visibleNamespaces s i current).toList := by
  rw [Std.ExtTreeMap.mem_toList_iff_getElem?_eq_some, getElem?_visibleNamespaces, h]
  simpa using hc

/-! ## Inclusive canonicalization -/

namespace Inclusive

/-- What the children of the nearest element of `path` inherit. -/
def inheritedAt (ctx : C14nContext) : List (NodeId × Element) → NsMap
  | [] => ∅
  | (i, e) :: path =>
      if isVisible ctx.nodeSet i then
        childNs (hasNsFilter ctx.nodeSet) (inheritedAt ctx path) (visibleNs ctx i path e)
      else inheritedAt ctx path

/-- The rows below an element are written inside what the element writes. -/
theorem processNodes_kids_within (ctx : C14nContext) (path : List (NodeId × Element))
    (preceding : Bool) (i : NodeId) (e : Element) (kids rest : Nodes) :
    processNodes ctx ((i, e) :: path) false (inheritedAt ctx ((i, e) :: path)) kids
      <:+: processNodes ctx path preceding (inheritedAt ctx path) (.node i e kids rest) := by
  rw [processNodes, inheritedAt]
  cases isVisible ctx.nodeSet i with
  | true =>
      refine List.infix_append_of_infix_left ?_
      rw [if_pos rfl, if_pos rfl]
      exact List.infix_append _ _ _
  | false =>
      refine List.infix_append_of_infix_left ?_
      rw [if_neg (by simp), if_neg (by simp)]
      exact List.infix_append_right

/-- An element writes inside the document what it writes alone. -/
theorem processNodes_within (ctx : C14nContext) {c : Node} (hc : c.element?.isSome)
    {path : List (NodeId × Element)} {f : Nodes} (preceding : Bool)
    (hmem : c ∈ f.cursors path) :
    processNodes ctx c.path false (inheritedAt ctx c.path) c.toForest
      <:+: processNodes ctx path preceding (inheritedAt ctx path) f := by
  induction f generalizing path preceding with
  | nil => simp [Forest.cursors] at hmem
  | leaf i k rest ih =>
      rw [Forest.cursors, List.mem_cons] at hmem
      rcases hmem with hmem | hmem
      · subst hmem
        simp [Node.element?] at hc
      · rw [processNodes]
        exact List.infix_append_of_infix_right (ih preceding hmem)
  | node i e kids rest ihk ihr =>
      rw [Forest.cursors, List.mem_cons, List.mem_append] at hmem
      rcases hmem with hmem | hmem | hmem
      · subst hmem
        rw [Forest.Cursor.toForest, processNodes, processNodes, processNodes, List.append_nil]
        exact List.infix_append_left
      · exact (ihk false hmem).trans (processNodes_kids_within ctx path preceding i e kids rest)
      · rw [processNodes]
        exact List.infix_append_of_infix_right (ihr true hmem)

/-- An element outside the set writes the binding it declares, if it shows and is news. -/
theorem length_le_of_hidden {ctx : C14nContext} {c : Node} {e : Element} {kids : Nodes}
    (hc : c.item = .node e kids) (hv : isVisible ctx.nodeSet c.key = false)
    (hf : hasNsFilter ctx.nodeSet = true) {p uri : String}
    (he : e.namespaceDeclarations = [(p, uri)]) (hp : p ≠ "xml")
    (hs : showsNs ctx.nodeSet c.key p = true) (huri : uri.isEmpty = false) {inherited : NsMap}
    (hnew : inherited[p]? ≠ some uri) :
    uri.length ≤ (processNodes ctx c.path false inherited c.toForest).length := by
  have hget : (collectInscopeNamespaces (e :: c.path.map Prod.snd))[p]? = some uri :=
    getElem?_collectInscope_declared he (by simp [huri]) _
  have hdecl : (⟨p, uri⟩ : NsDecl) ∈ changedDecls inherited (visibleNs ctx c.key c.path e) := by
    unfold changedDecls
    rw [List.mem_filterMap]
    refine ⟨(p, uri), hasNsFilter_visible hs hget, ?_⟩
    rw [if_neg hp, if_neg hnew, if_neg (by simp [huri])]
  have hlen : uri.length ≤ _ := length_le_of_mem_decls hdecl
  rw [Forest.Cursor.toForest, hc]
  dsimp only
  rw [processNodes, hv, hf]
  simp only [Bool.false_eq_true, if_false, if_true, List.length_append]
  omega

end Inclusive

/-! ## Exclusive canonicalization -/

namespace Exclusive

/-- What the children of the nearest element of `path` find rendered. -/
def renderedAt (ctx : ExcC14nContext) : List (NodeId × Element) → NsMap
  | [] => ∅
  | (i, e) :: path =>
      if isVisible ctx.nodeSet i then
        childRendered (hasNsFilter ctx.nodeSet) (renderedAt ctx path) (visibleNs ctx i path e)
          (utilizedPrefixes ctx.inclusivePrefixes e)
      else renderedAt ctx path

/-- The rows below an element are written inside what the element writes. -/
theorem processNodes_kids_within (ctx : ExcC14nContext) (path : List (NodeId × Element))
    (preceding : Bool) (i : NodeId) (e : Element) (kids rest : Nodes) :
    processNodes ctx ((i, e) :: path) false (renderedAt ctx ((i, e) :: path)) kids
      <:+: processNodes ctx path preceding (renderedAt ctx path) (.node i e kids rest) := by
  rw [processNodes, renderedAt]
  cases isVisible ctx.nodeSet i with
  | true =>
      refine List.infix_append_of_infix_left ?_
      rw [if_pos rfl, if_pos rfl]
      exact List.infix_append _ _ _
  | false =>
      refine List.infix_append_of_infix_left ?_
      rw [if_neg (by simp), if_neg (by simp)]
      exact List.infix_append_right

/-- An element writes inside the document what it writes alone. -/
theorem processNodes_within (ctx : ExcC14nContext) {c : Node} (hc : c.element?.isSome)
    {path : List (NodeId × Element)} {f : Nodes} (preceding : Bool)
    (hmem : c ∈ f.cursors path) :
    processNodes ctx c.path false (renderedAt ctx c.path) c.toForest
      <:+: processNodes ctx path preceding (renderedAt ctx path) f := by
  induction f generalizing path preceding with
  | nil => simp [Forest.cursors] at hmem
  | leaf i k rest ih =>
      rw [Forest.cursors, List.mem_cons] at hmem
      rcases hmem with hmem | hmem
      · subst hmem
        simp [Node.element?] at hc
      · rw [processNodes]
        exact List.infix_append_of_infix_right (ih preceding hmem)
  | node i e kids rest ihk ihr =>
      rw [Forest.cursors, List.mem_cons, List.mem_append] at hmem
      rcases hmem with hmem | hmem | hmem
      · subst hmem
        rw [Forest.Cursor.toForest, processNodes, processNodes, processNodes, List.append_nil]
        exact List.infix_append_left
      · exact (ihk false hmem).trans (processNodes_kids_within ctx path preceding i e kids rest)
      · rw [processNodes]
        exact List.infix_append_of_infix_right (ihr true hmem)

/-- An element outside the set writes the binding it declares, if the PrefixList names the
prefix, it shows and is news. -/
theorem length_le_of_hidden {ctx : ExcC14nContext} {c : Node} {e : Element} {kids : Nodes}
    (hc : c.item = .node e kids) (hv : isVisible ctx.nodeSet c.key = false)
    (hf : hasNsFilter ctx.nodeSet = true) {p uri : String}
    (he : e.namespaceDeclarations = [(p, uri)]) (hp : p ≠ "xml")
    (hpl : inPrefixList ctx.inclusivePrefixes p = true)
    (hs : showsNs ctx.nodeSet c.key p = true) (huri : uri.isEmpty = false) {rendered : NsMap}
    (hnew : rendered[p]? ≠ some uri) :
    uri.length ≤ (processNodes ctx c.path false rendered c.toForest).length := by
  have hget : (collectInscopeNamespaces (e :: c.path.map Prod.snd))[p]? = some uri :=
    getElem?_collectInscope_declared he huri _
  have hlen : uri.length
      ≤ ((floatingDecls ctx.inclusivePrefixes rendered (visibleNs ctx c.key c.path e)).flatMap
          NsDecl.render).length := by
    refine length_le_of_mem_decls (d := ⟨p, uri⟩) ?_
    rw [List.mem_filterMap]
    refine ⟨(p, uri), hasNsFilter_visible hs hget, ?_⟩
    rw [if_neg (by simp [hp, hpl, hnew])]
  have hne : ctx.inclusivePrefixes.isEmpty = false := by
    cases hps : ctx.inclusivePrefixes with
    | nil => rw [hps] at hpl; simp [inPrefixList] at hpl
    | cons => rfl
  rw [Forest.Cursor.toForest, hc]
  dsimp only
  rw [processNodes, hv, hf, hne]
  simp only [Bool.false_eq_true, if_false, Bool.not_false, Bool.and_self, if_true,
    List.length_append]
  omega

end Exclusive

/-! ## All six modes -/

/-- The namespace state the walk has below `path`. -/
def carriedAt (mode : C14nMode) (s : Option NodeSet) (inclusivePrefixes : List String)
    (path : List (NodeId × Element)) : NsMap :=
  if mode.isExclusive then
    Exclusive.renderedAt ⟨mode.withComments, s, inclusivePrefixes⟩ path
  else Inclusive.inheritedAt ⟨mode.withComments, s, mode.isC14n11⟩ path

/-- **A hidden element's namespace node is written.** -/
theorem length_le_of_float {mode : C14nMode} {s : Option NodeSet}
    {inclusivePrefixes : List String} {doc : Document} {c : Node} (hmem : c ∈ doc.descendants)
    {e : Element} {kids : Nodes} (hc : c.item = .node e kids)
    (hv : isVisible s c.key = false) (hf : hasNsFilter s = true) {p uri : String}
    (he : e.namespaceDeclarations = [(p, uri)]) (hp : floats mode inclusivePrefixes p = true)
    (hs : showsNs s c.key p = true) (huri : uri.isEmpty = false)
    (hnew : (carriedAt mode s inclusivePrefixes c.path)[p]? ≠ some uri) :
    uri.length ≤ (canonicalText doc mode s inclusivePrefixes).length := by
  have hsome : c.element?.isSome := by simp [Node.element?, hc]
  unfold floats at hp
  unfold canonicalText
  rw [carriedAt] at hnew
  by_cases hx : mode.isExclusive = true
  · rw [if_pos hx] at hnew ⊢
    rw [hx] at hp
    simp only [Bool.and_eq_true, bne_iff_ne, ne_eq, Bool.not_true, Bool.false_or] at hp
    have hin := Exclusive.processNodes_within ⟨mode.withComments, s, inclusivePrefixes⟩ hsome
      false hmem
    exact (Exclusive.length_le_of_hidden hc hv hf he hp.1 hp.2 hs huri hnew).trans hin.length_le
  · rw [if_neg hx] at hnew ⊢
    simp only [Bool.and_eq_true, bne_iff_ne, ne_eq] at hp
    have hin := Inclusive.processNodes_within ⟨mode.withComments, s, mode.isC14n11⟩ hsome
      false hmem
    exact (Inclusive.length_le_of_hidden hc hv hf he hp.1 hs huri hnew).trans hin.length_le

/-- **A visible text is written.** -/
theorem length_le_of_text (mode : C14nMode) (inclusivePrefixes : List String)
    {s : Option NodeSet} {doc : Document} {c : Node} (hmem : c ∈ doc.descendants)
    {e : Element} {i : NodeId} {t : String} (hc : c.item = .node e (.leaf i (.text t) .nil))
    (hi : isVisible s i = true) :
    t.length ≤ (canonicalText doc mode s inclusivePrefixes).length := by
  have hsome : c.element?.isSome := by simp [Node.element?, hc]
  have htext := length_le_escapeText t
  unfold canonicalText
  by_cases hx : mode.isExclusive = true
  · rw [if_pos hx]
    have hin := Exclusive.processNodes_within ⟨mode.withComments, s, inclusivePrefixes⟩ hsome
      false hmem
    rw [Forest.Cursor.toForest, hc] at hin
    have hkids := Exclusive.processNodes_kids_within ⟨mode.withComments, s, inclusivePrefixes⟩
      c.path false c.key e (.leaf i (.text t) .nil) .nil
    have hlen := (hkids.trans hin).length_le
    rw [Exclusive.processNodes, hi, if_pos rfl, List.length_append] at hlen
    exact htext.trans ((Nat.le_add_right _ _).trans hlen)
  · rw [if_neg hx]
    have hin := Inclusive.processNodes_within ⟨mode.withComments, s, mode.isC14n11⟩ hsome
      false hmem
    rw [Forest.Cursor.toForest, hc] at hin
    have hkids := Inclusive.processNodes_kids_within ⟨mode.withComments, s, mode.isC14n11⟩
      c.path false c.key e (.leaf i (.text t) .nil) .nil
    have hlen := (hkids.trans hin).length_le
    rw [Inclusive.processNodes, hi, if_pos rfl, List.length_append] at hlen
    exact htext.trans ((Nat.le_add_right _ _).trans hlen)

end Bergshamra
