import Bergshamra.Proof.FullEvaluation
import Bergshamra.Proof.OrderInvariance

/-!
# The canonical form is a complete invariant

In each of the six modes, and with no node set, two documents have the same
canonical octets exactly if they say the same. What a document says in a mode is
`meaning`: its view, in which comments count only where the mode keeps them.

One half rests on reading the markup back, as for injectivity. The other half
is that nothing but the view goes into the markup: a declaration is written
exactly where a relevant binding differs from what was handed down
(`Canonicalizes.mem_decls`), and so the walk over another document with the same
view writes the same declarations, hands down the same bindings, and sorts the
same attributes.
-/

namespace Bergshamra

/-! ## The nodes that a mode keeps -/

/-- A row without its comments. -/
def withoutComments : Nodes → Nodes
  | .nil => .nil
  | .leaf _ (.comment _) rest => withoutComments rest
  | .leaf i k rest => .leaf i k (withoutComments rest)
  | .node i e kids rest => .node i e (withoutComments kids) (withoutComments rest)

def keptNodes (mode : C14nMode) (f : Nodes) : Nodes :=
  if mode.withComments then f else withoutComments f

/-- **What a document says in a mode.** -/
def Document.meaning (mode : C14nMode) (inclusivePrefixes : List String) (doc : Document) :
    Forest Unit ElementView Markup.Leaf :=
  contentView (relevantPrefix mode inclusivePrefixes) [] (content (keptNodes mode doc.top))

@[simp] theorem hasNode_withoutComments (f : Nodes) :
    (withoutComments f).hasNode = f.hasNode := by
  induction f with
  | nil => rfl
  | leaf i k rest ih =>
      cases k with
      | comment t => exact ih
      | text t | cdata t | pi t d => exact ih
  | node => rfl

@[simp] theorem labels_withoutComments (f : Nodes) : (withoutComments f).labels = f.labels := by
  induction f with
  | nil => rfl
  | leaf i k rest ih =>
      cases k with
      | comment t => exact ih
      | text t | cdata t | pi t d => exact ih
  | node i e kids rest ihk ihr => rw [withoutComments, Forest.labels, Forest.labels, ihk, ihr]

theorem wellFormed_withoutComments {chain : List Element} {f : Nodes}
    (h : WellFormedRow LeafKind.WellFormed chain f) :
    WellFormedRow LeafKind.WellFormed chain (withoutComments f) := by
  induction f generalizing chain with
  | nil => trivial
  | leaf i k rest ih =>
      cases k with
      | comment t => exact ih h.2
      | text t | cdata t | pi t d => exact ⟨h.1, ih h.2⟩
  | node i e kids rest ihk ihr => exact ⟨h.1, ihk h.2.1, ihr h.2.2⟩

theorem noText_withoutComments {f : Nodes} (h : NoText f) : NoText (withoutComments f) := by
  induction f with
  | nil => trivial
  | leaf i k rest ih =>
      cases k with
      | comment t => exact ih h.2
      | text t | cdata t | pi t d => exact ⟨h.1, ih h.2⟩
  | node i e kids rest _ ihr => exact ihr h

theorem Inclusive.processNodes_withoutComments (c14n11Mode : Bool)
    (path : List (NodeId × Element)) (preceding : Bool) (inherited : NsMap) (f : Nodes) :
    processNodes ⟨false, none, c14n11Mode⟩ path preceding inherited f
      = processNodes ⟨true, none, c14n11Mode⟩ path preceding inherited (withoutComments f) := by
  induction f generalizing path preceding inherited with
  | nil => rfl
  | leaf i k rest ih =>
      cases k with
      | comment t =>
          rw [processNodes, withoutComments, ← ih]
          rfl
      | text t | cdata t | pi t d =>
          rw [processNodes, withoutComments, processNodes, hasNode_withoutComments, ← ih]
          · rfl
          · intro t ht
            cases ht
  | node i e kids rest ihk ihr =>
      rw [processNodes, withoutComments, processNodes, ← ihr, ← ihk]
      rfl

theorem Exclusive.processNodes_withoutComments (inclusivePrefixes : List String)
    (path : List (NodeId × Element)) (preceding : Bool) (rendered : NsMap) (f : Nodes) :
    processNodes ⟨false, none, inclusivePrefixes⟩ path preceding rendered f
      = processNodes ⟨true, none, inclusivePrefixes⟩ path preceding rendered (withoutComments f) := by
  induction f generalizing path preceding rendered with
  | nil => rfl
  | leaf i k rest ih =>
      cases k with
      | comment t =>
          rw [processNodes, withoutComments, ← ih]
          rfl
      | text t | cdata t | pi t d =>
          rw [processNodes, withoutComments, processNodes, hasNode_withoutComments, ← ih]
          · rfl
          · intro t ht
            cases ht
  | node i e kids rest ihk ihr =>
      rw [processNodes, withoutComments, processNodes, ← ihr, ← ihk]
      rfl

/-! ## One canonicalizer -/

/-- A canonicalizer without a node set: what it hands down can be read off what it writes, and
what it writes depends on the relevant bindings and on the attributes as a set. -/
structure Canonicalizes (rule : NsRule) (attrs : Element → List Attr)
    (relevant : Element → String → Bool) (Inv : NsMap → List Element → Prop) : Prop where
  readable : Readable rule relevant Inv
  relevantOk : RelevantOk relevant
  writes : WritesAttributes attrs
  attributes : ∀ {e e' : Element}, e.attributes.Perm e'.attributes → e.AttributesApart →
    attrs e = attrs e'
  /-- Declared is what is relevant and not bound to what was handed down. -/
  mem_decls : ∀ {state chain e p uri}, Inv state chain → e.DeclaresWell →
    (⟨p, uri⟩ ∈ rule.decls state (e :: chain)
      ↔ relevant e p = true ∧ p ≠ "xml" ∧ nonEmpty state[p]? ≠ resolve (e :: chain) p
        ∧ uri = (resolve (e :: chain) p).getD "")
  /-- Declarations are sorted, and no prefix is declared twice. -/
  decls_eq : ∀ {state state' chain chain' e e'},
    (∀ d, d ∈ rule.decls state (e :: chain) ↔ d ∈ rule.decls state' (e' :: chain')) →
    rule.decls state (e :: chain) = rule.decls state' (e' :: chain')

/-- A binding counts where it is not the empty one. -/
theorem nonEmpty_eq_some {uri : Option String} {u : String} :
    nonEmpty uri = some u ↔ uri = some u ∧ u ≠ "" := by
  rw [nonEmpty, Option.filter_eq_some_iff]
  simp

theorem Inclusive.mem_decls_iff {state : NsMap} {chain : List Element} {e : Element}
    {p uri : String} (hinv : Inclusive.HandsDown state chain) (he : e.DeclaresWell) :
    ⟨p, uri⟩ ∈ inclusiveRule.decls state (e :: chain)
      ↔ p ≠ "xml" ∧ nonEmpty state[p]? ≠ resolve (e :: chain) p
        ∧ uri = (resolve (e :: chain) p).getD "" := by
  rw [Inclusive.mem_decls]
  constructor
  · rintro ⟨hget, hx, hne, hnew⟩
    refine ⟨hx, ?_, ?_⟩
    · rw [resolve_of_ne hx, ← nonEmpty_inclusive_inscope, hget]
      intro hsame
      by_cases hu : uri = ""
      · -- an empty default is written only over another default
        subst hu
        cases hs : state[p]? with
        | none => exact hnew ⟨rfl, hs⟩
        | some u =>
            rw [hs] at hsame hne
            by_cases hu : u = ""
            · exact hne (by rw [hu])
            · rw [nonEmpty_eq_some.mpr ⟨rfl, hu⟩] at hsame
              cases hsame
      · rw [nonEmpty_eq_some.mpr ⟨rfl, hu⟩] at hsame
        exact hne (nonEmpty_eq_some.mp hsame).1
    · rw [resolve_of_ne hx, ← nonEmpty_inclusive_inscope, hget]
      by_cases hu : uri = ""
      · rw [hu]
        rfl
      · rw [nonEmpty_eq_some.mpr ⟨rfl, hu⟩, Option.getD_some]
  · -- what differs from what was handed down is written
    rintro ⟨hx, hne, huri⟩
    rw [resolve_of_ne hx, ← nonEmpty_inclusive_inscope] at hne huri
    cases hget : (Inclusive.collectInscopeNamespaces (e :: chain))[p]? with
    | none =>
        -- what is unbound here was unbound above
        rw [hget, hinv p hx, Inclusive.inscope_none he hget] at hne
        exact absurd rfl hne
    | some u =>
        rw [hget] at hne huri
        by_cases hu : u = ""
        · subst hu
          have huri : uri = "" := huri
          subst huri
          refine ⟨rfl, hx, ?_, ?_⟩
          · intro hs
            rw [hs] at hne
            exact hne rfl
          · rintro ⟨-, hs⟩
            rw [hs] at hne
            exact hne rfl
        · rw [nonEmpty_eq_some.mpr ⟨rfl, hu⟩] at hne huri
          have huri : uri = u := huri
          subst huri
          refine ⟨rfl, hx, fun hs => hne (nonEmpty_eq_some.mpr ⟨hs, hu⟩), ?_⟩
          rintro ⟨hempty, -⟩
          exact hu (String.isEmpty_iff.mp hempty)

/-- Nothing is declared where the binding is the one that was handed down. -/
theorem Exclusive.nsDeclFor_of_handed {rendered ns : NsMap} {p : String} (hx : p ≠ "xml")
    (h : nonEmpty rendered[p]? = ns[p]?) : Exclusive.nsDeclFor rendered ns p = none := by
  unfold Exclusive.nsDeclFor
  rw [if_neg hx]
  cases hns : ns[p]? with
  | some uri =>
      rw [hns] at h
      simp only [(nonEmpty_eq_some.mp h).1, if_true]
  | none =>
      rw [hns] at h
      have hempty : ∀ u, rendered[p]? = some u → u = "" := by
        intro u hu
        by_contra hne
        rw [hu, nonEmpty_eq_some.mpr ⟨rfl, hne⟩] at h
        cases h
      dsimp only
      refine if_neg ?_
      rw [Bool.and_eq_true, String.isEmpty_iff]
      rintro ⟨rfl, hany⟩
      cases hget : rendered[""]? with
      | none =>
          rw [hget] at hany
          cases hany
      | some u =>
          rw [hget, hempty u hget] at hany
          cases hany

theorem Exclusive.mem_decls_iff {ps : List String} {state : NsMap} {chain : List Element}
    {e : Element} {p uri : String} (hinv : Exclusive.HandsDown state chain) (he : e.DeclaresWell) :
    ⟨p, uri⟩ ∈ (exclusiveRule ps).decls state (e :: chain)
      ↔ (Exclusive.utilizedPrefixes ps e).contains p = true ∧ p ≠ "xml"
        ∧ nonEmpty state[p]? ≠ resolve (e :: chain) p
        ∧ uri = (resolve (e :: chain) p).getD "" := by
  rw [Exclusive.mem_decls]
  constructor
  · rintro ⟨q, hq, hdecl⟩
    obtain ⟨hpq, hx, hns⟩ := Exclusive.nsDeclFor_eq_some hdecl
    have hpq : p = q := hpq
    subst hpq
    refine ⟨List.contains_iff_mem.mpr hq, hx, ?_, ?_⟩
    · rw [resolve_of_ne hx]
      intro hsame
      rw [Exclusive.nsDeclFor_of_handed hx hsame] at hdecl
      cases hdecl
    · rw [resolve_of_ne hx]
      rcases hns with hns | ⟨hns, -, huri⟩
      · rw [hns, Option.getD_some]
      · rw [hns]
        exact huri
  · -- without a declaration the binding would be the one that was handed down
    rintro ⟨hq, hx, hne, huri⟩
    refine ⟨p, List.contains_iff_mem.mp hq, ?_⟩
    rw [resolve_of_ne hx] at hne huri
    cases hdecl : Exclusive.nsDeclFor state
        (Exclusive.collectInscopeNamespaces (e :: chain)) p with
    | none =>
        exfalso
        rcases Exclusive.nsDeclFor_eq_none hx hdecl with ⟨u, hns, hs⟩ | ⟨hns, hs⟩
        · -- it has a binding, the same as was handed down
          rw [hns, hs, nonEmpty_eq_some.mpr ⟨rfl, ?_⟩] at hne
          · exact hne rfl
          · have hempty := exclusive_inscope_ne_empty hns
            intro hu
            rw [hu] at hempty
            cases hempty
        · -- it has none, and nothing was handed down
          rw [hns] at hne
          by_cases hp : p = ""
          · exact hne (hs hp)
          · cases hget : state[p]? with
            | none => exact hne (by rw [hget]; rfl)
            | some u =>
                have hsome := Exclusive.inscope_isSome he hp (hinv p hp (by rw [hget]; rfl))
                rw [hns] at hsome
                cases hsome
    | some d =>
        obtain ⟨hpfx, -, hns⟩ := Exclusive.nsDeclFor_eq_some hdecl
        have hd : d.uri = uri := by
          rcases hns with hns | ⟨hns, -, hempty⟩
          · rw [huri, hns, Option.getD_some]
          · rw [huri, hns, hempty]
            rfl
        rw [← hpfx, ← hd]

theorem sortAttrs_perm {attrOf : Attribute → Attr}
    (hname : ∀ a, (attrOf a).nsUri = a.name.uri ∧ (attrOf a).localName = a.name.localName)
    {e e' : Element} (hp : e.attributes.Perm e'.attributes) (hapart : e.AttributesApart) :
    sortAttrs (e.attributes.map attrOf) = sortAttrs (e'.attributes.map attrOf) := by
  refine sortAttrs_eq_of_perm (hp.map attrOf) ?_
  intro x hx y hy hn hl
  obtain ⟨a, ha, rfl⟩ := List.mem_map.mp hx
  obtain ⟨b, hb, rfl⟩ := List.mem_map.mp hy
  rw [(hname a).1, (hname b).1] at hn
  rw [(hname a).2, (hname b).2] at hl
  rw [List.inj_on_of_nodup_map hapart ha hb (by rw [hn, hl])]

theorem Inclusive.canonicalizes :
    Canonicalizes inclusiveRule Inclusive.attrsOf (fun _ _ => true) Inclusive.HandsDown where
  readable := Inclusive.readable
  relevantOk := Inclusive.relevantOk
  writes := Inclusive.writesAttributes
  attributes hp hapart := by
    rw [Inclusive.attrsOf, Inclusive.attrsOf, sortAttrs_perm (fun a => ⟨rfl, rfl⟩) hp hapart]
  mem_decls hinv he := by
    rw [Inclusive.mem_decls_iff hinv he]
    simp
  decls_eq h := (Inclusive.nsDecls_eq_iff false false _ _ _ _).mpr h

theorem Exclusive.canonicalizes (ps : List String) :
    Canonicalizes (exclusiveRule ps) Exclusive.attrsToRender
      (fun e p => (Exclusive.utilizedPrefixes ps e).contains p) Exclusive.HandsDown where
  readable := Exclusive.readable ps
  relevantOk := Exclusive.relevantOk ps
  writes := Exclusive.writesAttributes
  attributes hp hapart := by
    rw [Exclusive.attrsToRender, Exclusive.attrsToRender,
      sortAttrs_perm (fun a => ⟨rfl, rfl⟩) hp hapart]
  mem_decls hinv he := Exclusive.mem_decls_iff hinv he
  decls_eq := by
    intro state state' chain chain' e e' h
    have hnodup : ∀ (rendered ns : NsMap) (f : Element),
        ((Exclusive.utilizedPrefixes ps f).filterMap (Exclusive.nsDeclFor rendered ns)).Nodup := by
      intro rendered ns f
      refine (List.nodup_dedup _).filterMap ?_
      intro p q d hp hq
      rw [← (Exclusive.nsDeclFor_eq_some hp).1, (Exclusive.nsDeclFor_eq_some hq).1]
    refine sortNsDecls_eq_of_perm ?_ ?_
    · refine (List.perm_ext_iff_of_nodup (hnodup _ _ e) (hnodup _ _ e')).mpr ?_
      intro d
      have hd := h d
      simp only [exclusiveRule, Exclusive.nsDecls, mem_sortNsDecls] at hd
      exact hd
    · intro d hd d' hd' hpfx
      obtain ⟨p, -, hp⟩ := List.mem_filterMap.mp hd
      obtain ⟨q, -, hq⟩ := List.mem_filterMap.mp hd'
      have hpq : p = q := by
        rw [← (Exclusive.nsDeclFor_eq_some hp).1, ← (Exclusive.nsDeclFor_eq_some hq).1, hpfx]
      rw [← hpq] at hq
      exact Option.some.inj (hp.symm.trans hq)

/-! ## From equal content to equal markup -/

section Complete

variable {rule : NsRule} {attrs : Element → List Attr} {relevant : Element → String → Bool}
  {Inv : NsMap → List Element → Prop} {chain chain' : List Element} {state state' : NsMap}
  {e e' : Element}

/-- What equal views say of two elements: the same name, the same attributes, and equal bindings
of the relevant prefixes, which are the same. -/
theorem facts_of_elementView_eq (hrel : RelevantOk relevant) (he : e.WellFormed chain)
    (he' : e'.WellFormed chain')
    (h : elementView relevant chain e = elementView relevant chain' e') :
    e.name = e'.name ∧ e.attributes.Perm e'.attributes ∧ (∀ p, relevant e p = relevant e' p)
      ∧ ∀ p, p ≠ "xml" → relevant e p = true →
        resolve (e :: chain) p = resolve (e' :: chain') p := by
  rw [elementView, elementView, ElementView.mk.injEq] at h
  obtain ⟨hname, hattrs, hbindings⟩ := h
  have hperm : e.attributes.Perm e'.attributes := Multiset.coe_eq_coe.mp hattrs
  have hrelevant : ∀ p, relevant e p = relevant e' p := by
    intro p
    refine hrel.ofEq (by rw [hname]) he.attributes he'.attributes fun q => ?_
    exact (hperm.map (fun a => a.name.pfx)).mem_iff
  refine ⟨hname, hperm, hrelevant, fun p hp hre => ?_⟩
  have hbound := congrFun hbindings p
  rwa [if_pos ⟨hp, hre⟩, if_pos ⟨hp, by rw [← hrelevant p]; exact hre⟩] at hbound

/-- **One tag, the other way.** Equal elements below walks that handed down the same are written
with the same declarations and attributes. -/
theorem Canonicalizes.tag_eq (hc : Canonicalizes rule attrs relevant Inv) (hinv : Inv state chain)
    (hinv' : Inv state' chain') (he : e.WellFormed chain) (he' : e'.WellFormed chain')
    (hapart : e.AttributesApart)
    (hstate : ∀ p, p ≠ "xml" → nonEmpty state[p]? = nonEmpty state'[p]?)
    (h : elementView relevant chain e = elementView relevant chain' e') :
    qualifiedElementName e = qualifiedElementName e'
      ∧ rule.decls state (e :: chain) = rule.decls state' (e' :: chain') ∧ attrs e = attrs e' := by
  obtain ⟨hname, hperm, hrelevant, hbound⟩ := facts_of_elementView_eq hc.relevantOk he he' h
  refine ⟨by rw [qualifiedElementName_eq, qualifiedElementName_eq, hname], hc.decls_eq ?_,
    hc.attributes hperm hapart⟩
  -- membership in the declarations depends on relevance and on the two bindings alone
  rintro ⟨p, uri⟩
  rw [hc.mem_decls hinv he.declarations, hc.mem_decls hinv' he'.declarations, hrelevant p]
  by_cases hp : p = "xml"
  · simp [hp]
  · by_cases hre : relevant e' p = true
    · rw [hstate p hp, hbound p hp (by rw [hrelevant p]; exact hre)]
    · simp [hre]

/-- **The markup can be made from the content.** -/
theorem Canonicalizes.formOf_eq (hc : Canonicalizes rule attrs relevant Inv)
    {f f' : Forest Unit Element Markup.Leaf} (hinv : Inv state chain) (hinv' : Inv state' chain')
    (hwf : WellFormedRow Markup.Leaf.Valid chain f)
    (hwf' : WellFormedRow Markup.Leaf.Valid chain' f')
    (hapart : ∀ e ∈ f.labels, e.AttributesApart)
    (hstate : ∀ p, p ≠ "xml" → nonEmpty state[p]? = nonEmpty state'[p]?)
    (h : contentView relevant chain f = contentView relevant chain' f') :
    formOf rule attrs chain state f = formOf rule attrs chain' state' f' := by
  -- what was handed down may differ in empty bindings, which count as none
  induction f generalizing f' chain chain' state state' with
  | nil =>
      cases f' with
      | nil => rfl
      | leaf | node => simp [contentView] at h
  | leaf _ l rest ih =>
      cases f' with
      | nil | node => simp [contentView] at h
      | leaf _ l' rest' =>
          simp only [contentView, Forest.leaf.injEq, true_and] at h
          rw [formOf, formOf, h.1, ih hinv hinv' hwf.2 hwf'.2 hapart hstate h.2]
  | node _ e kids rest ihk ihr =>
      cases f' with
      | nil | leaf => simp [contentView] at h
      | node _ e' kids' rest' =>
          simp only [contentView, Forest.node.injEq, true_and] at h
          obtain ⟨helem, hkids, hrest⟩ := h
          rw [Forest.labels] at hapart
          obtain ⟨hname, hdecls, hattrs⟩ := hc.tag_eq hinv hinv' hwf.1 hwf'.1
            (hapart e List.mem_cons_self) hstate helem
          have hbelow : ∀ x ∈ kids.labels, x.AttributesApart := fun x hx =>
            hapart x (List.mem_cons_of_mem _ (List.mem_append_left _ hx))
          have hbeside : ∀ x ∈ rest.labels, x.AttributesApart := fun x hx =>
            hapart x (List.mem_cons_of_mem _ (List.mem_append_right _ hx))
          rw [formOf, formOf, hname, hdecls, hattrs,
            ihk (hc.readable.next hinv hwf.1.declarations)
              (hc.readable.next hinv' hwf'.1.declarations) hwf.2.1 hwf'.2.1 hbelow
              (next_eq hc.readable hstate hdecls) hkids,
            ihr hinv hinv' hwf.2.2 hwf'.2.2 hbeside hstate hrest]

theorem labels_content (f : Nodes) : (content f).labels = f.labels := by
  induction f with
  | nil => rfl
  | leaf i k rest ih => rw [content, pushLeaves, Forest.labels_foldr_leaf, ih, Forest.labels]
  | node i e kids rest ihk ihr => rw [content, Forest.labels, Forest.labels, ihk, ihr]

/-- Equal output at the top, exactly for equal content. -/
theorem Canonicalizes.renderTop_eq_iff (hc : Canonicalizes rule attrs relevant Inv) {f f' : Nodes}
    (hwf : WellFormedRow LeafKind.WellFormed [] f) (ht : NoText f)
    (hapart : ∀ e ∈ f.labels, e.AttributesApart)
    (hwf' : WellFormedRow LeafKind.WellFormed [] f') (ht' : NoText f') :
    Markup.renderTop escapeTextChar escapeAttrChar false (formOf rule attrs [] ∅ (content f))
        = Markup.renderTop escapeTextChar escapeAttrChar false
          (formOf rule attrs [] ∅ (content f'))
      ↔ contentView relevant [] (content f) = contentView relevant [] (content f') := by
  refine ⟨contentView_eq_of_renderTop hc.readable hc.relevantOk hc.writes hwf ht hwf' ht',
    fun h => ?_⟩
  have hinit := hc.readable.init
  rw [hc.formOf_eq hinit hinit (wellFormed_content hwf) (wellFormed_content hwf')
    (by rwa [labels_content]) (fun _ _ => rfl) h]

end Complete

/-! ## The six modes -/

section Modes

variable {doc : Document} {mode : C14nMode}

/-- The nodes that a mode keeps of what the parser hands out. -/
theorem Document.Parsed.kept (h : doc.Parsed) (hp : doc.KeepsPrefixes) (mode : C14nMode) :
    WellFormedRow LeafKind.WellFormed [] (keptNodes mode doc.top)
      ∧ NoText (keptNodes mode doc.top)
      ∧ ∀ e ∈ (keptNodes mode doc.top).labels, e.AttributesApart := by
  have hwf := h.wellFormed hp
  have hapart : ∀ e ∈ doc.top.labels, e.AttributesApart := by
    intro e he
    obtain ⟨c, hc, kids, hi⟩ := (@Forest.mem_labels_iff _ _ _ [] _ _).mp he
    exact (h.elements c hc e (by rw [Node.element?, hi])).apart
  rw [keptNodes]
  split
  · exact ⟨hwf.nodes, hwf.noText, hapart⟩
  · rw [labels_withoutComments]
    exact ⟨wellFormed_withoutComments hwf.nodes, noText_withoutComments hwf.noText, hapart⟩

theorem Exclusive.canonicalText_eq (hx : mode.isExclusive = true) (ps : List String)
    (hwf : WellFormedRow LeafKind.WellFormed [] (keptNodes mode doc.top))
    (ht : NoText (keptNodes mode doc.top)) :
    canonicalText doc mode none ps = Markup.renderTop escapeTextChar escapeAttrChar false
      (formOf (exclusiveRule ps) attrsToRender [] ∅ (content (keptNodes mode doc.top))) := by
  rw [canonicalText, if_pos hx, Exclusive.canonicalize,
    ← Exclusive.processNodes_eq_renderTop ps false ∅ hwf ht, keptNodes]
  cases mode.withComments with
  | true => rfl
  | false => exact Exclusive.processNodes_withoutComments ps [] false ∅ doc.top

theorem Inclusive.canonicalText_eq (hx : mode.isExclusive = false) (ps : List String)
    (hwf : WellFormedRow LeafKind.WellFormed [] (keptNodes mode doc.top))
    (ht : NoText (keptNodes mode doc.top)) :
    canonicalText doc mode none ps = Markup.renderTop escapeTextChar escapeAttrChar false
      (formOf inclusiveRule attrsOf [] ∅ (content (keptNodes mode doc.top))) := by
  rw [canonicalText, hx, if_neg Bool.false_ne_true, Inclusive.canonicalizeWithOptions,
    ← Inclusive.processNodes_eq_renderTop mode.isC14n11 false ∅ hwf ht, keptNodes]
  cases mode.withComments with
  | true => rfl
  | false => exact Inclusive.processNodes_withoutComments mode.isC14n11 [] false ∅ doc.top

end Modes

/-- **The canonical form is a complete invariant.** In each of the six modes, two documents that
the parser hands out have the same canonical octets exactly if they say the same in that mode. -/
theorem canonicalizeDoc_eq_iff_meaning (mode : C14nMode) (inclusivePrefixes : List String)
    (doc doc' : Document) (hdoc : doc.Parsed) (hdoc' : doc'.Parsed) (hkeeps : doc.KeepsPrefixes)
    (hkeeps' : doc'.KeepsPrefixes) :
    canonicalizeDoc doc mode none inclusivePrefixes
        = canonicalizeDoc doc' mode none inclusivePrefixes
      ↔ doc.meaning mode inclusivePrefixes = doc'.meaning mode inclusivePrefixes := by
  obtain ⟨hwf, ht, hapart⟩ := hdoc.kept hkeeps mode
  obtain ⟨hwf', ht', -⟩ := hdoc'.kept hkeeps' mode
  rw [canonicalizeDoc_eq_iff]
  unfold Document.meaning relevantPrefix
  cases hx : mode.isExclusive with
  | true =>
      rw [Exclusive.canonicalText_eq hx _ hwf ht, Exclusive.canonicalText_eq hx _ hwf' ht']
      simp only [Bool.not_true, Bool.false_or]
      exact (Exclusive.canonicalizes inclusivePrefixes).renderTop_eq_iff hwf ht hapart hwf' ht'
  | false =>
      rw [Inclusive.canonicalText_eq hx _ hwf ht, Inclusive.canonicalText_eq hx _ hwf' ht']
      simp only [Bool.not_false, Bool.true_or]
      exact Inclusive.canonicalizes.renderTop_eq_iff hwf ht hapart hwf' ht'

/-- `<a y="2" x="1" xmlns=""><!--c--><![CDATA[h]]>i</a>`. -/
def sampleCommented : Document where
  root := 0
  top := .node 1 ⟨⟨none, "a", none⟩, [⟨⟨none, "y", none⟩, "2"⟩, ⟨⟨none, "x", none⟩, "1"⟩],
      [("", "")]⟩
    (.leaf 2 (.comment "c") (.leaf 3 (.cdata "h") (.leaf 4 (.text "i") .nil))) .nil
  nodup := by decide

/-- The element of these documents, in either spelling. -/
theorem sampleElement_parsed {as : List Attribute} {ds : List (String × String)}
    (has : ∀ a ∈ as, a = ⟨⟨none, "x", none⟩, "1"⟩ ∨ a = ⟨⟨none, "y", none⟩, "2"⟩)
    (hapart : (⟨⟨none, "a", none⟩, as, ds⟩ : Element).AttributesApart)
    (hds : ∀ d ∈ ds, d.1 = "")
    (hfree : resolve [⟨⟨none, "a", none⟩, as, ds⟩] "" = none) :
    (⟨⟨none, "a", none⟩, as, ds⟩ : Element).Parsed [] := by
  have hname : IsNCName "a" := by decide
  have hx : IsNCName "x" := by decide
  have hy : IsNCName "y" := by decide
  refine ⟨hname, by simp, hfree.symm, fun a ha => ?_, hapart, fun d hd hne => absurd (hds d hd) hne⟩
  rcases has a ha with rfl | rfl
  · exact ⟨hx, rfl, by decide⟩
  · exact ⟨hy, rfl, by decide⟩

/-- A document of one element, which declares no prefix. -/
theorem oneElement_parsed {doc : Document} {e : Element} (he : e.Parsed [])
    (hds : ∀ d ∈ e.namespaceDeclarations, d.1 = "")
    (hnodes : ∀ c ∈ doc.descendants, c.path = [] ∧ (∃ kids, c.item = .node e kids)
      ∨ ∃ k, c.item = .leaf k ∧ k.Parsed)
    (ht : NoText doc.top) : doc.Parsed ∧ doc.KeepsPrefixes := by
  have helement : ∀ c ∈ doc.descendants, ∀ e', Node.element? c = some e' → c.path = [] ∧ e' = e := by
    intro c hc e' he'
    rw [Node.element?] at he'
    rcases hnodes c hc with ⟨hpath, kids, hi⟩ | ⟨k, hi, -⟩
    · rw [hi, Option.some.injEq] at he'
      exact ⟨hpath, he'.symm⟩
    · rw [hi] at he'
      cases he'
  refine ⟨⟨fun c hc e' he' => ?_, fun c hc k hk => ?_, ht⟩, fun c hc e' he' d hd hne => ?_⟩
  · obtain ⟨hpath, rfl⟩ := helement c hc e' he'
    rwa [hpath]
  · rw [Node.leaf?] at hk
    rcases hnodes c hc with ⟨-, kids, hi⟩ | ⟨k', hi, hk'⟩
    · rw [hi] at hk
      cases hk
    · rw [hi, Option.some.injEq] at hk
      exact hk ▸ hk'
  · obtain ⟨-, rfl⟩ := helement c hc e' he'
    exact absurd (hds d hd) hne

theorem sampleText_parsed : sampleText.Parsed ∧ sampleText.KeepsPrefixes := by
  have he := @sampleElement_parsed [⟨⟨none, "x", none⟩, "1"⟩, ⟨⟨none, "y", none⟩, "2"⟩] []
    (fun a ha => by simpa using ha) (by decide) (by simp) (by decide)
  refine oneElement_parsed he (by simp) ?_ trivial
  intro c hc
  simp only [Document.descendants, sampleText, Forest.cursors, List.append_nil,
    List.mem_cons, List.not_mem_nil, or_false] at hc
  rcases hc with rfl | rfl
  · exact Or.inl ⟨rfl, _, rfl⟩
  · exact Or.inr ⟨_, rfl, trivial⟩

theorem sampleCommented_parsed : sampleCommented.Parsed ∧ sampleCommented.KeepsPrefixes := by
  have he := @sampleElement_parsed [⟨⟨none, "y", none⟩, "2"⟩, ⟨⟨none, "x", none⟩, "1"⟩] [("", "")]
    (fun a ha => Or.symm (by simpa using ha)) (by decide) (by simp) (by decide)
  refine oneElement_parsed he (by simp) ?_ trivial
  intro c hc
  simp only [Document.descendants, sampleCommented, Forest.cursors, List.append_nil,
    List.mem_cons, List.not_mem_nil, or_false] at hc
  have hcomment : ¬ ['-', '-'] <:+: "c".toList := by decide
  rcases hc with rfl | rfl | rfl | rfl
  · exact Or.inl ⟨rfl, _, rfl⟩
  · exact Or.inr ⟨_, rfl, hcomment, by decide⟩
  · exact Or.inr ⟨_, rfl, trivial⟩
  · exact Or.inr ⟨_, rfl, trivial⟩

/-- The comment counts where it is kept, and nothing else is between the two. -/
theorem canonicalizeDoc_eq_iff_meaning_sample :
    sampleText.meaning .inclusive [] = sampleCommented.meaning .inclusive []
      ∧ sampleText.meaning .inclusiveWithComments []
        ≠ sampleCommented.meaning .inclusiveWithComments [] := by
  have h : ∀ mode, canonicalizeDoc sampleText mode none []
        = canonicalizeDoc sampleCommented mode none []
      ↔ sampleText.meaning mode [] = sampleCommented.meaning mode [] := fun mode =>
    canonicalizeDoc_eq_iff_meaning mode [] sampleText sampleCommented sampleText_parsed.1
      sampleCommented_parsed.1 sampleText_parsed.2 sampleCommented_parsed.2
  refine ⟨(h _).mp (canonicalizeDoc_eq_iff.mpr (by decide +kernel)), fun hsame => ?_⟩
  have htext := canonicalizeDoc_eq_iff.mp ((h _).mpr hsame)
  revert htext
  decide +kernel

end Bergshamra
