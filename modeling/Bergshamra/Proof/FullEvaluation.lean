import Bergshamra.Spec.FullEvaluation
import Bergshamra.Proof.WrittenMarkup
import Bergshamra.Proof.SameView
import Bergshamra.Proof.NamespaceContext
import Bergshamra.Proof.XmlInheritance

/-!
# Where leaving out namespace and attribute nodes can be seen

The XPath transform evaluates an expression at the nodes of the tree. It does so
at the namespace nodes only when the expression names something that it takes to
be about them, and never at the attribute nodes. What is written of an element
depends on the bindings shown at it and at the nearest element above that is
selected, so the condition for both evaluations to have one canonical form is one
on pairs of such elements; the markup can be read back, so it is exact.
-/

namespace Bergshamra

/-! ## Bindings -/

/-- The namespace nodes of the nearest element of a chain: prefix to URI. -/
def bindings (path : List (NodeId × Element)) (p : String) : Option String :=
  (collectInscopeNamespacesRaw (path.map Prod.snd))[p]?

/-- Those of them at which an expression is true. -/
def shownBindings (expr : XPathBoolExpr) : List (NodeId × Element) → String → Option String
  | [], _ => none
  | (i, e) :: above, p =>
      (bindings ((i, e) :: above) p).filter (fun uri =>
        evalXPathBoolNs ⟨p, uri, e, above.map Prod.snd⟩ expr)

/-- The chain from the nearest selected element up. -/
def nearestSelected (doc : Document) (expr : XPathBoolExpr) (path : List (NodeId × Element)) :
    List (NodeId × Element) :=
  path.dropWhile (fun x => !(selected doc expr).containsId x.1)

/-- The declaration is one of those that lead from the bindings above to those inside. -/
def Change (above inner : String → Option String) (d : NsDecl) : Prop :=
  (d.pfx ≠ "xml" ∧ inner d.pfx = some d.uri ∧ above d.pfx ≠ some d.uri)
    ∨ (d = ⟨"", ""⟩ ∧ (above "").isSome = true ∧ inner "" = none)

theorem bindings_ne_empty (path : List (NodeId × Element)) (p : String) :
    bindings path p ≠ some "" := by
  intro h
  have hne := exclusive_inscope_ne_empty h
  cases hne

theorem shownBindings_eq_some {expr : XPathBoolExpr} {path : List (NodeId × Element)}
    {p uri : String} (h : shownBindings expr path p = some uri) : bindings path p = some uri := by
  cases path with
  | nil => cases h
  | cons x above =>
      obtain ⟨i, e⟩ := x
      exact (Option.filter_eq_some_iff.mp h).1

/-- The bindings are those the inclusive canonicalizer gathers, apart from empty ones. -/
theorem nonEmpty_inscope (path : List (NodeId × Element)) (p : String) :
    nonEmpty (Inclusive.collectInscopeNamespaces (path.map Prod.snd))[p]? = bindings path p :=
  nonEmpty_inclusive_inscope _ p

theorem inscope_eq_some_iff {path : List (NodeId × Element)} {p uri : String} (hu : uri ≠ "") :
    (Inclusive.collectInscopeNamespaces (path.map Prod.snd))[p]? = some uri
      ↔ bindings path p = some uri := by
  rw [← nonEmpty_inscope]
  constructor
  · intro h
    rw [h]
    exact nonEmpty_of_ne (fun he => hu (Option.some.inj he))
  · exact eq_of_nonEmpty

/-! ## Which tree nodes are selected -/

section Selected

variable {doc : Document} {expr : XPathBoolExpr}

theorem containsId_selected {c : Node} (hc : c ∈ doc.descendants) :
    (selected doc expr).containsId c.key = evalXPathBool c expr := by
  rw [selected, NodeSet.containsId_fromIds_normal, Bool.eq_iff_iff, decide_eq_true_iff,
    mem_filterNodes]
  constructor
  · rintro ⟨n, hn, hk, _, hv⟩
    have hsame := Document.node?_key hn
    rw [hk, Document.node?_key hc, Option.some.injEq] at hsame
    rw [hsame]
    exact hv
  · intro hv
    exact ⟨c, hc, rfl, isVisible_none _, hv⟩

theorem containsId_parsed (doc : Document) (expr : XPathBoolExpr) (i : NodeId) :
    (parsedXPathNodeSet doc none expr).containsId i = (selected doc expr).containsId i := by
  rw [NodeSet.containsId_of_ne_invert (by rw [parsedXPathNodeSet_setType]; decide),
    parsedXPathNodeSet_nodes]
  rfl

/-- Where namespace nodes are not evaluated there is no map of them. -/
theorem hasNsFilter_parsed (h : exprReferencesNsNodes expr = false) :
    hasNsFilter (some (parsedXPathNodeSet doc none expr)) = false := by
  show (parsedXPathNodeSet doc none expr).nsVisible.isSome = false
  rw [parsedXPathNodeSet_nsVisible, h]
  rfl

/-- The element above a node of the document is a node of the document. -/
theorem exists_ancestor {c : Node} (hc : c ∈ doc.descendants) {i : NodeId} {e : Element}
    {above : List (NodeId × Element)} (hs : (i, e) :: above <:+ c.path) :
    ∃ kids, (⟨i, above, .node e kids⟩ : Node) ∈ doc.descendants := by
  rcases Forest.exists_of_suffix hc hs with h | ⟨kids, hk, _⟩
  · exact absurd (List.suffix_nil.mp h) (List.cons_ne_nil _ _)
  · exact ⟨kids, hk⟩

/-- The map that the code builds, read at an element of the document. -/
theorem isNsVisible_full {i : NodeId} {e : Element} {above : List (NodeId × Element)}
    {kids : Nodes} (hc : (⟨i, above, .node e kids⟩ : Node) ∈ doc.descendants) (p : String) :
    (FullEvaluation.nodeSet doc expr).isNsVisible i p
      = (shownBindings expr ((i, e) :: above) p).isSome := by
  have hnode : doc.node? i = some ⟨i, above, .node e kids⟩ := Document.node?_key hc
  show ((nsVisibleOf doc expr) i p).getD false = _
  rw [nsVisibleOf, hnode]
  show (((bindings ((i, e) :: above) p).map _).getD false) = _
  rw [shownBindings]
  cases bindings ((i, e) :: above) p with
  | none => rfl
  | some uri =>
      cases hv : evalXPathBoolNs ⟨p, uri, e, above.map Prod.snd⟩ expr with
      | true => simp [Option.filter, hv]
      | false => simp [Option.filter, hv]

/-- The bindings shown at an element are what the walk over all nodes works with. -/
theorem getElem?_visibleNs_full (withComments : Bool) {i : NodeId} {e : Element}
    {above : List (NodeId × Element)} {kids : Nodes}
    (hc : (⟨i, above, .node e kids⟩ : Node) ∈ doc.descendants) (p : String) :
    (Inclusive.visibleNs ⟨withComments, some (FullEvaluation.nodeSet doc expr), false⟩ i above e)[p]?
      = shownBindings expr ((i, e) :: above) p := by
  have hshows : showsNs (some (FullEvaluation.nodeSet doc expr)) i p
      = (shownBindings expr ((i, e) :: above) p).isSome := isNsVisible_full hc p
  rw [Inclusive.visibleNs, getElem?_visibleNamespaces, hshows]
  cases hs : shownBindings expr ((i, e) :: above) p with
  | none => rfl
  | some uri =>
      have hb := shownBindings_eq_some hs
      have hu : uri ≠ "" := by
        intro he
        rw [he] at hb
        exact bindings_ne_empty _ _ hb
      rw [Option.isSome_some, if_pos rfl]
      exact (@inscope_eq_some_iff ((i, e) :: above) p uri hu).mpr hb

end Selected

/-! ## What is handed down -/

section HandedDown

variable {doc : Document} {expr : XPathBoolExpr} {withComments : Bool}

theorem nearestSelected_suffix (path : List (NodeId × Element)) :
    nearestSelected doc expr path <:+ path := List.dropWhile_suffix _

theorem nearestSelected_keep {i : NodeId} (h : (selected doc expr).containsId i = true)
    (e : Element) (path : List (NodeId × Element)) :
    nearestSelected doc expr ((i, e) :: path) = (i, e) :: path := by
  rw [nearestSelected, List.dropWhile_cons_of_neg (by simp [h])]

theorem nearestSelected_skip {i : NodeId} (h : (selected doc expr).containsId i = false)
    (e : Element) (path : List (NodeId × Element)) :
    nearestSelected doc expr ((i, e) :: path) = nearestSelected doc expr path := by
  rw [nearestSelected, List.dropWhile_cons_of_pos (by simp [h]), ← nearestSelected]

/-- With every namespace node evaluated, the bindings shown at the nearest selected element are
handed down. -/
theorem inheritedAt_full {c : Node} (hc : c ∈ doc.descendants) {path : List (NodeId × Element)}
    (hs : path <:+ c.path) {p : String} (hp : p ≠ "xml") :
    (Inclusive.inheritedAt ⟨withComments, some (FullEvaluation.nodeSet doc expr), false⟩ path)[p]?
      = shownBindings expr (nearestSelected doc expr path) p := by
  induction path with
  | nil => simp [Inclusive.inheritedAt, nearestSelected, shownBindings]
  | cons x path ih =>
      obtain ⟨i, e⟩ := x
      have hrest := ih ((List.suffix_cons _ _).trans hs)
      rw [Inclusive.inheritedAt]
      by_cases hv : (selected doc expr).containsId i = true
      · obtain ⟨kids, hnode⟩ := exists_ancestor hc hs
        rw [if_pos (show isVisible (some (FullEvaluation.nodeSet doc expr)) i = true from hv),
          nearestSelected_keep hv, Inclusive.getElem?_childNs, OrdMap.getElem?_erase_ne _ hp,
          getElem?_visibleNs_full withComments hnode]
        cases shownBindings expr ((i, e) :: path) p with
        | some uri => rfl
        | none => simp [hasNsFilter, NodeSet.hasNsVisible, FullEvaluation.nodeSet,
            NodeSet.setNsVisible]
      · have hvF := Bool.eq_false_iff.mpr hv
        rw [if_neg (show ¬ isVisible (some (FullEvaluation.nodeSet doc expr)) i = true from hv),
          nearestSelected_skip hvF, hrest]

/-- What is bound nowhere on a chain is bound nowhere further up. -/
theorem inscope_none_suffix {chain above : List Element} (hs : above <:+ chain)
    (hd : ∀ e ∈ chain, e.DeclaresWell) {p : String}
    (h : (Inclusive.collectInscopeNamespaces chain)[p]? = none) :
    (Inclusive.collectInscopeNamespaces above)[p]? = none := by
  induction chain with
  | nil =>
      rw [List.suffix_nil.mp hs]
      exact h
  | cons e chain ih =>
      rcases List.suffix_cons_iff.mp hs with rfl | hs
      · exact h
      · exact ih hs (fun e' he' => hd e' (List.mem_cons_of_mem _ he'))
          (Inclusive.inscope_none (hd e List.mem_cons_self) h)

/-- Without a map of namespace nodes, all bindings of the nearest selected element are. -/
theorem inheritedAt_plain (hno : exprReferencesNsNodes expr = false)
    {path : List (NodeId × Element)} (hd : ∀ e ∈ path.map Prod.snd, e.DeclaresWell) {p : String}
    (hp : p ≠ "xml") :
    (Inclusive.inheritedAt ⟨withComments, some (parsedXPathNodeSet doc none expr), false⟩ path)[p]?
      = (Inclusive.collectInscopeNamespaces
          ((nearestSelected doc expr path).map Prod.snd))[p]? := by
  have hf := @hasNsFilter_parsed doc expr hno
  induction path with
  | nil => simp [Inclusive.inheritedAt, nearestSelected, Inclusive.collectInscopeNamespaces]
  | cons x path ih =>
      obtain ⟨i, e⟩ := x
      have hdr : ∀ e' ∈ path.map Prod.snd, e'.DeclaresWell :=
        fun e' he' => hd e' (List.mem_cons_of_mem _ he')
      have hrest := ih hdr
      have hvis : isVisible (some (parsedXPathNodeSet doc none expr)) i
          = (selected doc expr).containsId i := containsId_parsed doc expr i
      by_cases hv : (selected doc expr).containsId i = true
      · rw [Inclusive.inheritedAt_keep hf (hvis.trans hv), Inclusive.getElem?_next _ _ hp,
          nearestSelected_keep hv, List.map_cons]
        cases hself : (Inclusive.collectInscopeNamespaces (e :: path.map Prod.snd))[p]? with
        | some uri => rfl
        | none =>
            dsimp only
            rw [hrest]
            exact inscope_none_suffix
              (((nearestSelected_suffix path).map Prod.snd).trans (List.suffix_cons _ _)) hd hself
      · have hvF := Bool.eq_false_iff.mpr hv
        rw [Inclusive.inheritedAt, if_neg (by rw [hvis]; exact hv), nearestSelected_skip hvF, hrest]

end HandedDown

/-! ## Declarations -/

namespace Inclusive

/-- No prefix is declared twice. -/
theorem nodup_changedDecls (inherited visibleNs : NsMap) :
    (changedDecls inherited visibleNs).Nodup := by
  have hkeys : visibleNs.toList.Nodup :=
    visibleNs.distinct_keys_toList.imp (fun h he => h (by rw [he]; exact Std.ReflCmp.compare_self))
  refine hkeys.filterMap ?_
  intro d d' x hx hx'
  have hval : ∀ {y : String × String}, x ∈ (if y.1 = "xml" then none
      else if inherited[y.1]? = some y.2 then none
      else if y.2.isEmpty && inherited[y.1]?.isNone then none
      else some (⟨y.1, y.2⟩ : NsDecl)) → x = ⟨y.1, y.2⟩ := by
    intro y hy
    split at hy
    · cases hy
    · split at hy
      · cases hy
      · split at hy
        · cases hy
        · exact (Option.some.inj hy).symm
  have heq := (hval hx).symm.trans (hval hx')
  rw [NsDecl.mk.injEq] at heq
  exact Prod.ext heq.1 heq.2

theorem mem_undeclaredDefault {inherited visibleNs : NsMap} {d : NsDecl} :
    d ∈ undeclaredDefault inherited visibleNs
      ↔ d = ⟨"", ""⟩ ∧ (nonEmpty inherited[""]?).isSome = true ∧ visibleNs[""]? = none := by
  have hany : inherited[""]?.any (fun uri => !uri.isEmpty) = (nonEmpty inherited[""]?).isSome := by
    cases h : inherited[""]? with
    | none => rfl
    | some uri =>
        cases hu : uri.isEmpty <;> simp [nonEmpty, Option.filter, hu]
  unfold undeclaredDefault
  rw [hany]
  by_cases hc : (nonEmpty inherited[""]?).isSome = true ∧ visibleNs[""]? = none
  · rw [if_pos (by simp [hc.1, hc.2]), List.mem_singleton]
    exact ⟨fun h => ⟨h, hc⟩, fun h => h.1⟩
  · rw [if_neg (by simpa using hc)]
    exact iff_of_false (by simp) (fun h => hc h.2)

/-- The declarations of an element are sorted and all different, so their members decide. -/
theorem nsDecls_eq_iff (filtered filtered' : Bool) (inherited visibleNs inherited' visibleNs' : NsMap) :
    nsDecls filtered inherited visibleNs = nsDecls filtered' inherited' visibleNs'
      ↔ ∀ d, d ∈ nsDecls filtered inherited visibleNs
        ↔ d ∈ nsDecls filtered' inherited' visibleNs' := by
  constructor
  · intro h d
    rw [h]
  · intro h
    have hnodup : ∀ (b : Bool) (i v : NsMap),
        (changedDecls i v ++ (if b then undeclaredDefault i v else [])).Nodup := by
      intro b i v
      cases b with
      | false => simpa using nodup_changedDecls i v
      | true =>
          rw [if_pos rfl]
          refine (nodup_changedDecls i v).append ?_ ?_
          · unfold undeclaredDefault
            split <;> simp
          · intro d hd hd'
            obtain ⟨rfl, _, hnone⟩ := mem_undeclaredDefault.mp hd'
            rw [(mem_changedDecls.mp hd).1] at hnone
            cases hnone
    have hperm : (changedDecls inherited visibleNs
        ++ (if filtered then undeclaredDefault inherited visibleNs else [])).Perm
        (changedDecls inherited' visibleNs'
          ++ (if filtered' then undeclaredDefault inherited' visibleNs' else [])) := by
      refine (List.perm_ext_iff_of_nodup (hnodup _ _ _) (hnodup _ _ _)).mpr ?_
      intro d
      have hd := h d
      rw [nsDecls, nsDecls, mem_sortNsDecls, mem_sortNsDecls] at hd
      exact hd
    refine sortNsDecls_eq_of_perm hperm ?_
    intro a ha b hb hab
    -- a prefix has one binding, and `xmlns=""` is written only where it has none
    have hone : ∀ d ∈ changedDecls inherited visibleNs
        ++ (if filtered then undeclaredDefault inherited visibleNs else []),
        visibleNs[d.pfx]? = some d.uri ∨ (d = ⟨"", ""⟩ ∧ visibleNs[""]? = none) := by
      intro d hd
      rcases List.mem_append.mp hd with hd | hd
      · exact Or.inl (mem_changedDecls.mp hd).1
      · cases filtered with
        | false => simp at hd
        | true =>
            obtain ⟨rfl, _, hnone⟩ := mem_undeclaredDefault.mp hd
            exact Or.inr ⟨rfl, hnone⟩
    rcases hone a ha with hva | ⟨rfl, hna⟩
    · rcases hone b hb with hvb | ⟨rfl, hnb⟩
      · rw [hab, hvb, Option.some.injEq] at hva
        obtain ⟨p, u⟩ := a
        obtain ⟨p', u'⟩ := b
        simp_all
      · rw [hab, hnb] at hva
        cases hva
    · rcases hone b hb with hvb | ⟨rfl, _⟩
      · rw [← hab, hna] at hvb
        cases hvb
      · rfl

end Inclusive

section Declarations

variable {doc : Document} {expr : XPathBoolExpr} {withComments : Bool}

/-- With every namespace node evaluated, the declarations lead from what is shown above to what
is shown at the element. -/
theorem mem_decls_full {c : Node} (hc : c ∈ doc.descendants) {e : Element} {kids : Nodes}
    (hi : c.item = .node e kids) (d : NsDecl) :
    d ∈ ((Inclusive.writer ⟨withComments, some (FullEvaluation.nodeSet doc expr), false⟩).tag
        c.path c.key e).decls
      ↔ Change (shownBindings expr (nearestSelected doc expr c.path))
        (shownBindings expr ((c.key, e) :: c.path)) d := by
  obtain ⟨i, path, item⟩ := c
  subst hi
  have hself := @getElem?_visibleNs_full doc expr withComments i e path kids hc
  have habove : ∀ {p : String}, p ≠ "xml" → _ = _ := fun hp =>
    @inheritedAt_full doc expr withComments _ hc path (List.suffix_refl path) _ hp
  have hdefault := @habove "" (by decide)
  have hne : ∀ (q : List (NodeId × Element)) {p uri : String},
      shownBindings expr q p = some uri → uri ≠ "" := by
    intro q p uri h he
    rw [he] at h
    exact bindings_ne_empty q p (shownBindings_eq_some h)
  obtain ⟨p, uri⟩ := d
  show _ ∈ Inclusive.nsDecls true _ _ ↔ _
  rw [Inclusive.nsDecls, mem_sortNsDecls, if_pos rfl, List.mem_append, Inclusive.mem_changedDecls,
    Inclusive.mem_undeclaredDefault, hself, hself, hdefault]
  refine or_congr ?_ ?_
  · constructor
    · rintro ⟨hin, hp, hout, _⟩
      rw [habove hp] at hout
      exact ⟨hp, hin, hout⟩
    · rintro ⟨hp, hin, hout⟩
      refine ⟨hin, hp, by rw [habove hp]; exact hout, ?_⟩
      rintro ⟨hempty, _⟩
      exact hne _ hin (String.isEmpty_iff.mp hempty)
  · have hsome : nonEmpty (shownBindings expr (nearestSelected doc expr path) "")
        = shownBindings expr (nearestSelected doc expr path) "" :=
      nonEmpty_of_ne (fun h => hne _ h rfl)
    rw [hsome]

/-- Without a map, they lead from the bindings above to those at the element. -/
theorem mem_decls_plain (hno : exprReferencesNsNodes expr = false) {i : NodeId} {e : Element}
    {path : List (NodeId × Element)}
    (hd : ∀ e' ∈ e :: path.map Prod.snd, e'.DeclaresWell) (d : NsDecl) :
    d ∈ ((Inclusive.writer ⟨withComments, some (parsedXPathNodeSet doc none expr), false⟩).tag
        path i e).decls
      ↔ Change (bindings (nearestSelected doc expr path)) (bindings ((i, e) :: path)) d := by
  have hf := @hasNsFilter_parsed doc expr hno
  have habove : ∀ {p : String}, p ≠ "xml" → _ = _ := fun hp =>
    @inheritedAt_plain doc expr withComments hno path
      (fun e' he' => hd e' (List.mem_cons_of_mem _ he')) _ hp
  have hdefault := @habove "" (by decide)
  -- only the default namespace can be undone, by an empty declaration
  obtain ⟨p, uri⟩ := d
  rw [Inclusive.decls_tag hf, Inclusive.mem_decls]
  by_cases hu : uri = ""
  · subst hu
    constructor
    · rintro ⟨hin, hp, hout, hnew⟩
      have hempty : p = "" := by
        by_contra hne
        exact Inclusive.inscope_ne_empty hne hin
      subst hempty
      rw [habove hp] at hout hnew
      refine Or.inr ⟨rfl, ?_, ?_⟩
      · rw [← nonEmpty_inscope, nonEmpty_of_ne hout, Option.isSome_iff_ne_none]
        exact fun hnone => hnew ⟨rfl, hnone⟩
      · rw [← nonEmpty_inscope]
        show nonEmpty (Inclusive.collectInscopeNamespaces (e :: path.map Prod.snd))[""]? = none
        rw [hin]
        rfl
    · rintro (⟨_, hin, _⟩ | ⟨heq, hsome, hnone⟩)
      · exact absurd hin (bindings_ne_empty _ _)
      · obtain rfl : p = "" := congrArg NsDecl.pfx heq
        rw [hdefault]
        rw [← nonEmpty_inscope] at hsome hnone
        -- a default that is lost on the way down was undeclared on it
        have hself : (Inclusive.collectInscopeNamespaces (e :: path.map Prod.snd))[""]? = some "" := by
          cases hself : (Inclusive.collectInscopeNamespaces (e :: path.map Prod.snd))[""]? with
          | none =>
              have hup := inscope_none_suffix
                (((@nearestSelected_suffix doc expr path).map Prod.snd).trans
                  (List.suffix_cons e _)) hd hself
              rw [hup] at hsome
              cases hsome
          | some u =>
              by_cases hue : u = ""
              · rw [hue]
              · rw [List.map_cons, hself, nonEmpty_of_ne (fun h => hue (Option.some.inj h))]
                  at hnone
                cases hnone
        refine ⟨hself, by decide, ?_, ?_⟩
        · intro hempty
          rw [hempty] at hsome
          cases hsome
        · rintro ⟨_, hup⟩
          rw [hup] at hsome
          cases hsome
  · have hself := @inscope_eq_some_iff ((i, e) :: path) p uri hu
    have hup := @inscope_eq_some_iff (nearestSelected doc expr path) p uri hu
    have hempty : uri.isEmpty = false := by simpa using hu
    rw [List.map_cons] at hself
    constructor
    · rintro ⟨hin, hp, hout, _⟩
      rw [habove hp] at hout
      exact Or.inl ⟨hp, hself.mp hin, fun h => hout (hup.mpr h)⟩
    · rintro (⟨hp, hin, hout⟩ | ⟨heq, _, _⟩)
      · refine ⟨hself.mpr hin, hp, ?_, ?_⟩
        · rw [habove hp]
          exact fun h => hout (hup.mp h)
        · rintro ⟨h, _⟩
          rw [hempty] at h
          cases h
      · exact absurd (congrArg NsDecl.uri heq) hu

end Declarations

/-! ## Attributes -/

section Attributes

variable {doc : Document} {expr : XPathBoolExpr}

theorem parentNotVisible_parsed (path : List (NodeId × Element)) :
    Inclusive.parentNotVisible (some (parsedXPathNodeSet doc none expr)) path
      = Inclusive.parentNotVisible (some (FullEvaluation.nodeSet doc expr)) path := by
  cases path with
  | nil => rfl
  | cons x path =>
      show (!(parsedXPathNodeSet doc none expr).containsId x.1) = _
      rw [containsId_parsed]
      rfl

/-- The attributes the ancestors hand down to an element. -/
def inheritedAttrs (doc : Document) (expr : XPathBoolExpr) (path : List (NodeId × Element))
    (e : Element) : List Attr :=
  if Inclusive.parentNotVisible (some (FullEvaluation.nodeSet doc expr)) path then
    Inclusive.collectInheritedXmlAttrs (path.map Prod.snd)
      (sortAttrs (e.attributes.map Inclusive.attrOf))
  else []

theorem attrsToRender_full (path : List (NodeId × Element)) (e : Element) :
    FullEvaluation.attrsToRender doc expr path e
      = sortAttrs (FullEvaluation.shownAttrs expr (path.map Prod.snd) e
          ++ inheritedAttrs doc expr path e) := by
  unfold FullEvaluation.attrsToRender inheritedAttrs
  dsimp only
  split
  · rfl
  · rw [List.append_nil]

theorem attrsToRender_parsed (withComments : Bool) (hne : expr ≠ .hasAttributes)
    (path : List (NodeId × Element)) (e : Element) :
    Inclusive.attrsToRender ⟨withComments, some (parsedXPathNodeSet doc none expr), false⟩ path e
      = sortAttrs (sortAttrs (e.attributes.map Inclusive.attrOf)
          ++ inheritedAttrs doc expr path e) := by
  have hex : (parsedXPathNodeSet doc none expr).excludesAttrs = false := by
    show (parsedXPathNodeSet doc none expr).excludeAttrs = false
    rw [parsedXPathNodeSet_excludeAttrs]
    simpa using hne
  unfold Inclusive.attrsToRender inheritedAttrs
  rw [parentNotVisible_parsed]
  simp only [Option.any_some, hex, Option.isSome_some, Bool.not_false, Bool.and_true,
    Bool.true_and, Bool.false_eq_true, if_false]
  split
  · rfl
  · rw [List.append_nil]

theorem length_sortAttrs (as : List Attr) : (sortAttrs as).length = as.length :=
  List.length_insertionSort _ as

/-- As many attributes are written as the element has exactly when all of them are selected. -/
theorem shownAttrs_eq_iff (above : List Element) (e : Element) :
    (FullEvaluation.shownAttrs expr above e).length = e.attributes.length
      ↔ ∀ a ∈ e.attributes, attributeSelected expr above e a = true := by
  rw [FullEvaluation.shownAttrs, length_sortAttrs, List.length_map, List.length_filter_eq_length_iff]

theorem shownAttrs_of_all {above : List Element} {e : Element}
    (h : ∀ a ∈ e.attributes, attributeSelected expr above e a = true) :
    FullEvaluation.shownAttrs expr above e = sortAttrs (e.attributes.map Inclusive.attrOf) := by
  rw [FullEvaluation.shownAttrs, List.filter_eq_self.mpr h]

theorem shownAttrs_eq_nil_iff (above : List Element) (e : Element) :
    FullEvaluation.shownAttrs expr above e = []
      ↔ ∀ a ∈ e.attributes, attributeSelected expr above e a = false := by
  rw [← List.length_eq_zero_iff, FullEvaluation.shownAttrs, length_sortAttrs, List.length_map,
    List.length_eq_zero_iff, List.filter_eq_nil_iff]
  simp only [Bool.not_eq_true]

/-- No attribute node has attributes. -/
theorem attributeSelected_hasAttributes (above : List Element) (e : Element) (a : Attribute) :
    attributeSelected .hasAttributes above e a = false := rfl

/-- Nothing is inherited exactly when the element has every `xml:*` attribute of its ancestors
itself. -/
theorem collectInheritedXmlAttrs_eq_nil_iff (ancestors : List Element) (e : Element) :
    Inclusive.collectInheritedXmlAttrs ancestors (sortAttrs (e.attributes.map Inclusive.attrOf)) = []
      ↔ ∀ x ∈ ancestors, ∀ a ∈ x.attributes, a.name.namespaceUri = some Ns.XML →
          ∃ b ∈ e.attributes, b.name.namespaceUri = some Ns.XML
            ∧ b.name.localName = a.name.localName := by
  have hown : ∀ name : String,
      (sortAttrs (e.attributes.map Inclusive.attrOf)).any (isXmlNamed name) = true
        ↔ ∃ b ∈ e.attributes, b.name.namespaceUri = some Ns.XML ∧ b.name.localName = name := by
    intro name
    simp only [List.any_eq_true, mem_sortAttrs, List.mem_map]
    constructor
    · rintro ⟨_, ⟨b, hb, rfl⟩, hn⟩
      rw [Inclusive.isXmlNamed_attrOf, Bool.and_eq_true, beq_iff_eq, beq_iff_eq] at hn
      exact ⟨b, hb, hn⟩
    · rintro ⟨b, hb, hn⟩
      refine ⟨_, ⟨b, hb, rfl⟩, ?_⟩
      rw [Inclusive.isXmlNamed_attrOf, Bool.and_eq_true, beq_iff_eq, beq_iff_eq]
      exact hn
  rw [List.eq_nil_iff_forall_not_mem]
  constructor
  · intro h x hx a ha hxml
    rw [← hown]
    by_contra hno
    -- the nearest ancestor with an attribute of this name would hand it down
    have hsome : (ancestors.findSome? (fun y => y.xmlAttr? a.name.localName)).isSome = true := by
      rw [List.isSome_findSome?, List.any_eq_true]
      refine ⟨x, hx, ?_⟩
      unfold Element.xmlAttr?
      rw [Option.isSome_map, List.find?_isSome]
      exact ⟨a, ha, by simp [hxml]⟩
    obtain ⟨value, hv⟩ := Option.isSome_iff_exists.mp hsome
    exact h _ (Inclusive.mem_collectInheritedXmlAttrs.mpr
      ⟨_, value, hv, Bool.eq_false_iff.mpr hno, rfl⟩)
  · intro h a ha
    obtain ⟨name, value, hv, hex, _⟩ := Inclusive.mem_collectInheritedXmlAttrs.mp ha
    obtain ⟨x, hx, hxv⟩ := List.exists_of_findSome?_eq_some hv
    unfold Element.xmlAttr? at hxv
    obtain ⟨b, hb, _⟩ := Option.map_eq_some_iff.mp hxv
    have hname := List.find?_some hb
    rw [Bool.and_eq_true, beq_iff_eq, beq_iff_eq] at hname
    have hself := (hown name).mpr (hname.2 ▸ h x hx b (List.mem_of_find?_eq_some hb) hname.1)
    rw [hself] at hex
    cases hex

end Attributes

end Bergshamra
