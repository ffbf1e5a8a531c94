import Bergshamra.Proof.CanonicalForm

/-!
# Reading bindings off the declarations

A declaration is written only when it changes what the output ancestors wrote,
so the bindings of an element are not all on its tag. What makes them readable
is that the walk carries along, in `inherited` or `rendered`, exactly what a
reader of the output knows at that point: a binding is the declaration just read
or, without one, what was known before (`Readable`). Both canonicalizers are
readable, the exclusive one for the prefixes it declares.
-/

namespace Bergshamra

/-- A reader of the output can tell every relevant binding: it is the one just declared or,
without a declaration, the one handed down. `Inv` is what the walk keeps true of what it
hands down. -/
structure Readable (rule : NsRule) (relevant : Element → String → Bool)
    (Inv : NsMap → List Element → Prop) : Prop where
  init : Inv ∅ []
  next : ∀ {state chain e}, Inv state chain → e.DeclaresWell →
    Inv (rule.next state (e :: chain)) (e :: chain)
  declared : ∀ {state chain} {d : NsDecl}, d ∈ rule.decls state chain →
    d.pfx = "" ∨ ∃ e ∈ chain, (d.pfx, d.uri) ∈ e.namespaceDeclarations
  written : ∀ {state chain e p uri}, ⟨p, uri⟩ ∈ rule.decls state (e :: chain) → p ≠ "xml" →
    resolve (e :: chain) p = nonEmpty (some uri)
      ∧ nonEmpty (rule.next state (e :: chain))[p]? = nonEmpty (some uri)
  unwritten : ∀ {state chain e p}, (∀ uri, ⟨p, uri⟩ ∉ rule.decls state (e :: chain)) →
    p ≠ "xml" → nonEmpty (rule.next state (e :: chain))[p]? = nonEmpty state[p]?
  unwritten_binding : ∀ {state chain e p}, Inv state chain → e.DeclaresWell →
    relevant e p = true → (∀ uri, ⟨p, uri⟩ ∉ rule.decls state (e :: chain)) → p ≠ "xml" →
    resolve (e :: chain) p = nonEmpty state[p]?

theorem resolve_of_ne {chain : List Element} {p : String} (hp : p ≠ "xml") :
    resolve chain p = (Exclusive.collectInscopeNamespaces chain)[p]? := if_neg hp

/-- What is bound and new, prefix by prefix. -/
theorem Inclusive.mem_changedDecls {inherited visibleNs : NsMap} {p uri : String} :
    ⟨p, uri⟩ ∈ Inclusive.changedDecls inherited visibleNs
      ↔ visibleNs[p]? = some uri ∧ p ≠ "xml" ∧ inherited[p]? ≠ some uri
        ∧ ¬ (uri.isEmpty ∧ inherited[p]? = none) := by
  rw [Inclusive.changedDecls, List.mem_filterMap]
  constructor
  · rintro ⟨d, hd, h⟩
    have hget := Std.ExtTreeMap.mem_toList_iff_getElem?_eq_some.mp hd
    split at h
    · simp at h
    · split at h
      · simp at h
      · split at h
        · simp at h
        · simp only [Option.some.injEq, NsDecl.mk.injEq] at h
          obtain ⟨rfl, rfl⟩ := h
          exact ⟨hget, by assumption, by assumption, by simp_all⟩
  · rintro ⟨hget, hx, hne, hem⟩
    refine ⟨(p, uri), Std.ExtTreeMap.mem_toList_iff_getElem?_eq_some.mpr hget, ?_⟩
    rw [if_neg hx, if_neg hne, if_neg]
    simpa using hem

/-- Written in the inclusive walk: what is bound and new. -/
theorem Inclusive.mem_decls {inherited : NsMap} {chain : List Element} {p uri : String} :
    ⟨p, uri⟩ ∈ inclusiveRule.decls inherited chain
      ↔ (Inclusive.collectInscopeNamespaces chain)[p]? = some uri ∧ p ≠ "xml"
        ∧ inherited[p]? ≠ some uri ∧ ¬ (uri.isEmpty ∧ inherited[p]? = none) := by
  unfold inclusiveRule
  dsimp only
  rw [Inclusive.nsDecls, sortNsDecls, (List.perm_insertionSort _ _).mem_iff, if_neg (by simp),
    List.append_nil, Inclusive.mem_changedDecls]

/-- The inclusive walk hands down what is in scope. -/
def Inclusive.HandsDown (inherited : NsMap) (chain : List Element) : Prop :=
  ∀ p, p ≠ "xml" → inherited[p]? = (Inclusive.collectInscopeNamespaces chain)[p]?

theorem Inclusive.getElem?_next (inherited : NsMap) (chain : List Element) {p : String}
    (hp : p ≠ "xml") :
    (inclusiveRule.next inherited chain)[p]?
      = match (Inclusive.collectInscopeNamespaces chain)[p]? with
        | some uri => some uri
        | none => inherited[p]? := by
  unfold inclusiveRule
  dsimp only
  rw [Inclusive.getElem?_childNs, OrdMap.getElem?_erase_ne _ hp]
  cases (Inclusive.collectInscopeNamespaces chain)[p]? <;> rfl

/-- What an element leaves unbound was unbound above it, unless the element undeclares it. -/
theorem Inclusive.inscope_none_above {e : Element} {chain : List Element} {p : String}
    (he : p ≠ "" → (p, "") ∉ e.namespaceDeclarations)
    (h : (Inclusive.collectInscopeNamespaces (e :: chain))[p]? = none) :
    (Inclusive.collectInscopeNamespaces chain)[p]? = none := by
  unfold Inclusive.collectInscopeNamespaces at h ⊢
  rw [getElem?_collectInscope_cons] at h
  cases hl : (nsLevel e)[p]? with
  | none => rw [hl] at h; exact h
  | some u =>
      rw [hl] at h
      by_cases hp : p = ""
      · simp [hp] at h
      · have hu : u ≠ "" := by
          intro hu
          rw [hu] at hl
          exact he hp (mem_of_nsLevel hl)
        simp [hu] at h

theorem Inclusive.inscope_none {e : Element} (he : e.DeclaresWell) {chain : List Element}
    {p : String} (h : (Inclusive.collectInscopeNamespaces (e :: chain))[p]? = none) :
    (Inclusive.collectInscopeNamespaces chain)[p]? = none :=
  Inclusive.inscope_none_above (fun hp hd => (he _ hd hp).2 rfl) h

/-- A binding that is in scope and not written was handed down. -/
theorem Inclusive.handed_of_unwritten {inherited : NsMap} {chain : List Element} {p uri : String}
    (hp : p ≠ "xml") (hin : (Inclusive.collectInscopeNamespaces chain)[p]? = some uri)
    (hnot : ⟨p, uri⟩ ∉ inclusiveRule.decls inherited chain) :
    nonEmpty (some uri) = nonEmpty inherited[p]? := by
  rw [Inclusive.mem_decls] at hnot
  by_cases hsame : inherited[p]? = some uri
  · rw [hsame]
  · -- an empty default that nothing above needs undone
    have hempty : uri.isEmpty ∧ inherited[p]? = none := by
      by_contra hc
      exact hnot ⟨hin, hp, hsame, hc⟩
    rw [hempty.2, String.isEmpty_iff.mp hempty.1]
    rfl

theorem Inclusive.readable : Readable inclusiveRule (fun _ _ => true) Inclusive.HandsDown where
  init := by
    intro p _
    simp [Inclusive.collectInscopeNamespaces]
  next := by
    intro inherited chain e hinv he p hp
    rw [Inclusive.getElem?_next _ _ hp]
    cases h : (Inclusive.collectInscopeNamespaces (e :: chain))[p]? with
    | some uri => rfl
    | none => rw [hinv p hp, Inclusive.inscope_none he h]
  declared := by
    intro inherited chain d hd
    exact Or.inr (declared_of_inscope (Inclusive.mem_decls.mp hd).1)
  written := by
    intro inherited chain e p uri hd hp
    have hget := (Inclusive.mem_decls.mp hd).1
    refine ⟨?_, ?_⟩
    · rw [resolve_of_ne hp, ← nonEmpty_inclusive_inscope, hget]
    · rw [Inclusive.getElem?_next _ _ hp, hget]
  unwritten := by
    intro inherited chain e p hnone hp
    rw [Inclusive.getElem?_next _ _ hp]
    cases h : (Inclusive.collectInscopeNamespaces (e :: chain))[p]? with
    | none => rfl
    | some uri => exact Inclusive.handed_of_unwritten hp h (hnone uri)
  unwritten_binding := by
    intro inherited chain e p hinv he _ hnone hp
    rw [resolve_of_ne hp, ← nonEmpty_inclusive_inscope]
    cases h : (Inclusive.collectInscopeNamespaces (e :: chain))[p]? with
    | none => rw [hinv p hp, Inclusive.inscope_none he h]
    | some uri => exact Inclusive.handed_of_unwritten hp h (hnone uri)

/-- Written in the exclusive walk: what `nsDeclFor` finds for a utilized prefix. -/
theorem Exclusive.mem_decls {ps : List String} {rendered : NsMap} {e : Element}
    {chain : List Element} {d : NsDecl} :
    d ∈ (exclusiveRule ps).decls rendered (e :: chain)
      ↔ ∃ p ∈ Exclusive.utilizedPrefixes ps e,
        Exclusive.nsDeclFor rendered (Exclusive.collectInscopeNamespaces (e :: chain)) p
          = some d := by
  unfold exclusiveRule
  dsimp only
  rw [List.head?_cons, Option.elim_some, Exclusive.nsDecls, sortNsDecls,
    (List.perm_insertionSort _ _).mem_iff, List.mem_filterMap]

/-- A declaration for a prefix is of that prefix, and says what it is bound to. -/
theorem Exclusive.nsDeclFor_eq_some {rendered ns : NsMap} {p : String} {d : NsDecl}
    (h : Exclusive.nsDeclFor rendered ns p = some d) :
    d.pfx = p ∧ p ≠ "xml" ∧ (ns[p]? = some d.uri ∨ ns[p]? = none ∧ p = "" ∧ d.uri = "") := by
  unfold Exclusive.nsDeclFor at h
  split at h
  · simp at h
  · rename_i hx
    split at h
    · rename_i uri hget
      split at h
      · simp at h
      · rw [Option.some.injEq] at h
        subst h
        exact ⟨rfl, hx, Or.inl hget⟩
    · rename_i hget
      split at h
      · rename_i hc
        rw [Bool.and_eq_true, String.isEmpty_iff] at hc
        rw [Option.some.injEq] at h
        subst h
        exact ⟨hc.1.symm, hx, Or.inr ⟨hget, hc.1, rfl⟩⟩
      · simp at h

/-- No declaration for a prefix: it is bound as it was rendered, or unbound with nothing to
undo. -/
theorem Exclusive.nsDeclFor_eq_none {rendered ns : NsMap} {p : String} (hx : p ≠ "xml")
    (h : Exclusive.nsDeclFor rendered ns p = none) :
    (∃ uri, ns[p]? = some uri ∧ rendered[p]? = some uri)
      ∨ ns[p]? = none ∧ (p = "" → nonEmpty rendered[p]? = none) := by
  unfold Exclusive.nsDeclFor at h
  rw [if_neg hx] at h
  cases hget : ns[p]? with
  | some uri =>
      rw [hget] at h
      refine Or.inl ⟨uri, rfl, ?_⟩
      by_contra hne
      simp [hne] at h
  | none =>
      rw [hget] at h
      refine Or.inr ⟨rfl, ?_⟩
      intro hp
      subst hp
      cases hr : rendered[""]? with
      | none => rfl
      | some u =>
          by_cases hu : u.isEmpty = true
          · simp [nonEmpty, String.isEmpty_iff.mp hu]
          · simp [hr, hu] at h

theorem getElem?_insertDecls (ds : List NsDecl) (m : NsMap) {p : String} :
    (∃ uri, ⟨p, uri⟩ ∈ ds ∧ (ds.foldl (fun m d => m.insert d.pfx d.uri) m)[p]? = some uri)
      ∨ (∀ uri, ⟨p, uri⟩ ∉ ds) ∧ (ds.foldl (fun m d => m.insert d.pfx d.uri) m)[p]? = m[p]? := by
  induction ds generalizing m with
  | nil => exact Or.inr ⟨by simp, rfl⟩
  | cons d ds ih =>
      rw [List.foldl_cons]
      rcases ih (m.insert d.pfx d.uri) with ⟨uri, hmem, hget⟩ | ⟨hnone, hget⟩
      · exact Or.inl ⟨uri, List.mem_cons_of_mem _ hmem, hget⟩
      · by_cases hd : d.pfx = p
        · subst hd
          refine Or.inl ⟨d.uri, List.mem_cons_self, ?_⟩
          rw [hget]
          simp
        · refine Or.inr ⟨?_, ?_⟩
          · intro uri hmem
            rcases List.mem_cons.mp hmem with hmem | hmem
            · exact hd (by rw [← hmem])
            · exact hnone uri hmem
          · rw [hget, OrdMap.getElem?_insert_ne _ _ (fun h => hd h.symm)]

theorem Exclusive.next_eq (ps : List String) (rendered : NsMap) (chain : List Element) :
    (exclusiveRule ps).next rendered chain
      = ((exclusiveRule ps).decls rendered chain).foldl (fun m d => m.insert d.pfx d.uri)
          rendered := by
  unfold exclusiveRule Exclusive.childRendered
  simp

/-- The exclusive walk has rendered only prefixes that are still bound. -/
def Exclusive.HandsDown (rendered : NsMap) (chain : List Element) : Prop :=
  ∀ p, p ≠ "" → rendered[p]?.isSome → (Exclusive.collectInscopeNamespaces chain)[p]?.isSome

/-- Two declarations of one prefix are one declaration. -/
theorem Exclusive.decls_unique {ps : List String} {rendered : NsMap} {e : Element}
    {chain : List Element} {p uri uri' : String}
    (h : ⟨p, uri⟩ ∈ (exclusiveRule ps).decls rendered (e :: chain))
    (h' : ⟨p, uri'⟩ ∈ (exclusiveRule ps).decls rendered (e :: chain)) : uri = uri' := by
  obtain ⟨q, _, hq⟩ := Exclusive.mem_decls.mp h
  obtain ⟨q', _, hq'⟩ := Exclusive.mem_decls.mp h'
  have h1 : p = q := (Exclusive.nsDeclFor_eq_some hq).1
  have h2 : p = q' := (Exclusive.nsDeclFor_eq_some hq').1
  rw [← h1] at hq
  rw [← h2, hq] at hq'
  simp only [Option.some.injEq, NsDecl.mk.injEq, true_and] at hq'
  exact hq'

theorem Exclusive.inscope_isSome {e : Element} (he : e.DeclaresWell) {chain : List Element}
    {p : String} (hp : p ≠ "") (h : (Exclusive.collectInscopeNamespaces chain)[p]?.isSome) :
    (Exclusive.collectInscopeNamespaces (e :: chain))[p]?.isSome :=
  inscope_cons_isSome he (fun _ u hu => by simp [hu]) hp h

theorem Exclusive.readable (ps : List String) :
    Readable (exclusiveRule ps) (fun e p => (Exclusive.utilizedPrefixes ps e).contains p)
      Exclusive.HandsDown where
  init := by
    intro p _ h
    simp at h
  next := by
    intro rendered chain e hinv he p hp h
    rw [Exclusive.next_eq] at h
    rcases getElem?_insertDecls ((exclusiveRule ps).decls rendered (e :: chain)) rendered
      (p := p) with ⟨uri, hmem, _⟩ | ⟨_, hget⟩
    · obtain ⟨q, _, hq⟩ := Exclusive.mem_decls.mp hmem
      obtain ⟨h1, _, hns⟩ := Exclusive.nsDeclFor_eq_some hq
      have hpq : p = q := h1
      subst hpq
      rcases hns with hns | ⟨_, hempty, _⟩
      · rw [hns]; rfl
      · exact absurd hempty hp
    · rw [hget] at h
      exact Exclusive.inscope_isSome he hp (hinv p hp h)
  declared := by
    intro rendered chain d hd
    cases chain with
    | nil =>
        unfold exclusiveRule Exclusive.nsDecls at hd
        simp [sortNsDecls] at hd
    | cons e chain =>
        obtain ⟨q, _, hq⟩ := Exclusive.mem_decls.mp hd
        obtain ⟨rfl, _, hns⟩ := Exclusive.nsDeclFor_eq_some hq
        rcases hns with hns | ⟨_, hempty, _⟩
        · exact Or.inr (declared_of_inscope hns)
        · exact Or.inl hempty
  written := by
    intro rendered chain e p uri hd hp
    refine ⟨?_, ?_⟩
    · obtain ⟨q, _, hq⟩ := Exclusive.mem_decls.mp hd
      obtain ⟨h1, _, hns⟩ := Exclusive.nsDeclFor_eq_some hq
      have hpq : p = q := h1
      subst hpq
      rw [resolve_of_ne hp, ← nonEmpty_exclusive_inscope]
      rcases hns with hns | ⟨hns, _, huri⟩
      · rw [hns]
      · have huri' : uri = "" := huri
        rw [hns, huri']
        rfl
    · rw [Exclusive.next_eq]
      rcases getElem?_insertDecls ((exclusiveRule ps).decls rendered (e :: chain)) rendered
        (p := p) with ⟨uri', hmem, hget⟩ | ⟨hnone, _⟩
      · rw [hget, Exclusive.decls_unique hd hmem]
      · exact absurd hd (hnone uri)
  unwritten := by
    intro rendered chain e p hnone hp
    rw [Exclusive.next_eq]
    rcases getElem?_insertDecls ((exclusiveRule ps).decls rendered (e :: chain)) rendered
      (p := p) with ⟨uri', hmem, _⟩ | ⟨_, hget⟩
    · exact absurd hmem (hnone uri')
    · rw [hget]
  unwritten_binding := by
    intro rendered chain e p hinv he hrel hnone hp
    have hu : p ∈ Exclusive.utilizedPrefixes ps e := by simpa using hrel
    have hdecl : Exclusive.nsDeclFor rendered
        (Exclusive.collectInscopeNamespaces (e :: chain)) p = none := by
      cases hd : Exclusive.nsDeclFor rendered
          (Exclusive.collectInscopeNamespaces (e :: chain)) p with
      | none => rfl
      | some d =>
          have hpfx := (Exclusive.nsDeclFor_eq_some hd).1
          have hmem : (⟨p, d.uri⟩ : NsDecl) ∈ (exclusiveRule ps).decls rendered (e :: chain) :=
            Exclusive.mem_decls.mpr ⟨p, hu, by rw [hd, ← hpfx]⟩
          exact absurd hmem (hnone d.uri)
    rw [resolve_of_ne hp, ← nonEmpty_exclusive_inscope]
    rcases Exclusive.nsDeclFor_eq_none hp hdecl with ⟨uri, hns, hr⟩ | ⟨hns, hr⟩
    · rw [hns, hr]
    · rw [hns]
      by_cases hpe : p = ""
      · rw [hr hpe]; rfl
      · -- bound above it would be bound here
        cases hget : rendered[p]? with
        | none => rfl
        | some u =>
            have h1 := hinv p hpe (by rw [hget]; rfl)
            have h2 := Exclusive.inscope_isSome he hpe h1
            rw [hns] at h2
            simp at h2

end Bergshamra
