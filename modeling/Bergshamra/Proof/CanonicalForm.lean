import Bergshamra.Proof.Content

/-!
# The canonical form as markup

Without a node set, what the canonicalizers write is markup in the sense of
`Lib/Markup`: `formOf` gives the tags, fields and leaves, and rendering them
gives the canonical characters. The two canonicalizers differ only in which
declarations they write and what they hand down to the children (`NsRule`), and
in the attributes.
-/

namespace Bergshamra

/-! ## The output as markup -/

def declField (d : NsDecl) : List Char × List Char :=
  (if d.pfx.isEmpty then "xmlns".toList else "xmlns:".toList ++ d.pfx.toList, d.uri.toList)

def attrField (a : Attr) : List Char × List Char := (a.qualifiedName.toList, a.value.toList)

theorem render_declField (d : NsDecl) :
    Markup.renderField escapeAttrChar (declField d) = d.render := by
  unfold Markup.renderField declField NsDecl.render escapeAttr
  split <;> simp

theorem render_attrField (a : Attr) :
    Markup.renderField escapeAttrChar (attrField a) = a.render := by
  unfold Markup.renderField attrField Attr.render escapeAttr
  simp

/-- How a canonicalizer treats declarations: which ones it writes at an element and what it
hands down, given what it was handed; `chain` starts with the element. -/
structure NsRule where
  decls : NsMap → List Element → List NsDecl
  next : NsMap → List Element → NsMap

/-- Without a node set, inclusive canonicalization. -/
def inclusiveRule : NsRule where
  decls inherited chain := Inclusive.nsDecls false inherited (Inclusive.collectInscopeNamespaces chain)
  next inherited chain := Inclusive.childNs false inherited (Inclusive.collectInscopeNamespaces chain)

/-- Without a node set, exclusive canonicalization. -/
def exclusiveRule (inclusivePrefixes : List String) : NsRule where
  decls rendered chain :=
    Exclusive.nsDecls rendered (Exclusive.collectInscopeNamespaces chain)
      (chain.head?.elim [] (Exclusive.utilizedPrefixes inclusivePrefixes))
  next rendered chain :=
    Exclusive.childRendered false rendered (Exclusive.collectInscopeNamespaces chain)
      (chain.head?.elim [] (Exclusive.utilizedPrefixes inclusivePrefixes))

/-- The markup written for a row. -/
def formOf (rule : NsRule) (attrs : Element → List Attr) (chain : List Element) (state : NsMap) :
    Forest Unit Element Markup.Leaf → Forest Unit Markup.Tag Markup.Leaf
  | .nil => .nil
  | .leaf _ l rest => .leaf () l (formOf rule attrs chain state rest)
  | .node _ e kids rest =>
      .node ()
        ⟨qualifiedElementName e,
          (rule.decls state (e :: chain)).map declField ++ (attrs e).map attrField⟩
        (formOf rule attrs (e :: chain) (rule.next state (e :: chain)) kids)
        (formOf rule attrs chain state rest)

theorem render_start (e : Element) (ds : List NsDecl) (as : List Attr) :
    Markup.renderStart escapeAttrChar
        ⟨qualifiedElementName e, ds.map declField ++ as.map attrField⟩
      = renderStartTag e ds as := by
  have hds : (ds.map declField).flatMap (Markup.renderField escapeAttrChar)
      = ds.flatMap NsDecl.render := by
    rw [List.flatMap_map]
    simp only [render_declField]
  have has : (as.map attrField).flatMap (Markup.renderField escapeAttrChar)
      = as.flatMap Attr.render := by
    rw [List.flatMap_map]
    simp only [render_attrField]
  unfold Markup.renderStart renderStartTag
  rw [List.flatMap_append, hds, has]
  simp

theorem render_end (e : Element) (fields : List (List Char × List Char)) :
    Markup.renderEnd ⟨qualifiedElementName e, fields⟩ = renderEndTag e := by
  simp [Markup.renderEnd, renderEndTag]

theorem escapePi_eq {s : String} (h : '\r' ∉ s.toList) : escapePi s = s.toList := by
  unfold escapePi
  generalize s.toList = l at h
  induction l with
  | nil => rfl
  | cons c l ih =>
      rw [List.mem_cons, not_or] at h
      rw [List.flatMap_cons, ih h.2, if_neg (fun he => h.1 he.symm)]
      rfl

theorem pushLeaves_singleton {α : Type} (l : Markup.Leaf) (rest : Forest Unit α Markup.Leaf) :
    pushLeaves [l] rest = .leaf () l rest := rfl

@[simp] theorem hasNode_pushLeaves {α : Type} (ls : List Markup.Leaf)
    (rest : Forest Unit α Markup.Leaf) : (pushLeaves ls rest).hasNode = rest.hasNode := by
  induction ls with
  | nil => rfl
  | cons l ls ih => exact ih

theorem hasNode_content (f : Nodes) : (content f).hasNode = f.hasNode := by
  induction f with
  | nil => rfl
  | leaf i k rest ih => rw [content, hasNode_pushLeaves, ih]; rfl
  | node i e kids rest _ _ => rfl

section Form

variable (rule : NsRule) (attrs : Element → List Attr)

theorem formOf_pushLeaves (chain : List Element) (state : NsMap) (ls : List Markup.Leaf)
    (rest : Forest Unit Element Markup.Leaf) :
    formOf rule attrs chain state (pushLeaves ls rest)
      = pushLeaves ls (formOf rule attrs chain state rest) := by
  induction ls with
  | nil => rfl
  | cons l ls ih =>
      show formOf rule attrs chain state (.leaf () l (pushLeaves ls rest)) = _
      rw [formOf, ih]
      rfl

theorem hasNode_formOf (chain : List Element) (state : NsMap)
    (f : Forest Unit Element Markup.Leaf) :
    (formOf rule attrs chain state f).hasNode = f.hasNode := by
  induction f with
  | nil => rfl
  | leaf _ l rest ih => exact ih
  | node => rfl

end Form

theorem render_pushLeaves (ls : List Markup.Leaf) (g : Forest Unit Markup.Tag Markup.Leaf) :
    Markup.render escapeTextChar escapeAttrChar (pushLeaves ls g)
      = ls.flatMap (Markup.renderLeaf escapeTextChar)
        ++ Markup.render escapeTextChar escapeAttrChar g := by
  induction ls with
  | nil => rfl
  | cons l ls ih =>
      show Markup.render _ _ (.leaf () l (pushLeaves ls g)) = _
      rw [Markup.render, ih, List.flatMap_cons, List.append_assoc]

/-- The data of an instruction, as written. -/
theorem renderInstruction (target : String) {data : Option String}
    (h : '\r' ∉ (data.getD "").toList) :
    "<?".toList ++ target.toList ++ renderPiData data ++ "?>".toList
      = Markup.renderLeaf escapeTextChar
          (.instruction target.toList (data.getD "").toList) := by
  have hempty : ∀ v : String, v.toList.isEmpty = v.isEmpty := by
    intro v
    by_cases hv : v = ""
    · simp [hv]
    · have h1 : v.toList ≠ [] := by simpa using hv
      have h2 : v.isEmpty = false := by simpa using hv
      rw [h2]
      simpa using h1
  cases data with
  | none => simp [Markup.renderLeaf, renderPiData]
  | some v =>
      rw [Option.getD_some] at h
      simp only [Markup.renderLeaf, Option.getD_some, hempty, renderPiData, escapePi_eq h]
      cases v.isEmpty <;> simp

theorem processLeaf_below {k : LeafKind} (hk : k.WellFormed) (b b' : Bool) :
    processLeaf true ⟨false, b, b'⟩ k = k.content.flatMap (Markup.renderLeaf escapeTextChar) := by
  cases k with
  | text t =>
      show escapeText t = _
      rw [escapeText, LeafKind.content, List.flatMap_map]
      rfl
  | cdata t =>
      show escapeText t = _
      rw [escapeText, LeafKind.content, List.flatMap_map]
      rfl
  | comment t => simp [processLeaf, Place.before, Place.after, LeafKind.content, Markup.renderLeaf]
  | pi target data =>
      simp only [processLeaf, Place.before, Place.after, LeafKind.content, Bool.false_and,
        Bool.false_eq_true, if_false, List.nil_append, List.append_nil, List.flatMap_cons,
        List.flatMap_nil]
      rw [← renderInstruction target hk.2.2]

theorem processLeaf_top {k : LeafKind} (hk : k.WellFormed) (ht : k.text? = none) (b b' : Bool) :
    ∃ l, k.content = [l] ∧ l.isChar = false
      ∧ processLeaf true ⟨true, b, b'⟩ k
        = Markup.newline b ++ Markup.renderLeaf escapeTextChar l ++ Markup.newline b' := by
  cases k with
  | text t => simp [LeafKind.text?] at ht
  | cdata t => simp [LeafKind.text?] at ht
  | comment t =>
      refine ⟨_, rfl, rfl, ?_⟩
      simp [processLeaf, Place.before, Place.after, Markup.renderLeaf, Markup.newline]
  | pi target data =>
      refine ⟨_, rfl, rfl, ?_⟩
      rw [← renderInstruction target hk.2.2]
      simp only [processLeaf, Place.before, Place.after, Bool.true_and, Markup.newline,
        List.append_assoc]

namespace Inclusive

/-- The attributes of an element when there is no node set. -/
def attrsOf (e : Element) : List Attr := sortAttrs (sortAttrs (e.attributes.map attrOf))

theorem attrsToRender_none (withComments c14n11Mode : Bool) (path : List (NodeId × Element))
    (e : Element) : attrsToRender ⟨withComments, none, c14n11Mode⟩ path e = attrsOf e := by
  simp [attrsToRender, attrsOf]

theorem processNodes_eq_render (c14n11Mode : Bool) {path : List (NodeId × Element)}
    (hp : path ≠ []) (preceding : Bool) (inherited : NsMap) {f : Nodes} {chain : List Element}
    (hf : WellFormedRow LeafKind.WellFormed chain f) :
    processNodes ⟨true, none, c14n11Mode⟩ path preceding inherited f
      = Markup.render escapeTextChar escapeAttrChar
          (formOf inclusiveRule attrsOf (path.map Prod.snd) inherited (content f)) := by
  induction f generalizing path preceding inherited chain with
  | nil => rfl
  | leaf i k rest ih =>
      have hroot : path.isEmpty = false := by simpa using hp
      rw [processNodes, content, formOf_pushLeaves, render_pushLeaves, ← ih hp preceding _ hf.2,
        ← processLeaf_below hf.1, isVisible_none, hroot]
      rfl
  | node i e kids rest ihk ihr =>
      rw [processNodes, content, formOf, Markup.render, render_start, render_end,
        ← ihr hp true inherited hf.2.2, attrsToRender_none]
      rw [isVisible_none, if_pos rfl]
      have hk := ihk (List.cons_ne_nil (i, e) path) false
        (inclusiveRule.next inherited (e :: path.map Prod.snd)) hf.2.1
      rw [List.map_cons] at hk
      rw [← hk]
      rfl

theorem processNodes_eq_renderTop (c14n11Mode : Bool) (preceding : Bool) (inherited : NsMap)
    {f : Nodes} (hf : WellFormedRow LeafKind.WellFormed [] f) (ht : NoText f) :
    processNodes ⟨true, none, c14n11Mode⟩ [] preceding inherited f
      = Markup.renderTop escapeTextChar escapeAttrChar preceding
          (formOf inclusiveRule attrsOf [] inherited (content f)) := by
  induction f generalizing preceding with
  | nil => rfl
  | leaf i k rest ih =>
      obtain ⟨l, hl, _, hleaf⟩ := processLeaf_top hf.1 ht.1 preceding rest.hasNode
      rw [processNodes, content, hl, formOf_pushLeaves, pushLeaves_singleton, Markup.renderTop,
        hasNode_formOf, hasNode_content, ← ih preceding hf.2 ht.2, ← hleaf, isVisible_none]
      rfl
  | node i e kids rest ihk ihr =>
      have hk := processNodes_eq_render c14n11Mode (List.cons_ne_nil (i, e) []) false
        (inclusiveRule.next inherited [e]) hf.2.1
      rw [processNodes, content, formOf, Markup.renderTop, render_start, render_end,
        ← ihr true hf.2.2 ht, attrsToRender_none]
      rw [isVisible_none, if_pos rfl]
      rw [List.map_cons, List.map_nil] at hk
      rw [← hk]
      rfl

end Inclusive

namespace Exclusive

theorem processNodes_eq_render (inclusivePrefixes : List String)
    {path : List (NodeId × Element)} (hp : path ≠ []) (preceding : Bool) (rendered : NsMap)
    {f : Nodes} {chain : List Element} (hf : WellFormedRow LeafKind.WellFormed chain f) :
    processNodes ⟨true, none, inclusivePrefixes⟩ path preceding rendered f
      = Markup.render escapeTextChar escapeAttrChar
          (formOf (exclusiveRule inclusivePrefixes) attrsToRender (path.map Prod.snd) rendered
            (content f)) := by
  induction f generalizing path preceding rendered chain with
  | nil => rfl
  | leaf i k rest ih =>
      have hroot : path.isEmpty = false := by simpa using hp
      rw [processNodes, content, formOf_pushLeaves, render_pushLeaves, ← ih hp preceding _ hf.2,
        ← processLeaf_below hf.1, isVisible_none, hroot]
      rfl
  | node i e kids rest ihk ihr =>
      have hk := ihk (List.cons_ne_nil (i, e) path) false
        ((exclusiveRule inclusivePrefixes).next rendered (e :: path.map Prod.snd)) hf.2.1
      rw [List.map_cons] at hk
      rw [processNodes, content, formOf, Markup.render, render_start, render_end,
        ← ihr hp true rendered hf.2.2]
      rw [isVisible_none, if_pos rfl, ← hk]
      rfl

theorem processNodes_eq_renderTop (inclusivePrefixes : List String) (preceding : Bool)
    (rendered : NsMap) {f : Nodes} (hf : WellFormedRow LeafKind.WellFormed [] f)
    (ht : NoText f) :
    processNodes ⟨true, none, inclusivePrefixes⟩ [] preceding rendered f
      = Markup.renderTop escapeTextChar escapeAttrChar preceding
          (formOf (exclusiveRule inclusivePrefixes) attrsToRender [] rendered (content f)) := by
  induction f generalizing preceding with
  | nil => rfl
  | leaf i k rest ih =>
      obtain ⟨l, hl, _, hleaf⟩ := processLeaf_top hf.1 ht.1 preceding rest.hasNode
      rw [processNodes, content, hl, formOf_pushLeaves, pushLeaves_singleton, Markup.renderTop,
        hasNode_formOf, hasNode_content, ← ih preceding hf.2 ht.2, ← hleaf, isVisible_none]
      rfl
  | node i e kids rest ihk ihr =>
      have hk := processNodes_eq_render inclusivePrefixes (List.cons_ne_nil (i, e) []) false
        ((exclusiveRule inclusivePrefixes).next rendered [e]) hf.2.1
      rw [List.map_cons, List.map_nil] at hk
      rw [processNodes, content, formOf, Markup.renderTop, render_start, render_end,
        ← ihr true hf.2.2 ht]
      rw [isVisible_none, if_pos rfl, ← hk]
      rfl

end Exclusive

/-! ## The escapes -/

/-- Read one character of escaped text or of an escaped attribute value. -/
def unescape : List Char → Option (Char × List Char)
  | '&' :: 'a' :: 'm' :: 'p' :: ';' :: r => some ('&', r)
  | '&' :: 'l' :: 't' :: ';' :: r => some ('<', r)
  | '&' :: 'g' :: 't' :: ';' :: r => some ('>', r)
  | '&' :: 'q' :: 'u' :: 'o' :: 't' :: ';' :: r => some ('"', r)
  | '&' :: '#' :: 'x' :: '9' :: ';' :: r => some ('\t', r)
  | '&' :: '#' :: 'x' :: 'A' :: ';' :: r => some ('\n', r)
  | '&' :: '#' :: 'x' :: 'D' :: ';' :: r => some ('\r', r)
  | c :: r => some (c, r)
  | [] => none

theorem unescape_of_ne {c : Char} (hc : c ≠ '&') (r : List Char) :
    unescape (c :: r) = some (c, r) := by
  unfold unescape
  split <;> simp_all

theorem unescape_text (c : Char) (r : List Char) :
    unescape (escapeTextChar c ++ r) = some (c, r) := by
  unfold escapeTextChar
  split
  · rfl
  · rfl
  · rfl
  · rfl
  · rename_i hc _ _ _
    exact unescape_of_ne hc r

theorem unescape_attr (c : Char) (r : List Char) :
    unescape (escapeAttrChar c ++ r) = some (c, r) := by
  unfold escapeAttrChar
  split
  · rfl
  · rfl
  · rfl
  · rfl
  · rfl
  · rfl
  · rename_i hc _ _ _ _ _
    exact unescape_of_ne hc r

theorem separates_of_unescape {code : Char → List Char}
    (h : ∀ c r, unescape (code c ++ r) = some (c, r)) : Markup.Separates code := by
  intro a b r r' he
  have := congrArg unescape he
  rw [h, h, Option.some.injEq, Prod.mk.injEq] at this
  exact this

theorem escape_text : Markup.Escape escapeTextChar '<' where
  separates := separates_of_unescape unescape_text
  head := by
    intro c
    unfold escapeTextChar
    split <;> simp_all

theorem escape_attr : Markup.Escape escapeAttrChar '"' where
  separates := separates_of_unescape unescape_attr
  head := by
    intro c
    unfold escapeAttrChar
    split <;> simp_all

end Bergshamra
