import Bergshamra.C14n.Canonicalize
import Bergshamra.Lib.Markup
import Mathlib.Data.Multiset.MapFold

/-!
# What a document says

The content of a document, apart from how it was written down: the order of
attributes does not count, declarations count through what they bind, and text
counts character by character, whether it came as text or as CDATA and in how
many pieces. `Document.view` computes it. Two documents with one view are the
same tree up to exactly these differences.

`Document.WellFormed` is what a namespace-aware XML parser promises of the trees
it hands out.
-/

namespace Bergshamra

/-- The URI a prefix is bound to, below the elements `chain` (nearest first); the default
namespace has the prefix `""`. -/
def resolve (chain : List Element) (p : String) : Option String :=
  if p = "xml" then some Ns.XML else (Exclusive.collectInscopeNamespaces chain)[p]?

/-- A leaf character by character. -/
def LeafKind.content : LeafKind → List Markup.Leaf
  | .text t => t.toList.map .char
  | .cdata t => t.toList.map .char
  | .comment t => [.comment t.toList]
  | .pi target data => [.instruction target.toList (data.getD "").toList]

/-- Put leaves in front of a row. -/
def pushLeaves {α : Type} (ls : List Markup.Leaf) (rest : Forest Unit α Markup.Leaf) :
    Forest Unit α Markup.Leaf :=
  ls.foldr (fun l f => .leaf () l f) rest

/-- A row with its text character by character. -/
def content : Nodes → Forest Unit Element Markup.Leaf
  | .nil => .nil
  | .leaf _ k rest => pushLeaves k.content (content rest)
  | .node _ e kids rest => .node () e (content kids) (content rest)

/-- An element without the order of its attributes and with bindings for declarations. -/
structure ElementView where
  name : QName
  attributes : Multiset Attribute
  bindings : String → Option String

/-- The view of an element below `chain`: the bindings of the prefixes that matter at it. -/
def elementView (relevant : Element → String → Bool) (chain : List Element) (e : Element) :
    ElementView where
  name := e.name
  attributes := ↑e.attributes
  bindings p := if p ≠ "xml" ∧ relevant e p then resolve (e :: chain) p else none

def contentView (relevant : Element → String → Bool) (chain : List Element) :
    Forest Unit Element Markup.Leaf → Forest Unit ElementView Markup.Leaf
  | .nil => .nil
  | .leaf _ l rest => .leaf () l (contentView relevant chain rest)
  | .node _ e kids rest =>
      .node () (elementView relevant chain e) (contentView relevant (e :: chain) kids)
        (contentView relevant chain rest)

/-- The prefixes whose bindings a mode preserves: all of them, or, in exclusive mode, those an
element visibly utilizes or the PrefixList names. -/
def relevantPrefix (mode : C14nMode) (inclusivePrefixes : List String) (e : Element)
    (p : String) : Bool :=
  !mode.isExclusive || (Exclusive.utilizedPrefixes inclusivePrefixes e).contains p

/-- **What the canonical form of a document stands for.** -/
def Document.view (mode : C14nMode) (inclusivePrefixes : List String) (doc : Document) :
    Forest Unit ElementView Markup.Leaf :=
  contentView (relevantPrefix mode inclusivePrefixes) [] (content doc.top)

/-! ## What a parse guarantees -/

/-- A name without a colon and without the characters that end a name. -/
def IsNCName (s : String) : Prop :=
  s.toList ≠ [] ∧ ∀ c ∈ s.toList, c ∉ [' ', '>', '/', '!', '?', '=', ':']

/-- By the characters of the name, not by all there are. -/
instance (s : String) : Decidable (IsNCName s) :=
  decidable_of_iff (s.toList ≠ []
      ∧ s.toList.all (fun c => !([' ', '>', '/', '!', '?', '=', ':'].contains c)) = true)
    (by simp [IsNCName])

/-- An attribute's prefix is bound, and only `xml` to the XML namespace; a name without a
prefix is in no namespace and is not `xmlns`. -/
def Attribute.WellFormed (chain : List Element) (a : Attribute) : Prop :=
  IsNCName a.name.localName
    ∧ match a.name.pfx with
      | none => a.name.namespaceUri = none ∧ a.name.localName ≠ "xmlns"
      | some p => IsNCName p ∧ p ≠ "xmlns" ∧ a.name.namespaceUri.isSome
          ∧ a.name.namespaceUri = resolve chain p ∧ (a.name.namespaceUri = some Ns.XML → p = "xml")

/-- A prefix that is declared is a name, and is not undeclared. -/
def Element.DeclaresWell (e : Element) : Prop :=
  ∀ d ∈ e.namespaceDeclarations, d.1 ≠ "" → IsNCName d.1 ∧ d.2 ≠ ""

structure Element.WellFormed (chain : List Element) (e : Element) : Prop where
  localName : IsNCName e.name.localName
  pfx : ∀ p, e.name.pfx = some p → IsNCName p
  namespaceUri : e.name.namespaceUri = resolve (e :: chain) (e.name.pfx.getD "")
  attributes : ∀ a ∈ e.attributes, a.WellFormed (e :: chain)
  declarations : e.DeclaresWell

/-- Comments have no `--`; instructions have a name for a target and no `?>` and no carriage
return in their data. -/
def LeafKind.WellFormed : LeafKind → Prop
  | .text _ => True
  | .cdata _ => True
  | .comment t => ¬ ['-', '-'] <:+: t.toList
  | .pi target data => (∀ c ∈ target.toList, c ∉ [' ', '?'])
      ∧ ¬ ['?', '>'] <:+: (data.getD "").toList ∧ '\r' ∉ (data.getD "").toList

def WellFormedRow {ι β : Type} (leafOk : β → Prop) (chain : List Element) :
    Forest ι Element β → Prop
  | .nil => True
  | .leaf _ k rest => leafOk k ∧ WellFormedRow leafOk chain rest
  | .node _ e kids rest =>
      e.WellFormed chain ∧ WellFormedRow leafOk (e :: chain) kids ∧ WellFormedRow leafOk chain rest

/-- No text in the row itself. -/
def NoText : Nodes → Prop
  | .nil => True
  | .leaf _ k rest => k.text? = none ∧ NoText rest
  | .node _ _ _ rest => NoText rest

structure Document.WellFormed (doc : Document) : Prop where
  nodes : WellFormedRow LeafKind.WellFormed [] doc.top
  noText : NoText doc.top

/-! ## What the parser lets pass

It checks less than that: `xmlns:p=""` is not refused, and then `p` is bound to nothing. -/

/-- The attributes of an element, no two of one expanded name. -/
def Element.AttributesApart (e : Element) : Prop :=
  (e.attributes.map (fun a => (a.name.uri, a.name.localName))).Nodup

instance (e : Element) : Decidable e.AttributesApart := inferInstanceAs (Decidable (List.Nodup _))

/-- An element as it is parsed: a prefix may be undeclared. -/
structure Element.Parsed (chain : List Element) (e : Element) : Prop where
  localName : IsNCName e.name.localName
  pfx : ∀ p, e.name.pfx = some p → IsNCName p
  namespaceUri : e.name.namespaceUri = resolve (e :: chain) (e.name.pfx.getD "")
  attributes : ∀ a ∈ e.attributes, a.WellFormed (e :: chain)
  apart : e.AttributesApart
  prefixes : ∀ d ∈ e.namespaceDeclarations, d.1 ≠ "" → IsNCName d.1

/-- A leaf as it is parsed: line ends are normalised, and a blank before the data of an
instruction is not part of them. -/
def LeafKind.Parsed : LeafKind → Prop
  | .text _ => True
  | .cdata _ => True
  | .comment t => (LeafKind.comment t).WellFormed ∧ '\r' ∉ t.toList
  | .pi target data => (LeafKind.pi target data).WellFormed
      ∧ (data.getD "").toList.head? ≠ some ' '

/-- **A document that the parser hands out.** -/
structure Document.Parsed (doc : Document) : Prop where
  elements : ∀ c ∈ doc.descendants, ∀ e, Node.element? c = some e →
    e.Parsed (c.path.map Prod.snd)
  leaves : ∀ c ∈ doc.descendants, ∀ k, Node.leaf? c = some k → k.Parsed
  noText : NoText doc.top

/-- No declaration `xmlns:p=""` in the document; Namespaces in XML 1.0 has none. -/
def Document.KeepsPrefixes (doc : Document) : Prop :=
  ∀ c ∈ doc.descendants, ∀ e, Node.element? c = some e →
    ∀ d ∈ e.namespaceDeclarations, d.1 ≠ "" → d.2 ≠ ""

theorem wellFormedRow_of_cursors {path : List (NodeId × Element)} {f : Nodes}
    (he : ∀ c ∈ f.cursors path, ∀ e, Node.element? c = some e →
      e.WellFormed (c.path.map Prod.snd))
    (hk : ∀ c ∈ f.cursors path, ∀ k, Node.leaf? c = some k → k.WellFormed) :
    WellFormedRow LeafKind.WellFormed (path.map Prod.snd) f := by
  induction f generalizing path with
  | nil => trivial
  | leaf i k rest ih =>
      refine ⟨hk ⟨i, path, .leaf k⟩ List.mem_cons_self k rfl, ih ?_ ?_⟩
      · exact fun c hc => he c (List.mem_cons_of_mem _ hc)
      · exact fun c hc => hk c (List.mem_cons_of_mem _ hc)
  | node i e kids rest ihk ihr =>
      have hkids : ∀ c ∈ kids.cursors ((i, e) :: path),
          c ∈ (Forest.node i e kids rest).cursors path := by
        intro c hc
        exact List.mem_cons_of_mem _ (List.mem_append_left _ hc)
      have hrest : ∀ c ∈ rest.cursors path, c ∈ (Forest.node i e kids rest).cursors path := by
        intro c hc
        exact List.mem_cons_of_mem _ (List.mem_append_right _ hc)
      refine ⟨he ⟨i, path, .node e kids⟩ List.mem_cons_self e rfl, ?_, ?_⟩
      · exact @ihk ((i, e) :: path) (fun c hc => he c (hkids c hc)) (fun c hc => hk c (hkids c hc))
      · exact ihr (fun c hc => he c (hrest c hc)) (fun c hc => hk c (hrest c hc))

theorem LeafKind.Parsed.wellFormed {k : LeafKind} (h : k.Parsed) : k.WellFormed := by
  cases k with
  | text t | cdata t => trivial
  | comment t | pi target data => exact h.1

/-- Apart from undeclared prefixes, the parser promises what well-formedness asks for. -/
theorem Document.Parsed.wellFormed {doc : Document} (h : doc.Parsed) (hp : doc.KeepsPrefixes) :
    doc.WellFormed where
  nodes := by
    refine @wellFormedRow_of_cursors [] _ ?_ (fun c hc k hk => (h.leaves c hc k hk).wellFormed)
    intro c hc e he
    have hpe := h.elements c hc e he
    exact ⟨hpe.localName, hpe.pfx, hpe.namespaceUri, hpe.attributes,
      fun d hd hne => ⟨hpe.prefixes d hd hne, hp c hc e he d hd hne⟩⟩
  noText := h.noText

/-! ## Bindings -/

/-- A binding that is not `""`. -/
def nonEmpty (uri : Option String) : Option String := uri.filter (fun u => !u.isEmpty)

theorem mem_of_nsLevel {e : Element} {p uri : String} (h : (nsLevel e)[p]? = some uri) :
    (p, uri) ∈ e.namespaceDeclarations := by
  have key : ∀ (ds : List (String × String)) (m : NsMap),
      (ds.foldl (fun level d => level.insert d.1 d.2) m)[p]? = some uri →
        (p, uri) ∈ ds ∨ m[p]? = some uri := by
    intro ds
    induction ds with
    | nil => exact fun m h => Or.inr h
    | cons d ds ih =>
        intro m h
        rcases ih _ h with h | h
        · exact Or.inl (List.mem_cons_of_mem _ h)
        · rw [Std.ExtTreeMap.getElem?_insert] at h
          split at h
          · rename_i hd
            have hp : d.1 = p := Std.LawfulEqOrd.eq_of_compare hd
            rw [Option.some.injEq] at h
            exact Or.inl (by rw [← hp, ← h]; exact List.mem_cons_self)
          · exact Or.inr h
  rcases key _ ∅ h with h | h
  · exact h
  · simp at h

/-- A binding in scope was declared somewhere. -/
theorem declared_of_inscope {drop : String → String → Bool} {chain : List Element}
    {p uri : String} (h : (collectInscope drop chain)[p]? = some uri) :
    ∃ e ∈ chain, (p, uri) ∈ e.namespaceDeclarations := by
  induction chain with
  | nil => simp at h
  | cons e chain ih =>
      rw [getElem?_collectInscope_cons] at h
      cases hl : (nsLevel e)[p]? with
      | some u =>
          simp only [hl] at h
          split at h
          · simp at h
          · rw [Option.some.injEq] at h
            subst h
            exact ⟨e, List.mem_cons_self, mem_of_nsLevel hl⟩
      | none =>
          simp only [hl] at h
          obtain ⟨e', he', hd⟩ := ih h
          exact ⟨e', List.mem_cons_of_mem _ he', hd⟩

/-- The two walks differ in empty default bindings only. -/
theorem nonEmpty_inclusive_inscope (chain : List Element) (p : String) :
    nonEmpty (Inclusive.collectInscopeNamespaces chain)[p]?
      = (Exclusive.collectInscopeNamespaces chain)[p]? := by
  unfold Inclusive.collectInscopeNamespaces Exclusive.collectInscopeNamespaces
  induction chain with
  | nil => simp [nonEmpty]
  | cons e chain ih =>
      rw [getElem?_collectInscope_cons, getElem?_collectInscope_cons, ← ih]
      cases (nsLevel e)[p]? with
      | none => rfl
      | some u =>
          by_cases hu : u.isEmpty = true
          · by_cases hp : p.isEmpty = true
            · simp [nonEmpty, String.isEmpty_iff.mp hu, hp]
            · simp [nonEmpty, hu, hp]
          · simp [nonEmpty, hu]

theorem nonEmpty_exclusive_inscope (chain : List Element) (p : String) :
    nonEmpty (Exclusive.collectInscopeNamespaces chain)[p]?
      = (Exclusive.collectInscopeNamespaces chain)[p]? := by
  cases h : (Exclusive.collectInscopeNamespaces chain)[p]? with
  | none => rfl
  | some u => simp [nonEmpty, exclusive_inscope_ne_empty h]

/-- A well-formed element undeclares no prefix. -/
theorem inscope_cons_isSome {drop : String → String → Bool} {e : Element}
    (he : e.DeclaresWell) (hdrop : ∀ p u, u ≠ "" → drop p u = false) {chain : List Element}
    {p : String} (hp : p ≠ "") (h : (collectInscope drop chain)[p]?.isSome) :
    (collectInscope drop (e :: chain))[p]?.isSome := by
  rw [getElem?_collectInscope_cons]
  cases hl : (nsLevel e)[p]? with
  | none => exact h
  | some u =>
      have hu : u ≠ "" := (he _ (mem_of_nsLevel hl) hp).2
      simp [hdrop p u hu]

end Bergshamra
