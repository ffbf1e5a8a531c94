import Bergshamra.Lib.Writer
import Bergshamra.Proof.Written

/-!
# The tree a canonicalizer writes

The canonicalizers append to a buffer as they walk. What they append has the
shape of a tree again: a start tag with its declarations and attributes for each
element in the node set, and below it what is written for its children. The
walk's argument, the namespaces in force, is a function of the chain of ancestors
(`inheritedAt`, `renderedAt`), so the tree is what a `Forest.Writer` makes of the
document, and its text is the canonical form.
-/

namespace Bergshamra

/-- A start tag as it is written. -/
structure StartTag where
  name : List Char
  decls : List NsDecl
  attrs : List Attr
deriving DecidableEq, Repr

namespace StartTag

def opening (t : StartTag) : List Char :=
  '<' :: (t.name ++ t.decls.flatMap NsDecl.render ++ t.attrs.flatMap Attr.render ++ ['>'])

def closing (t : StartTag) : List Char := "</".toList ++ t.name ++ ['>']

end StartTag

/-- What is written: the elements in the node set with their tags, and all else as text. -/
abbrev WrittenTree := Forest NodeId StartTag (List Char)

def WrittenTree.chars (t : WrittenTree) : List Char := t.print StartTag.opening StartTag.closing id

/-- The writer of a canonicalizer. -/
abbrev ElementWriter := Forest.Writer NodeId Element LeafKind StartTag (List Char)

namespace Inclusive

def writer (ctx : C14nContext) : ElementWriter where
  keep := isVisible ctx.nodeSet
  tag path id e :=
    { name := qualifiedElementName e
      decls := nsDecls (hasNsFilter ctx.nodeSet) (inheritedAt ctx path) (visibleNs ctx id path e)
      attrs := attrsToRender ctx path e }
  loose path id e :=
    if hasNsFilter ctx.nodeSet then
      (sortNsDecls (changedDecls (inheritedAt ctx path) (visibleNs ctx id path e))).flatMap
        NsDecl.render
    else []
  text top preceding following id k :=
    if isVisible ctx.nodeSet id then processLeaf ctx.withComments ⟨top, preceding, following⟩ k
    else []

/-- **The walk prints the tree its writer makes.** -/
theorem processNodes_eq_print (ctx : C14nContext) (path : List (NodeId × Element))
    (preceding : Bool) (f : Nodes) :
    processNodes ctx path preceding (inheritedAt ctx path) f
      = WrittenTree.chars ((writer ctx).write path preceding f) := by
  unfold WrittenTree.chars
  induction f generalizing path preceding with
  | nil => rfl
  | leaf i k rest ih =>
      rw [processNodes, Forest.Writer.write, Forest.print, ih]
      rfl
  | node i e kids rest ihk ihr =>
      rw [processNodes, Forest.Writer.write, ihr]
      have hk := ihk ((i, e) :: path) false
      by_cases hv : isVisible ctx.nodeSet i = true
      · rw [inheritedAt, if_pos hv] at hk
        rw [if_pos hv, if_pos (show (writer ctx).keep i = true from hv), Forest.print, hk]
        rfl
      · rw [inheritedAt, if_neg hv] at hk
        rw [if_neg hv, if_neg (show ¬ (writer ctx).keep i = true from hv), Forest.print,
          Forest.print_append, hk, List.append_assoc]
        rfl

end Inclusive

namespace Exclusive

def writer (ctx : ExcC14nContext) : ElementWriter where
  keep := isVisible ctx.nodeSet
  tag path id e :=
    { name := qualifiedElementName e
      decls := nsDecls (renderedAt ctx path) (visibleNs ctx id path e)
        (utilizedPrefixes ctx.inclusivePrefixes e)
      attrs := attrsToRender e }
  loose path id e :=
    if hasNsFilter ctx.nodeSet && !ctx.inclusivePrefixes.isEmpty then
      (floatingDecls ctx.inclusivePrefixes (renderedAt ctx path) (visibleNs ctx id path e)).flatMap
        NsDecl.render
    else []
  text top preceding following id k :=
    if isVisible ctx.nodeSet id then processLeaf ctx.withComments ⟨top, preceding, following⟩ k
    else []

/-- **The walk prints the tree its writer makes.** -/
theorem processNodes_eq_print (ctx : ExcC14nContext) (path : List (NodeId × Element))
    (preceding : Bool) (f : Nodes) :
    processNodes ctx path preceding (renderedAt ctx path) f
      = WrittenTree.chars ((writer ctx).write path preceding f) := by
  unfold WrittenTree.chars
  induction f generalizing path preceding with
  | nil => rfl
  | leaf i k rest ih =>
      rw [processNodes, Forest.Writer.write, Forest.print, ih]
      rfl
  | node i e kids rest ihk ihr =>
      rw [processNodes, Forest.Writer.write, ihr]
      have hk := ihk ((i, e) :: path) false
      by_cases hv : isVisible ctx.nodeSet i = true
      · rw [renderedAt, if_pos hv] at hk
        rw [if_pos hv, if_pos (show (writer ctx).keep i = true from hv), Forest.print, hk]
        rfl
      · rw [renderedAt, if_neg hv] at hk
        rw [if_neg hv, if_neg (show ¬ (writer ctx).keep i = true from hv), Forest.print,
          Forest.print_append, hk, List.append_assoc]
        rfl

end Exclusive

/-! ## What the namespaces in force depend on -/

/-- The declarations on a chain. -/
def levels (path : List (NodeId × Element)) : List (NodeId × NsMap) :=
  path.map (fun x => (x.1, nsLevel x.2))

theorem collectInscope_levels (drop : String → String → Bool) {path path' : List (NodeId × Element)}
    {e e' : Element} (hp : levels path = levels path') (he : nsLevel e = nsLevel e') :
    collectInscope drop (e :: path.map Prod.snd) = collectInscope drop (e' :: path'.map Prod.snd) := by
  have hmap := congrArg (List.map Prod.snd) hp
  simp only [levels, List.map_map] at hmap
  refine collectInscope_congr drop ?_
  rw [List.map_cons, List.map_cons, he, List.map_map, List.map_map]
  exact congrArg _ hmap

theorem Inclusive.visibleNs_levels (ctx : C14nContext) (i : NodeId)
    {path path' : List (NodeId × Element)} {e e' : Element} (hp : levels path = levels path')
    (he : nsLevel e = nsLevel e') : visibleNs ctx i path e = visibleNs ctx i path' e' := by
  unfold visibleNs collectInscopeNamespaces
  rw [collectInscope_levels _ hp he]

theorem Exclusive.visibleNs_levels (ctx : ExcC14nContext) (i : NodeId)
    {path path' : List (NodeId × Element)} {e e' : Element} (hp : levels path = levels path')
    (he : nsLevel e = nsLevel e') : visibleNs ctx i path e = visibleNs ctx i path' e' := by
  unfold visibleNs collectInscopeNamespaces
  rw [collectInscope_levels _ hp he]

theorem Inclusive.inheritedAt_levels (ctx : C14nContext) {path path' : List (NodeId × Element)}
    (hp : levels path = levels path') : inheritedAt ctx path = inheritedAt ctx path' := by
  induction path generalizing path' with
  | nil =>
      cases path' with
      | nil => rfl
      | cons x' path' => simp [levels] at hp
  | cons x path ih =>
      obtain ⟨i, e⟩ := x
      cases path' with
      | nil => simp [levels] at hp
      | cons x' path' =>
          obtain ⟨i', e'⟩ := x'
          simp only [levels, List.map_cons, List.cons.injEq, Prod.mk.injEq] at hp
          obtain ⟨⟨rfl, he⟩, hrest⟩ := hp
          rw [inheritedAt, inheritedAt, ih hrest, visibleNs_levels ctx i hrest he]

/-- The writer of each mode. -/
def writerOf (mode : C14nMode) (nodeSet : Option NodeSet) (inclusivePrefixes : List String) :
    ElementWriter :=
  if mode.isExclusive then Exclusive.writer ⟨mode.withComments, nodeSet, inclusivePrefixes⟩
  else Inclusive.writer ⟨mode.withComments, nodeSet, mode.isC14n11⟩

/-- The tree `canonicalize_doc` writes. -/
def writtenTree (doc : Document) (mode : C14nMode) (nodeSet : Option NodeSet)
    (inclusivePrefixes : List String) : WrittenTree :=
  (writerOf mode nodeSet inclusivePrefixes).write [] false doc.top

theorem keep_writerOf (mode : C14nMode) (nodeSet : Option NodeSet)
    (inclusivePrefixes : List String) (id : NodeId) :
    (writerOf mode nodeSet inclusivePrefixes).keep id = isVisible nodeSet id := by
  unfold writerOf
  split <;> rfl

/-- **The canonical form is the text of the tree that is written.** -/
theorem canonicalText_eq_chars (doc : Document) (mode : C14nMode) (nodeSet : Option NodeSet)
    (inclusivePrefixes : List String) :
    canonicalText doc mode nodeSet inclusivePrefixes
      = WrittenTree.chars (writtenTree doc mode nodeSet inclusivePrefixes) := by
  unfold canonicalText writtenTree writerOf
  by_cases hx : mode.isExclusive = true
  · rw [if_pos hx, if_pos hx]
    exact Exclusive.processNodes_eq_print _ [] false doc.top
  · rw [if_neg hx, if_neg hx]
    exact Inclusive.processNodes_eq_print _ [] false doc.top

section Source

variable {doc : Document} {mode : C14nMode} {s : Option NodeSet} {ps : List String}

/-- Every element of the written tree is an element of the document. -/
theorem exists_source {n : Forest.Cursor NodeId StartTag (List Char)}
    (hn : n ∈ (writtenTree doc mode s ps).cursors []) {t : StartTag} {kids : WrittenTree}
    (hi : n.item = .node t kids) :
    ∃ c ∈ doc.descendants, ∃ e, (writerOf mode s ps).Writes c e n t :=
  @Forest.Writer.source_of_mem _ _ _ _ _ (writerOf mode s ps) doc.top [] false n hn t kids hi

/-- Every element of the document that is in the node set is written. -/
theorem exists_written {c : Node} (hc : c ∈ doc.descendants) {e : Element} {kids : Nodes}
    (hi : c.item = .node e kids) (hv : isVisible s c.key = true) :
    ∃ n ∈ (writtenTree doc mode s ps).cursors [],
      (writerOf mode s ps).Writes c e n ((writerOf mode s ps).tag c.path c.key e) := by
  refine @Forest.Writer.exists_of_keep _ _ _ _ _ (writerOf mode s ps) doc.top [] false c hc e kids
    hi ?_
  rw [keep_writerOf]
  exact hv

end Source

/-- Equal trees are equal bytes. -/
theorem canonicalizeDoc_eq_of_tree {doc doc' : Document} {mode mode' : C14nMode}
    {s s' : Option NodeSet} {ps ps' : List String}
    (h : writtenTree doc mode s ps = writtenTree doc' mode' s' ps') :
    canonicalizeDoc doc mode s ps = canonicalizeDoc doc' mode' s' ps' := by
  rw [canonicalizeDoc_eq_iff, canonicalText_eq_chars, canonicalText_eq_chars, h]

end Bergshamra
