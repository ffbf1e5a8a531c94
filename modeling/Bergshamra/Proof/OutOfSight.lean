import Bergshamra.Lib.AlikeBut
import Bergshamra.Lib.Fold
import Bergshamra.Proof.InputOnly
import Bergshamra.Proof.Restrict

/-!
# Elements filled in out of sight

Signing fills elements of its template in one after the other, and every text
that is reached is parsed anew. `Refilled ks doc doc'` says that the second
document is the first with the elements `ks` filled in; the ids of the two
parses have nothing to do with each other. Where a node set shows nothing of the
elements that are filled in, the canonical form and the text of the two
documents are the same.
-/

namespace Bergshamra

/-- Elements that every lookup takes for each other. -/
def SameName (e e' : Element) : Prop :=
  e.name.localName = e'.name.localName ∧ e.name.uri = e'.name.uri

theorem SameName.refl (e : Element) : SameName e e := ⟨rfl, rfl⟩

/-- The second document is the first with the elements `ks` filled in. -/
def Refilled (ks : List NodeId) (doc doc' : Document) : Prop :=
  Forest.AlikeBut SameName ks doc.top doc'.top

/-- Two nodes that stand for each other. -/
def StandsFor (ks : List NodeId) (doc doc' : Document) (n n' : Node) : Prop :=
  (n, n') ∈ Forest.pairs ks [] [] doc.top doc'.top

section Nodes

variable {ks : List NodeId} {doc doc' : Document} {n n' m m' : Node}

theorem StandsFor.mem (h : StandsFor ks doc doc' n n') :
    n ∈ doc.descendants ∧ n' ∈ doc'.descendants := Forest.mem_of_pairs h

theorem StandsFor.leaf? (hf : Refilled ks doc doc') (h : StandsFor ks doc doc' n n') :
    n.leaf? = n'.leaf? := by
  have hitem := Forest.itemAlike_of_pairs hf h
  obtain ⟨key, path, item⟩ := n
  obtain ⟨key', path', item'⟩ := n'
  cases hitem with
  | leaf b => rfl
  | place => rfl
  | node => rfl

theorem StandsFor.element?_sameName (hf : Refilled ks doc doc')
    (h : StandsFor ks doc doc' n n') :
    n.element? = none ∧ n'.element? = none
      ∨ ∃ e e', n.element? = some e ∧ n'.element? = some e' ∧ SameName e e' := by
  have hitem := Forest.itemAlike_of_pairs hf h
  obtain ⟨key, path, item⟩ := n
  obtain ⟨key', path', item'⟩ := n'
  cases hitem with
  | leaf b => exact Or.inl ⟨rfl, rfl⟩
  | place _ ha => exact Or.inr ⟨_, _, rfl, rfl, ha⟩
  | node => exact Or.inr ⟨_, _, rfl, rfl, .refl _⟩

/-- An element that is not filled in is the same. -/
theorem StandsFor.element? (hf : Refilled ks doc doc') (h : StandsFor ks doc doc' n n')
    (hk : n.key ∉ ks) : n.element? = n'.element? := by
  have hitem := Forest.itemAlike_of_pairs hf h
  obtain ⟨key, path, item⟩ := n
  obtain ⟨key', path', item'⟩ := n'
  cases hitem with
  | leaf b => rfl
  | place hi => exact absurd hi hk
  | node => rfl

theorem StandsFor.isNamed (hf : Refilled ks doc doc') (h : StandsFor ks doc doc' n n')
    (nsUri localName : String) : n.isNamed nsUri localName = n'.isNamed nsUri localName := by
  rw [Node.isNamed, Node.isNamed]
  rcases h.element?_sameName hf with ⟨hn, hn'⟩ | ⟨e, e', hn, hn', hname, huri⟩
  · rw [hn, hn']
  · rw [hn, hn', Option.any_some, Option.any_some, Element.isNamed, Element.isNamed, hname, huri]

theorem StandsFor.hasLocalName (hf : Refilled ks doc doc') (h : StandsFor ks doc doc' n n')
    (localName : String) :
    n.element?.any (fun e => e.name.localName == localName)
      = n'.element?.any (fun e => e.name.localName == localName) := by
  rcases h.element?_sameName hf with ⟨hn, hn'⟩ | ⟨e, e', hn, hn', hname, -⟩
  · rw [hn, hn']
  · rw [hn, hn', Option.any_some, Option.any_some, hname]

theorem StandsFor.children (hf : Refilled ks doc doc') (h : StandsFor ks doc doc' n n')
    (hk : n.key ∉ ks) : List.Forall₂ (StandsFor ks doc doc') n.children n'.children :=
  Forest.children_pairs hf h hk

/-- A child that is found is found again. -/
theorem StandsFor.findChildElement (hf : Refilled ks doc doc') (h : StandsFor ks doc doc' n n')
    (hk : n.key ∉ ks) (nsUri localName : String) :
    n.findChildElement nsUri localName = none ∧ n'.findChildElement nsUri localName = none
      ∨ ∃ c c', n.findChildElement nsUri localName = some c
        ∧ n'.findChildElement nsUri localName = some c' ∧ StandsFor ks doc doc' c c' := by
  rw [Node.findChildElement, Node.findChildElement]
  have hrow := h.children hf hk
  generalize n.children = row at hrow ⊢
  generalize n'.children = row' at hrow ⊢
  induction hrow with
  | nil => exact Or.inl ⟨rfl, rfl⟩
  | @cons c c' rest rest' hc _ ih =>
      have hname := hc.isNamed hf nsUri localName
      cases hb : Node.isNamed c nsUri localName with
      | true =>
          right
          refine ⟨c, c', ?_, ?_, hc⟩
          · simp only [List.find?_cons, hb]
          · simp only [List.find?_cons, ← hname, hb]
      | false =>
          simp only [List.find?_cons, ← hname, hb]
          exact ih

theorem StandsFor.findChildElements (hf : Refilled ks doc doc')
    (h : StandsFor ks doc doc' n n') (hk : n.key ∉ ks) (nsUri localName : String) :
    List.Forall₂ (StandsFor ks doc doc') (n.findChildElements nsUri localName)
      (n'.findChildElements nsUri localName) := by
  refine List.rel_filter (fun c c' hc => ?_) (h.children hf hk)
  exact iff_of_eq (congrArg (· = true) (hc.isNamed hf nsUri localName))

/-- The element of the document with a name, if what is filled in lies below it. -/
theorem Refilled.findElement (hf : Refilled ks doc doc') {nsUri localName : String}
    (hfind : doc.findElement nsUri localName = some n) (hks : ∀ k ∈ ks, k ∈ n.kids.keys) :
    ∃ n', doc'.findElement nsUri localName = some n' ∧ StandsFor ks doc doc' n n' :=
  Forest.find?_pairs hf doc.nodup_top (fun _ _ hd => StandsFor.isNamed hf hd nsUri localName) hfind
    (fun k hk _ => hks k hk)

/-- What is below what. -/
theorem StandsFor.below_iff (hf : Refilled ks doc doc') (h : StandsFor ks doc doc' n n')
    (hm : StandsFor ks doc doc' m m') : m.key ∈ n.subtreeKeys ↔ m'.key ∈ n'.subtreeKeys :=
  Forest.mem_subtreeKeys_pairs hf doc.nodup_top doc'.nodup_top h hm

/-- Nothing that stands for something is below an element that is filled in. -/
theorem StandsFor.eq_of_below (h : StandsFor ks doc doc' n n') (hm : StandsFor ks doc doc' m m')
    (hk : n.key ∈ ks) (hbelow : m.key ∈ n.subtreeKeys) : m.key = n.key :=
  Forest.eq_of_pairs_below doc.nodup_top h hm hk hbelow

/-- A subtree that meets one that is filled in holds it, or is below it. -/
theorem StandsFor.apart (h : StandsFor ks doc doc' n n') (hm : StandsFor ks doc doc' m m')
    (hk : n.key ∈ ks) (hout : n.key ∉ m.subtreeKeys) {i : NodeId} (hi : i ∈ n.subtreeKeys) :
    i ∉ m.subtreeKeys := by
  intro him
  rcases Forest.nested_of_mem doc.nodup_top h.mem.1 hm.mem.1 hi him with hnm | hmn
  · exact hout hnm
  · refine hout ?_
    rw [← h.eq_of_below hm hk hmn]
    exact List.mem_cons_self

theorem StandsFor.apart' (hf : Refilled ks doc doc') (h : StandsFor ks doc doc' n n')
    (hm : StandsFor ks doc doc' m m') (hk : n.key ∈ ks) (hout : n.key ∉ m.subtreeKeys) {i : NodeId}
    (hi : i ∈ n'.subtreeKeys) : i ∉ m'.subtreeKeys := by
  intro him
  rcases Forest.nested_of_mem doc'.nodup_top h.mem.2 hm.mem.2 hi him with hnm | hmn
  · exact hout ((hm.below_iff hf h).mpr hnm)
  · have hback := (h.below_iff hf hm).mpr hmn
    refine hout ?_
    rw [← h.eq_of_below hm hk hback]
    exact List.mem_cons_self

end Nodes

/-! ## Node sets -/

/-- The set lists what is in it, and leaves namespace nodes and attributes alone. -/
def PlainSet (s : Option NodeSet) : Prop := ∀ ns, s = some ns → ns.setType ≠ .invert ∧ ns.Plain

theorem PlainSet.hasNsFilter {s : Option NodeSet} (h : PlainSet s) : hasNsFilter s = false := by
  cases s with
  | none => rfl
  | some ns =>
      rw [Bergshamra.hasNsFilter, Option.any_some, NodeSet.hasNsVisible, (h ns rfl).2.nsVisible]
      rfl

theorem PlainSet.excludesAttrs {s : Option NodeSet} (h : PlainSet s) :
    s.any NodeSet.excludesAttrs = false := by
  cases s with
  | none => rfl
  | some ns => exact (h ns rfl).2.excludeAttrs

theorem PlainSet.showsNs {s : Option NodeSet} (h : PlainSet s) (i : NodeId) (p : String) :
    showsNs s i p = true := by
  cases s with
  | none => rfl
  | some ns =>
      refine NodeSet.isNsVisible_of_not_has ?_ i p
      rw [NodeSet.hasNsVisible, (h ns rfl).2.nsVisible]
      rfl

theorem plainSet_none : PlainSet none := fun _ h => absurd h (by simp)

theorem plainSet_fromIds (ids : Finset NodeId) : PlainSet (some (.fromIds ids .normal)) := by
  intro ns h
  cases h
  exact ⟨by simp [NodeSet.fromIds], rfl, rfl⟩

/-- Two sets show the same of what stands for each other. -/
structure ShowAlike (ks : List NodeId) (doc doc' : Document) (s s' : Option NodeSet) : Prop where
  left : PlainSet s
  right : PlainSet s'
  isSome : s.isSome = s'.isSome
  shown : ∀ n n', StandsFor ks doc doc' n n' → isVisible s n.key = isVisible s' n'.key

/-- Neither set shows anything of what is filled in. -/
structure OutOfSight (ks : List NodeId) (doc doc' : Document) (s s' : Option NodeSet) :
    Prop where
  left : ∀ n n', StandsFor ks doc doc' n n' → n.key ∈ ks → ∀ i ∈ n.subtreeKeys,
    isVisible s i = false
  right : ∀ n n', StandsFor ks doc doc' n n' → n.key ∈ ks → ∀ i ∈ n'.subtreeKeys,
    isVisible s' i = false

section Views

variable {ks : List NodeId} {s s' : Option NodeSet}

theorem dark_of_plain {floats : String → Bool} (hs : PlainSet s) {f : Nodes}
    (hv : ∀ i ∈ f.keys, isVisible s i = false) : Dark floats s f := by
  refine dark_of_keys hv fun hf => ?_
  rw [hs.hasNsFilter] at hf
  cases hf

/-- **Two rows that differ out of sight show the same.** -/
theorem sameView_of_alikeBut {floats : String → Bool} (hs : PlainSet s) (hs' : PlainSet s')
    {f f' : Nodes} (hf : Forest.AlikeBut SameName ks f f') (top : Bool)
    (path path' : List (NodeId × Element))
    (hshown : ∀ n n', (n, n') ∈ Forest.pairs ks path path' f f' →
      isVisible s n.key = isVisible s' n'.key)
    (hleft : ∀ n n', (n, n') ∈ Forest.pairs ks path path' f f' → n.key ∈ ks →
      ∀ i ∈ n.subtreeKeys, isVisible s i = false)
    (hright : ∀ n n', (n, n') ∈ Forest.pairs ks path path' f f' → n.key ∈ ks →
      ∀ i ∈ n'.subtreeKeys, isVisible s' i = false) :
    SameView floats (fun _ _ => True) s s' top f f' := by
  have hns : ∀ i i' p, showsNs s i p = showsNs s' i' p := by
    intro i i' p
    rw [hs.showsNs, hs'.showsNs]
  induction hf generalizing path path' top with
  | nil => exact .nil
  | leaf _ ih =>
      refine .leaf trivial (hshown _ _ List.mem_cons_self) (ih top path path' ?_ ?_ ?_)
      · exact fun n n' h => hshown n n' (List.mem_cons_of_mem _ h)
      · exact fun n n' h => hleft n n' (List.mem_cons_of_mem _ h)
      · exact fun n n' h => hright n n' (List.mem_cons_of_mem _ h)
  | @place i i' a a' kids kids' rest rest' hi _ _ ih =>
      have hrest : ∀ n n', (n, n') ∈ Forest.pairs ks path path' rest rest' →
          (n, n') ∈ Forest.pairs ks path path' (.node i a kids rest) (.node i' a' kids' rest') := by
        intro n n' h
        rw [Forest.pairs_node]
        exact List.mem_cons_of_mem _ (List.mem_append_right _ h)
      -- a place that was filled in is a hole on both sides
      refine .hole (dark_of_plain hs fun j hj => ?_) (dark_of_plain hs' fun j hj => ?_)
        (ih top path path' ?_ ?_ ?_)
      · rw [Forest.keys_node, Forest.keys_nil, List.append_nil] at hj
        exact hleft _ _ List.mem_cons_self hi j hj
      · rw [Forest.keys_node, Forest.keys_nil, List.append_nil] at hj
        exact hright _ _ List.mem_cons_self hi j hj
      · exact fun n n' h => hshown n n' (hrest n n' h)
      · exact fun n n' h => hleft n n' (hrest n n' h)
      · exact fun n n' h => hright n n' (hrest n n' h)
  | @node i i' a kids kids' rest rest' hi _ _ ihk ihr =>
      have hkids : ∀ n n',
          (n, n') ∈ Forest.pairs ks ((i, a) :: path) ((i', a) :: path') kids kids' →
          (n, n') ∈ Forest.pairs ks path path' (.node i a kids rest) (.node i' a kids' rest') := by
        intro n n' h
        rw [Forest.pairs_node, if_neg hi]
        exact List.mem_cons_of_mem _ (List.mem_append_left _ h)
      have hrest : ∀ n n', (n, n') ∈ Forest.pairs ks path path' rest rest' →
          (n, n') ∈ Forest.pairs ks path path' (.node i a kids rest) (.node i' a kids' rest') := by
        intro n n' h
        rw [Forest.pairs_node]
        exact List.mem_cons_of_mem _ (List.mem_append_right _ h)
      refine .node trivial ⟨hshown _ _ List.mem_cons_self, hns i i'⟩
        (ihk false ((i, a) :: path) ((i', a) :: path') ?_ ?_ ?_)
        (ihr top path path' ?_ ?_ ?_)
      · exact fun n n' h => hshown n n' (hkids n n' h)
      · exact fun n n' h => hleft n n' (hkids n n' h)
      · exact fun n n' h => hright n n' (hkids n n' h)
      · exact fun n n' h => hshown n n' (hrest n n' h)
      · exact fun n n' h => hleft n n' (hrest n n' h)
      · exact fun n n' h => hright n n' (hrest n n' h)

variable {doc doc' : Document}

theorem ShowAlike.sameView (h : ShowAlike ks doc doc' s s') (hf : Refilled ks doc doc')
    (hout : OutOfSight ks doc doc' s s') (floats : String → Bool) :
    SameView floats (fun _ _ => True) s s' true doc.top doc'.top :=
  sameView_of_alikeBut h.left h.right hf true [] [] h.shown hout.left hout.right

theorem ShowAlike.settings (h : ShowAlike ks doc doc' s s') : SameSettingsOf s s' where
  isSome := h.isSome
  hasNsFilter := h.left.hasNsFilter.trans h.right.hasNsFilter.symm
  excludesAttrs := h.left.excludesAttrs.trans h.right.excludesAttrs.symm

/-- **What is filled in out of sight is not in the canonical form.** -/
theorem ShowAlike.canonicalizeDoc_eq (h : ShowAlike ks doc doc' s s') (hf : Refilled ks doc doc')
    (hout : OutOfSight ks doc doc' s s') (mode : C14nMode) (inclusivePrefixes : List String) :
    canonicalizeDoc doc mode s inclusivePrefixes
      = canonicalizeDoc doc' mode s' inclusivePrefixes :=
  canonicalizeDoc_sameView mode inclusivePrefixes h.settings (h.sameView hf hout _)

/-- Nor is it in the text. -/
theorem ShowAlike.visibleTexts_eq (h : ShowAlike ks doc doc' s s') (hf : Refilled ks doc doc')
    (hout : OutOfSight ks doc doc' s s') :
    visibleTexts s doc.descendants = visibleTexts s' doc'.descendants :=
  (h.sameView hf hout (fun _ => false)).visibleTexts [] []

end Views

/-! ## The sets that a Reference starts from -/

/-- The node is no comment. -/
def notComment (n : Node) : Bool := n.leaf?.all (fun k => !k.isComment)

theorem notComment_iff {n : Node} :
    notComment n = true ↔ ∀ k, n.item = .leaf k → (!k.isComment) = true := by
  obtain ⟨key, path, item⟩ := n
  cases item with
  | leaf k => simp [notComment, Node.leaf?]
  | node e kids => simp [notComment, Node.leaf?]

/-- A node whose key is below another one is below that node. -/
theorem mem_descendants_of_key {doc : Document} {t n : Node} (ht : t ∈ doc.descendants)
    (hn : n ∈ doc.descendants) (h : n.key ∈ t.kids.keys) : n ∈ t.descendants := by
  rw [← Forest.cursors_keys t.kidsPath, List.mem_map] at h
  obtain ⟨d, hd, hk⟩ := h
  have hmem := Forest.mem_cursors_descendants ht hd
  rw [← Forest.cursor_eq_of_key doc.nodup_top hmem hn hk]
  exact hd

section Constructors

variable {doc : Document} {n t : Node}

theorem containsId_allWithoutComments (hn : n ∈ doc.descendants) :
    (NodeSet.allWithoutComments doc).containsId n.key = notComment n := by
  have hne : n.key ≠ doc.root := by
    intro he
    exact doc.root_not_mem (he ▸ Document.mem_descendants_key hn)
  rw [NodeSet.allWithoutComments, NodeSet.containsId_fromIds_normal, Bool.eq_iff_iff,
    decide_eq_true_iff, Finset.mem_insert, or_iff_right hne, List.mem_toFinset,
    Forest.mem_keysWhere_iff _ doc.nodup_top hn, notComment_iff]

/-- The subtree of a target, with its comments or without. -/
theorem containsId_subtree (ht : t ∈ doc.descendants) (hn : n ∈ doc.descendants)
    (includeComments : Bool) :
    (NodeSet.fromIds (NodeSet.collectSubtree includeComments t).toFinset .normal).containsId n.key
      = (decide (n.key ∈ t.subtreeKeys) && (includeComments || notComment n)) := by
  rw [NodeSet.containsId_fromIds_normal, Bool.eq_iff_iff, decide_eq_true_iff, List.mem_toFinset,
    Bool.and_eq_true, decide_eq_true_iff]
  have hsame : n.key = t.key → n = t :=
    Forest.cursor_eq_of_key doc.nodup_top hn ht
  cases hi : t.item with
  | leaf k =>
      have hsub : t.subtreeKeys = [t.key] := by
        rw [Forest.Cursor.subtreeKeys, Forest.Cursor.kids, hi]
        rfl
      have hcomment : n.key = t.key → notComment n = !k.isComment := by
        intro h
        rw [hsame h, notComment, Node.leaf?, hi]
        rfl
      rw [NodeSet.collectSubtree, hi, hsub, List.mem_singleton]
      constructor
      · intro h
        simp only at h
        split at h
        · rename_i hc
          have hkey := List.mem_singleton.mp h
          rw [hcomment hkey]
          exact ⟨hkey, hc⟩
        · cases h
      · rintro ⟨hkey, hc⟩
        rw [hcomment hkey] at hc
        simp only
        rw [if_pos hc, hkey]
        exact List.mem_cons_self
  | node e kids =>
      have hkids : t.kids = kids := by rw [Forest.Cursor.kids, hi]
      have hnodup : kids.keys.Nodup := by
        rw [← hkids]
        exact (List.nodup_cons.mp ((Forest.subtreeKeys_sublist ht).nodup doc.nodup_top)).2
      -- below an element, the comments are left out where they are not wanted
      have hbelow : n.key ∈ kids.keys →
          (n.key ∈ kids.keysWhere (fun k => includeComments || !k.isComment)
            ↔ (includeComments || notComment n) = true) := by
        intro h
        have hd := mem_descendants_of_key ht hn (hkids ▸ h)
        rw [Forest.Cursor.descendants, hkids] at hd
        rw [Forest.mem_keysWhere_iff _ hnodup hd]
        cases includeComments with
        | true => simp
        | false => simpa using notComment_iff.symm
      rw [NodeSet.collectSubtree, hi, Forest.Cursor.subtreeKeys, hkids, List.mem_cons,
        List.mem_cons]
      constructor
      · rintro (h | h)
        · refine ⟨Or.inl h, ?_⟩
          rw [hsame h, notComment, Node.leaf?, hi]
          simp
        · have hin := Forest.keysWhere_subset _ kids h
          exact ⟨Or.inr hin, (hbelow hin).mp h⟩
      · rintro ⟨h | h, hc⟩
        · exact Or.inl h
        · exact Or.inr ((hbelow h).mpr hc)

/-- A visible key is in the subtree. -/
theorem subtree_of_visible {i : NodeId} {includeComments : Bool}
    (h : (NodeSet.fromIds (NodeSet.collectSubtree includeComments t).toFinset .normal).containsId i
      = true) : i ∈ t.subtreeKeys := by
  rw [NodeSet.containsId_fromIds_normal, decide_eq_true_iff, List.mem_toFinset] at h
  rw [NodeSet.collectSubtree] at h
  rw [Forest.Cursor.subtreeKeys, Forest.Cursor.kids]
  cases hi : t.item with
  | leaf k =>
      simp only [hi] at h
      split at h
      · exact List.mem_cons.mpr (Or.inl (List.mem_singleton.mp h))
      · cases h
  | node e kids =>
      simp only [hi, List.mem_cons] at h
      rcases h with h | h
      · exact List.mem_cons.mpr (Or.inl h)
      · exact List.mem_cons_of_mem _ (Forest.keysWhere_subset _ kids h)

end Constructors

section Sets

variable {ks : List NodeId} {doc doc' : Document} {t t' sig sig' : Node} {s s' : Option NodeSet}

theorem notComment_eq {n n' : Node} (hf : Refilled ks doc doc')
    (h : StandsFor ks doc doc' n n') : notComment n = notComment n' := by
  rw [notComment, h.leaf? hf, notComment]

theorem showAlike_none : ShowAlike ks doc doc' none none :=
  ⟨plainSet_none, plainSet_none, rfl, fun _ _ _ => rfl⟩

theorem showAlike_allWithoutComments (hf : Refilled ks doc doc') :
    ShowAlike ks doc doc' (some (.allWithoutComments doc)) (some (.allWithoutComments doc')) where
  left := plainSet_fromIds _
  right := plainSet_fromIds _
  isSome := rfl
  shown n n' h := by
    rw [isVisible_some, isVisible_some, containsId_allWithoutComments h.mem.1,
      containsId_allWithoutComments h.mem.2, notComment_eq hf h]

theorem showAlike_subtree (hf : Refilled ks doc doc') (ht : StandsFor ks doc doc' t t')
    (includeComments : Bool) :
    ShowAlike ks doc doc'
      (some (.fromIds (NodeSet.collectSubtree includeComments t).toFinset .normal))
      (some (.fromIds (NodeSet.collectSubtree includeComments t').toFinset .normal)) where
  left := plainSet_fromIds _
  right := plainSet_fromIds _
  isSome := rfl
  shown n n' h := by
    rw [isVisible_some, isVisible_some, containsId_subtree ht.mem.1 h.mem.1,
      containsId_subtree ht.mem.2 h.mem.2, notComment_eq hf h]
    exact congrArg (· && _) (decide_eq_decide.mpr (ht.below_iff hf h))

/-- What is filled in outside of the target is out of sight. -/
theorem outOfSight_subtree (hf : Refilled ks doc doc') (ht : StandsFor ks doc doc' t t')
    (hout : ∀ k ∈ ks, k ∉ t.subtreeKeys) (includeComments : Bool) :
    OutOfSight ks doc doc'
      (some (.fromIds (NodeSet.collectSubtree includeComments t).toFinset .normal))
      (some (.fromIds (NodeSet.collectSubtree includeComments t').toFinset .normal)) where
  left n n' h hk i hi := by
    rw [← Bool.not_eq_true]
    exact fun hv => h.apart ht hk (hout _ hk) hi (subtree_of_visible hv)
  right n n' h hk i hi := by
    rw [← Bool.not_eq_true]
    exact fun hv => h.apart' hf ht hk (hout _ hk) hi (subtree_of_visible hv)

/-- What the enveloped-signature transform leaves. -/
theorem isVisible_enveloped (hs : PlainSet s) (hsig : sig ∈ doc.descendants) (i : NodeId) :
    isVisible (some (envelopedNodeSet sig.key doc s)) i
      = ((s.getD (NodeSet.all doc)).containsId i && decide (i ∉ sig.subtreeKeys)) := by
  have ht : (s.getD (NodeSet.all doc)).setType ≠ .invert :=
    setType_getD_all fun ns h => (hs ns h).1
  rw [isVisible_some, envelopedNodeSet, containsId_removeSubtree ht, idsBelow_of_node hsig]

theorem plainSet_enveloped (hs : PlainSet s) (sigNode : NodeId) :
    PlainSet (some (envelopedNodeSet sigNode doc s)) := by
  intro ns h
  cases h
  rw [envelopedNodeSet, removeSubtree_eq]
  cases s with
  | none => exact ⟨by simp [NodeSet.all, NodeSet.fromIds], rfl, rfl⟩
  | some ns => exact ⟨(hs ns rfl).1, (hs ns rfl).2.nsVisible, (hs ns rfl).2.excludeAttrs⟩

theorem ShowAlike.enveloped (h : ShowAlike ks doc doc' s s') (hf : Refilled ks doc doc')
    (hsig : StandsFor ks doc doc' sig sig') :
    ShowAlike ks doc doc' (some (envelopedNodeSet sig.key doc s))
      (some (envelopedNodeSet sig'.key doc' s')) where
  left := plainSet_enveloped h.left _
  right := plainSet_enveloped h.right _
  isSome := rfl
  shown n n' hn := by
    rw [isVisible_enveloped h.left hsig.mem.1, isVisible_enveloped h.right hsig.mem.2,
      containsId_getD_all hn.mem.1, containsId_getD_all hn.mem.2, h.shown n n' hn]
    exact congrArg (_ && ·) (decide_eq_decide.mpr (not_congr (hsig.below_iff hf hn)))

/-- **What is filled in inside of the Signature is out of sight** after the transform. -/
theorem outOfSight_enveloped (h : ShowAlike ks doc doc' s s') (hf : Refilled ks doc doc')
    (hsig : StandsFor ks doc doc' sig sig') (hbelow : ∀ k ∈ ks, k ∈ sig.subtreeKeys) :
    OutOfSight ks doc doc' (some (envelopedNodeSet sig.key doc s))
      (some (envelopedNodeSet sig'.key doc' s')) where
  left n n' hn hk i hi := by
    have hin := Forest.subtreeKeys_trans doc.nodup_top hsig.mem.1 hn.mem.1 (hbelow _ hk) hi
    rw [isVisible_enveloped h.left hsig.mem.1, decide_eq_false (not_not.mpr hin), Bool.and_false]
  right n n' hn hk i hi := by
    have hin := Forest.subtreeKeys_trans doc'.nodup_top hsig.mem.2 hn.mem.2
      ((hsig.below_iff hf hn).mp (hbelow _ hk)) hi
    rw [isVisible_enveloped h.right hsig.mem.2, decide_eq_false (not_not.mpr hin), Bool.and_false]

/-- What is out of sight stays so. -/
theorem OutOfSight.enveloped (hout : OutOfSight ks doc doc' s s') (h : ShowAlike ks doc doc' s s')
    (hsig : StandsFor ks doc doc' sig sig') :
    OutOfSight ks doc doc' (some (envelopedNodeSet sig.key doc s))
      (some (envelopedNodeSet sig'.key doc' s')) where
  left n n' hn hk i hi := by
    have hv := hout.left n n' hn hk i hi
    rw [isVisible_enveloped h.left hsig.mem.1]
    cases s with
    | none => cases hv
    | some ns => rw [Option.getD_some, ← isVisible_some, hv, Bool.false_and]
  right n n' hn hk i hi := by
    have hv := hout.right n n' hn hk i hi
    rw [isVisible_enveloped h.right hsig.mem.2]
    cases s' with
    | none => cases hv
    | some ns => rw [Option.getD_some, ← isVisible_some, hv, Bool.false_and]

end Sets

end Bergshamra
