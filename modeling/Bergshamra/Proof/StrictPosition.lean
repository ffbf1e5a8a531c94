import Bergshamra.Dsig.Verify
import Bergshamra.Proof.DocumentIdentity
import Bergshamra.Proof.Restrict

/-!
# Where the digested elements are

Strict verification looks at the element a Reference's URI resolved to. What is
digested is what the transforms leave of it. This file follows an element that
ends up on top, with none of its ancestors, back through the chain: either it is
the target, or some step took its ancestors away. The enveloped-signature
transform takes whole subtrees, so only the transforms that select nodes can do
that.
-/

namespace Bergshamra

/-! ## Positions -/

/-- The document element, an ancestor-or-self of the Signature, or a sibling of it. -/
def AllowedPosition (doc : Document) (sig n : Node) : Prop :=
  doc.documentElement = some n ∨ n.key = sig.key ∨ n.key ∈ sig.path.map Prod.fst
    ∨ doc.parentId n = doc.parentId sig

/-- The check of strict mode. -/
theorem positionAllowed_iff {doc : Document} {sig n : Node} (hn : n ∈ doc.descendants) :
    positionAllowed doc sig n = true ↔ AllowedPosition doc sig n := by
  have hdoc : doc.documentElement.any (fun d => d.key == n.key) = true
      ↔ doc.documentElement = some n := by
    cases hd : doc.documentElement with
    | none => simp
    | some d =>
        have hmem : d ∈ doc.descendants :=
          (Forest.row_sublist [] doc.top).subset (List.mem_of_find?_eq_some hd)
        simp only [Option.any_some, beq_iff_eq, Option.some.injEq]
        constructor
        · intro hk
          exact Forest.cursor_eq_of_key doc.nodup_top hmem hn hk
        · intro h
          rw [h]
  unfold positionAllowed AllowedPosition isAncestorOrSelf isSibling
  rw [Bool.or_eq_true, Bool.or_eq_true, Bool.or_eq_true, hdoc]
  simp only [beq_iff_eq, List.any_eq_true, List.mem_map, or_assoc, eq_comm (a := sig.key),
    eq_comm (a := doc.parentId n)]

/-- A parser promises one element at the top. -/
def Document.HasOneElement (doc : Document) : Prop :=
  ∀ n ∈ doc.descendants, n.element?.isSome = true → n.path = [] → doc.documentElement = some n

/-! ## What a state shows -/

/-- Is the node part of the data? -/
def ChainState.shows (s : ChainState) (id : NodeId) : Bool :=
  match s.data with
  | .xml _ input => isVisible input id
  | .binary _ => false

/-- An element of the data with no ancestor in the data. -/
structure Topmost (doc : Document) (s : ChainState) (n : Node) : Prop where
  mem : n ∈ doc.descendants
  element : n.element?.isSome = true
  shown : s.shows n.key = true
  top : ∀ a ∈ n.path, s.shows a.1 = false

/-- The data of a state are what is digested of the document: the chain ends here, or its next
step makes octets of them. -/
def Run.Digests {lib : DsigLibs} (r : Run lib) (s : ChainState) : Prop :=
  ∃ before after, transformNodes r.reference = before ++ after
    ∧ before.foldlM (chainStep lib.toTransformLibs r.sig.key) (.start r.resolved) = .ok s
    ∧ s.own = true
    ∧ (after = [] ∨ ∃ t rest s', after = t :: rest
      ∧ chainStep lib.toTransformLibs r.sig.key s t = .ok s' ∧ s'.own = false)

/-- The transforms that select nodes: XPath, unless it is taken for the enveloped-signature
transform, XPointer, and XPath Filter 2.0. -/
def IsSelection (up : Uppsala) (t : Node) : Prop :=
  transformUri up t ∈ [Algorithm.XPATH, Algorithm.XPOINTER, Algorithm.XPATH2]
    ∧ indexStep? up t ≠ some .enveloped

/-- A step of the chain that selects keeps the element and not one of its ancestors. -/
def Run.SelectsOut {lib : DsigLibs} (r : Run lib) (n : Node) : Prop :=
  ∃ s t s', r.Executes s t s' ∧ IsSelection lib.toUppsala t
    ∧ s.shows n.key = true ∧ s'.shows n.key = true
    ∧ ∃ a ∈ n.path, s.shows a.1 = true ∧ s'.shows a.1 = false

/-! ## One step -/

/-- What a step does to the node set of the chain's own data. -/
inductive OwnStep (up : Uppsala) (doc : Document) (sigNode : NodeId) (t : Node)
    (input : Option NodeSet) : Option NodeSet → Prop
  | same : OwnStep up doc sigNode t input input
  | removed : OwnStep up doc sigNode t input (some (envelopedNodeSet sigNode doc input))
  | selected {out : NodeSet} (ht : IsSelection up t)
      (hout : ∀ id ∈ doc.ids, out.containsId id = true → isVisible input id = true) :
      OwnStep up doc sigNode t input (some out)

theorem avoidsInverted_of_normal {doc : Document} {input : Option NodeSet}
    (h : NormalInput input) (touched : NodeId → Prop) : AvoidsInverted doc input touched := by
  intro s hs hinv
  rw [h s hs] at hinv
  exact NodeSetType.noConfusion hinv

theorem isVisible_of_filterNodes {doc : Document} {input : Option NodeSet} {keep : Node → Bool}
    {out : NodeSet} (hnodes : out.nodes = filterNodes doc input keep)
    (htype : out.setType = .normal) {id : NodeId} (h : out.containsId id = true) :
    isVisible input id = true := by
  rw [NodeSet.containsId_of_ne_invert (by rw [htype]; decide), hnodes, decide_eq_true_iff,
    mem_filterNodes] at h
  obtain ⟨n, _, rfl, hvis, _⟩ := h
  exact hvis

section

variable {lib : TransformLibs} {xml : String} {doc : Document} {sigNode : NodeId} {t : Node}

theorem xpathStep_own (hdoc : lib.parse xml = .ok doc) {input : Option NodeSet}
    {result : TransformData} (hu : transformUri lib.toUppsala t = Algorithm.XPATH)
    (h : applyXPathTransform lib (.xml xml input) t sigNode = .ok result) :
    ∃ out, result = .xml xml out ∧ OwnStep lib.toUppsala doc sigNode t input out := by
  rw [applyXPathTransform_ok] at h
  obtain ⟨xpathNode, filter, hx, hc, h⟩ := h
  have hk : filter ≠ .enveloped → IsSelection lib.toUppsala t := by
    intro hne
    refine ⟨by simp [hu], fun hk => ?_⟩
    rcases indexStep?_enveloped hk with hu' | ⟨_, xpathNode', hx', hc'⟩
    · rw [hu] at hu'
      exact absurd hu' (by decide)
    · obtain rfl := Option.some.inj (hx.symm.trans hx')
      exact hne (Except.ok.inj (hc.symm.trans hc'))
  cases filter with
  | enveloped =>
      rw [applyXPathFilter, EnvelopedSignatureTransform.execute_xml hdoc, Except.ok.injEq] at h
      exact ⟨_, h.symm, .removed⟩
  | parsed expr =>
      rw [applyXPathFilter, applyParsedXPathFilter_ok] at h
      obtain ⟨_, _, doc', hx', hdoc', rfl⟩ := h
      obtain ⟨rfl, rfl⟩ := Prod.mk.inj (Option.some.inj hx')
      obtain rfl := Except.ok.inj (hdoc.symm.trans hdoc')
      exact ⟨_, rfl, .selected (hk (by simp)) (fun id _ hid =>
        isVisible_of_filterNodes (parsedXPathNodeSet_nodes doc input expr)
          (parsedXPathNodeSet_setType doc input expr) hid)⟩
  | compound c =>
      rw [applyXPathFilter, applyCompoundFilter_ok] at h
      obtain ⟨_, _, doc', idMap, hx', hdoc', _, rfl⟩ := h
      obtain ⟨rfl, rfl⟩ := Prod.mk.inj (Option.some.inj hx')
      obtain rfl := Except.ok.inj (hdoc.symm.trans hdoc')
      exact ⟨_, rfl, .selected (hk (by simp)) (fun id _ hid =>
        isVisible_of_filterNodes (show (NodeSet.fromIds _ .normal).nodes = _ from rfl) rfl hid)⟩

theorem indexStep?_of_ne {up : Uppsala} (h : transformUri up t ≠ Algorithm.ENVELOPED_SIGNATURE)
    (h' : transformUri up t ≠ Algorithm.XPATH) : indexStep? up t = none := by
  rw [indexStep?, if_neg h, if_neg h']

theorem octets_not_xml {result : TransformData} (h : ∃ bytes, result = .binary bytes) :
    result.isXml ≠ true := by
  obtain ⟨bytes, rfl⟩ := h
  simp [TransformData.isXml]

/-- **One step on the chain's own data.** -/
theorem transformStep_own (hdoc : lib.parse xml = .ok doc) {input : Option NodeSet}
    (hn : NormalInput input) {result : TransformData} (hxml : result.isXml = true)
    (h : transformStep lib sigNode (.xml xml input) t = .ok result) :
    ∃ out, result = .xml xml out ∧ OwnStep lib.toUppsala doc sigNode t input out := by
  rw [transformStep] at h
  generalize hu : transformUri lib.toUppsala t = uri at h
  unfold applyTransform at h
  split at h
  · -- enveloped-signature
    rw [EnvelopedSignatureTransform.execute_xml hdoc, Except.ok.injEq] at h
    exact ⟨_, h.symm, .removed⟩
  · split at h
    · exact absurd hxml (octets_not_xml (C14nTransform.execute_octets h))
    · split at h
      · exact absurd hxml (octets_not_xml (Base64DecodeTransform.execute_octets h))
      · split at h
        · rename_i hx
          exact xpathStep_own hdoc (hu.trans hx) h
        · rename_i henv _ hxp
          split at h
          · -- XPointer
            rename_i hp
            rw [applyXPointerTransform_xml hdoc] at h
            obtain ⟨id, target, _, _, rfl⟩ := h
            refine ⟨_, rfl, .selected ⟨by simp [hu, hp], ?_⟩ ?_⟩
            · rw [indexStep?_of_ne (by rwa [hu]) (by rwa [hu])]
              simp
            · exact (showsAtMost_xpointer_iff.mpr (avoidsInverted_of_normal hn _)).nodes
          · split at h
            · -- Filter 2.0
              rename_i hp
              rw [applyXPathFilter2Transform_xml hdoc] at h
              obtain ⟨filterNs, _, rfl⟩ := h
              refine ⟨_, rfl, .selected ⟨by simp [hu, hp], ?_⟩ ?_⟩
              · rw [indexStep?_of_ne (by rwa [hu]) (by rwa [hu])]
                simp
              · exact (showsAtMost_meet_iff.mpr (avoidsInverted_of_normal hn _)).nodes
            · split at h
              · exact absurd hxml (octets_not_xml (applyRelationshipTransform_octets h))
              · split at h
                · rcases applyXsltTransform_ok h with rfl | ho
                  · exact ⟨_, rfl, .same⟩
                  · exact absurd hxml (octets_not_xml ho)
                · simp at h

/-- No step shows what it was not given. -/
theorem OwnStep.shown {up : Uppsala} {input out : Option NodeSet}
    (h : OwnStep up doc sigNode t input out) (hn : NormalInput input) {id : NodeId}
    (hid : id ∈ doc.ids) (hv : isVisible out id = true) : isVisible input id = true := by
  cases h with
  | same => exact hv
  | removed =>
      exact (showsAtMost_enveloped_iff.mpr (avoidsInverted_of_normal hn _)).nodes id hid hv
  | selected _ hout => exact hout id hid hv

/-- What is below a node that is below the index is so too. -/
theorem idsBelow_of_path {n : Node} (hn : n ∈ doc.descendants) {a : NodeId × Element}
    (ha : a ∈ n.path) (h : a.1 ∈ doc.idsBelow sigNode) : n.key ∈ doc.idsBelow sigNode := by
  obtain ⟨m, hm, hkey, _, hbelow⟩ := Document.exists_ancestor hn ha
  unfold Document.idsBelow at h ⊢
  by_cases hroot : sigNode = doc.root
  · rw [if_pos hroot]
    exact List.mem_cons_of_mem _ (Document.mem_descendants_key hn)
  · rw [if_neg hroot] at h ⊢
    cases hnode : doc.node? sigNode with
    | none =>
        simp only [hnode, List.mem_singleton] at h
        rw [← h, ← hkey, Document.node?_key hm] at hnode
        simp at hnode
    | some k =>
        simp only [hnode] at h ⊢
        have hk := (Document.mem_of_node? hnode).1
        rw [Forest.mem_subtreeKeys_iff doc.nodup_top hk hn]
        right
        rw [← hkey, Forest.mem_subtreeKeys_iff doc.nodup_top hk hm] at h
        rcases h with h | h
        · rw [← h]
          exact Forest.mem_path_of_descendant hbelow
        · obtain ⟨p, hp, hpk⟩ := List.mem_map.mp h
          have hsuffix : m.kidsPath <:+ n.path := Forest.suffix_path hbelow
          obtain ⟨e, kids, hi⟩ := Forest.Cursor.item_of_descendant hbelow
          have hmem : p ∈ m.kidsPath := by
            unfold Forest.Cursor.kidsPath
            rw [hi]
            exact List.mem_cons_of_mem _ hp
          exact List.mem_map.mpr ⟨p, hsuffix.subset hmem, hpk⟩

/-- **Only a selection parts an element from an ancestor.** -/
theorem OwnStep.isSelection {up : Uppsala} {input out : Option NodeSet}
    (h : OwnStep up doc sigNode t input out) (hn : NormalInput input) {n : Node}
    (hmem : n ∈ doc.descendants) (hshown : isVisible out n.key = true) {a : NodeId × Element}
    (ha : a ∈ n.path) (hbefore : isVisible input a.1 = true)
    (hafter : isVisible out a.1 = false) : IsSelection up t := by
  have hnid : n.key ∈ doc.ids := List.mem_cons_of_mem _ (Document.mem_descendants_key hmem)
  have haid : a.1 ∈ doc.ids := by
    obtain ⟨m, hm, hk, _, _⟩ := Document.exists_ancestor hmem ha
    exact hk ▸ List.mem_cons_of_mem _ (Document.mem_descendants_key hm)
  have hnbefore := h.shown hn hnid hshown
  cases h with
  | same =>
      rw [hbefore] at hafter
      simp at hafter
  | removed =>
      -- the removed subtree would hold the element too
      have hbelow := (containsId_enveloped hn haid hbefore).mp hafter
      have hgone := (containsId_enveloped hn hnid hnbefore).mpr (idsBelow_of_path hmem ha hbelow)
      rw [isVisible_some, hgone] at hshown
      simp at hshown
  | selected ht _ => exact ht

/-! ## Runs -/

/-- The chain's own data before a step that keeps them. -/
theorem chainStep_own (hdoc : lib.parse xml = .ok doc) {s s' : ChainState}
    (hinv : ChainInv xml s) (h : chainStep lib sigNode s t = .ok s') (ho : s'.own = true) :
    s.own = true ∧ ∃ input out, s.data = .xml xml input ∧ s'.data = .xml xml out
      ∧ NormalInput input ∧ OwnStep lib.toUppsala doc sigNode t input out := by
  obtain ⟨data, hd, rfl⟩ := chainStep_ok.mp h
  obtain ⟨hown, hxml⟩ := Bool.and_eq_true_iff.mp ho
  obtain ⟨input, hs⟩ := hinv.text hown
  have hn : NormalInput input := hinv.normal xml input (by rw [hs]; rfl)
  rw [hs] at hd
  obtain ⟨out, hout, hstep⟩ := transformStep_own hdoc hn hxml hd
  exact ⟨hown, input, out, hs, hout, hn, hstep⟩

/-- Along a run on the chain's own data nothing appears. -/
theorem shows_of_run (hdoc : lib.parse xml = .ok doc) {ts : List Node} {s s' : ChainState}
    (hinv : ChainInv xml s) (h : ts.foldlM (chainStep lib sigNode) s = .ok s')
    (ho : s'.own = true) {id : NodeId} (hid : id ∈ doc.ids) (hshown : s'.shows id = true) :
    s.own = true ∧ s.shows id = true := by
  induction ts generalizing s with
  | nil =>
      cases h
      exact ⟨ho, hshown⟩
  | cons t ts ih =>
      obtain ⟨s₁, h₁, h₂⟩ := Fold.cons_ok.mp h
      obtain ⟨ho₁, hv₁⟩ := ih (chainInv_step hinv h₁) h₂
      obtain ⟨hown, input, out, hs, hs₁, hn, hstep⟩ := chainStep_own hdoc hinv h₁ ho₁
      unfold ChainState.shows at hv₁ ⊢
      rw [hs₁] at hv₁
      rw [hs]
      exact ⟨hown, hstep.shown hn hid hv₁⟩

end

/-! ## Where a chain starts -/

/-- A URI of the document itself: empty, or a fragment. -/
def IsSameDocument (uri : String) : Prop := uri = "" ∨ (parseSameDocumentRef uri).isSome = true

/-- A set of everything below the target. -/
structure TargetSet (doc : Document) (target : Node) (s : NodeSet) : Prop where
  mem : target ∈ doc.descendants
  below : ∀ id, s.containsId id = true → id ∈ target.subtreeKeys
  self : target.element?.isSome = true → s.containsId target.key = true

theorem targetSet_collectSubtree {doc : Document} {target : Node} (h : target ∈ doc.descendants)
    (includeComments : Bool) :
    TargetSet doc target
      (NodeSet.fromIds (NodeSet.collectSubtree includeComments target).toFinset .normal) := by
  refine ⟨h, fun id hid => ?_, fun he => ?_⟩
  · rw [NodeSet.containsId_fromIds_normal, decide_eq_true_iff, List.mem_toFinset] at hid
    unfold NodeSet.collectSubtree at hid
    unfold Forest.Cursor.subtreeKeys Forest.Cursor.kids
    cases hi : target.item with
    | leaf k =>
        rw [hi] at hid
        dsimp only at hid
        split at hid
        · exact hid
        · simp at hid
    | node e kids =>
        rw [hi] at hid
        rcases List.mem_cons.mp hid with hid | hid
        · exact hid ▸ List.mem_cons_self
        · exact List.mem_cons_of_mem _ (Forest.keysWhere_subset _ kids hid)
  · rw [NodeSet.containsId_fromIds_normal, decide_eq_true_iff, List.mem_toFinset]
    unfold NodeSet.collectSubtree
    cases hi : target.item with
    | leaf k => simp [Node.element?, hi] at he
    | node e kids => exact List.mem_cons_self

/-- **What a same-document URI resolves to**: every element, or a target with what is below it. -/
theorem dereference_sameDocument {lib : DsigLibs} {res : Resources} {doc : Document}
    {attrNames : List String} {idMap : IdMap} {xml uri : String} {unsupported : Error}
    {resolved : ResolvedUri} (hids : buildIdMap lib.toUppsala doc attrNames = .ok idMap)
    (huri : IsSameDocument uri)
    (h : dereference lib res doc idMap xml uri unsupported = .ok resolved) :
    (∃ input, resolved = .xml xml input none
      ∧ ∀ n ∈ doc.descendants, n.element?.isSome = true → isVisible input n.key = true)
    ∨ ∃ target s, resolved = .xml xml (some s) (some target) ∧ TargetSet doc target s := by
  -- what the id table leads to is in the document
  have hmem : ∀ id n, resolveId idMap id = .ok n → n ∈ doc.descendants := by
    intro id n hr
    unfold resolveId at hr
    cases hg : idMap.get? id with
    | none => simp [hg] at hr
    | some m =>
        simp only [hg, Except.ok.injEq] at hr
        have hentry := IdMap.mem_of_get? hg
        rw [buildIdMap_ok hids] at hentry
        exact hr ▸ mem_idEntries hentry
  unfold dereference at h
  split at h
  · cases h
    refine Or.inl ⟨_, rfl, fun n hn he => ?_⟩
    rw [isVisible_some, NodeSet.allWithoutComments, NodeSet.containsId_fromIds_normal,
      decide_eq_true_iff]
    cases hi : n.item with
    | leaf k => simp [Node.element?, hi] at he
    | node e kids =>
        have := Forest.mem_keysWhere_of_node (fun k => !k.isComment) hn hi
        simp [this]
  · rename_i hempty
    cases hf : parseSameDocumentRef uri with
    | none =>
        rcases huri with rfl | huri
        · exact absurd (by decide) hempty
        · simp [hf] at huri
    | some fragment =>
        simp only [hf] at h
        split at h
        · cases h
          exact Or.inl ⟨none, rfl, fun _ _ _ => rfl⟩
        · split at h
          all_goals
            rw [bind_eq_ok] at h
            obtain ⟨target, ht, hr⟩ := h
            cases hr
            exact Or.inr ⟨target, _, rfl, targetSet_collectSubtree (hmem _ _ ht) _⟩

/-! ## What is on top -/

section

variable {lib : DsigLibs} {attrNames : List String}

/-- **What is on top of the digested data**: an element at the top of the document, where the URI
has no target; the target; or an element that a selection parted from its ancestors. -/
theorem topmost_cases (r : Run lib) (hids : buildIdMap lib.toUppsala r.doc attrNames = .ok r.idMap)
    (huri : IsSameDocument (referenceUri lib.toUppsala r.reference)) {s : ChainState}
    (hs : r.Digests s) {n : Node} (hn : Topmost r.doc s n) :
    (r.resolved.node = none ∧ n.path = []) ∨ r.resolved.node = some n ∨ r.SelectsOut n := by
  obtain ⟨before, after, hts, hrun, ho, _⟩ := hs
  have hinv := chainInv_start r.resolves
  have hnid : n.key ∈ r.doc.ids := List.mem_cons_of_mem _ (Document.mem_descendants_key hn.mem)
  have hstart := (shows_of_run r.parsed hinv hrun ho hnid hn.shown).2
  -- an ancestor in the data at the start is lost on the way
  have hlost : ∀ a ∈ n.path, (ChainState.start r.resolved).shows a.1 = true → r.SelectsOut n := by
    intro a ha hshown
    obtain ⟨b, t, c, s₁, s₂, hl, hb, hstep, hc, h₁, h₂⟩ :=
      Fold.changes (P := fun s => s.shows a.1 = true) hrun hshown (by simp [hn.top a ha])
    have hinv₁ : ChainInv r.xml s₁ := Fold.invariant (fun s t s' hP hs => chainInv_step hP hs) hinv hb
    obtain ⟨ho₂, hn₂⟩ := shows_of_run r.parsed (chainInv_step hinv₁ hstep) hc ho hnid hn.shown
    obtain ⟨_, input, out, hd₁, hd₂, hnormal, hown⟩ := chainStep_own r.parsed hinv₁ hstep ho₂
    have hn₁ : s₁.shows n.key = true := by
      unfold ChainState.shows at hn₂ ⊢
      rw [hd₂] at hn₂
      rw [hd₁]
      exact hown.shown hnormal hnid hn₂
    have hsel : IsSelection lib.toUppsala t := by
      unfold ChainState.shows at hn₂ h₁ h₂
      rw [hd₂] at hn₂ h₂
      rw [hd₁] at h₁
      exact hown.isSelection hnormal hn.mem hn₂ ha h₁ (by simpa using h₂)
    refine ⟨s₁, t, s₂, ⟨b, c ++ after, ?_, hb, hstep⟩, hsel, hn₁, hn₂, a, ha, h₁, by simpa using h₂⟩
    rw [hts, hl, List.append_assoc, List.cons_append]
  rcases dereference_sameDocument hids huri r.resolves with ⟨input, hr, hall⟩ | ⟨target, set, hr, ht⟩
  · cases hpath : n.path with
    | nil => exact Or.inl ⟨by rw [hr]; rfl, rfl⟩
    | cons a path =>
        have ha : a ∈ n.path := by simp [hpath]
        obtain ⟨m, hm, hk, he, _⟩ := Document.exists_ancestor hn.mem ha
        refine Or.inr (Or.inr (hlost a ha ?_))
        rw [hr, ← hk]
        exact hall m hm he
  · have hbelow : n.key ∈ target.subtreeKeys := by
      rw [hr] at hstart
      exact ht.below n.key hstart
    rcases (Forest.mem_subtreeKeys_iff r.doc.nodup_top ht.mem hn.mem).mp hbelow with hk | hk
    · have := Forest.cursor_eq_of_key r.doc.nodup_top hn.mem ht.mem hk
      exact Or.inr (Or.inl (by rw [hr, this]; rfl))
    · obtain ⟨a, ha, hak⟩ := List.mem_map.mp hk
      obtain ⟨m, hm, hmk, he, _⟩ := Document.exists_ancestor hn.mem ha
      have hmt : m = target :=
        Forest.cursor_eq_of_key r.doc.nodup_top hm ht.mem (hmk.trans hak)
      refine Or.inr (Or.inr (hlost a ha ?_))
      rw [hr, hak]
      exact ht.self (hmt ▸ he)

/-- All that is digested is in the target, where the URI has one. -/
theorem shows_below_target (r : Run lib)
    (hids : buildIdMap lib.toUppsala r.doc attrNames = .ok r.idMap)
    (huri : IsSameDocument (referenceUri lib.toUppsala r.reference)) {s : ChainState}
    (hs : r.Digests s) {target : Node} (ht : r.resolved.node = some target) {id : NodeId}
    (hid : id ∈ r.doc.ids) (hshown : s.shows id = true) : id ∈ target.subtreeKeys := by
  obtain ⟨before, after, hts, hrun, ho, _⟩ := hs
  have hstart := (shows_of_run r.parsed (chainInv_start r.resolves) hrun ho hid hshown).2
  rcases dereference_sameDocument hids huri r.resolves with ⟨input, hr, _⟩ | ⟨target', set, hr, hset⟩
  · rw [hr] at ht
    simp [ResolvedUri.node] at ht
  · rw [hr] at ht hstart
    obtain rfl := Option.some.inj ht
    exact hset.below id hstart

end

/-! ## Accepting runs in strict mode -/

/-- An accepting run of `verify` in strict mode, and one of its References with a same-document
URI. -/
structure StrictRun (lib : VerifyLibs) extends Run lib.toDsigLibs where
  ctx : DsigContext
  strict : ctx.strictVerification = true
  result : ValidSignature
  valid : verify lib ctx xml = .ok (.valid result)
  ids : buildIdMap lib.toUppsala doc ctx.allIdAttrs = .ok idMap
  resources : res = ctx.resources
  inVerify : unsupported
    = .invalidUri ("external URI not supported: " ++ referenceUri lib.toUppsala reference)
  sameDocument : IsSameDocument (referenceUri lib.toUppsala reference)

section

variable {lib : VerifyLibs}

theorem not_cid_of_sameDocument {uri : String} (h : IsSameDocument uri) :
    startsWithStr "cid:" uri = false := by
  rcases h with rfl | h
  · decide
  · unfold parseSameDocumentRef at h
    unfold startsWithStr Text.startsWith
    cases huri : uri.toList with
    | nil => rfl
    | cons c rest =>
        have hc : c = '#' := by
          rw [huri] at h
          by_contra hne
          simp [Text.stripPrefix?, Ne.symm hne] at h
        subst hc
        rfl

/-- What the run found out about the Reference. -/
theorem StrictRun.verified (r : StrictRun lib) :
    ∃ vrefs vref, vref ∈ vrefs ∧ checkPositions r.ctx r.doc r.sig vrefs = .ok ()
      ∧ vref.resolvedNode = r.resolved.node
      ∧ ∃ bytes, referenceOctets lib.toTransformLibs r.sig.key r.reference r.resolved.data
          = .ok bytes := by
  obtain ⟨doc, hp, hv⟩ := verify_valid.mp r.valid
  obtain rfl := Except.ok.inj (r.parsed.symm.trans hp)
  obtain ⟨idMap, parts, vrefs, _, _, hid, hparts, hrefs, hpos, _⟩ := verifyDocument_ok.mp hv
  obtain rfl := Except.ok.inj (r.ids.symm.trans hid)
  obtain ⟨hsig, hsi⟩ := readSignature_ok hparts
  have hsame := Option.some.inj (r.isReference.signature.symm.trans hsig)
  rw [← hsame] at hsi hrefs hpos
  obtain ⟨signedInfo, hsi', hmem⟩ := r.isReference.ofSignedInfo
  rw [Option.some.inj (hsi'.symm.trans hsi)] at hmem
  obtain ⟨vref, hvmem, hvref⟩ := verifyReferences_ok hrefs r.reference hmem
  obtain ⟨_, _, resolved, bytes, _, _, hres, hoct, _, rfl⟩ :=
    verifyReference_ok (not_cid_of_sameDocument r.sameDocument) hvref
  have hderef : dereference lib.toDsigLibs r.res r.doc r.idMap r.xml
      (referenceUri lib.toUppsala r.reference) r.unsupported = .ok resolved := by
    rw [r.resources, r.inVerify]
    exact hres
  have hresolved := Except.ok.inj (r.resolves.symm.trans hderef)
  exact ⟨vrefs, _, hvmem, hpos, by rw [hresolved], bytes, by rw [hresolved]; exact hoct⟩

/-- The target of the URI is where strict mode allows it to be. -/
theorem StrictRun.target_allowed (r : StrictRun lib) {target : Node}
    (ht : r.resolved.node = some target) : AllowedPosition r.doc r.sig target := by
  obtain ⟨vrefs, vref, hmem, hpos, hnode, _⟩ := r.verified
  have hallowed := checkPositions_ok r.strict hpos hmem (hnode.trans ht)
  rcases dereference_sameDocument r.ids r.sameDocument r.resolves with ⟨_, hr, _⟩ | ⟨_, _, hr, hset⟩
  · rw [hr] at ht
    simp [ResolvedUri.node] at ht
  · rw [hr] at ht
    obtain rfl := Option.some.inj ht
    exact (positionAllowed_iff hset.mem).mp hallowed

/-- Something of the document is digested. -/
theorem StrictRun.exists_digests (r : StrictRun lib) : ∃ s, r.Digests s := by
  obtain ⟨_, _, _, _, _, bytes, hoct⟩ := r.verified
  obtain ⟨data, hdata, _⟩ := bind_eq_ok.mp hoct
  have hown : (ChainState.start r.resolved).own = true := by
    rcases dereference_sameDocument r.ids r.sameDocument r.resolves with
      ⟨_, hr, _⟩ | ⟨_, _, hr, _⟩
    · rw [hr]
      rfl
    · rw [hr]
      rfl
  have hrun := foldlM_chainStep_data lib.toTransformLibs r.sig.key (transformNodes r.reference)
    (.start r.resolved)
  cases hend : (transformNodes r.reference).foldlM (chainStep lib.toTransformLibs r.sig.key)
      (.start r.resolved) with
  | error e =>
      rw [hend] at hrun
      have hdata' : (transformNodes r.reference).foldlM
          (transformStep lib.toTransformLibs r.sig.key) (ChainState.start r.resolved).data
          = .ok data := hdata
      rw [hdata'] at hrun
      simp [Except.map] at hrun
  | ok s' =>
      by_cases ho : s'.own = true
      · exact ⟨s', transformNodes r.reference, [], by simp, hend, ho, Or.inl rfl⟩
      · obtain ⟨before, t, after, s₁, s₂, hl, hb, hstep, _, h₁, h₂⟩ :=
          Fold.changes (P := fun s => s.own = true) hend hown ho
        exact ⟨s₁, before, t :: after, hl, hb, h₁, Or.inr ⟨t, after, s₂, rfl, hstep,
          by simpa using h₂⟩⟩

/-- **What strict mode promises.** The target of a Reference has an allowed position and holds all
that is digested. An element that is digested without its ancestors has an allowed position too,
unless a transform selected it out of them. -/
theorem strict_positions (lib : VerifyLibs)
    (hone : ∀ text doc, lib.parse text = .ok doc → doc.HasOneElement) (r : StrictRun lib)
    (s : ChainState) (hs : r.Digests s) :
    (∀ target, r.resolved.node = some target → AllowedPosition r.doc r.sig target
      ∧ ∀ id ∈ r.doc.ids, s.shows id = true → id ∈ target.subtreeKeys)
    ∧ ∀ n, Topmost r.doc s n → AllowedPosition r.doc r.sig n ∨ r.SelectsOut n := by
  constructor
  · intro target ht
    exact ⟨r.target_allowed ht, fun id hid hshown =>
      shows_below_target r.toRun r.ids r.sameDocument hs ht hid hshown⟩
  · intro n hn
    rcases topmost_cases r.toRun r.ids r.sameDocument hs hn with ⟨_, hpath⟩ | ht | hsel
    · exact Or.inl (Or.inl (hone r.xml r.doc r.parsed n hn.mem hn.element hpath))
    · exact Or.inl (r.target_allowed ht)
    · exact Or.inr hsel

end

/-! ## A filter that selects one element -/

namespace SampleStrict

open Sample

def plain (localName : String) : Element := ⟨⟨none, localName, none⟩, [], []⟩

def transformElement : Element := element "Transform" [attr "Algorithm" Algorithm.XPATH]

def transformKids : Nodes := textElement 11 "XPath" "ancestor-or-self::evil" .nil

def referenceKids : Nodes :=
  .node 9 (element "Transforms" []) (.node 10 transformElement transformKids .nil)
    (method 13 "DigestMethod" "http://www.w3.org/2001/04/xmlenc#sha256"
      (textElement 14 "DigestValue" "AA==" .nil))

def referenceElement : Element := element "Reference" [attr "URI" ""]

def signedInfoKids : Nodes :=
  method 6 "CanonicalizationMethod" Algorithm.C14N
    (method 7 "SignatureMethod" Algorithm.HMAC_SHA256
      (.node 8 referenceElement referenceKids .nil))

def signatureKids : Nodes :=
  .node 5 (element "SignedInfo" []) signedInfoKids (textElement 16 "SignatureValue" "AQ==" .nil)

/-- `<root><wrap><evil/></wrap><Signature>…</Signature></root>`, with a Reference to the document
and the XPath filter `ancestor-or-self::evil`. -/
def signed : Document where
  root := 0
  top := .node 1 (plain "root")
    (.node 2 (plain "wrap") (.node 3 (plain "evil") .nil .nil)
      (.node 4 (element "Signature" []) signatureKids .nil)) .nil
  nodup := by
    show (List.range 18).Nodup
    decide

def rootPath : List (NodeId × Element) := [(1, plain "root")]
def evil : Node := ⟨3, (2, plain "wrap") :: rootPath, .node (plain "evil") .nil⟩
def sig : Node := ⟨4, rootPath, .node (element "Signature" []) signatureKids⟩
def sigPath : List (NodeId × Element) := (4, element "Signature" []) :: rootPath
def signedInfo : Node := ⟨5, sigPath, .node (element "SignedInfo" []) signedInfoKids⟩
def referencePath : List (NodeId × Element) := (5, element "SignedInfo" []) :: sigPath
def reference : Node := ⟨8, referencePath, .node referenceElement referenceKids⟩

def transform : Node :=
  ⟨10, (9, element "Transforms" []) :: (8, referenceElement) :: referencePath,
    .node transformElement transformKids⟩

def xpathNode : Node :=
  ⟨11, (10, transformElement) :: transform.path,
    .node (element "XPath" []) (.leaf 12 (.text "ancestor-or-self::evil") .nil)⟩

def lib : VerifyLibs := VerifyLibs.ofParser (fun _ => .ok signed)

def ctx : DsigContext :=
  { DsigContext.ofManager ⟨[.new (.hmac ⟨#[7]⟩) .any], [], [], []⟩ with strictVerification := true }

def result : ValidSignature := ⟨sig, [⟨"", none, true⟩], ⟨"HMAC", none, []⟩⟩

def run : StrictRun lib where
  xml := ""
  doc := signed
  parsed := rfl
  sig := sig
  reference := reference
  isReference := ⟨by decide, signedInfo, by decide, by decide⟩
  res := ctx.resources
  idMap := []
  unsupported := .invalidUri "external URI not supported: "
  resolved := .xml "" (some (NodeSet.allWithoutComments signed)) none
  resolves := by rfl
  ctx := ctx
  strict := rfl
  result := result
  valid := by rfl
  ids := by rfl
  resources := rfl
  inVerify := by rfl
  sameDocument := Or.inl (by rfl)

/-- What the filter leaves. -/
def selected : ChainState :=
  ⟨.xml "" (some (parsedXPathNodeSet signed (some (NodeSet.allWithoutComments signed))
    (.ancestorOrSelf "" "evil"))), true⟩

theorem hasOneElement : ∀ text doc, lib.parse text = .ok doc → doc.HasOneElement := by
  intro text doc h
  obtain rfl : signed = doc := Except.ok.inj h
  unfold Document.HasOneElement
  decide

theorem digests : run.Digests selected := by
  refine ⟨[transform], [], by decide, ?_, rfl, Or.inl rfl⟩
  refine Fold.cons_ok.mpr ⟨selected, ?_, rfl⟩
  rw [chainStep_ok]
  refine ⟨selected.data, ?_, rfl⟩
  have huri : transformUri lib.toUppsala transform = Algorithm.XPATH := by decide
  rw [transformStep, huri, applyTransform_xpath, applyXPathTransform_ok]
  exact ⟨xpathNode, .parsed (.ancestorOrSelf "" "evil"), by decide, by rfl,
    applyParsedXPathFilter_ok.mpr ⟨_, _, _, rfl, rfl, rfl⟩⟩

theorem topmost : Topmost signed selected evil where
  mem := by decide
  element := rfl
  shown := by decide +kernel
  top := by decide +kernel

end SampleStrict

theorem strict_positions_sample :
    (∀ target, SampleStrict.run.resolved.node = some target →
      AllowedPosition SampleStrict.run.doc SampleStrict.run.sig target
        ∧ ∀ id ∈ SampleStrict.run.doc.ids, SampleStrict.selected.shows id = true →
          id ∈ target.subtreeKeys)
    ∧ ∀ n, Topmost SampleStrict.run.doc SampleStrict.selected n →
      AllowedPosition SampleStrict.run.doc SampleStrict.run.sig n
        ∨ SampleStrict.run.SelectsOut n :=
  strict_positions SampleStrict.lib SampleStrict.hasOneElement SampleStrict.run
    SampleStrict.selected SampleStrict.digests

/-- In strict mode every element on top of what is digested has an allowed position. -/
def StrictModeBindsPositions : Prop :=
  ∀ lib : VerifyLibs, (∀ text doc, lib.parse text = .ok doc → doc.HasOneElement) →
    ∀ (r : StrictRun lib) (s : ChainState), r.Digests s →
      ∀ n, Topmost r.doc s n → AllowedPosition r.doc r.sig n

/-- The filter leaves the element `evil` alone, two levels below the Signature's parent. -/
theorem strict_mode_misses_selection : ¬ StrictModeBindsPositions := by
  intro h
  have hallowed : AllowedPosition SampleStrict.signed SampleStrict.sig SampleStrict.evil :=
    h SampleStrict.lib SampleStrict.hasOneElement SampleStrict.run SampleStrict.selected
      SampleStrict.digests SampleStrict.evil SampleStrict.topmost
  have hnot : positionAllowed SampleStrict.signed SampleStrict.sig SampleStrict.evil = false := by
    decide
  have hmem : SampleStrict.evil ∈ SampleStrict.signed.descendants := by decide
  rw [(positionAllowed_iff hmem).mpr hallowed] at hnot
  simp at hnot

end Bergshamra
