import Bergshamra.Proof.Chain

/-!
# Which document a transform removes nodes from

A transform element belongs to the document that is verified or signed, and the
Signature around it is handed to the transforms as an index into that document.
The data may be another document by then: an external resource, or octets that
were parsed again. This file follows a chain and asks of every step that removes
by index whether it removed exactly what it should, and nothing from another
document.
-/

namespace Bergshamra

/-! ## What removal by index should do -/

/-- The steps that remove nodes by an index into the document of the transform. -/
inductive IndexStep where
  /-- The enveloped-signature transform, or an XPath expression taken for it. -/
  | enveloped
  /-- The compound XPath filter: its `here()` part leaves out one element around `xpathNode`. -/
  | here (c : CompoundFilter) (xpathNode : Node)

def indexStep? (up : Uppsala) (t : Node) : Option IndexStep :=
  if transformUri up t = Algorithm.ENVELOPED_SIGNATURE then some .enveloped
  else if transformUri up t = Algorithm.XPATH then
    (xpathChild? t).bind (fun xpathNode =>
      match classifyXPath (xpathExprOf xpathNode) xpathNode with
      | .ok .enveloped => some .enveloped
      | .ok (.compound c) => some (.here c xpathNode)
      | .ok (.parsed _) => none
      | .error _ => none)
  else none

/-- The Signature that contains a transform: the nearest one around it. -/
def signatureAround (t : Node) : Option NodeId :=
  (t.path.find? (fun a => a.2.isNamed Ns.DSIG "Signature")).map Prod.fst

/-- The index that the `id()` part of a compound filter lets in. -/
def compoundId? (up : Uppsala) (doc : Document) (c : CompoundFilter) : Option NodeId :=
  match buildIdMap up doc defaultIdAttrs with
  | .ok idMap => (idMap.get? c.id).map Forest.Cursor.key
  | .error _ => none

/-- Does the `id()` part of a compound filter let a node in? -/
def letIn (doc : Document) (id? : Option NodeId) (n : Node) : Bool :=
  id?.any (fun i => isDescendantOfIndex doc n i)

/-- Is a node of `outer` with this index inside the element `owner`? -/
def Inside (outer : Document) (owner : Option NodeId) (id : NodeId) : Prop :=
  ∃ i, owner = some i ∧ id ∈ outer.idsBelow i

/-- Of the nodes it is given, the step removes by index those inside the Signature that contains
the transform, or inside the element that `here()` is compared with, and those only where the data
are the transform's own document. -/
def RemovesRightly (lib : TransformLibs) (outer : Document) (own : Bool) (t : Node)
    (input : Option NodeSet) (inner : Document) (out : NodeSet) : IndexStep → Prop
  | .enveloped => ∀ id ∈ inner.ids, isVisible input id = true →
      (out.containsId id = false ↔ own = true ∧ Inside outer (signatureAround t) id)
  | .here c xpathNode => ∀ n ∈ inner.descendants, isVisible input n.key = true →
      compoundKeeps c inner none (compoundId? lib.toUppsala inner c) n = true →
      (out.containsId n.key = false ↔
        own = true ∧ Inside outer (findAncestorByNameIdx xpathNode c.b.1 c.b.2) n.key
          ∧ letIn inner (compoundId? lib.toUppsala inner c) n = false)

/-- A step of a chain over the document `outer` keeps to its document: its own data parse to
`outer`, and it removes rightly. -/
def KeepsIdentity (lib : TransformLibs) (outer : Document) (s : ChainState) (t : Node)
    (s' : ChainState) : Prop :=
  ∀ k, indexStep? lib.toUppsala t = some k →
    ∃ xmlText input inner out, s.data.asXml? = some (xmlText, input)
      ∧ lib.parse xmlText = .ok inner ∧ s'.data = .xml xmlText (some out)
      ∧ (s.own = true → inner = outer) ∧ RemovesRightly lib outer s.own t input inner out k

/-- The index meets no node that the step is given of the document `inner`. -/
def Spares (lib : TransformLibs) (sigNode : NodeId) (input : Option NodeSet) (inner : Document) :
    IndexStep → Prop
  | .enveloped => ∀ id ∈ inner.ids, id ∈ inner.idsBelow sigNode → isVisible input id = false
  | .here c xpathNode => ∀ n ∈ inner.descendants, isVisible input n.key = true →
      compoundKeeps c inner none (compoundId? lib.toUppsala inner c) n = true →
      letIn inner (compoundId? lib.toUppsala inner c) n = false →
      ¬ Inside inner (findAncestorByNameIdx xpathNode c.b.1 c.b.2) n.key

/-- Where the data are another document, the step spares it. -/
def SparesOther (lib : TransformLibs) (sigNode : NodeId) (s : ChainState) (t : Node) : Prop :=
  s.own = false → ∀ k, indexStep? lib.toUppsala t = some k →
    ∀ xmlText input inner, s.data.asXml? = some (xmlText, input) →
      lib.parse xmlText = .ok inner → Spares lib sigNode input inner k

/-! ## One step -/

/-- **The Signature that contains a transform** is the one the chain is run for. -/
theorem signatureAround_eq {doc : Document} {sig reference t : Node}
    (h : IsReference doc sig reference) (ht : t ∈ transformNodes reference) :
    signatureAround t = some sig.key := by
  obtain ⟨signedInfo, hsi, href⟩ := h.ofSignedInfo
  obtain ⟨_, esig, hesig, hnsig⟩ := Document.findElement_some h.signature
  obtain ⟨hsimem, esi, hesi, hnsi⟩ := Node.findChildElement_some hsi
  obtain ⟨hrefmem, eref, heref, hnref⟩ := Node.mem_findChildElements href
  unfold transformNodes at ht
  cases hts : reference.findChildElement Ns.DSIG "Transforms" with
  | none => simp [hts] at ht
  | some transforms =>
      rw [hts] at ht
      obtain ⟨htmem, _⟩ := List.mem_filter.mp ht
      obtain ⟨htsmem, ets, hets, hnts⟩ := Node.findChildElement_some hts
      -- from the inside out: Transforms, Reference, SignedInfo, Signature
      have hpath : t.path = (transforms.key, ets) :: (reference.key, eref) :: (signedInfo.key, esi)
          :: (sig.key, esig) :: sig.path := by
        rw [Node.path_of_child htmem hets, Node.path_of_child htsmem heref,
          Node.path_of_child hrefmem hesi, Node.path_of_child hsimem hesig]
      have hts' : ets.isNamed Ns.DSIG "Signature" = false := Element.not_isNamed hnts (by decide)
      have href' : eref.isNamed Ns.DSIG "Signature" = false := Element.not_isNamed hnref (by decide)
      have hsi' : esi.isNamed Ns.DSIG "Signature" = false := Element.not_isNamed hnsi (by decide)
      simp [signatureAround, hpath, hts', href', hsi', hnsig]

theorem containsId_all {doc : Document} {id : NodeId} (h : id ∈ doc.ids) :
    (NodeSet.all doc).containsId id = true := by
  rw [NodeSet.all, NodeSet.containsId_fromIds_normal]
  simpa [Document.ids] using h

/-- What the enveloped-signature transform removes of a set that lists what it holds. -/
theorem containsId_enveloped {doc : Document} {input : Option NodeSet} (hn : NormalInput input)
    {sigNode id : NodeId} (hid : id ∈ doc.ids) (hv : isVisible input id = true) :
    (envelopedNodeSet sigNode doc input).containsId id = false ↔ id ∈ doc.idsBelow sigNode := by
  have hset : (input.getD (NodeSet.all doc)).setType ≠ .invert := by
    cases input with
    | none =>
        rw [Option.getD_none]
        exact fun h => NodeSetType.noConfusion h
    | some s =>
        rw [Option.getD_some, hn s rfl]
        decide
  have hin : (input.getD (NodeSet.all doc)).containsId id = true := by
    cases input with
    | none => exact containsId_all hid
    | some s => exact hv
  rw [envelopedNodeSet, containsId_removeSubtree hset, hin]
  simp

/-- The two parts of the compound filter's test that do not depend on the index. -/
theorem compoundKeeps_eq (c : CompoundFilter) (doc : Document) (here? id? : Option NodeId)
    (n : Node) :
    compoundKeeps c doc here? id? n
      = ((compoundKeeps c doc none id? n
          && !here?.any (fun i => isDescendantOfIndex doc n i)) || letIn doc id? n) := by
  unfold compoundKeeps letIn
  cases here? with
  | none => cases id? <;> simp
  | some i =>
      cases id? with
      | none => simp
      | some j =>
          simp only [Option.any_some]
          cases isDescendantOfIndex doc n i <;> cases isDescendantOfIndex doc n j <;> simp

/-- What the `here()` part of the compound filter removes. -/
theorem containsId_compound {doc : Document} {input : Option NodeSet} {c : CompoundFilter}
    {here? id? : Option NodeId} {n : Node} (hn : n ∈ doc.descendants)
    (hv : isVisible input n.key = true) (hk : compoundKeeps c doc none id? n = true) :
    (NodeSet.fromIds (filterNodes doc input (compoundKeeps c doc here? id?)) .normal).containsId
        n.key = false
      ↔ Inside doc here? n.key ∧ letIn doc id? n = false := by
  have hmem : n.key ∈ filterNodes doc input (compoundKeeps c doc here? id?)
      ↔ compoundKeeps c doc here? id? n = true := by
    rw [mem_filterNodes]
    constructor
    · rintro ⟨m, hm, hmk, _, hkeep⟩
      have := Forest.cursor_eq_of_key doc.nodup_top hm hn hmk
      exact this ▸ hkeep
    · intro hkeep
      exact ⟨n, hn, rfl, hv, hkeep⟩
  have hinside : Inside doc here? n.key
      ↔ here?.any (fun i => isDescendantOfIndex doc n i) = true := by
    unfold Inside
    cases here? with
    | none => simp
    | some i => simp [isDescendantOfIndex_iff hn]
  rw [NodeSet.containsId_fromIds_normal, decide_eq_false_iff_not, hmem, hinside,
    compoundKeeps_eq c doc here? id? n, hk]
  cases letIn doc id? n <;> simp

theorem indexStep?_enveloped {up : Uppsala} {t : Node}
    (h : indexStep? up t = some .enveloped) :
    transformUri up t = Algorithm.ENVELOPED_SIGNATURE
      ∨ transformUri up t = Algorithm.XPATH ∧ ∃ xpathNode, xpathChild? t = some xpathNode
        ∧ classifyXPath (xpathExprOf xpathNode) xpathNode = .ok .enveloped := by
  unfold indexStep? at h
  split at h
  · rename_i hu
    exact Or.inl hu
  · split at h
    · rename_i hu
      obtain ⟨xpathNode, hx, h⟩ := Option.bind_eq_some_iff.mp h
      refine Or.inr ⟨hu, xpathNode, hx, ?_⟩
      split at h
      · rename_i hc
        exact hc
      · simp at h
      · simp at h
      · simp at h
    · simp at h

theorem indexStep?_here {up : Uppsala} {t : Node} {c : CompoundFilter} {xpathNode : Node}
    (h : indexStep? up t = some (.here c xpathNode)) :
    transformUri up t = Algorithm.XPATH ∧ xpathChild? t = some xpathNode
      ∧ classifyXPath (xpathExprOf xpathNode) xpathNode = .ok (.compound c) := by
  unfold indexStep? at h
  split at h
  · simp at h
  · split at h
    · rename_i hu
      obtain ⟨xpathNode', hx, h⟩ := Option.bind_eq_some_iff.mp h
      split at h
      · simp at h
      · rename_i hc
        simp only [Option.some.injEq, IndexStep.here.injEq] at h
        obtain ⟨rfl, rfl⟩ := h
        exact ⟨hu, hx, hc⟩
      · simp at h
      · simp at h
    · simp at h

/-- A step taken for the enveloped-signature transform is that transform. -/
theorem transformStep_enveloped {lib : TransformLibs} {sigNode : NodeId} {data result : TransformData}
    {t : Node} (hk : indexStep? lib.toUppsala t = some .enveloped)
    (h : transformStep lib sigNode data t = .ok result) :
    EnvelopedSignatureTransform.execute lib sigNode data = .ok result := by
  rw [transformStep] at h
  rcases indexStep?_enveloped hk with hu | ⟨hu, xpathNode, hx, hc⟩
  · rwa [hu, applyTransform_enveloped] at h
  · rw [hu, applyTransform_xpath, applyXPathTransform_ok] at h
    obtain ⟨xpathNode', filter, hx', hc', h⟩ := h
    obtain rfl := Option.some.inj (hx.symm.trans hx')
    obtain rfl := Except.ok.inj (hc.symm.trans hc')
    exact h

theorem transformStep_here {lib : TransformLibs} {sigNode : NodeId} {data result : TransformData}
    {t : Node} {c : CompoundFilter} {xpathNode : Node}
    (hk : indexStep? lib.toUppsala t = some (.here c xpathNode))
    (h : transformStep lib sigNode data t = .ok result) :
    applyCompoundFilter lib data c xpathNode = .ok result := by
  rw [transformStep] at h
  obtain ⟨hu, hx, hc⟩ := indexStep?_here hk
  rw [hu, applyTransform_xpath, applyXPathTransform_ok] at h
  obtain ⟨xpathNode', filter, hx', hc', h⟩ := h
  obtain rfl := Option.some.inj (hx.symm.trans hx')
  obtain rfl := Except.ok.inj (hc.symm.trans hc')
  exact h

theorem compoundId?_eq {up : Uppsala} {doc : Document} {c : CompoundFilter} {idMap : IdMap}
    (h : buildIdMap up doc defaultIdAttrs = .ok idMap) :
    compoundId? up doc c = (idMap.get? c.id).map Forest.Cursor.key := by
  rw [compoundId?, h]

/-- What a step that removes by index returns, and when it removes rightly. -/
theorem indexStep_result {lib : TransformLibs} {sigNode : NodeId} {data result : TransformData}
    {t : Node} {k : IndexStep} (hk : indexStep? lib.toUppsala t = some k)
    (h : transformStep lib sigNode data t = .ok result)
    (hsig : signatureAround t = some sigNode) :
    ∃ xmlText input inner out, data.asXml? = some (xmlText, input)
      ∧ lib.parse xmlText = .ok inner ∧ result = .xml xmlText (some out)
      ∧ ∀ outer own, (own = true → inner = outer) → NormalInput input →
        (RemovesRightly lib outer own t input inner out k
          ↔ (own = false → Spares lib sigNode input inner k)) := by
  cases k with
  | enveloped =>
      have he := transformStep_enveloped hk h
      cases data with
      | binary bytes => simp [EnvelopedSignatureTransform.execute] at he
      | xml xmlText input =>
          cases hp : lib.parse xmlText with
          | error e => simp [EnvelopedSignatureTransform.execute, hp] at he
          | ok inner =>
              rw [EnvelopedSignatureTransform.execute_xml hp, Except.ok.injEq] at he
              refine ⟨xmlText, input, inner, _, rfl, hp, he.symm, ?_⟩
              intro outer own hown hn
              cases own with
              | true =>
                  obtain rfl := hown rfl
                  -- in the document itself the index is that of the Signature
                  refine iff_of_true (fun id hid hv => ?_) (by simp)
                  rw [containsId_enveloped hn hid hv, hsig]
                  simp [Inside]
              | false =>
                  simp only [RemovesRightly, Spares, Bool.false_eq_true, false_and, iff_false,
                    forall_const]
                  constructor
                  · intro hr id hid hb
                    by_contra hv
                    rw [Bool.not_eq_false] at hv
                    exact hr id hid hv ((containsId_enveloped hn hid hv).mpr hb)
                  · intro hs id hid hv hout
                    rw [containsId_enveloped hn hid hv] at hout
                    rw [hs id hid hout] at hv
                    simp at hv
  | here c xpathNode =>
      have hc := transformStep_here hk h
      rw [applyCompoundFilter_ok] at hc
      obtain ⟨xmlText, input, inner, idMap, hx, hp, hid, rfl⟩ := hc
      refine ⟨xmlText, input, inner, _, hx, hp, rfl, ?_⟩
      intro outer own hown _
      rw [← compoundId?_eq hid]
      cases own with
      | true =>
          obtain rfl := hown rfl
          -- in the document itself the here node is the one that is meant
          refine iff_of_true (fun n hn hv hkeep => ?_) (by simp)
          rw [containsId_compound hn hv hkeep]
          simp
      | false =>
          simp only [RemovesRightly, Spares, Bool.false_eq_true, false_and, iff_false,
            forall_const]
          constructor
          · intro hr n hn hv hkeep hlet hin
            exact hr n hn hv hkeep ((containsId_compound hn hv hkeep).mpr ⟨hin, hlet⟩)
          · intro hs n hn hv hkeep hout
            obtain ⟨hin, hlet⟩ := (containsId_compound hn hv hkeep).mp hout
            exact hs n hn hv hkeep hlet hin

/-- **One step.** A step that removes by index keeps to its document exactly when the index
spares what the step is given of any other document. -/
theorem keepsIdentity_iff {lib : TransformLibs} {xml : String} {outer : Document}
    (houter : lib.parse xml = .ok outer) {sigNode : NodeId} {s s' : ChainState} {t : Node}
    (hsig : signatureAround t = some sigNode) (hinv : ChainInv xml s)
    (h : chainStep lib sigNode s t = .ok s') :
    KeepsIdentity lib outer s t s' ↔ SparesOther lib sigNode s t := by
  obtain ⟨result, hr, rfl⟩ := chainStep_ok.mp h
  cases hk : indexStep? lib.toUppsala t with
  | none => exact iff_of_true (fun k hk' => by simp [hk] at hk') (fun _ k hk' => by simp [hk] at hk')
  | some k =>
      obtain ⟨xmlText, input, inner, out, hx, hp, rfl, hiff⟩ :=
        indexStep_result hk hr hsig
      have hown : s.own = true → inner = outer := by
        intro ho
        rw [hinv.asXml ho hx, houter, Except.ok.injEq] at hp
        exact hp.symm
      have hkeep : KeepsIdentity lib outer s t ⟨.xml xmlText (some out), s.own && true⟩
          ↔ RemovesRightly lib outer s.own t input inner out k := by
        constructor
        · intro hkeep
          obtain ⟨xmlText', input', inner', out', hx', hp', hd, _, hr'⟩ := hkeep k hk
          obtain ⟨rfl, rfl⟩ := Prod.mk.inj (Option.some.inj (hx.symm.trans hx'))
          obtain rfl := Except.ok.inj (hp.symm.trans hp')
          simp only [TransformData.xml.injEq, true_and, Option.some.injEq] at hd
          exact hd ▸ hr'
        · intro hr' k' hk'
          obtain rfl := Option.some.inj (hk.symm.trans hk')
          exact ⟨_, _, _, _, hx, hp, rfl, hown, hr'⟩
      have hspare : SparesOther lib sigNode s t
          ↔ (s.own = false → Spares lib sigNode input inner k) := by
        constructor
        · intro hspare ho
          exact hspare ho k hk _ _ _ hx hp
        · intro hspare ho k' hk' xmlText' input' inner' hx' hp'
          obtain rfl := Option.some.inj (hk.symm.trans hk')
          obtain ⟨rfl, rfl⟩ := Prod.mk.inj (Option.some.inj (hx.symm.trans hx'))
          obtain rfl := Except.ok.inj (hp.symm.trans hp')
          exact hspare ho
      rw [show (TransformData.xml xmlText (some out)).isXml = true from rfl, hkeep, hspare]
      exact hiff outer s.own hown (hinv.normal _ _ hx)

/-! ## Whole chains -/

/-- **When a chain keeps to its document.** Every step that removes by index removes rightly
exactly when every such step on another document spares what it is given. -/
theorem chain_keeps_identity_iff (lib : DsigLibs) (r : Run lib) :
    (∀ s t s', r.Executes s t s' → KeepsIdentity lib.toTransformLibs r.doc s t s')
      ↔ ∀ s t s', r.Executes s t s' → SparesOther lib.toTransformLibs r.sig.key s t := by
  have hstep : ∀ s t s', r.Executes s t s' →
      (KeepsIdentity lib.toTransformLibs r.doc s t s'
        ↔ SparesOther lib.toTransformLibs r.sig.key s t) := by
    intro s t s' h
    have hinv := chainInv_executes (chainInv_start r.resolves) h
    obtain ⟨before, after, hts, _, hs⟩ := h
    have hmem : t ∈ transformNodes r.reference := by
      rw [hts]
      exact List.mem_append_right _ List.mem_cons_self
    exact keepsIdentity_iff r.parsed (signatureAround_eq r.isReference hmem) hinv hs
  constructor
  · intro h s t s' he
    exact (hstep s t s' he).mp (h s t s' he)
  · intro h s t s' he
    exact (hstep s t s' he).mpr (h s t s' he)

/-! ## A Signature that signs nothing -/

namespace SampleRun

def element (localName : String) (attributes : List Attribute) : Element :=
  ⟨⟨none, localName, some Ns.DSIG⟩, attributes, []⟩

def algorithm (uri : String) : List Attribute := [⟨⟨none, "Algorithm", none⟩, uri⟩]

/-- `<Transform Algorithm="…xpath…"><XPath>1</XPath></Transform>` -/
def xpathKids : Nodes := .node 6 (element "XPath" []) (.leaf 7 (.text "1") .nil) .nil

def transforms : Nodes :=
  .node 5 (element "Transform" (algorithm Algorithm.XPATH)) xpathKids
    (.node 8 (element "Transform" (algorithm Algorithm.ENVELOPED_SIGNATURE)) .nil .nil)

def referenceElement : Element := element "Reference" [⟨⟨none, "URI", none⟩, "data.xml"⟩]

def referenceKids : Nodes := .node 4 (element "Transforms" []) transforms .nil

/-- A Signature over the external resource `data.xml`: an XPath filter that keeps everything, then
the enveloped-signature transform. -/
def signed : Document where
  root := 0
  top := .node 1 (element "Signature" [])
    (.node 2 (element "SignedInfo" []) (.node 3 referenceElement referenceKids .nil) .nil) .nil
  nodup := by
    show [0, 1, 2, 3, 4, 5, 6, 7, 8].Nodup
    decide

def sigPath : List (NodeId × Element) := [(2, element "SignedInfo" []), (1, element "Signature" [])]

def sig : Node :=
  ⟨1, [], .node (element "Signature" [])
    (.node 2 (element "SignedInfo" []) (.node 3 referenceElement referenceKids .nil) .nil)⟩

def reference : Node := ⟨3, sigPath, .node referenceElement referenceKids⟩

/-- `<data/>`, the resource. -/
def external : Document where
  root := 0
  top := .node 1 ⟨⟨none, "data", none⟩, [], []⟩ .nil .nil
  nodup := by
    show [0, 1].Nodup
    decide

def lib : DsigLibs where
  toTransformLibs :=
    .ofParser (fun text => if text = "<data/>" then .ok external else .ok signed)
  digest _ data := .ok data
  readFile _ := .ok "<data/>".toUTF8
  pathExists _ := true
  joinPath base path := base ++ "/" ++ path

def run : Run lib where
  xml := ""
  doc := signed
  parsed := rfl
  sig := sig
  reference := reference
  isReference :=
    ⟨by decide, ⟨2, [(1, element "Signature" [])], .node (element "SignedInfo" [])
      (.node 3 referenceElement referenceKids .nil)⟩, by decide, by decide⟩
  res := ⟨[], none⟩
  idMap := []
  unsupported := .panics
  resolved := .binary "<data/>".toUTF8
  resolves := by rfl

/-- The chain before the second transform: the resource, parsed, with all its nodes. -/
def state : ChainState :=
  ⟨.xml "<data/>" (some (parsedXPathNodeSet external none .true)), false⟩

def path : List (NodeId × Element) :=
  (4, element "Transforms" []) :: (3, referenceElement) :: sigPath

def first : Node := ⟨5, path, .node (element "Transform" (algorithm Algorithm.XPATH)) xpathKids⟩

def second : Node :=
  ⟨8, path, .node (element "Transform" (algorithm Algorithm.ENVELOPED_SIGNATURE)) .nil⟩

def finished : ChainState :=
  ⟨.xml "<data/>" (some (envelopedNodeSet 1 external
    (some (parsedXPathNodeSet external none .true)))), false⟩

theorem executes : run.Executes state second finished := by
  refine ⟨[first], [], by decide, ?_, ?_⟩
  · have hstep : chainStep lib.toTransformLibs 1 (.start run.resolved) first = .ok state := by
      rw [chainStep_ok]
      refine ⟨state.data, ?_, rfl⟩
      have huri : transformUri lib.toUppsala first = Algorithm.XPATH := by decide
      rw [transformStep, huri, applyTransform_xpath, applyXPathTransform_ok]
      exact ⟨⟨6, (5, element "Transform" (algorithm Algorithm.XPATH)) :: path,
        .node (element "XPath" []) (.leaf 7 (.text "1") .nil)⟩, .parsed .true, by decide, rfl,
        applyParsedXPathFilter_ok.mpr ⟨_, _, _, rfl, rfl, rfl⟩⟩
    rw [List.foldlM_cons]
    exact bind_eq_ok.mpr ⟨state, hstep, rfl⟩
  · rw [chainStep_ok]
    refine ⟨finished.data, ?_, rfl⟩
    have huri : transformUri lib.toUppsala second = Algorithm.ENVELOPED_SIGNATURE := by decide
    rw [transformStep, huri, applyTransform_enveloped]
    exact EnvelopedSignatureTransform.execute_xml rfl _ _

end SampleRun

/-- **The transform loop does not always keep to its document.** The Signature's index names the
document element of the resource, and nothing of it is left to digest. -/
theorem chain_removes_from_other_document :
    ¬ ∀ (lib : DsigLibs) (r : Run lib) (s : ChainState) (t : Node) (s' : ChainState),
      r.Executes s t s' → KeepsIdentity lib.toTransformLibs r.doc s t s' := by
  intro h
  have hkeep := h _ _ _ _ _ SampleRun.executes
  have hspare := (keepsIdentity_iff SampleRun.run.parsed
    (signatureAround_eq SampleRun.run.isReference (by decide))
    (chainInv_executes (chainInv_start SampleRun.run.resolves) SampleRun.executes)
    (by obtain ⟨_, _, _, _, hs⟩ := SampleRun.executes; exact hs)).mp hkeep
  have hdark := hspare rfl .enveloped (by rfl) _ _ SampleRun.external rfl rfl 1 (by decide)
    (by decide)
  exact absurd hdark (by decide +kernel)

end Bergshamra
