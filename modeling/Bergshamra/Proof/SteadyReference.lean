import Bergshamra.Proof.OutOfSight
import Bergshamra.Proof.IdPlaces
import Bergshamra.Proof.Filled

/-!
# References that keep their octets

A Reference of a Signature is digested when its turn comes, in the document as
it is then. After that more elements of the Signature are filled in. The octets
stay the same if what is filled in is out of reach of the Reference: its
transforms begin by leaving the Signature out, or it names an element that has
none of it inside, or it is about something that is not in the document.
-/

namespace Bergshamra

/-- The transforms that read of the document what their node set shows, and nothing else. -/
def IsPlainTransform (uri : String) : Prop :=
  uri = Algorithm.ENVELOPED_SIGNATURE ∨ (C14nMode.fromUri uri).isSome = true
    ∨ uri = Algorithm.BASE64

/-- The id that a URI names. -/
def fragmentId (uri : String) : Option String :=
  (parseSameDocumentRef uri).bind fun fragment =>
    if fragment = "xpointer(/)" then none else some ((parseXPointerId fragment).getD fragment)

/-- The element that a Reference names. -/
def targetOf (up : Uppsala) (idMap : IdMap) (reference : Node) : Option Node :=
  (fragmentId (referenceUri up reference)).bind idMap.get?

/-- What is filled in is out of reach of the Reference. -/
inductive OutOfReach (up : Uppsala) (ks : List NodeId) (idMap : IdMap) (reference : Node) : Prop
  | enveloped {t : Node} {ts : List Node} (hts : transformNodes reference = t :: ts)
      (hurl : transformUri up t = Algorithm.ENVELOPED_SIGNATURE)
  | target {t : Node} (ht : targetOf up idMap reference = some t)
      (hout : ∀ k ∈ ks, k ∉ t.subtreeKeys)
  | external (hne : referenceUri up reference ≠ "")
      (hurl : parseSameDocumentRef (referenceUri up reference) = none)

/-- Filling in the elements `ks` of the Signature does not touch what the Reference is digested
from. -/
structure Steady (up : Uppsala) (ks : List NodeId) (idMap : IdMap) (sig reference : Node) :
    Prop where
  inside : ∀ k ∈ ks, k ∈ sig.kids.keys
  self : reference.key ∉ ks
  /-- What is filled in of the Reference itself is its DigestValue. -/
  parts : ∀ c : Node, c ∈ reference.children → c.isNamed Ns.DSIG "DigestValue" = false →
    ∀ k ∈ ks, k ∉ c.subtreeKeys
  plain : ∀ t ∈ transformNodes reference, IsPlainTransform (transformUri up t)
  target : ∀ t, targetOf up idMap reference = some t → t.key ∉ ks ∧ ∀ p ∈ t.path, p.1 ∉ ks
  reach : OutOfReach up ks idMap reference

/-- The data of a chain on two sides: the same octets, or two texts with node sets that show the
same. Under `hidden` the sets show nothing of what is filled in. -/
inductive DataAlike (ks : List NodeId) (doc doc' : Document) (xml xml' : String) (hidden : Prop) :
    TransformData → TransformData → Prop
  | octets (bytes : ByteArray) : DataAlike ks doc doc' xml xml' hidden (.binary bytes) (.binary bytes)
  | set {s s' : Option NodeSet} (hs : ShowAlike ks doc doc' s s')
      (hout : hidden → OutOfSight ks doc doc' s s') :
      DataAlike ks doc doc' xml xml' hidden (.xml xml s) (.xml xml' s')

/-! ## Through a chain -/

section Chain

variable {lib : TransformLibs} {ks : List NodeId} {doc doc' : Document} {xml xml' : String}
  {sig sig' t t' : Node} {data data' : TransformData}

theorem toBinary_alike (hdoc : lib.parse xml = .ok doc) (hdoc' : lib.parse xml' = .ok doc')
    (hf : Refilled ks doc doc') (hd : DataAlike ks doc doc' xml xml' True data data') :
    data.toBinary lib = data'.toBinary lib := by
  cases hd with
  | octets bytes => rfl
  | set hs hout =>
      rw [TransformData.toBinary, TransformData.toBinary, canonicalize_ok hdoc,
        canonicalize_ok hdoc', hs.canonicalizeDoc_eq hf (hout trivial)]

/-- Two elements of which nothing is filled in carry the same attributes. -/
theorem StandsFor.transformUri_eq (hf : Refilled ks doc doc') (ht : StandsFor ks doc doc' t t')
    (hk : t.key ∉ ks) (up : Uppsala) : transformUri up t = transformUri up t' := by
  rw [transformUri, transformUri, ht.element? hf hk]

theorem StandsFor.prefixes_eq (hf : Refilled ks doc doc')
    (ht : StandsFor ks doc doc' t t') (hparts : ∀ k ∈ ks, k ∉ t.subtreeKeys) (up : Uppsala) :
    readInclusivePrefixes up t = readInclusivePrefixes up t' := by
  have hk : t.key ∉ ks := fun h => hparts _ h List.mem_cons_self
  have hout : ∀ c ∈ t.children, Forest.Cursor.key c ∉ ks := by
    intro c hc h
    exact hparts _ h (List.mem_cons_of_mem _
      (Forest.mem_cursors_key ((Forest.row_sublist _ _).subset hc)))
  have hrow := ht.children hf hk
  rw [readInclusivePrefixes, readInclusivePrefixes]
  refine congrArg (fun o => Option.getD o _) ?_
  generalize t.children = row at hrow hout ⊢
  generalize t'.children = row' at hrow ⊢
  induction hrow with
  | nil => rfl
  | @cons c c' rest rest' hc _ ih =>
      have helem := hc.element? hf (hout c List.mem_cons_self)
      rw [List.findSome?_cons, List.findSome?_cons, helem,
        ih fun d hd => hout d (List.mem_cons_of_mem _ hd)]

/-- One transform. -/
theorem transformStep_alike (hdoc : lib.parse xml = .ok doc) (hdoc' : lib.parse xml' = .ok doc')
    (hf : Refilled ks doc doc') (hsig : StandsFor ks doc doc' sig sig')
    (ht : StandsFor ks doc doc' t t') (hparts : ∀ k ∈ ks, k ∉ t.subtreeKeys)
    (hplain : IsPlainTransform (transformUri lib.toUppsala t))
    (hd : DataAlike ks doc doc' xml xml' True data data') :
    Fold.Outcomes (DataAlike ks doc doc' xml xml' True) (transformStep lib sig.key data t)
      (transformStep lib sig'.key data' t') := by
  have hk : t.key ∉ ks := fun h => hparts _ h List.mem_cons_self
  have huri := ht.transformUri_eq hf hk lib.toUppsala
  have hprefixes := ht.prefixes_eq hf hparts lib.toUppsala
  rw [transformStep, transformStep, ← huri]
  -- enveloped-signature, Canonical XML, Base64
  rcases hplain with he | hm | hb
  · rw [he, applyTransform_enveloped, applyTransform_enveloped]
    cases hd with
    | octets bytes => exact .of_error _
    | set hs hout =>
        rw [EnvelopedSignatureTransform.execute_xml hdoc,
          EnvelopedSignatureTransform.execute_xml hdoc']
        exact .of_ok (.set (hs.enveloped hf hsig) fun h => (hout h).enveloped hs hsig)
  · obtain ⟨mode, hmode⟩ := Option.isSome_iff_exists.mp hm
    have hne : ¬ transformUri lib.toUppsala t = Algorithm.ENVELOPED_SIGNATURE := by
      intro he
      rw [he] at hmode
      cases hmode
    simp only [applyTransform, if_neg hne, hmode, hprefixes]
    cases hd with
    | octets bytes =>
        refine .self fun result h => ?_
        obtain ⟨out, rfl⟩ := C14nTransform.execute_octets h
        exact .octets out
    | set hs hout =>
        rw [C14nTransform.execute_xml hdoc, C14nTransform.execute_xml hdoc',
          hs.canonicalizeDoc_eq hf (hout trivial)]
        exact .of_ok (.octets _)
  · rw [hb, applyTransform_base64, applyTransform_base64]
    have hsame : Base64DecodeTransform.execute lib data
        = Base64DecodeTransform.execute lib data' := by
      cases hd with
      | octets bytes => rfl
      | set hs hout =>
          rw [Base64DecodeTransform.execute, Base64DecodeTransform.execute, base64Input,
            base64Input, extractTextContent_eq hdoc, extractTextContent_eq hdoc',
            hs.visibleTexts_eq hf (hout trivial)]
    rw [hsame]
    refine .self fun result h => ?_
    obtain ⟨out, rfl⟩ := Base64DecodeTransform.execute_octets h
    exact .octets out

/-- The enveloped-signature transform hides what is filled in inside of the Signature. -/
theorem enveloped_hides (hdoc : lib.parse xml = .ok doc) (hdoc' : lib.parse xml' = .ok doc')
    (hf : Refilled ks doc doc') (hsig : StandsFor ks doc doc' sig sig')
    (hinside : ∀ k ∈ ks, k ∈ sig.subtreeKeys) (ht : StandsFor ks doc doc' t t') (hk : t.key ∉ ks)
    (huri : transformUri lib.toUppsala t = Algorithm.ENVELOPED_SIGNATURE)
    (hd : DataAlike ks doc doc' xml xml' False data data') :
    Fold.Outcomes (DataAlike ks doc doc' xml xml' True) (transformStep lib sig.key data t)
      (transformStep lib sig'.key data' t') := by
  rw [transformStep, transformStep, ← ht.transformUri_eq hf hk, huri, applyTransform_enveloped,
    applyTransform_enveloped]
  cases hd with
  | octets bytes => exact .of_error _
  | set hs _ =>
      rw [EnvelopedSignatureTransform.execute_xml hdoc,
        EnvelopedSignatureTransform.execute_xml hdoc']
      exact .of_ok (.set (hs.enveloped hf hsig) fun _ => outOfSight_enveloped hs hf hsig hinside)

end Chain

/-! ## Where a Reference starts -/

/-- The map of the second document knows every element that is not filled in by the ids that the
map of the first one knows it by. -/
def SameTargets (ks : List NodeId) (doc doc' : Document) (idMap idMap' : IdMap) : Prop :=
  ∀ id t t', idMap.get? id = some t → StandsFor ks doc doc' t t' → t.key ∉ ks →
    idMap'.get? id = some t'

section Start

variable {ks : List NodeId} {doc doc' : Document} {idMap idMap' : IdMap} {xml xml' : String}
  {lib : DsigLibs} {res : Resources} {reference : Node} {resolved : ResolvedUri}

theorem readWorkingDir_ok {uri : String} {unsupported unsupported' : Error} {bytes : ByteArray}
    (h : readWorkingDir lib uri unsupported = .ok bytes) :
    readWorkingDir lib uri unsupported' = .ok bytes := by
  rw [readWorkingDir] at h ⊢
  split at h
  · rename_i hp
    rw [if_pos hp]
    exact h
  · cases h

/-- What is read does not depend on the error for what cannot be read. -/
theorem readExternal_ok {uri : String} {unsupported unsupported' : Error} {bytes : ByteArray}
    (h : readExternal lib res uri unsupported = .ok bytes) :
    readExternal lib res uri unsupported' = .ok bytes := by
  rw [readExternal] at h ⊢
  cases hmap : res.urlMaps.find? (fun m => startsWithStr m.1 uri) with
  | some m =>
      rw [hmap] at h
      exact h
  | none =>
      rw [hmap] at h
      simp only at h ⊢
      by_cases hscheme : Text.containsSub "://".toList uri.toList = true
      · rw [if_pos hscheme] at h
        cases h
      · rw [if_neg hscheme] at h ⊢
        cases hbase : res.baseDir with
        | none =>
            rw [hbase] at h
            exact readWorkingDir_ok h
        | some base =>
            rw [hbase] at h
            simp only at h ⊢
            split at h
            · rename_i hp
              rw [if_pos hp]
              exact h
            · rename_i hp
              rw [if_neg hp]
              exact readWorkingDir_ok h

theorem resolveId_get? {id : String} {t : Node} :
    resolveId idMap id = .ok t ↔ idMap.get? id = some t := by
  rw [resolveId]
  cases idMap.get? id <;> simp

/-- The data of a Reference to an element. -/
theorem subtree_alike (hf : Refilled ks doc doc') (hids : SameTargets ks doc doc' idMap idMap')
    (hmem : ∀ id t, idMap.get? id = some t → t ∈ doc.descendants) {id : String} {t : Node}
    (hget : idMap.get? id = some t) (hk : t.key ∉ ks) (hpath : ∀ p ∈ t.path, p.1 ∉ ks)
    (includeComments : Bool) :
    ∃ t', resolveId idMap' id = .ok t'
      ∧ DataAlike ks doc doc' xml xml' (∀ k ∈ ks, k ∉ t.subtreeKeys)
        (.xml xml (some (.fromIds (NodeSet.collectSubtree includeComments t).toFinset .normal)))
        (.xml xml' (some (.fromIds (NodeSet.collectSubtree includeComments t').toFinset .normal))) := by
  obtain ⟨t', ht⟩ := Forest.exists_pair hf (hmem id t hget) hpath
  exact ⟨t', resolveId_get?.mpr (hids id t t' hget ht hk),
    .set (showAlike_subtree hf ht _) fun hout => outOfSight_subtree hf ht hout _⟩

theorem DataAlike.mono {hidden hidden' : Prop} {data data' : TransformData}
    (h : DataAlike ks doc doc' xml xml' hidden data data') (himp : hidden' → hidden) :
    DataAlike ks doc doc' xml xml' hidden' data data' := by
  cases h with
  | octets bytes => exact .octets bytes
  | set hs hout => exact .set hs fun h => hout (himp h)

/-- What the Reference is about has nothing inside that is filled in. -/
def NamesOther (up : Uppsala) (ks : List NodeId) (idMap : IdMap) (reference : Node) : Prop :=
  (∃ t, targetOf up idMap reference = some t ∧ ∀ k ∈ ks, k ∉ t.subtreeKeys)
    ∨ referenceUri up reference ≠ "" ∧ parseSameDocumentRef (referenceUri up reference) = none

/-- **What a URI resolves to on two sides.** -/
theorem dereference_alike (hf : Refilled ks doc doc') (hids : SameTargets ks doc doc' idMap idMap')
    (hmem : ∀ id t, idMap.get? id = some t → t ∈ doc.descendants)
    (htarget : ∀ t, targetOf lib.toUppsala idMap reference = some t →
      t.key ∉ ks ∧ ∀ p ∈ t.path, p.1 ∉ ks) {unsupported unsupported' : Error}
    (h : dereference lib res doc idMap xml (referenceUri lib.toUppsala reference) unsupported
      = .ok resolved) :
    ∃ resolved', dereference lib res doc' idMap' xml' (referenceUri lib.toUppsala reference)
        unsupported' = .ok resolved'
      ∧ DataAlike ks doc doc' xml xml' (NamesOther lib.toUppsala ks idMap reference)
        resolved.data resolved'.data := by
  rw [dereference] at h
  simp only [dereference]
  rw [NamesOther, targetOf, fragmentId]
  rw [targetOf, fragmentId] at htarget
  split at h
  · rename_i hempty
    cases h
    rw [if_pos hempty]
    refine ⟨_, rfl, .set (showAlike_allWithoutComments hf) ?_⟩
    rw [String.isEmpty_iff.mp hempty]
    rintro (⟨t, ht, -⟩ | ⟨hne, -⟩)
    · cases ht
    · exact absurd rfl hne
  · rename_i hempty
    rw [if_neg hempty]
    cases hfrag : parseSameDocumentRef (referenceUri lib.toUppsala reference) with
    | none =>
        rw [hfrag] at h
        obtain ⟨bytes, hread, hresolved⟩ := bind_eq_ok.mp h
        cases hresolved
        simp only [readExternal_ok hread]
        exact ⟨_, rfl, .octets bytes⟩
    | some fragment =>
        rw [hfrag] at h htarget
        simp only [Option.bind_some] at h htarget ⊢
        by_cases hroot : fragment = "xpointer(/)"
        · rw [if_pos hroot] at h ⊢
          cases h
          refine ⟨_, rfl, .set showAlike_none ?_⟩
          rintro (⟨t, ht, -⟩ | ⟨-, hnone⟩)
          · rw [if_pos hroot] at ht
            cases ht
          · cases hnone
        · rw [if_neg hroot] at h htarget ⊢
          rw [if_neg hroot]
          simp only [Option.bind_some] at htarget ⊢
          -- an id, bare or inside of an XPointer, names one element on either side
          have hnames : ∀ {t : Node}, idMap.get? ((parseXPointerId fragment).getD fragment) = some t →
              ((∃ u, idMap.get? ((parseXPointerId fragment).getD fragment) = some u
                ∧ ∀ k ∈ ks, k ∉ u.subtreeKeys)
                ∨ referenceUri lib.toUppsala reference ≠ "" ∧ some fragment = none) →
              ∀ k ∈ ks, k ∉ t.subtreeKeys := by
            rintro t ht (⟨u, hu, hout⟩ | ⟨-, hnone⟩)
            · rw [ht, Option.some.injEq] at hu
              rw [hu]
              exact hout
            · cases hnone
          cases hid : parseXPointerId fragment with
          | some id =>
              rw [hid] at h htarget hnames
              obtain ⟨t, hget, hresolved⟩ := bind_eq_ok.mp h
              rw [resolveId_get?] at hget
              cases hresolved
              obtain ⟨hk, hpath⟩ := htarget t hget
              obtain ⟨t', hget', halike⟩ := @subtree_alike ks doc doc' idMap idMap' xml xml' hf hids
                hmem id t hget hk hpath true
              simp only [hget']
              exact ⟨_, rfl, halike.mono (hnames hget)⟩
          | none =>
              rw [hid] at h htarget hnames
              obtain ⟨t, hget, hresolved⟩ := bind_eq_ok.mp h
              rw [resolveId_get?] at hget
              cases hresolved
              obtain ⟨hk, hpath⟩ := htarget t hget
              obtain ⟨t', hget', halike⟩ := @subtree_alike ks doc doc' idMap idMap' xml xml' hf hids
                hmem fragment t hget hk hpath false
              simp only [hget']
              exact ⟨_, rfl, halike.mono (hnames hget)⟩

end Start

/-! ## The octets of a Reference -/

section Octets

variable {ks : List NodeId} {doc doc' : Document} {idMap idMap' : IdMap} {xml xml' : String}
  {sig sig' r r' : Node}

/-- A child of the Reference that is not its DigestValue is as it was. -/
theorem Steady.spared {up : Uppsala} (hst : Steady up ks idMap sig r) {c : Node}
    {localName : String} (hc : r.findChildElement Ns.DSIG localName = some c)
    (hne : localName ≠ "DigestValue") : ∀ k ∈ ks, k ∉ c.subtreeKeys := by
  obtain ⟨hmem, e, he, hnamed⟩ := Node.findChildElement_some hc
  refine hst.parts c hmem ?_
  rw [Node.isNamed, he, Option.any_some]
  exact Element.not_isNamed hnamed hne

theorem Steady.transforms {up : Uppsala} (hst : Steady up ks idMap sig r)
    (hf : Refilled ks doc doc') (hr : StandsFor ks doc doc' r r') :
    List.Forall₂ (fun t t' => (∀ k ∈ ks, k ∉ Forest.Cursor.subtreeKeys t)
      ∧ StandsFor ks doc doc' t t') (transformNodes r) (transformNodes r') := by
  rw [transformNodes, transformNodes]
  rcases hr.findChildElement hf hst.self Ns.DSIG "Transforms" with ⟨h, h'⟩ | ⟨c, c', h, h', hc⟩
  · rw [h, h']
    exact .nil
  · rw [h, h']
    have hspared := hst.spared h (by decide)
    refine List.rel_filter (fun t t' ht => ?_) ((List.forall₂_and_left _ _).mpr
      ⟨fun t ht k hk hbelow => hspared k hk ?_,
        hc.children hf fun h => hspared _ h List.mem_cons_self⟩)
    · exact iff_of_eq (congrArg (· = true) (ht.2.hasLocalName hf "Transform"))
    · exact List.mem_cons_of_mem _ ((child_subtreeKeys ht).subset hbelow)

/-- **The octets of a Reference whose data are alike on both sides.** -/
theorem Steady.octets_eq {lib : TransformLibs} (hst : Steady lib.toUppsala ks idMap sig r)
    (hdoc : lib.parse xml = .ok doc) (hdoc' : lib.parse xml' = .ok doc')
    (hf : Refilled ks doc doc') (hsig : StandsFor ks doc doc' sig sig')
    (hr : StandsFor ks doc doc' r r') {data data' : TransformData}
    (hd : DataAlike ks doc doc' xml xml' (NamesOther lib.toUppsala ks idMap r) data data') :
    referenceOctets lib sig.key r data = referenceOctets lib sig'.key r' data' := by
  have hts := hst.transforms hf hr
  have hplain := hst.plain
  -- once what is filled in is hidden it stays hidden, to the end of the chain
  have hrun : ∀ {ts ts' : List Node} {d d' : TransformData},
      List.Forall₂ (fun t t' => (∀ k ∈ ks, k ∉ Forest.Cursor.subtreeKeys t)
        ∧ StandsFor ks doc doc' t t') ts ts' →
      (∀ t ∈ ts, IsPlainTransform (transformUri lib.toUppsala t)) →
      DataAlike ks doc doc' xml xml' True d d' →
      Fold.Outcomes (DataAlike ks doc doc' xml xml' True)
        (ts.foldlM (transformStep lib sig.key) d) (ts'.foldlM (transformStep lib sig'.key) d') := by
    intro ts ts' d d' hts hplain hd
    refine Fold.outcomes_foldlM ((List.forall₂_and_left _ _).mpr ⟨hplain, hts⟩) ?_ hd
    intro t t' e e' ht he
    exact transformStep_alike hdoc hdoc' hf hsig ht.2.2 ht.2.1 ht.1 he
  refine Fold.Outcomes.eq (Fold.Outcomes.bind (R := DataAlike ks doc doc' xml xml' True) ?_ ?_)
  · rcases hst.reach with ⟨hcons, huri⟩ | ⟨ht, hout⟩ | ⟨hne, hnone⟩
    · rw [hcons] at hts hplain ⊢
      generalize transformNodes r' = list at hts ⊢
      cases hts with
      | cons hhead htail =>
          rw [List.foldlM_cons, List.foldlM_cons]
          have hin : ∀ k ∈ ks, k ∈ sig.subtreeKeys :=
            fun k hk => List.mem_cons_of_mem _ (hst.inside k hk)
          refine (enveloped_hides hdoc hdoc' hf hsig hin hhead.2
            (fun h => hhead.1 _ h List.mem_cons_self) huri (hd.mono False.elim)).bind ?_
          exact fun e e' he => hrun htail (fun t ht => hplain t (List.mem_cons_of_mem _ ht)) he
    · exact hrun hts hplain (hd.mono fun _ => Or.inl ⟨_, ht, hout⟩)
    · exact hrun hts hplain (hd.mono fun _ => Or.inr ⟨hne, hnone⟩)
  · intro d d' he
    rw [toBinary_alike hdoc hdoc' hf he]
    exact .self fun _ _ => rfl

end Octets

/-! ## Verified once, verified again -/

section Verified

variable {ks : List NodeId} {doc doc' : Document} {idMap idMap' : IdMap} {xml xml' : String}
  {sig sig' r r' n n' : Node} {res : Resources}

theorem StandsFor.elementText_eq (hf : Refilled ks doc doc') (h : StandsFor ks doc doc' n n')
    (hk : n.key ∉ ks) : n.elementText = n'.elementText := by
  have hrow := h.children hf hk
  rw [Node.elementText, Node.elementText]
  generalize n.children = row at hrow ⊢
  generalize n'.children = row' at hrow ⊢
  induction hrow with
  | nil => rfl
  | cons hc _ ih => rw [List.findSome?_cons, List.findSome?_cons, hc.leaf? hf, ih]

theorem Steady.digestMethod {up : Uppsala} (hst : Steady up ks idMap sig r)
    (hf : Refilled ks doc doc') (hr : StandsFor ks doc doc' r r') :
    algorithmOf up r "DigestMethod" = algorithmOf up r' "DigestMethod" := by
  rw [algorithmOf, algorithmOf]
  rcases hr.findChildElement hf hst.self Ns.DSIG "DigestMethod" with ⟨h, h'⟩ | ⟨c, c', h, h', hc⟩
  · rw [h, h']
  · have hspared := hst.spared h (by decide)
    rw [h, h']
    simp only [hc.element? hf fun hk => hspared _ hk List.mem_cons_self]

theorem StandsFor.referenceUri_eq (hf : Refilled ks doc doc') (hr : StandsFor ks doc doc' r r')
    (hk : r.key ∉ ks) (up : Uppsala) : referenceUri up r = referenceUri up r' := by
  rw [referenceUri, referenceUri, hr.element? hf hk]

/-- The digest that a Reference carries, when its DigestValue is not filled in. -/
theorem StandsFor.expectedDigest_eq {lib : DsigLibs} (hf : Refilled ks doc doc')
    (hr : StandsFor ks doc doc' r r') (hk : r.key ∉ ks)
    (hdv : ∀ dv : Node, r.findChildElement Ns.DSIG "DigestValue" = some dv → dv.key ∉ ks) :
    expectedDigest lib r = expectedDigest lib r' := by
  rw [expectedDigest, expectedDigest]
  rcases hr.findChildElement hf hk Ns.DSIG "DigestValue" with ⟨h, h'⟩ | ⟨dv, dv', h, h', hc⟩
  · rw [h, h']
  · rw [h, h']
    simp only [hc.elementText_eq hf (hdv dv h)]

variable {lib : DsigLibs}

/-- **The octets of a steady Reference**, resolved and transformed in either document. -/
theorem Steady.octets (hst : Steady lib.toUppsala ks idMap sig r) (hdoc : lib.parse xml = .ok doc)
    (hdoc' : lib.parse xml' = .ok doc') (hf : Refilled ks doc doc')
    (hids : SameTargets ks doc doc' idMap idMap')
    (hmem : ∀ id t, idMap.get? id = some t → t ∈ doc.descendants)
    (hsig : StandsFor ks doc doc' sig sig') (hr : StandsFor ks doc doc' r r')
    {unsupported : Error} (unsupported' : Error) {resolved : ResolvedUri} {bytes : ByteArray}
    (hres : dereference lib res doc idMap xml (referenceUri lib.toUppsala r) unsupported
      = .ok resolved)
    (hbytes : referenceOctets lib.toTransformLibs sig.key r resolved.data = .ok bytes) :
    ∃ resolved', dereference lib res doc' idMap' xml' (referenceUri lib.toUppsala r') unsupported'
        = .ok resolved'
      ∧ referenceOctets lib.toTransformLibs sig'.key r' resolved'.data = .ok bytes := by
  obtain ⟨resolved', hres', halike⟩ := @dereference_alike _ _ _ _ _ _ xml' _ _ _ _ hf hids hmem
    hst.target _ unsupported' hres
  rw [← hr.referenceUri_eq hf hst.self]
  refine ⟨resolved', hres', ?_⟩
  rw [← hst.octets_eq hdoc hdoc' hf hsig hr halike]
  exact hbytes

/-- A digest that was computed in one document verifies in the other. -/
theorem Steady.verifies (hst : Steady lib.toUppsala ks idMap sig r)
    (hdoc : lib.parse xml = .ok doc) (hdoc' : lib.parse xml' = .ok doc')
    (hf : Refilled ks doc doc') (hids : SameTargets ks doc doc' idMap idMap')
    (hmem : ∀ id t, idMap.get? id = some t → t ∈ doc.descendants)
    (hsig : StandsFor ks doc doc' sig sig') (hr : StandsFor ks doc doc' r r')
    {digestUri : String} {unsupported : Error} {resolved : ResolvedUri}
    {bytes computed : ByteArray} (hmethod : algorithmOf lib.toUppsala r "DigestMethod" = .ok digestUri)
    (hres : dereference lib res doc idMap xml (referenceUri lib.toUppsala r) unsupported
      = .ok resolved)
    (hbytes : referenceOctets lib.toTransformLibs sig.key r resolved.data = .ok bytes)
    (hdigest : lib.digest digestUri bytes = .ok computed)
    (hexpected : expectedDigest lib r' = .ok computed) :
    ∃ vref, verifyReference lib res doc' idMap' xml' sig'.key r' = .ok (none, vref) := by
  obtain ⟨resolved', hres', hbytes'⟩ := hst.octets hdoc hdoc' hf hids hmem hsig hr
    (.invalidUri ("external URI not supported: " ++ referenceUri lib.toUppsala r')) hres hbytes
  rw [hst.digestMethod hf hr] at hmethod
  rw [verifyReference]
  simp only
  split
  · exact ⟨_, rfl⟩
  · have hres'' : resolveReferenceUri lib res doc' idMap' xml' (referenceUri lib.toUppsala r')
        = .ok resolved' := hres'
    refine ⟨⟨referenceUri lib.toUppsala r', resolved'.node, true⟩, ?_⟩
    simp only [hmethod, hexpected, hres'', hbytes', hdigest, bind, Except.bind]
    rw [if_pos trivial]

/-- **A Reference that verifies keeps verifying**, whatever is filled in out of its reach. -/
theorem verifyReference_steady (hself : r.key ∉ ks)
    (hst : startsWithStr "cid:" (referenceUri lib.toUppsala r) = false →
      Steady lib.toUppsala ks idMap sig r)
    (hdv : ∀ dv : Node, r.findChildElement Ns.DSIG "DigestValue" = some dv → dv.key ∉ ks)
    (hdoc : lib.parse xml = .ok doc) (hdoc' : lib.parse xml' = .ok doc')
    (hf : Refilled ks doc doc') (hids : SameTargets ks doc doc' idMap idMap')
    (hmem : ∀ id t, idMap.get? id = some t → t ∈ doc.descendants)
    (hsig : StandsFor ks doc doc' sig sig') (hr : StandsFor ks doc doc' r r')
    {vref : VerifiedReference}
    (h : verifyReference lib res doc idMap xml sig.key r = .ok (none, vref)) :
    ∃ vref', verifyReference lib res doc' idMap' xml' sig'.key r' = .ok (none, vref') := by
  cases hcid : startsWithStr "cid:" (referenceUri lib.toUppsala r) with
  | true =>
      rw [verifyReference, ← hr.referenceUri_eq hf hself, if_pos hcid]
      exact ⟨_, rfl⟩
  | false =>
      obtain ⟨digestUri, expected, resolved, bytes, hmethod, hexpected, hres, hbytes, hdigest, -⟩ :=
        verifyReference_ok hcid h
      rw [hr.expectedDigest_eq hf hself hdv] at hexpected
      exact (hst hcid).verifies hdoc hdoc' hf hids hmem hsig hr hmethod hres hbytes hdigest hexpected

end Verified

end Bergshamra
