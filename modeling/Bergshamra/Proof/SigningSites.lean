import Bergshamra.Proof.SteadyReference
import Bergshamra.Proof.DigestTargets
import Bergshamra.Proof.IdLookup

/-!
# The places that signing fills in

A stage is a text on the way through `sign`, as `verify` would read it: its
document, the ids of the document, the Signature and its SignedInfo. From one
stage to the next elements are filled in at the sites of the Signature: the
DigestValue of a Reference, the SignatureValue, and what is inside of the
KeyInfo. A Reference that is remote from the sites is verified at the next stage
if it was verified at the one before, and nothing else in the SignedInfo changes.
-/

namespace Bergshamra

/-- A text with a Signature, as it is read for verification. -/
structure Stage (lib : DsigLibs) (idAttrs : List String) where
  xml : String
  doc : Document
  idMap : IdMap
  sig : Node
  signedInfo : Node
  parsed : lib.parse xml = .ok doc
  ids : buildIdMap lib.toUppsala doc idAttrs = .ok idMap
  signature : doc.findElement Ns.DSIG "Signature" = some sig
  info : sig.findChildElement Ns.DSIG "SignedInfo" = some signedInfo

/-- Two children of a node have nothing in common. -/
theorem children_apart {n c d : Node} (hn : n.subtreeKeys.Nodup) (hc : c ∈ n.children)
    (hd : d ∈ n.children) (hne : c ≠ d) {k : NodeId} (hk : k ∈ c.subtreeKeys) :
    k ∉ d.subtreeKeys :=
  fun h => hne (Forest.row_eq_of_mem_subtreeKeys (List.nodup_cons.mp hn).2 hc hd hk h)

/-- A node is not below its child. -/
theorem key_not_below {n c : Node} (hn : n.subtreeKeys.Nodup) (hc : c ∈ n.children) :
    n.key ∉ c.subtreeKeys :=
  fun h => (List.nodup_cons.mp hn).1 ((child_subtreeKeys hc).subset h)

/-- The places that signing fills in. -/
inductive IsSite (sig signedInfo s : Node) : Prop
  | digestValue {r : Node} (hr : r ∈ signedInfo.findChildElements Ns.DSIG "Reference")
      (hown : Sign.ownDigestValue r = some s)
  | outlet (hs : s ∈ sig.children)
      (hname : s.isNamed Ns.DSIG "SignatureValue" = true ∨ s.isNamed Ns.DSIG "KeyInfo" = true)

namespace Stage

variable {lib : DsigLibs} {idAttrs : List String} (a : Stage lib idAttrs)

def references : List Node := a.signedInfo.findChildElements Ns.DSIG "Reference"

theorem requireSignature : requireElement a.doc Ns.DSIG "Signature" = .ok a.sig := by
  rw [requireElement, a.signature]

theorem requireInfo : requireChild a.sig Ns.DSIG "SignedInfo" "SignedInfo" = .ok a.signedInfo := by
  rw [requireChild, a.info]

/-- The elements `ks` are at the sites, or inside of them. -/
def OnSites (ks : List NodeId) : Prop :=
  ∀ k ∈ ks, ∃ s, IsSite a.sig a.signedInfo s ∧ k ∈ s.subtreeKeys

/-- `verify_reference` finds nothing wrong. -/
def Verifies (res : Resources) (reference : Node) : Prop :=
  ∃ vref, verifyReference lib res a.doc a.idMap a.xml a.sig.key reference = .ok (none, vref)

/-- Whatever is filled in at the sites, the octets of the Reference are the same. -/
structure Remote (reference : Node) : Prop where
  plain : ∀ t ∈ transformNodes reference, IsPlainTransform (transformUri lib.toUppsala t)
  /-- What the Reference names is there, and is not at a site. -/
  named : fragmentId (referenceUri lib.toUppsala reference) = none
    ∨ ∃ t, targetOf lib.toUppsala a.idMap reference = some t
      ∧ ∀ s, IsSite a.sig a.signedInfo s → t.key ∉ s.subtreeKeys
  /-- The Signature is left out first, or what is named holds no site, or it is not in the
  document. -/
  reach : (∃ t ts, transformNodes reference = t :: ts
        ∧ transformUri lib.toUppsala t = Algorithm.ENVELOPED_SIGNATURE)
    ∨ (∃ t, targetOf lib.toUppsala a.idMap reference = some t
        ∧ ∀ s, IsSite a.sig a.signedInfo s → s.key ∉ t.subtreeKeys)
    ∨ referenceUri lib.toUppsala reference ≠ ""
        ∧ parseSameDocumentRef (referenceUri lib.toUppsala reference) = none

/-! ## Where the sites are -/

theorem sig_mem : a.sig ∈ a.doc.descendants := (Document.findElement_some a.signature).1

theorem info_child : a.signedInfo ∈ a.sig.children := (Node.findChildElement_some a.info).1

theorem sig_nodup : a.sig.subtreeKeys.Nodup :=
  (Forest.subtreeKeys_sublist a.sig_mem).nodup a.doc.nodup_top

theorem info_nodup : a.signedInfo.subtreeKeys.Nodup := child_nodup a.sig_nodup a.info_child

theorem mem_of_child {n c : Node} (hn : n ∈ a.doc.descendants) (hc : c ∈ n.children) :
    c ∈ a.doc.descendants :=
  Forest.mem_cursors_descendants hn ((Forest.row_sublist _ _).subset hc)

theorem info_mem : a.signedInfo ∈ a.doc.descendants := a.mem_of_child a.sig_mem a.info_child

variable {a} {r s c : Node} {k : NodeId} {ks : List NodeId}

theorem reference_child (hr : r ∈ a.references) : r ∈ a.signedInfo.children :=
  (Node.mem_findChildElements hr).1

theorem reference_nodup (hr : r ∈ a.references) : r.subtreeKeys.Nodup :=
  child_nodup a.info_nodup (reference_child hr)

theorem own_child (hown : Sign.ownDigestValue r = some s) : s ∈ r.children :=
  (Node.findChildElement_some hown).1

theorem site_mem (hs : IsSite a.sig a.signedInfo s) : s ∈ a.doc.descendants := by
  cases hs with
  | digestValue hr hown =>
      exact a.mem_of_child (a.mem_of_child a.info_mem (reference_child hr)) (own_child hown)
  | outlet hs => exact a.mem_of_child a.sig_mem hs

/-- A child of the Signature that is a site is not the SignedInfo. -/
theorem outlet_ne (hname : s.isNamed Ns.DSIG "SignatureValue" = true
    ∨ s.isNamed Ns.DSIG "KeyInfo" = true) : s ≠ a.signedInfo := by
  rintro rfl
  obtain ⟨-, e, he, hnamed⟩ := Node.findChildElement_some a.info
  have hother : ∀ localName : String, "SignedInfo" ≠ localName →
      a.signedInfo.isNamed Ns.DSIG localName = false := by
    intro localName hne
    rw [Node.isNamed, he, Option.any_some]
    exact Element.not_isNamed hnamed hne
  rcases hname with h | h
  · rw [hother "SignatureValue" (by decide)] at h
    cases h
  · rw [hother "KeyInfo" (by decide)] at h
    cases h

theorem site_inside (hs : IsSite a.sig a.signedInfo s) : s.subtreeKeys ⊆ a.sig.kids.keys := by
  cases hs with
  | @digestValue r hr hown =>
      intro k hk
      have hbelow := (child_subtreeKeys (own_child hown)).subset hk
      have hin := (child_subtreeKeys (reference_child hr)).subset (List.mem_cons_of_mem _ hbelow)
      exact (child_subtreeKeys a.info_child).subset (List.mem_cons_of_mem _ hin)
  | outlet hs => exact (child_subtreeKeys hs).subset

theorem sig_not_site (hs : IsSite a.sig a.signedInfo s) : a.sig.key ∉ s.subtreeKeys :=
  fun h => (List.nodup_cons.mp a.sig_nodup).1 (site_inside hs h)

theorem info_not_site (hs : IsSite a.sig a.signedInfo s) : a.signedInfo.key ∉ s.subtreeKeys := by
  cases hs with
  | @digestValue r hr hown =>
      intro h
      have hin := (child_subtreeKeys (own_child hown)).subset h
      exact key_not_below a.info_nodup (reference_child hr) (List.mem_cons_of_mem _ hin)
  | outlet hs hname =>
      exact fun h => children_apart a.sig_nodup hs a.info_child (outlet_ne hname) h
        List.mem_cons_self

/-- A child of the SignedInfo meets a site only if it is the Reference of that site. -/
theorem site_meets (hs : IsSite a.sig a.signedInfo s) (hc : c ∈ a.signedInfo.children)
    (hk : k ∈ s.subtreeKeys) (hkc : k ∈ c.subtreeKeys) :
    c ∈ a.references ∧ Sign.ownDigestValue c = some s := by
  cases hs with
  | @digestValue r hr hown =>
      have hkr : k ∈ r.subtreeKeys :=
        List.mem_cons_of_mem _ ((child_subtreeKeys (own_child hown)).subset hk)
      have hsame : r = c := Forest.row_eq_of_mem_subtreeKeys (List.nodup_cons.mp a.info_nodup).2
        (reference_child hr) hc hkr hkc
      rw [← hsame]
      exact ⟨hr, hown⟩
  | outlet hs hname =>
      have hin : k ∈ a.signedInfo.subtreeKeys :=
        List.mem_cons_of_mem _ ((child_subtreeKeys hc).subset hkc)
      exact absurd hin (children_apart a.sig_nodup hs a.info_child (outlet_ne hname) hk)

theorem reference_not_site (hs : IsSite a.sig a.signedInfo s) (hr : r ∈ a.references) :
    r.key ∉ s.subtreeKeys := by
  intro h
  have hown := (site_meets hs (reference_child hr) h List.mem_cons_self).2
  exact key_not_below (reference_nodup hr) (own_child hown) h

/-- Of a Reference only the DigestValue is a site. -/
theorem part_spared (hs : IsSite a.sig a.signedInfo s) (hr : r ∈ a.references)
    (hc : c ∈ r.children) (hne : Sign.ownDigestValue r ≠ some c) (hk : k ∈ s.subtreeKeys) :
    k ∉ c.subtreeKeys := by
  intro hkc
  have hin : k ∈ r.subtreeKeys := List.mem_cons_of_mem _ ((child_subtreeKeys hc).subset hkc)
  have hown := (site_meets hs (reference_child hr) hk hin).2
  refine children_apart (reference_nodup hr) (own_child hown) hc (fun h => ?_) hk hkc
  rw [h] at hown
  exact hne hown

theorem OnSites.sig_not_mem (hon : a.OnSites ks) : a.sig.key ∉ ks := by
  intro h
  obtain ⟨s, hs, hk⟩ := hon _ h
  exact sig_not_site hs hk

theorem OnSites.info_not_mem (hon : a.OnSites ks) : a.signedInfo.key ∉ ks := by
  intro h
  obtain ⟨s, hs, hk⟩ := hon _ h
  exact info_not_site hs hk

theorem OnSites.reference_not_mem (hon : a.OnSites ks) (hr : r ∈ a.references) : r.key ∉ ks := by
  intro h
  obtain ⟨s, hs, hk⟩ := hon _ h
  exact reference_not_site hs hr hk

theorem target_mem {id : String} {t : Node} (h : a.idMap.get? id = some t) :
    t ∈ a.doc.descendants := ((get?_buildIdMap a.ids).mp h).1

/-- What is apart from all sites is not at one of the elements `ks`, nor inside of one. -/
theorem OnSites.outside (hon : a.OnSites ks) {t : Node} (ht : t ∈ a.doc.descendants)
    (hout : ∀ s, IsSite a.sig a.signedInfo s → t.key ∉ s.subtreeKeys) :
    t.key ∉ ks ∧ ∀ p ∈ t.path, p.1 ∉ ks := by
  constructor
  · intro h
    obtain ⟨s, hs, hk⟩ := hon _ h
    exact hout s hs hk
  · intro p hp h
    obtain ⟨s, hs, hk⟩ := hon _ h
    obtain ⟨m, hm, hkey, -, hd⟩ := Document.exists_ancestor ht hp
    rw [← hkey] at hk
    have hbelow : t.key ∈ m.subtreeKeys := List.mem_cons_of_mem _ (Forest.mem_cursors_key hd)
    exact hout s hs (Forest.subtreeKeys_trans a.doc.nodup_top (site_mem hs) hm hk hbelow)

/-- **A remote Reference is steady.** -/
theorem Remote.steady (h : a.Remote r) (hon : a.OnSites ks) (hr : r ∈ a.references) :
    Steady lib.toUppsala ks a.idMap a.sig r where
  inside k hk := by
    obtain ⟨s, hs, hin⟩ := hon k hk
    exact site_inside hs hin
  self := hon.reference_not_mem hr
  parts c hc hname k hk := by
    obtain ⟨s, hs, hin⟩ := hon k hk
    refine part_spared hs hr hc (fun hown => ?_) hin
    obtain ⟨-, e, he, hnamed⟩ := Node.findChildElement_some hown
    rw [Node.isNamed, he, Option.any_some, hnamed] at hname
    cases hname
  plain := h.plain
  target t ht := by
    rcases h.named with hnone | ⟨u, hu, hout⟩
    · rw [targetOf, hnone] at ht
      cases ht
    · rw [hu, Option.some.injEq] at ht
      subst ht
      obtain ⟨id, -, hget⟩ := Option.bind_eq_some_iff.mp hu
      exact hon.outside (target_mem hget) hout
  reach := by
    rcases h.reach with ⟨t, ts, hts, hurl⟩ | ⟨t, ht, hout⟩ | ⟨hne, hurl⟩
    · exact .enveloped hts hurl
    · refine .target ht fun k hk hkt => ?_
      obtain ⟨s, hs, hin⟩ := hon k hk
      obtain ⟨id, hid, hget⟩ := Option.bind_eq_some_iff.mp ht
      rcases Forest.nested_of_mem a.doc.nodup_top (site_mem hs) (target_mem hget) hin hkt with
        hst | hts
      · exact hout s hs hst
      · rcases h.named with hnone | ⟨u, hu, hapart⟩
        · rw [hnone] at hid
          cases hid
        · rw [hu, Option.some.injEq] at ht
          subst ht
          exact hapart s hs hts
    · exact .external hne hurl

end Stage

/-! ## Untouched text -/

/-- A node in which nothing is filled in holds the same text. -/
theorem StandsFor.textContentDeep_eq {ks : List NodeId} {doc doc' : Document} {n n' : Node}
    (hf : Refilled ks doc doc') (h : StandsFor ks doc doc' n n')
    (hout : ∀ k ∈ ks, k ∉ n.subtreeKeys) : n.textContentDeep = n'.textContentDeep := by
  have hk : n.key ∉ ks := fun hin => hout _ hin List.mem_cons_self
  have hkids : Forest.AlikeBut SameName ks n.kids n'.kids := by
    have hitem := Forest.itemAlike_of_pairs hf h
    obtain ⟨key, path, item⟩ := n
    obtain ⟨key', path', item'⟩ := n'
    cases hitem with
    | leaf b => exact .nil
    | place hi => exact absurd hi hk
    | node _ hkids => exact hkids
  have hall : List.Forall₂ (StandsFor ks doc doc') n.descendants n'.descendants :=
    (Forest.cursors_pairs hkids fun i hi hin => hout i hin (List.mem_cons_of_mem _ hi)).imp
      fun _ _ hd => Forest.pairs_below h hk hd
  rw [Node.textContentDeep, Node.textContentDeep]
  refine congrArg String.join ?_
  generalize n.descendants = row at hall ⊢
  generalize n'.descendants = row' at hall ⊢
  induction hall with
  | nil => rfl
  | cons hc _ ih => rw [List.filterMap_cons, List.filterMap_cons, hc.leaf? hf, ih]

/-- The texts of a child of an element in which nothing is filled in. -/
theorem StandsFor.child_texts {ks : List NodeId} {doc doc' : Document} {n n' : Node}
    (hf : Refilled ks doc doc') (h : StandsFor ks doc doc' n n')
    (hout : ∀ k ∈ ks, k ∉ n.subtreeKeys) (nsUri localName : String) :
    n.findChildElement nsUri localName = none ∧ n'.findChildElement nsUri localName = none
      ∨ ∃ c c', n.findChildElement nsUri localName = some c
        ∧ n'.findChildElement nsUri localName = some c' ∧ parameterText c = parameterText c'
        ∧ c.textContentDeep = c'.textContentDeep := by
  have hk : n.key ∉ ks := fun hin => hout _ hin List.mem_cons_self
  rcases h.findChildElement hf hk nsUri localName with hnone | ⟨c, c', hc, hc', hpair⟩
  · exact Or.inl hnone
  · have hspared : ∀ k ∈ ks, k ∉ c.subtreeKeys := fun k hin hbelow => hout k hin
      (List.mem_cons_of_mem _ ((child_subtreeKeys (Node.findChildElement_some hc).1).subset hbelow))
    refine Or.inr ⟨c, c', hc, hc', ?_, hpair.textContentDeep_eq hf hspared⟩
    rw [parameterText, parameterText,
      hpair.elementText_eq hf fun hin => hspared _ hin List.mem_cons_self]

/-! ## From one stage to the next -/

/-- At the next stage the elements `ks` are filled in. -/
structure NextStage {lib : DsigLibs} {idAttrs : List String} (ks : List NodeId)
    (a b : Stage lib idAttrs) : Prop where
  refilled : Refilled ks a.doc b.doc
  onSites : a.OnSites ks

namespace NextStage

variable {lib : DsigLibs} {idAttrs : List String} {ks : List NodeId} {a b : Stage lib idAttrs}
  {r r' s' : Node} {res : Resources}

theorem sig (h : NextStage ks a b) : StandsFor ks a.doc b.doc a.sig b.sig := by
  obtain ⟨n, hn, hpair⟩ := h.refilled.findElement a.signature fun k hk => by
    obtain ⟨s, hs, hin⟩ := h.onSites k hk
    exact Stage.site_inside hs hin
  rw [b.signature, Option.some.injEq] at hn
  rw [hn]
  exact hpair

theorem info (h : NextStage ks a b) : StandsFor ks a.doc b.doc a.signedInfo b.signedInfo := by
  rcases h.sig.findChildElement h.refilled h.onSites.sig_not_mem Ns.DSIG "SignedInfo" with
    ⟨hnone, -⟩ | ⟨c, c', hc, hc', hpair⟩
  · rw [a.info] at hnone
    cases hnone
  · rw [a.info, Option.some.injEq] at hc
    rw [b.info, Option.some.injEq] at hc'
    rw [hc, hc']
    exact hpair

theorem references (h : NextStage ks a b) :
    List.Forall₂ (StandsFor ks a.doc b.doc) a.references b.references :=
  h.info.findChildElements h.refilled h.onSites.info_not_mem Ns.DSIG "Reference"

theorem sameTargets (h : NextStage ks a b) : SameTargets ks a.doc b.doc a.idMap b.idMap := by
  intro id t t' hget ht hk
  have hid := ((get?_buildIdMap a.ids).mp hget).2
  rw [ht.element? h.refilled hk] at hid
  exact (get?_buildIdMap b.ids).mpr ⟨ht.mem.2, hid⟩

/-- A site of the next stage was a site before. -/
theorem site_back (h : NextStage ks a b) (hs' : IsSite b.sig b.signedInfo s') :
    ∃ s, IsSite a.sig a.signedInfo s ∧ StandsFor ks a.doc b.doc s s' := by
  cases hs' with
  | digestValue hr' hown' =>
      obtain ⟨r, hr, hrr⟩ := Forest.exists_left h.references hr'
      rcases hrr.findChildElement h.refilled (h.onSites.reference_not_mem hr) Ns.DSIG
        "DigestValue" with ⟨-, hnone⟩ | ⟨s, s₁, hs, hs₁, hpair⟩
      · rw [Sign.ownDigestValue, hnone] at hown'
        cases hown'
      · rw [Sign.ownDigestValue, hs₁, Option.some.injEq] at hown'
        rw [← hown']
        exact ⟨s, .digestValue hr hs, hpair⟩
  | outlet hc' hname =>
      obtain ⟨s, hs, hpair⟩ := Forest.exists_left
        (h.sig.children h.refilled h.onSites.sig_not_mem) hc'
      refine ⟨s, .outlet hs ?_, hpair⟩
      rw [hpair.isNamed h.refilled, hpair.isNamed h.refilled]
      exact hname

/-- What a Reference names is named at the next stage. -/
theorem target (h : NextStage ks a b) (hr : r ∈ a.references)
    (hrr : StandsFor ks a.doc b.doc r r') {t : Node}
    (ht : targetOf lib.toUppsala a.idMap r = some t)
    (hout : ∀ s, IsSite a.sig a.signedInfo s → t.key ∉ s.subtreeKeys) :
    ∃ t', targetOf lib.toUppsala b.idMap r' = some t' ∧ StandsFor ks a.doc b.doc t t' := by
  obtain ⟨id, hid, hget⟩ := Option.bind_eq_some_iff.mp ht
  obtain ⟨hk, hpath⟩ := h.onSites.outside (Stage.target_mem hget) hout
  obtain ⟨t', htt⟩ := Forest.exists_pair h.refilled (Stage.target_mem hget) hpath
  refine ⟨t', ?_, htt⟩
  rw [targetOf, ← hrr.referenceUri_eq h.refilled (h.onSites.reference_not_mem hr), hid,
    Option.bind_some]
  exact h.sameTargets id t t' hget htt hk

/-- **A remote Reference stays remote.** -/
theorem remote (h : NextStage ks a b) (hr : r ∈ a.references)
    (hrr : StandsFor ks a.doc b.doc r r') (hrem : a.Remote r) : b.Remote r' := by
  have huri := hrr.referenceUri_eq h.refilled (h.onSites.reference_not_mem hr) lib.toUppsala
  have hts := (hrem.steady h.onSites hr).transforms h.refilled hrr
  have hsame : ∀ {t t' : Node}, (∀ k ∈ ks, k ∉ t.subtreeKeys) ∧ StandsFor ks a.doc b.doc t t' →
      transformUri lib.toUppsala t = transformUri lib.toUppsala t' :=
    fun ht => ht.2.transformUri_eq h.refilled (fun hk => ht.1 _ hk List.mem_cons_self) _
  refine ⟨fun t' ht' => ?_, ?_, ?_⟩
  · obtain ⟨t, ht, htt⟩ := Forest.exists_left hts ht'
    rw [← hsame htt]
    exact hrem.plain t ht
  · rcases hrem.named with hnone | ⟨t, ht, hout⟩
    · rw [← huri]
      exact Or.inl hnone
    · obtain ⟨t', ht', htt⟩ := h.target hr hrr ht hout
      refine Or.inr ⟨t', ht', fun s' hs' hin => ?_⟩
      obtain ⟨s, hs, hss⟩ := h.site_back hs'
      exact hout s hs ((hss.below_iff h.refilled htt).mpr hin)
  · rcases hrem.reach with ⟨t, ts, hcons, hurl⟩ | ⟨t, ht, hout⟩ | hext
    · rw [hcons] at hts
      left
      generalize transformNodes r' = list at hts
      cases hts with
      | cons hhead _ => exact ⟨_, _, rfl, (hsame hhead).symm.trans hurl⟩
    · right
      left
      rcases hrem.named with hnone | ⟨u, hu, hapart⟩
      · rw [targetOf, hnone] at ht
        cases ht
      · rw [hu, Option.some.injEq] at ht
        subst ht
        obtain ⟨t', ht', htt⟩ := h.target hr hrr hu hapart
        refine ⟨t', ht', fun s' hs' hin => ?_⟩
        obtain ⟨s, hs, hss⟩ := h.site_back hs'
        exact hout s hs ((htt.below_iff h.refilled hss).mpr hin)
    · rw [← huri]
      exact Or.inr (Or.inr hext)

/-- **A Reference that is verified at one stage is verified at the next**, unless its own digest
is filled in. -/
theorem verifies (h : NextStage ks a b) (hr : r ∈ a.references)
    (hrr : StandsFor ks a.doc b.doc r r')
    (hrem : startsWithStr "cid:" (referenceUri lib.toUppsala r) = false → a.Remote r)
    (hdv : ∀ dv, Sign.ownDigestValue r = some dv → dv.key ∉ ks) (hv : a.Verifies res r) :
    b.Verifies res r' := by
  obtain ⟨vref, hvref⟩ := hv
  exact verifyReference_steady (h.onSites.reference_not_mem hr)
    (fun hcid => (hrem hcid).steady h.onSites hr) hdv a.parsed b.parsed h.refilled h.sameTargets
    (fun _ _ hget => Stage.target_mem hget) h.sig hrr hvref

/-- The text of a DigestValue that is not filled in. -/
theorem digestValueText_eq (h : NextStage ks a b) (hr : r ∈ a.references)
    (hrr : StandsFor ks a.doc b.doc r r')
    (hdv : ∀ dv, Sign.ownDigestValue r = some dv → ∀ k ∈ ks, k ∉ dv.subtreeKeys) :
    Sign.digestValueText r = Sign.digestValueText r' := by
  rw [Sign.digestValueText, Sign.digestValueText]
  rcases hrr.findChildElement h.refilled (h.onSites.reference_not_mem hr) Ns.DSIG "DigestValue"
    with ⟨hn, hn'⟩ | ⟨dv, dv', hd, hd', hpair⟩
  · rw [hn, hn']
  · rw [hd, hd', Option.map_some, Option.map_some,
      hpair.textContentDeep_eq h.refilled (hdv dv hd)]

/-- A child of the SignedInfo that is no Reference is left as it is. -/
theorem info_part (h : NextStage ks a b) {localName : String} (hne : localName ≠ "Reference") :
    a.signedInfo.findChildElement Ns.DSIG localName = none
        ∧ b.signedInfo.findChildElement Ns.DSIG localName = none
      ∨ ∃ c c', a.signedInfo.findChildElement Ns.DSIG localName = some c
        ∧ b.signedInfo.findChildElement Ns.DSIG localName = some c'
        ∧ StandsFor ks a.doc b.doc c c' ∧ ∀ k ∈ ks, k ∉ c.subtreeKeys := by
  rcases h.info.findChildElement h.refilled h.onSites.info_not_mem Ns.DSIG localName with
    hnone | ⟨c, c', hc, hc', hpair⟩
  · exact Or.inl hnone
  · refine Or.inr ⟨c, c', hc, hc', hpair, fun k hk hin => ?_⟩
    obtain ⟨s, hs, hks⟩ := h.onSites k hk
    obtain ⟨hchild, e, he, hnamed⟩ := Node.findChildElement_some hc
    have href := List.mem_filter.mp (Stage.site_meets hs hchild hks hin).1
    rw [Node.isNamed, he, Option.any_some, Element.not_isNamed hnamed hne] at href
    cases href.2

theorem algorithmOf_eq (h : NextStage ks a b) {localName : String} (hne : localName ≠ "Reference") :
    algorithmOf lib.toUppsala a.signedInfo localName
      = algorithmOf lib.toUppsala b.signedInfo localName := by
  rw [algorithmOf, algorithmOf]
  rcases h.info_part hne with ⟨hn, hn'⟩ | ⟨c, c', hc, hc', hpair, hout⟩
  · rw [hn, hn']
  · rw [hc, hc']
    simp only [hpair.element? h.refilled fun hk => hout _ hk List.mem_cons_self]

theorem c14nPrefixes_eq (h : NextStage ks a b) :
    c14nPrefixes lib.toUppsala a.signedInfo = c14nPrefixes lib.toUppsala b.signedInfo := by
  rw [c14nPrefixes, c14nPrefixes]
  rcases @info_part _ _ _ _ _ h "CanonicalizationMethod" (by decide) with
    ⟨hn, hn'⟩ | ⟨c, c', hc, hc', hpair, hout⟩
  · rw [hn, hn']
  · rw [hc, hc', Option.map_some, Option.map_some, hpair.prefixes_eq h.refilled hout]

/-- **The octets of the SignedInfo**, if what is filled in is outside of it. -/
theorem signedInfo_octets (h : NextStage ks a b) (hout : ∀ k ∈ ks, k ∉ a.signedInfo.subtreeKeys)
    (mode : C14nMode) (inclusivePrefixes : List String) :
    canonicalizeDoc a.doc mode (some (.treeWithoutComments a.signedInfo)) inclusivePrefixes
      = canonicalizeDoc b.doc mode (some (.treeWithoutComments b.signedInfo)) inclusivePrefixes :=
  (showAlike_subtree h.refilled h.info false).canonicalizeDoc_eq h.refilled
    (outOfSight_subtree h.refilled h.info hout false) mode inclusivePrefixes

end NextStage

end Bergshamra
