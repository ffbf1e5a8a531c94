import Bergshamra.Proof.SigningSites
import Bergshamra.Proof.DigestRun
import Bergshamra.Proof.IdPlaces
import Mathlib.Logic.Relation

/-!
# References that stay verified

A turn of the loop over the References digests one of them in the current text
and fills its DigestValue in. In the text that this gives the Reference is
verified, and those that were verified before still are: what is filled in is
out of reach of them all. So after `j` turns the first `j` References are
verified, in a run of any length.
-/

namespace Bergshamra

open XmlSource

namespace Sign

/-! ## An element filled in -/

/-- The next document is the one before with the element `n` filled in, and the text of `n` is
the content. -/
structure Fills (doc : Document) (n : Node) (content : String) (doc' : Document) : Prop where
  refilled : Refilled [n.key] doc doc'
  content : ∀ n', StandsFor [n.key] doc doc' n n' → n'.elementText.getD "" = content

/-- The element of a tree that `replace_first_empty_element` overwrites. -/
def emptyElementOf (top : Nodes) (localName : String) : Option Node :=
  (top.cursors []).find? (isEmptyElement localName)

/-- A source with its first empty element of a name filled in. -/
def filledSource (lex : Lexicon) (lib : SignLibs) (c : Source) (localName content : String) :
    Source :=
  match emptyElementOf (treeOf lex [] c) localName with
  | none => c
  | some n => c.replaceNode n.key (bareTag (newName n localName))
      (freshText c (lib.writeText content).toList)

/-- The element of a name that is overwritten is one of the signature namespace, its tag made anew
is found and means the same without its own declarations. -/
structure Fillable (lib : SignLibs) (xml : String) (doc : Document) (localName : String)
    (n : Node) : Prop where
  first : firstEmptyElement doc localName = some n
  named : n.isNamed Ns.DSIG localName = true
  colon : ¬ ColonMisleads lib xml n
  scope : scopeNamespace n.path (prefixOf n) = some Ns.DSIG

theorem OwnSlot.fillable {lib : SignLibs} {xml : String} {doc : Document} {r dv : Node}
    (h : OwnSlot lib xml doc r dv) : Fillable lib xml doc "DigestValue" dv where
  first := h.first
  named := Node.isNamed_iff.mpr (Node.findChildElement_some h.own).2
  colon := h.colon
  scope := h.scope

section Fill

variable {lex : Lexicon} {lib : SignLibs} {src : Source} {content localName : String} {n : Node}

theorem WrittenBack.elementText (h : WrittenBack lex lib content) (src : Source) (key : NodeId)
    (path path' : List (NodeId × Element)) (e : Element) (g : NodeId → NodeId) :
    (Node.elementText ⟨key, path, .node e
      ((treeOf lex path' (freshText src (lib.writeText content).toList)).mapKeys g)⟩).getD ""
      = content := by
  rw [freshText]
  rcases h with ⟨hraw, hcontent⟩ | h
  · rw [if_pos hraw, hcontent]
    rfl
  · split
    · rename_i hraw
      have hne := lex.text_ne_nil _ (by rw [h]; rfl)
      exact absurd hraw hne
    · show String.ofList ((lex.text _).getD []) = content
      rw [h, Option.getD_some, String.ofList_toList]

/-- What a source reads as with an element of its tree filled in. -/
theorem treeOf_filled (hn : src.keys.Nodup) (hwf : WellFormed lex src)
    (hmem : n ∈ (treeOf lex [] src).cursors []) (hnamed : n.isNamed Ns.DSIG localName = true)
    (hscope : scopeNamespace n.path (prefixOf n) = some Ns.DSIG)
    (hback : WrittenBack lex lib content) :
    ∃ e' kids', e'.isNamed Ns.DSIG localName = true
      ∧ treeOf lex [] (src.replaceNode n.key (bareTag (newName n localName))
          (freshText src (lib.writeText content).toList))
        = (treeOf lex [] src).replaceNode n.key e' kids'
      ∧ ∀ g key path, (Node.elementText ⟨key, path, .node e' (kids'.mapKeys g)⟩).getD ""
        = content := by
  obtain ⟨e, he, hename⟩ := Node.isNamed_iff.mp hnamed
  have hitem : ∃ kids, n.item = .node e kids := by
    obtain ⟨key, path, item⟩ := n
    cases item with
    | leaf l => cases he
    | node e' kids =>
        cases he
        exact ⟨kids, rfl⟩
  obtain ⟨ekids, hitem⟩ := hitem
  obtain ⟨c, hc, t, kids, hkey, hcitem, hpath, helem, -⟩ := @exists_tag lex [] src _ hmem _ _ hitem
  have hvalid := validName_of_properTag (@proper_node lex [] src hwf.proper c hc t kids hcitem).1
  have helem' : n.element? = some (elementOf lex (elementPath lex c.path) t) :=
    he.trans (congrArg some helem)
  have hlocal : e.name.localName = localName := by
    rw [Element.isNamed, Bool.and_eq_true, beq_iff_eq] at hename
    exact hename.1
  have hname : newName n localName = t.name := by
    rw [newName, ← hlocal]
    exact name_of_tag helem' hvalid he
  rw [helem] at hename
  rw [hpath] at hscope
  rw [hname]
  exact ⟨_, _, (bareTag_isNamed helem' hvalid hename hscope).2,
    @treeOf_replaceNode lex n.key [] src hn c hc hkey t kids hcitem (bareTag t.name)
      (freshText src (lib.writeText content).toList),
    fun g key path => hback.elementText src key path _ _ g⟩

/-- A tree in which an element is replaced by one of the same name, under the ids of two
parses. -/
theorem fills_of_replaceNode {doc doc' : Document} {f : Nodes} {g g' : NodeId → NodeId}
    (hg : Function.Injective g) (hn : f.keys.Nodup) (hmem : n ∈ f.cursors [])
    (hnamed : n.isNamed Ns.DSIG localName = true) {e' : Element} {kids' : Nodes}
    (he' : e'.isNamed Ns.DSIG localName = true)
    (hcontent : ∀ key path, (Node.elementText ⟨key, path, .node e' (kids'.mapKeys g')⟩).getD ""
      = content)
    (htop : doc.top = f.mapKeys g) (htop' : doc'.top = (f.replaceNode n.key e' kids').mapKeys g') :
    Fills doc (n.mapKeys g) content doc' := by
  have hsame : ∀ c ∈ f.cursors [], c.key = n.key → ∀ e kids, c.item = .node e kids →
      SameName e e' := by
    intro c hc hkey e kids hitem
    rw [Forest.cursor_eq_of_key hn hc hmem hkey] at hitem
    obtain ⟨e₀, he₀, hnamed₀⟩ := Node.isNamed_iff.mp hnamed
    rw [Node.element?, hitem, Option.some.injEq] at he₀
    rw [← he₀, Element.isNamed, Bool.and_eq_true, beq_iff_eq, beq_iff_eq] at hnamed₀
    rw [Element.isNamed, Bool.and_eq_true, beq_iff_eq, beq_iff_eq] at he'
    exact ⟨hnamed₀.1.trans he'.1.symm, hnamed₀.2.trans he'.2.symm⟩
  have hkey : (n.mapKeys g).key = g n.key := rfl
  constructor
  · rw [Refilled, htop, htop', hkey]
    refine (Forest.alikeBut_replaceNode SameName.refl hsame).mapKeys g g' fun i _ hi => ?_
    rw [List.map_cons, List.map_nil, List.mem_singleton] at hi
    exact List.mem_singleton.mpr (hg hi)
  · intro n' hpair
    rw [StandsFor, htop, htop', hkey] at hpair
    have hitem := Forest.refilled_item hg hn hpair rfl fun l hl => by
      obtain ⟨e, he, -⟩ := Node.isNamed_iff.mp hnamed
      obtain ⟨key, path, item⟩ := n
      cases item with
      | leaf k => cases he
      | node e kids => cases hl
    obtain ⟨key, path, item⟩ := n'
    cases hitem
    exact hcontent key path

theorem isEmptyElement_mapKeys (g : NodeId → NodeId) (n : Node) :
    isEmptyElement localName (n.mapKeys g) = isEmptyElement localName n := by
  rw [isEmptyElement, element?_mapKeys, textContentDeep_mapKeys, isEmptyElement]

theorem emptyElementOf_mapKeys (g : NodeId → NodeId) (top : Nodes) :
    emptyElementOf (top.mapKeys g) localName
      = (emptyElementOf top localName).map (Forest.Cursor.mapKeys g) := by
  have hcursors : (top.mapKeys g).cursors [] = (top.cursors []).map (Forest.Cursor.mapKeys g) :=
    Forest.cursors_mapKeys g [] top
  rw [emptyElementOf, hcursors, List.find?_map, emptyElementOf]
  have htest : isEmptyElement localName ∘ Forest.Cursor.mapKeys g = isEmptyElement localName :=
    funext fun n => isEmptyElement_mapKeys g n
  rw [htest]

/-- The text of a source, whatever its ids. -/
theorem sourceText_mapKeys (g : NodeId → NodeId) : sourceText (src.mapKeys g) = sourceText src := by
  rw [sourceText, Forest.text_mapKeys, sourceText]

/-- **`replace_first_empty_element` fills in**, if the texts before and after are read. -/
theorem replaceFirstEmptyElement_fills (laws : WriterLaws lib) (hn : src.keys.Nodup)
    (hwf : WellFormed lex src) (hread : ReadsAgain lex lib src)
    (hread' : ReadsAgain lex lib (filledSource lex lib src localName content))
    (hback : WrittenBack lex lib content) {doc : Document}
    (hdoc : lib.parse (sourceText src) = .ok doc)
    (hfill : Fillable lib (sourceText src) doc localName n) :
    replaceFirstEmptyElement lib (sourceText src) localName content
        = .ok (sourceText (filledSource lex lib src localName content))
      ∧ ∀ doc', lib.parse (sourceText (filledSource lex lib src localName content)) = .ok doc' →
        Fills doc n content doc' := by
  obtain ⟨g, hg, current, hreads⟩ := hread
  have hsame : current = doc := by
    have hp := hreads.parsed
    rw [Forest.text_mapKeys] at hp
    exact Except.ok.inj (hp.symm.trans hdoc)
  subst hsame
  -- the document is the tree of the source, its ids renamed by `g`
  have htop : current.top = (treeOf lex [] src).mapKeys g :=
    hreads.tree.trans (treeOf_mapKeys [] src)
  have hfirst : emptyElementOf current.top localName = some n := hfill.first
  rw [htop, emptyElementOf_mapKeys] at hfirst
  obtain ⟨m, hm, hmn⟩ := Option.map_eq_some_iff.mp hfirst
  have hmem : m ∈ (treeOf lex [] src).cursors [] := List.mem_of_find?_eq_some hm
  have hsource : filledSource lex lib src localName content
      = src.replaceNode m.key (bareTag (newName m localName))
        (freshText src (lib.writeText content).toList) := by
    rw [filledSource, hm]
  have hnamed : Node.isNamed m Ns.DSIG localName = true := by
    have hname := hfill.named
    rw [← hmn, isNamed_mapKeys] at hname
    exact hname
  have hscope : scopeNamespace m.path (prefixOf m) = some Ns.DSIG := by
    have hs := hfill.scope
    rw [← hmn, prefixOf_mapKeys] at hs
    exact (scopeNamespace_relabel (g := g) m.path (prefixOf m)).symm.trans hs
  constructor
  · -- the text that is written
    obtain ⟨hin, e, he, hlocal⟩ := firstEmptyElement_some hfill.first
    have hcolon : ¬ ColonMisleads lib (sourceText (src.mapKeys g)) n := by
      rw [sourceText_mapKeys]
      exact hfill.colon
    have hpfx := (prefixFound_iff hreads hin he).mpr hcolon
    rw [hlocal] at hpfx
    have hwritten := @replaceFirstEmptyElement_eq _ _ _ _ _ laws hreads _ content hfill.first hpfx
    have hname : newName n localName = newName m localName := by
      rw [newName, newName, ← hmn, prefixOf_mapKeys]
    have hkey : n.key = g m.key := by
      rw [← hmn]
      rfl
    rw [sourceText_mapKeys, hname, hkey, sourceText_fill hg, ← hsource] at hwritten
    exact hwritten
  · intro doc' hdoc'
    -- what is read back, under ids of its own
    obtain ⟨g', -, next, hreads'⟩ := hread'
    have hnext : next = doc' := by
      have hp := hreads'.parsed
      rw [Forest.text_mapKeys] at hp
      exact Except.ok.inj (hp.symm.trans hdoc')
    subst hnext
    obtain ⟨e', kids', he', htree, hcontent⟩ := treeOf_filled hn hwf hmem hnamed hscope hback
    rw [← hmn]
    refine fills_of_replaceNode hg ((keys_treeOf [] _).nodup hn) hmem hnamed he' (hcontent g') htop ?_
    have htree' := hreads'.tree.trans (treeOf_mapKeys [] _)
    rw [htree', hsource, htree]

end Fill

/-! ## One turn -/

/-- Base64 that is written is read back. -/
def Base64Back (lib : SignLibs) : Prop :=
  ∀ bytes, lib.base64Decode (withoutWhitespace (trimStr (lib.base64Encode bytes))) = .ok bytes

/-- What is called `xml:id` is the `id` of the XML namespace. -/
def XmlIdNames (up : UppsalaNs) : Prop :=
  ∀ e v, up.getAttribute e "xml:id" = some v →
    up.getAttributeNs e "http://www.w3.org/XML/1998/namespace" "id" = some v

/-- The map of ids counts for nothing but the id that is named. -/
theorem dereference_congr {lib : DsigLibs} {res : Resources} {doc : Document} {m m' : IdMap}
    {xml uri : String} {unsupported : Error}
    (h : ∀ id, fragmentId uri = some id → resolveId m id = resolveId m' id) :
    dereference lib res doc m xml uri unsupported
      = dereference lib res doc m' xml uri unsupported := by
  rw [dereference, dereference]
  rw [fragmentId] at h
  cases hfrag : parseSameDocumentRef uri with
  | none => rfl
  | some fragment =>
      rw [hfrag, Option.bind_some] at h
      by_cases hroot : fragment = "xpointer(/)"
      · simp only [if_pos hroot]
      · rw [if_neg hroot] at h
        have hid := h _ rfl
        cases hx : parseXPointerId fragment with
        | none =>
            rw [hx, Option.getD_none] at hid
            simp only [hx, hid]
        | some id =>
            rw [hx, Option.getD_some] at hid
            simp only [hx, hid]

section Turn

variable {lib : SignLibs} {res : Resources} {idAttrs : List String}
  {a b : Stage lib.toDsigLibs idAttrs} {r rᵢ : Node} {i j : Nat}

/-- The stage of a text is determined by the text. -/
theorem stage_eq (h : a.xml = b.xml) : a = b := by
  obtain ⟨xml, doc, idMap, sig, signedInfo, hparsed, hids, hsig, hinfo⟩ := a
  obtain ⟨xml', doc', idMap', sig', signedInfo', hparsed', hids', hsig', hinfo'⟩ := b
  cases h
  cases Except.ok.inj (hparsed.symm.trans hparsed')
  cases Except.ok.inj (hids.symm.trans hids')
  cases Option.some.inj (hsig.symm.trans hsig')
  cases Option.some.inj (hinfo.symm.trans hinfo')
  rfl

theorem parseXml_stage (a : Stage lib.toDsigLibs idAttrs) : parseXml lib a.xml = .ok a.doc := by
  rw [parseXml, a.parsed]

theorem referencesOf_eq (a : Stage lib.toDsigLibs idAttrs) :
    referencesOf a.doc.top = a.references := by
  have hfind : (a.doc.top.cursors []).find? (fun n : Node => n.isNamed Ns.DSIG "Signature")
      = some a.sig := a.signature
  rw [referencesOf, signedInfoOf, hfind, Option.bind_some, a.info]
  rfl

/-- A turn on the text of a stage. -/
theorem stage_turn {next : String} (h : signReference lib res idAttrs j a.xml = .ok next) :
    ∃ m r, buildIdMap lib.toUppsalaNs a.doc idAttrs = .ok m ∧ a.references[j]? = some r
      ∧ fillReference lib res a.doc m a.xml a.sig.key r = .ok next
      ∧ turnDigest lib res idAttrs j a.xml
        = referenceDigest lib res a.doc m a.xml a.sig.key r := by
  obtain ⟨-, -, r, hr, -, -⟩ := signReference_ok h a.parsed
  cases hm : buildIdMap lib.toUppsalaNs a.doc idAttrs with
  | error e =>
      rw [signReference, parseXml_stage] at h
      simp only [bind, Except.bind, hm] at h
      cases h
  | ok m =>
      obtain ⟨hsign, hdigest⟩ := @signReference_eq lib res idAttrs j a.xml a.doc m a.sig r a.parsed
        hm a.signature hr
      rw [referencesOf_eq] at hr
      exact ⟨m, r, rfl, hr, hsign.symm.trans h, hdigest⟩

/-- What verification knows by an id, signing knows by it. -/
theorem signs_target (hxml : XmlIdNames lib.toUppsalaNs) {m : IdMap}
    (hm : buildIdMap lib.toUppsalaNs a.doc idAttrs = .ok m) {id : String} {t : Node}
    (hget : a.idMap.get? id = some t) : m.get? id = some t := by
  obtain ⟨hmem, hid⟩ := (get?_buildIdMap a.ids).mp hget
  obtain ⟨heq, hnodup⟩ := (insertIds_ok_iff (by simp)).mp hm
  rw [List.nil_append] at heq hnodup
  rw [heq]
  refine (IdMap.get?_iff_mem hnodup).mpr (mem_entriesBy_iff.mpr ⟨hmem, ?_⟩)
  cases he : t.element? with
  | none =>
      rw [he] at hid
      cases hid
  | some e =>
      rw [he, Option.any_some, hasId, List.any_append, Bool.or_eq_true, List.any_eq_true] at hid
      refine ⟨e, rfl, ?_⟩
      rw [idValues, List.mem_append, List.mem_filterMap, Option.mem_toList]
      rcases hid with ⟨name, hname, hv⟩ | hv
      · exact Or.inl ⟨name, hname, beq_iff_eq.mp hv⟩
      · rw [List.any_cons, List.any_nil, Bool.or_false, beq_iff_eq] at hv
        exact Or.inr (hxml e id hv)

/-- Signing and verification dereference a remote Reference alike. -/
theorem remote_dereference (hxml : XmlIdNames lib.toUppsalaNs) {m : IdMap}
    (hm : buildIdMap lib.toUppsalaNs a.doc idAttrs = .ok m) (hrem : a.Remote r)
    (unsupported : Error) :
    dereference lib.toDsigLibs res a.doc m a.xml (referenceUri lib.toUppsala r) unsupported
      = dereference lib.toDsigLibs res a.doc a.idMap a.xml (referenceUri lib.toUppsala r)
        unsupported := by
  refine dereference_congr fun id hid => ?_
  rcases hrem.named with hnone | ⟨t, ht, -⟩
  · rw [hnone] at hid
    cases hid
  · rw [targetOf, hid, Option.bind_some] at ht
    rw [resolveId_get?.mpr ht, resolveId_get?.mpr (signs_target hxml hm ht)]

/-- Two References have nothing in common. -/
theorem references_apart (hr : a.references[j]? = some r) (hi : a.references[i]? = some rᵢ)
    (hne : i ≠ j) {k : NodeId} (hk : k ∈ r.subtreeKeys) : k ∉ rᵢ.subtreeKeys := by
  have hnodup : a.references.Nodup := by
    rw [← referencesOf_eq]
    exact referencesOf_nodup a.doc.nodup_top
  refine children_apart a.info_nodup (Stage.reference_child (List.mem_of_getElem? hr))
    (Stage.reference_child (List.mem_of_getElem? hi)) (fun hsame => hne ?_) hk
  exact (List.getElem?_inj (List.getElem?_eq_some_iff.mp hi).1 hnodup).mp (by rw [hi, hr, hsame])

/-- A Reference of the next stage, and the one that it was before. -/
theorem reference_at {ks : List NodeId} (h : NextStage ks a b) {r' : Node}
    (hr' : b.references[i]? = some r') :
    ∃ r, a.references[i]? = some r ∧ StandsFor ks a.doc b.doc r r' := by
  have hall := h.references
  generalize a.references = refs at hall ⊢
  generalize b.references = refs' at hall hr'
  induction hall generalizing i with
  | nil => cases hr'
  | @cons r r₁ rest rest' hrr _ ih =>
      cases i with
      | zero =>
          cases hr'
          exact ⟨r, rfl, hrr⟩
      | succ i => exact ih hr'

/-- After `j` turns: every Reference is out of reach of what signing fills in, those still to come
are to be filled in, and those that had their turn are verified. -/
structure Digested (res : Resources) (j : Nat) (a : Stage lib.toDsigLibs idAttrs) : Prop where
  remote : ∀ r ∈ a.references, startsWithStr "cid:" (referenceUri lib.toUppsala r) = false →
    a.Remote r
  pending : ∀ i, j ≤ i → ∀ r, a.references[i]? = some r →
    startsWithStr "cid:" (referenceUri lib.toUppsala r) = false → isPending lib r = true
  verified : ∀ i, i < j → ∀ r, a.references[i]? = some r → a.Verifies res r

theorem Digested.next_remote {ks : List NodeId} (h : Digested res j a) (hnext : NextStage ks a b) :
    ∀ r' ∈ b.references, startsWithStr "cid:" (referenceUri lib.toUppsala r') = false →
      b.Remote r' := by
  intro r' hr' hcid'
  obtain ⟨r₀, hr₀, hrr⟩ := Forest.exists_left hnext.references hr'
  rw [← hrr.referenceUri_eq hnext.refilled (hnext.onSites.reference_not_mem hr₀)] at hcid'
  exact hnext.remote hr₀ hrr (h.remote r₀ hr₀ hcid')

/-- A Reference stays to be filled in. -/
theorem next_pending {ks : List NodeId} (hnext : NextStage ks a b) (hr : r ∈ a.references)
    {r' : Node} (hrr : StandsFor ks a.doc b.doc r r')
    (hspared : ∀ d, ownDigestValue r = some d → ∀ k ∈ ks, k ∉ d.subtreeKeys)
    (hp : startsWithStr "cid:" (referenceUri lib.toUppsala r) = false → isPending lib r = true) :
    startsWithStr "cid:" (referenceUri lib.toUppsala r') = false → isPending lib r' = true := by
  have huri := hrr.referenceUri_eq hnext.refilled (hnext.onSites.reference_not_mem hr) lib.toUppsala
  rw [isPending, ← huri, ← hnext.digestValueText_eq hr hrr hspared]
  intro hcid
  have hpending := hp hcid
  rw [isPending] at hpending
  exact hpending

/-- A Reference to something that comes with the message. -/
theorem verifies_cid (hcid : startsWithStr "cid:" (referenceUri lib.toUppsala r) = true) :
    a.Verifies res r := by
  refine ⟨⟨referenceUri lib.toUppsala r, none, false⟩, ?_⟩
  rw [verifyReference]
  exact if_pos hcid

/-- **The digest that is filled in verifies.** -/
theorem digest_verifies (hxml : XmlIdNames lib.toUppsalaNs) (hback : Base64Back lib)
    (hr : r ∈ a.references) (hrem : a.Remote r) {m : IdMap}
    (hm : buildIdMap lib.toUppsalaNs a.doc idAttrs = .ok m) {digest : String}
    (hdigest : referenceDigest lib res a.doc m a.xml a.sig.key r = .ok digest) {dv : Node}
    (hown : ownDigestValue r = some dv) (hfills : Fills a.doc dv digest b.doc)
    (hnext : NextStage [dv.key] a b) {r' : Node} (hrr : StandsFor [dv.key] a.doc b.doc r r') :
    b.Verifies res r' := by
  obtain ⟨digestUri, hmethod, hdigest⟩ := bind_eq_ok.mp hdigest
  obtain ⟨resolved, hres, hdigest⟩ := bind_eq_ok.mp hdigest
  obtain ⟨bytes, hbytes, hdigest⟩ := bind_eq_ok.mp hdigest
  obtain ⟨computed, hcomputed, hdigest⟩ := bind_eq_ok.mp hdigest
  cases hdigest
  rw [signReferenceData, remote_dereference hxml hm hrem] at hres
  have hexpected : expectedDigest lib.toDsigLibs r' = .ok computed := by
    rcases hrr.findChildElement hnext.refilled (hnext.onSites.reference_not_mem hr) Ns.DSIG
      "DigestValue" with ⟨hnone, -⟩ | ⟨d, d', hd, hd', hpair⟩
    · rw [ownDigestValue, hnone] at hown
      cases hown
    · rw [ownDigestValue, hd, Option.some.injEq] at hown
      subst hown
      rw [expectedDigest, hd']
      simp only [hfills.content d' hpair, hback computed]
  exact (hrem.steady hnext.onSites hr).verifies a.parsed b.parsed hnext.refilled hnext.sameTargets
    (fun _ _ hget => Stage.target_mem hget) hnext.sig hrr hmethod hres hbytes hcomputed hexpected

/-- The second stage is the first with something filled in. -/
def FilledFrom (a b : Stage lib.toDsigLibs idAttrs) : Prop := ∃ ks, NextStage ks a b

/-- **One turn** verifies one more Reference. -/
theorem Digested.turn (h : Digested res j a) (hxml : XmlIdNames lib.toUppsalaNs)
    (hback : Base64Back lib) (hturn : signReference lib res idAttrs j a.xml = .ok b.xml)
    (hfills : ∀ r, a.references[j]? = some r → isPending lib r = true →
      ∃ dv, ownDigestValue r = some dv
        ∧ ∀ digest, turnDigest lib res idAttrs j a.xml = .ok digest → Fills a.doc dv digest b.doc) :
    Digested res (j + 1) b ∧ Relation.ReflTransGen FilledFrom a b := by
  obtain ⟨m, r, hm, hr, hfill, hdigest⟩ := stage_turn hturn
  have hmem := List.mem_of_getElem? hr
  cases hcid : startsWithStr "cid:" (referenceUri lib.toUppsala r) with
  | true =>
      rw [fillReference_cid hcid, Except.ok.injEq] at hfill
      cases stage_eq hfill
      refine ⟨?_, .refl⟩
      refine ⟨h.remote, fun i hi => h.pending i (by omega), fun i hi rᵢ hrᵢ => ?_⟩
      by_cases hij : i = j
      · subst hij
        rw [hr, Option.some.injEq] at hrᵢ
        subst hrᵢ
        exact verifies_cid hcid
      · exact h.verified i (by omega) rᵢ hrᵢ
  | false =>
      have hpending := h.pending j (le_refl j) r hr hcid
      rcases fillReference_ok hfill with ⟨hnot, -⟩ | ⟨-, digest, hd, -⟩
      · rw [hpending] at hnot
        cases hnot
      · obtain ⟨dv, hown, hfilled⟩ := hfills r hr hpending
        have hf := hfilled digest (hdigest.trans hd)
        have hnext : NextStage [dv.key] a b := by
          refine ⟨hf.refilled, fun k hk => ⟨dv, .digestValue hmem hown, ?_⟩⟩
          rw [List.mem_singleton.mp hk]
          exact List.mem_cons_self
        have hinside : dv.key ∈ r.subtreeKeys :=
          List.mem_cons_of_mem _ ((child_subtreeKeys (Stage.own_child hown)).subset
            List.mem_cons_self)
        -- the DigestValue of another Reference is not touched
        have hother : ∀ {i rᵢ}, a.references[i]? = some rᵢ → i ≠ j → ∀ d,
            ownDigestValue rᵢ = some d → ∀ k ∈ [dv.key], k ∉ d.subtreeKeys := by
          intro i rᵢ hrᵢ hij d hd k hk hin
          rw [List.mem_singleton.mp hk] at hin
          exact references_apart hr hrᵢ hij hinside
            (List.mem_cons_of_mem _ ((child_subtreeKeys (Stage.own_child hd)).subset hin))
        refine ⟨?_, .single ⟨_, hnext⟩⟩
        refine ⟨h.next_remote hnext, fun i hi r' hr' => ?_, fun i hi r' hr' => ?_⟩
        · obtain ⟨r₀, hr₀, hrr⟩ := reference_at hnext hr'
          exact next_pending hnext (List.mem_of_getElem? hr₀) hrr (hother hr₀ (by omega))
            (h.pending i (by omega) r₀ hr₀)
        · obtain ⟨r₀, hr₀, hrr⟩ := reference_at hnext hr'
          have hmem₀ := List.mem_of_getElem? hr₀
          by_cases hij : i = j
          · subst hij
            rw [hr, Option.some.injEq] at hr₀
            subst hr₀
            exact digest_verifies hxml hback hmem (h.remote r hmem hcid) hm hd hown hf hnext hrr
          · refine hnext.verifies hmem₀ hrr (h.remote r₀ hmem₀) (fun d hd hin => ?_)
              (h.verified i (by omega) r₀ hr₀)
            exact hother hr₀ hij d hd d.key hin List.mem_cons_self

/-- What is filled in outside of the SignedInfo leaves the References verified. -/
theorem Digested.next {ks : List NodeId} (h : Digested res j a) (hnext : NextStage ks a b)
    (hout : ∀ k ∈ ks, k ∉ a.signedInfo.subtreeKeys) : Digested res j b := by
  have hspared : ∀ {r₀}, r₀ ∈ a.references → ∀ d, ownDigestValue r₀ = some d →
      ∀ k ∈ ks, k ∉ d.subtreeKeys := by
    intro r₀ hr₀ d hd k hk hin
    have hbelow := (child_subtreeKeys (Stage.own_child hd)).subset hin
    exact hout k hk (List.mem_cons_of_mem _ ((child_subtreeKeys (Stage.reference_child hr₀)).subset
      (List.mem_cons_of_mem _ hbelow)))
  refine ⟨h.next_remote hnext, fun i hi r' hr' => ?_, fun i hi r' hr' => ?_⟩
  · obtain ⟨r₀, hr₀, hrr⟩ := reference_at hnext hr'
    have hmem₀ := List.mem_of_getElem? hr₀
    exact next_pending hnext hmem₀ hrr (hspared hmem₀) (h.pending i hi r₀ hr₀)
  · obtain ⟨r₀, hr₀, hrr⟩ := reference_at hnext hr'
    have hmem₀ := List.mem_of_getElem? hr₀
    exact hnext.verifies hmem₀ hrr (h.remote r₀ hmem₀)
      (fun d hd hin => hspared hmem₀ d hd d.key hin List.mem_cons_self) (h.verified i hi r₀ hr₀)

end Turn

/-! ## All turns -/

section Runs

variable {lex : Lexicon} {lib : SignLibs} {res : Resources} {idAttrs : List String} {src : Source}
  {doc : Document} {texts : Nat → String} {turns : Nat}

/-- A stage whose References wait to be digested. -/
structure Ready (a : Stage lib.toDsigLibs idAttrs) : Prop where
  remote : ∀ r ∈ a.references, startsWithStr "cid:" (referenceUri lib.toUppsala r) = false →
    a.Remote r
  pending : ∀ r ∈ a.references, startsWithStr "cid:" (referenceUri lib.toUppsala r) = false →
    isPending lib r = true

theorem Ready.digested {a : Stage lib.toDsigLibs idAttrs} (h : Ready a) : Digested res 0 a :=
  ⟨h.remote, fun _ _ r hr => h.pending r (List.mem_of_getElem? hr),
    fun _ hi => absurd hi (Nat.not_lt_zero _)⟩

/-- The turn finds the DigestValue of its own Reference. -/
def FindsOwn (lib : SignLibs) (refIdx : Nat) (xml : String) : Prop :=
  ∀ doc, lib.parse xml = .ok doc → ∀ reference, (referencesOf doc.top)[refIdx]? = some reference →
    isPending lib reference = true → ∃ dv, OwnSlot lib xml doc reference dv

theorem FindsOwn.fillsOwn {j : Nat} {xml : String} (h : FindsOwn lib j xml) : FillsOwn lib j xml :=
  fun doc hdoc r hr hp => Or.inl (h doc hdoc r hr hp)

/-- Verification reads the ids of a text, if it reads the text. -/
def IdsRead (lib : SignLibs) (idAttrs : List String) (xml : String) : Prop :=
  ∀ doc, lib.parse xml = .ok doc →
    ∃ m, Bergshamra.buildIdMap lib.toUppsala doc idAttrs = .ok m

/-- A text that is the one of a stage with something filled in at the sites is a stage. -/
theorem exists_stage {a : Stage lib.toDsigLibs idAttrs} {ks : List NodeId} {xml : String}
    {doc' : Document} (hf : Refilled ks a.doc doc') (hon : a.OnSites ks)
    (hdoc' : lib.parse xml = .ok doc') (hids : IdsRead lib idAttrs xml) :
    ∃ b : Stage lib.toDsigLibs idAttrs, b.xml = xml ∧ b.doc = doc' := by
  obtain ⟨m, hm⟩ := hids doc' hdoc'
  obtain ⟨sig', hsig', hpair⟩ := hf.findElement a.signature fun k hk => by
    obtain ⟨s, hs, hin⟩ := hon k hk
    exact Stage.site_inside hs hin
  rcases hpair.findChildElement hf hon.sig_not_mem Ns.DSIG "SignedInfo" with
    ⟨hnone, -⟩ | ⟨c, c', -, hc', -⟩
  · rw [a.info] at hnone
    cases hnone
  · exact ⟨⟨xml, doc', m, sig', c', hdoc', hm, hsig', hc'⟩, rfl, rfl⟩

/-- The source after a turn that fills in a DigestValue. -/
theorem After.reached_filled {digests : Nat → String} {xml : String} {j : Nat}
    (h : After lex lib src doc digests xml j)
    (hread : ReadsAgain lex lib (reached lib src doc digests j)) {current : Document}
    (hcurrent : lib.parse xml = .ok current) {r dv : Node}
    (hr : (referencesOf current.top)[j]? = some r) (hpending : isPending lib r = true)
    (hslot : OwnSlot lib xml current r dv) :
    reached lib src doc digests (j + 1)
      = filledSource lex lib (reached lib src doc digests j) "DigestValue" (digests j) := by
  obtain ⟨g, hg, again, hreads⟩ := hread
  have hsame : again = current := by
    have hp := hreads.parsed
    rw [Forest.text_mapKeys] at hp
    rw [h.text] at hcurrent
    exact Except.ok.inj (hp.symm.trans hcurrent)
  subst hsame
  obtain ⟨r₀, hr₀, hrr⟩ := references_read hreads hr
  have htop : again.top = (treeOf lex [] (reached lib src doc digests j)).mapKeys g :=
    hreads.tree.trans (treeOf_mapKeys [] _)
  have hown := hslot.own
  rw [hrr, ownDigestValue_mapKeys] at hown
  obtain ⟨d, hd, hdv⟩ := Option.map_eq_some_iff.mp hown
  have hfirst : emptyElementOf again.top "DigestValue" = some dv := hslot.first
  rw [htop, emptyElementOf_mapKeys] at hfirst
  obtain ⟨m, hm, hmdv⟩ := Option.map_eq_some_iff.mp hfirst
  have hmem : d ∈ (treeOf lex [] (reached lib src doc digests j)).cursors [] :=
    Forest.mem_cursors_descendants (reference_mem (List.mem_of_getElem? hr₀))
      ((Forest.row_sublist _ _).subset (Node.findChildElement_some hd).1)
  have hkey : d.key = m.key := hg (congrArg Forest.Cursor.key (hdv.trans hmdv.symm))
  have heq : d = m := Forest.cursor_eq_of_key ((keys_treeOf [] _).nodup h.nodup) hmem
    (List.mem_of_find?_eq_some hm) hkey
  have hdue : slot lib doc j = some m := by
    rw [hrr, isPending_mapKeys] at hpending
    rw [slot, ← h.later j (le_refl j), hr₀, Option.bind_some, if_pos hpending, hd, heq]
  rw [reached, hdue, filledSource, hm]

/-- **After `j` turns the first `j` References are verified.** -/
theorem digested_run (hxml : XmlIdNames lib.toUppsalaNs) (hback : Base64Back lib)
    (hrun : Run lib res idAttrs (sourceText src) turns texts)
    (hreads : RunReads lex lib res idAttrs src doc texts turns)
    (hfinds : ∀ j < turns, FindsOwn lib j (texts j))
    (hids : ∀ j ≤ turns, IdsRead lib idAttrs (texts j)) {start : Stage lib.toDsigLibs idAttrs}
    (hstart : start.xml = sourceText src) (hready : Ready start) :
    ∀ j ≤ turns, ∃ a : Stage lib.toDsigLibs idAttrs, a.xml = texts j ∧ Digested res j a
      ∧ Relation.ReflTransGen FilledFrom start a := by
  have hafter := after_turns hrun hreads fun j hj => (hfinds j hj).fillsOwn
  intro j
  induction j with
  | zero => exact fun _ => ⟨start, hstart.trans hrun.start.symm, hready.digested, .refl⟩
  | succ j ih =>
      intro hj
      obtain ⟨a, ha, hdig, hfrom⟩ := ih (by omega)
      obtain ⟨hnow, -⟩ := hafter j (by omega)
      obtain ⟨hnext, -⟩ := hafter (j + 1) hj
      have hread := hreads.again j (by omega) hnow.wellFormed hnow.nodup
      have hread' := hreads.again (j + 1) hj hnext.wellFormed hnext.nodup
      have hturn := hrun.turn j (by omega)
      have hparsed : lib.parse (texts j) = .ok a.doc := ha ▸ a.parsed
      -- what is filled in, if anything
      have hfills : ∀ r, a.references[j]? = some r → isPending lib r = true →
          ∃ dv, ownDigestValue r = some dv
            ∧ ∀ digest, turnDigest lib res idAttrs j a.xml = .ok digest →
              ∀ doc', lib.parse (texts (j + 1)) = .ok doc' → Fills a.doc dv digest doc' := by
        intro r hr hpending
        rw [← referencesOf_eq] at hr
        obtain ⟨dv, hslot⟩ := hfinds j (by omega) a.doc hparsed r hr hpending
        refine ⟨dv, hslot.own, fun digest hdigest => ?_⟩
        rw [ha] at hdigest
        have hreached := hnow.reached_filled hread hparsed hr hpending hslot
        rw [digestsOf_eq hdigest] at hreached
        rw [hreached] at hread'
        rw [hnow.text] at hparsed hslot
        have hfilled := replaceFirstEmptyElement_fills hreads.laws hnow.nodup hnow.wellFormed hread
          hread' (hreads.back j (by omega) digest hdigest) hparsed hslot.fillable
        rw [← hreached, ← hnext.text] at hfilled
        exact hfilled.2
      obtain ⟨b, hb⟩ : ∃ b : Stage lib.toDsigLibs idAttrs, b.xml = texts (j + 1) := by
        have hturn' := hturn
        rw [← ha] at hturn'
        obtain ⟨m, r, -, hr, hfill, hdigest⟩ := stage_turn hturn'
        rcases fillReference_ok hfill with ⟨-, hsame⟩ | ⟨hpending, digest, hd, -⟩
        · exact ⟨a, hsame.symm⟩
        · obtain ⟨dv, hown, hfilled⟩ := hfills r hr hpending
          obtain ⟨g, -, doc', hreads'⟩ := hread'
          have hdoc' : lib.parse (texts (j + 1)) = .ok doc' := by
            have hp := hreads'.parsed
            rw [Forest.text_mapKeys] at hp
            rw [hnext.text]
            exact hp
          have hf := hfilled digest (hdigest.trans hd) doc' hdoc'
          obtain ⟨b, hb, -⟩ := exists_stage hf.refilled (fun k hk => ⟨dv,
            .digestValue (List.mem_of_getElem? hr) hown, by
              rw [List.mem_singleton.mp hk]
              exact List.mem_cons_self⟩) hdoc' (hids (j + 1) hj)
          exact ⟨b, hb⟩
      have hstep : signReference lib res idAttrs j a.xml = .ok b.xml := by
        rw [ha, hb]
        exact hturn
      obtain ⟨hdig', hfrom'⟩ := hdig.turn hxml hback hstep fun r hr hpending => by
        obtain ⟨dv, hown, hfilled⟩ := hfills r hr hpending
        exact ⟨dv, hown, fun digest hdigest => hfilled digest hdigest b.doc (hb ▸ b.parsed)⟩
      exact ⟨b, hb, hdig', hfrom.trans hfrom'⟩

end Runs

end Sign

end Bergshamra
