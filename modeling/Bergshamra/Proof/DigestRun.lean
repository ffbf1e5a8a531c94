import Bergshamra.Proof.DigestTargets

/-!
# The loop over the References

Each turn parses the text that the last one left, so the nodes of the template
are followed through the sources that the turns make of it: the ids are those of
the template, and the text of a digest gets one that is not used yet. If in each
turn the element that is overwritten is the one of the Reference, each digest is
where it belongs, after every turn.
-/

namespace Bergshamra

open XmlSource

namespace Sign

/-! ## Sources with other ids -/

section Tree

variable {lex : Lexicon} {g : NodeId → NodeId}

/-- The elements of a chain, under other ids. -/
def relabelPath (g : NodeId → NodeId) (path : List (NodeId × Element)) : List (NodeId × Element) :=
  path.map (fun a => (g a.1, a.2))

theorem scopeNamespace_relabel (path : List (NodeId × Element)) (p : String) :
    scopeNamespace (relabelPath g path) p = scopeNamespace path p := by
  rw [scopeNamespace, relabelPath, List.findSome?_map, scopeNamespace]
  rfl

theorem elementOf_relabel (path : List (NodeId × Element)) (t : Tag) :
    elementOf lex (relabelPath g path) t = elementOf lex path t := by
  have hscope : ∀ p, scopeNamespace (scopeOf lex (relabelPath g path) t) p
      = scopeNamespace (scopeOf lex path t) p := by
    intro p
    rw [scopeOf, scopeOf, scopeNamespace, scopeNamespace, List.findSome?_cons, List.findSome?_cons,
      relabelPath, List.findSome?_map]
    rfl
  have hpfx : ∀ p, prefixNamespace (scopeOf lex (relabelPath g path) t) p
      = prefixNamespace (scopeOf lex path t) p := by
    intro p
    rw [prefixNamespace, hscope, prefixNamespace]
  have hname : ∀ n, elementName (scopeOf lex (relabelPath g path) t) n
      = elementName (scopeOf lex path t) n := by
    intro n
    rw [elementName, elementName, hscope]
    simp only [hpfx]
  have hattr : attributeName (scopeOf lex (relabelPath g path) t)
      = attributeName (scopeOf lex path t) := by
    funext n
    rw [attributeName, attributeName]
    simp only [hpfx]
  rw [elementOf, elementOf, hname]
  have hfield : fieldAttribute lex (scopeOf lex (relabelPath g path) t)
      = fieldAttribute lex (scopeOf lex path t) := by
    funext f
    rw [fieldAttribute, fieldAttribute, hattr]
  rw [hfield]

theorem treeOf_mapKeys (path : List (NodeId × Element)) (src : Source) :
    treeOf lex (relabelPath g path) (src.mapKeys g) = (treeOf lex path src).mapKeys g := by
  induction src generalizing path with
  | nil => rfl
  | leaf i p rest ih =>
      rw [Forest.mapKeys, treeOf, treeOf]
      cases leafOf lex p with
      | none => exact ih path
      | some k =>
          show Forest.leaf (g i) k _ = (Forest.leaf i k _).mapKeys g
          rw [Forest.mapKeys, ih]
  | node i t kids rest ihk ihr =>
      rw [Forest.mapKeys, treeOf, treeOf, Forest.mapKeys, elementOf_relabel, ihr, ← ihk]
      rfl

/-- A node of a source written anew is that node of the tree anew. -/
theorem treeOf_replaceNode {k : NodeId} {tags : List (NodeId × Tag)} {src : Source}
    (hn : src.keys.Nodup) {c : Forest.Cursor NodeId Tag Piece} (hc : c ∈ src.cursors tags)
    (hk : c.key = k) {t : Tag} {kids : Source} (hi : c.item = .node t kids) (t' : Tag)
    (kids' : Source) :
    treeOf lex (elementPath lex tags) (src.replaceNode k t' kids')
      = (treeOf lex (elementPath lex tags) src).replaceNode k
        (elementOf lex (elementPath lex c.path) t')
        (treeOf lex ((k, elementOf lex (elementPath lex c.path) t') :: elementPath lex c.path)
          kids') := by
  have hkeys : ∀ {path : List (NodeId × Element)} {s : Source}, k ∉ s.keys →
      k ∉ (treeOf lex path s).keys := fun hk' hin => hk' ((keys_treeOf _ _).subset hin)
  induction src generalizing tags with
  | nil => cases hc
  | leaf i p rest ih =>
      rw [Forest.keys_leaf, List.nodup_cons] at hn
      rcases List.mem_cons.mp hc with rfl | hc
      · cases hi
      · rw [Forest.replaceNode, treeOf, treeOf, ih hn.2 hc]
        cases leafOf lex p with
        | none => rfl
        | some l => rfl
  | node i t₀ kids₀ rest ihk ihr =>
      have hn' := hn
      rw [Forest.keys_node, List.nodup_cons, List.nodup_append] at hn'
      obtain ⟨hi₀, hnk, hnr, hd⟩ := hn'
      rw [Forest.cursors, List.mem_cons, List.mem_append] at hc
      rw [Forest.replaceNode, treeOf, Forest.replaceNode]
      rcases hc with rfl | hc | hc
      · have hik : i = k := hk
        rw [if_pos hik, if_pos hik, treeOf, hik]
      · have hkk : k ∈ kids₀.keys := hk ▸ Forest.mem_cursors_key hc
        have hik : i ≠ k := by
          rintro rfl
          exact hi₀ (List.mem_append_left _ hkk)
        have hrest : k ∉ rest.keys := fun h => hd k hkk k h rfl
        -- the element is in the content, so the chain grows by its parent
        have hsub := @ihk ((i, t₀) :: tags) hnk hc
        rw [elementPath] at hsub
        rw [if_neg hik, if_neg hik, treeOf, hsub, Forest.replaceNode_of_not_mem t' kids' hrest,
          Forest.replaceNode_of_not_mem _ _ (hkeys hrest)]
      · have hkr : k ∈ rest.keys := hk ▸ Forest.mem_cursors_key hc
        have hik : i ≠ k := by
          rintro rfl
          exact hi₀ (List.mem_append_right _ hkr)
        have hkk : k ∉ kids₀.keys := fun h => hd k h k hkr rfl
        rw [if_neg hik, if_neg hik, treeOf, ihr hnr hc, Forest.replaceNode_of_not_mem t' kids' hkk,
          Forest.replaceNode_of_not_mem _ _ (hkeys hkk)]

end Tree

/-! ## Turns -/

/-- The digest that a turn computes. -/
def turnDigest (lib : SignLibs) (res : Resources) (idAttrs : List String) (refIdx : Nat)
    (xml : String) : Except Error String := do
  let doc ← parseXml lib xml
  let idMap ← buildIdMap lib.toUppsalaNs doc idAttrs
  let sigNode ← requireElement doc Ns.DSIG "Signature"
  let signedInfo ← requireChild sigNode Ns.DSIG "SignedInfo" "SignedInfo"
  match (signedInfo.findChildElements Ns.DSIG "Reference")[refIdx]? with
  | none => .error .panics
  | some reference => referenceDigest lib res doc idMap xml sigNode.key reference

/-- The texts that the loop goes through. -/
structure Run (lib : SignLibs) (res : Resources) (idAttrs : List String) (template : String)
    (turns : Nat) (texts : Nat → String) : Prop where
  start : texts 0 = template
  turn : ∀ j < turns, signReference lib res idAttrs j (texts j) = .ok (texts (j + 1))

/-- What the loop returns is the last text of a run. -/
theorem signReferences_run {lib : SignLibs} {res : Resources} {idAttrs : List String}
    {refIdx n : Nat} {xml result : String}
    (h : signReferences lib res idAttrs refIdx xml n = .ok result) :
    ∃ texts : Nat → String, texts 0 = xml ∧ texts n = result
      ∧ ∀ j < n, signReference lib res idAttrs (refIdx + j) (texts j) = .ok (texts (j + 1)) := by
  induction n generalizing refIdx xml with
  | zero =>
      cases h
      exact ⟨fun _ => result, rfl, rfl, fun j hj => absurd hj (Nat.not_lt_zero j)⟩
  | succ n ih =>
      rw [signReferences] at h
      cases hturn : signReference lib res idAttrs refIdx xml with
      | error e =>
          rw [hturn] at h
          cases h
      | ok next =>
          rw [hturn] at h
          obtain ⟨texts, hstart, hend, hturns⟩ := ih h
          refine ⟨fun j => Nat.casesOn j xml texts, rfl, hend, fun j hj => ?_⟩
          cases j with
          | zero =>
              exact hturn.trans (congrArg Except.ok hstart.symm)
          | succ j =>
              have hj' := hturns j (by omega)
              rw [Nat.add_assoc, Nat.add_comm 1 j] at hj'
              exact hj'

/-- The DigestValue that is to be filled in for a Reference of the template. -/
def slot (lib : SignLibs) (doc : Document) (j : Nat) : Option Node :=
  ((referencesOf doc.top)[j]?).bind (fun reference =>
    if isPending lib reference then ownDigestValue reference else none)

def slotKeys (lib : SignLibs) (doc : Document) (j : Nat) : List NodeId :=
  (List.range j).filterMap (fun i => (slot lib doc i).map (fun dv : Node => dv.key))

/-- The DigestValue of the Reference is the element that is overwritten: the first one without a
text in the whole document. It holds no element, and its tag made anew is found and means the same
without its own declarations. -/
structure OwnSlot (lib : SignLibs) (xml : String) (doc : Document) (reference dv : Node) :
    Prop where
  own : ownDigestValue reference = some dv
  first : firstEmptyElement doc "DigestValue" = some dv
  noElement : hasElementChild dv = false
  colon : ¬ ColonMisleads lib xml dv
  scope : scopeNamespace dv.path (prefixOf dv) = some Ns.DSIG

/-- The turn writes into the DigestValue of its own Reference, if into any. -/
def FillsOwn (lib : SignLibs) (refIdx : Nat) (xml : String) : Prop :=
  ∀ doc, lib.parse xml = .ok doc → ∀ reference, (referencesOf doc.top)[refIdx]? = some reference →
    isPending lib reference = true →
      (∃ dv, OwnSlot lib xml doc reference dv)
        ∨ ownDigestValue reference = none ∧ firstEmptyElement doc "DigestValue" = none

/-- **Each digest is in its own Reference.** The text is a document that differs from the template
in nothing but the DigestValues that were to be filled in by the turns so far, none of which held
an element, and each of these holds the digest that was computed for its Reference. -/
def InPlace (lib : SignLibs) (res : Resources) (idAttrs : List String) (doc : Document)
    (texts : Nat → String) (turns : Nat) : Prop :=
  ∃ current top, lib.parse (texts turns) = .ok current ∧ current.top.shape = top.shape
    ∧ Forest.SameBut (slotKeys lib doc turns) doc.top top
    ∧ ∀ i < turns, ∀ dv, slot lib doc i = some dv → hasElementChild dv = false
      ∧ ∃ digest reference dv', turnDigest lib res idAttrs i (texts i) = .ok digest
        ∧ (referencesOf current.top)[i]? = some reference
        ∧ ownDigestValue reference = some dv' ∧ dv'.textContentDeep = digest

/-! ## The sources of the turns -/

/-- An id that is not used. -/
def fresh (src : Source) : NodeId := src.keys.foldr max 0 + 1

theorem fresh_not_mem (src : Source) : fresh src ∉ src.keys := by
  have hle : ∀ (l : List NodeId), ∀ k ∈ l, k ≤ l.foldr max 0 := by
    intro l
    induction l with
    | nil => exact fun k hk => absurd hk List.not_mem_nil
    | cons i l ih =>
        intro k hk
        rw [List.foldr_cons]
        rcases List.mem_cons.mp hk with rfl | hk
        · exact le_max_left _ _
        · exact le_trans (ih k hk) (le_max_right _ _)
  intro h
  exact absurd (hle src.keys _ h) (Nat.not_succ_le_self _)

/-- A text with an id that is not used. -/
def freshText (src : Source) (raw : List Char) : Source :=
  if raw = [] then .nil else .leaf (fresh src) (.text raw) .nil

theorem freshText_text (src : Source) (raw : List Char) :
    (freshText src raw).text spelling = raw := by
  rw [freshText]
  split
  · rename_i h
    rw [h]
    rfl
  · exact List.append_nil raw

theorem freshText_proper {lex : Lexicon} {path : List (NodeId × Element)} {src : Source}
    {raw : List Char} (h : IsCharacterData lex raw) : Proper lex path (freshText src raw) := by
  rw [freshText]
  split
  · trivial
  · rename_i hne
    exact ⟨h.resolve_left hne, fun _ => rfl, trivial⟩

theorem freshText_keys (src : Source) (raw : List Char) :
    (freshText src raw).keys.Nodup ∧ ∀ k ∈ (freshText src raw).keys, k = fresh src := by
  rw [freshText]
  split
  · exact ⟨List.nodup_nil, fun k hk => absurd hk List.not_mem_nil⟩
  · exact ⟨List.nodup_singleton _, fun k hk => List.mem_singleton.mp hk⟩

/-- The source after some turns: in the place of each DigestValue one with its digest. -/
def reached (lib : SignLibs) (src : Source) (doc : Document) (digests : Nat → String) :
    Nat → Source
  | 0 => src
  | j + 1 =>
      match slot lib doc j with
      | none => reached lib src doc digests j
      | some dv =>
          (reached lib src doc digests j).replaceNode dv.key (bareTag (newName dv "DigestValue"))
            (freshText (reached lib src doc digests j) (lib.writeText (digests j)).toList)

/-- What is written is read back. -/
def WrittenBack (lex : Lexicon) (lib : SignLibs) (content : String) : Prop :=
  (lib.writeText content).toList = [] ∧ content = ""
    ∨ lex.text (lib.writeText content).toList = some content.toList

theorem WrittenBack.isCharacterData {lex : Lexicon} {lib : SignLibs} {content : String}
    (h : WrittenBack lex lib content) : IsCharacterData lex (lib.writeText content).toList := by
  rcases h with h | h
  · exact Or.inl h.1
  · right
    rw [h]
    rfl

theorem WrittenBack.textContentDeep {lex : Lexicon} {lib : SignLibs} {content : String}
    (h : WrittenBack lex lib content) (src : Source) (key : NodeId)
    (path path' : List (NodeId × Element)) (e : Element) :
    Node.textContentDeep ⟨key, path, .node e
      (treeOf lex path' (freshText src (lib.writeText content).toList))⟩ = content := by
  rw [freshText]
  rcases h with ⟨hraw, hcontent⟩ | h
  · rw [if_pos hraw, hcontent]
    rfl
  · split
    · rename_i hraw
      have hne := lex.text_ne_nil _ (by rw [h]; rfl)
      exact absurd hraw hne
    · show String.join [String.ofList ((lex.text _).getD [])] = content
      rw [h, Option.getD_some, String.ofList_toList]
      simp [String.join]

/-! ## One DigestValue filled -/

section Fill

variable {lex : Lexicon} {lib : SignLibs} {src : Source}

/-- The DigestValue of a Reference, as it is written. -/
structure Slot (lex : Lexicon) (src : Source) (reference dv : Node)
    (c : Forest.Cursor NodeId Tag Piece) (t : Tag) (kids : Source) : Prop where
  own : ownDigestValue reference = some dv
  mem : c ∈ src.cursors []
  key : c.key = dv.key
  item : c.item = .node t kids
  path : dv.path = elementPath lex c.path
  element : dv.element? = some (elementOf lex (elementPath lex c.path) t)

theorem reference_mem {top : Nodes} {reference : Node} (h : reference ∈ referencesOf top) :
    reference ∈ top.cursors [] := by
  obtain ⟨signedInfo, hsi, href⟩ := mem_referencesOf h
  exact Forest.mem_cursors_descendants (signedInfoOf_mem hsi)
    ((Forest.row_sublist _ _).subset (Node.mem_findChildElements href).1)

theorem exists_slot {reference dv : Node} (hr : reference ∈ referencesOf (treeOf lex [] src))
    (hown : ownDigestValue reference = some dv) :
    ∃ c t kids, Slot lex src reference dv c t kids := by
  obtain ⟨hchild, e, he, -⟩ := Node.findChildElement_some hown
  have hmem : dv ∈ (treeOf lex [] src).cursors [] :=
    Forest.mem_cursors_descendants (reference_mem hr) ((Forest.row_sublist _ _).subset hchild)
  obtain ⟨key, path, item⟩ := dv
  cases item with
  | leaf l => cases he
  | node e' ekids =>
      obtain ⟨c, hc, t, kids, hkey, hitem, hpath, helem, -⟩ := @exists_tag lex [] src _ hmem _ _ rfl
      exact ⟨c, t, kids, hown, hc, hkey, hitem, hpath, congrArg some helem⟩

/-- A name that means a signature element without declarations of its own. -/
theorem bareTag_isNamed {path : List (NodeId × Element)} {t : Tag} {dv : Node} {localName : String}
    (helem : dv.element? = some (elementOf lex path t)) (hvalid : validName lex t.name = true)
    (hnamed : (elementOf lex path t).isNamed Ns.DSIG localName = true)
    (hscope : scopeNamespace path (prefixOf dv) = some Ns.DSIG) :
    NameInScope lex path t.name
      ∧ (elementOf lex path (bareTag t.name)).isNamed Ns.DSIG localName = true := by
  have hbare : ∀ p, scopeNamespace (scopeOf lex path (bareTag t.name)) p = scopeNamespace path p := by
    intro p
    rw [scopeOf, scopeNamespace, scopeNamespace, List.findSome?_cons]
    rfl
  rw [Element.isNamed, Bool.and_eq_true, beq_iff_eq, beq_iff_eq] at hnamed ⊢
  cases hs : nameParts t.name with
  | mk p l =>
      cases p with
      | none =>
          -- without a prefix the name is in the default namespace of the chain
          have hpfx : prefixOf dv = "" := by
            rw [prefixOf, helem]
            show (((elementName _ t.name).pfx).getD "") = ""
            rw [elementName, hs]
            rfl
          have hlocal : String.ofList l = localName := by
            rw [← hnamed.1]
            show _ = (elementName _ t.name).localName
            rw [elementName, hs]
          refine ⟨⟨hvalid, fun p' l' he => ?_⟩, ?_⟩
          · rw [hs] at he
            cases he
          · show (elementName _ t.name).localName = _ ∧ (elementName _ t.name).uri = _
            rw [elementName, hs]
            refine ⟨hlocal, ?_⟩
            show ((scopeNamespace (scopeOf lex path (bareTag t.name)) "").getD "") = _
            rw [hbare, ← hpfx, hscope]
            rfl
      | some p =>
          have hpfx : prefixOf dv = String.ofList p := by
            rw [prefixOf, helem]
            show (((elementName _ t.name).pfx).getD "") = _
            rw [elementName, hs]
            rfl
          have hlocal : String.ofList l = localName := by
            rw [← hnamed.1]
            show _ = (elementName _ t.name).localName
            rw [elementName, hs]
          -- `xml` is bound to another namespace
          have hxml : String.ofList p ≠ "xml" := by
            intro he
            have huri := hnamed.2
            change (elementName _ t.name).uri = _ at huri
            rw [elementName, hs] at huri
            change ((prefixNamespace (scopeOf lex path t) (String.ofList p)).getD "") = _ at huri
            rw [prefixNamespace, if_pos he] at huri
            exact absurd huri (by decide)
          rw [hpfx] at hscope
          refine ⟨⟨hvalid, fun p' l' he => ?_⟩, ?_⟩
          · rw [hs] at he
            cases he
            rw [prefixNamespace, if_neg hxml, hscope]
            rfl
          · show (elementName _ t.name).localName = _ ∧ (elementName _ t.name).uri = _
            rw [elementName, hs]
            refine ⟨hlocal, ?_⟩
            show ((prefixNamespace (scopeOf lex path (bareTag t.name)) (String.ofList p)).getD "") = _
            rw [prefixNamespace, if_neg hxml, hbare, hscope]
            rfl

/-- **A DigestValue filled.** The tree gets another node in its place, the source stays what it
was otherwise. -/
structure Filled (lex : Lexicon) (src src' : Source) (dv : Node) (content : String) : Prop where
  nodup : src'.keys.Nodup
  wellFormed : WellFormed lex src'
  tree : ∃ e' kids', e'.isNamed Ns.DSIG "DigestValue" = true
    ∧ treeOf lex [] src' = (treeOf lex [] src).replaceNode dv.key e' kids'
    ∧ ∀ key path, Node.textContentDeep ⟨key, path, .node e' kids'⟩ = content

theorem fill_slot (hn : src.keys.Nodup) (hwf : WellFormed lex src) {reference dv : Node}
    (hr : reference ∈ referencesOf (treeOf lex [] src)) (hown : ownDigestValue reference = some dv)
    (hscope : scopeNamespace dv.path (prefixOf dv) = some Ns.DSIG) {content : String}
    (hback : WrittenBack lex lib content) :
    Filled lex src (src.replaceNode dv.key (bareTag (newName dv "DigestValue"))
      (freshText src (lib.writeText content).toList)) dv content := by
  obtain ⟨c, t, kids, hs⟩ := exists_slot hr hown
  obtain ⟨-, e, he, hnamed⟩ := Node.findChildElement_some hown
  have hproper := @proper_node lex [] src hwf.proper c hs.mem t kids hs.item
  have hvalid := validName_of_properTag hproper.1
  have hname : newName dv "DigestValue" = t.name := by
    rw [newName, ← localName_of_isNamed hnamed]
    exact name_of_tag hs.element hvalid he
  rw [hs.element] at he
  cases he
  rw [hs.path] at hscope
  obtain ⟨hinScope, hbare⟩ := bareTag_isNamed hs.element hvalid hnamed hscope
  rw [hname]
  have htree := @treeOf_replaceNode lex dv.key [] src hn c hs.mem hs.key t kids hs.item
    (bareTag t.name) (freshText src (lib.writeText content).toList)
  refine ⟨?_, ⟨?_, oneRoot_replaceNode hwf.oneRoot⟩,
    ⟨_, _, hbare, htree, fun key path => hback.textContentDeep src key path _ _⟩⟩
  · have hfresh := freshText_keys src (lib.writeText content).toList
    rw [← hs.key]
    refine Forest.nodup_replaceNode hn hs.mem hs.item hfresh.1 (fun k hk hin => ?_)
    rw [hfresh.2 k hk] at hin
    exact fresh_not_mem src hin
  · exact @proper_replaceNode lex dv.key [] src hn hwf.proper c hs.mem hs.key t kids hs.item _ _
      (properTag_bareTag_iff.mpr hinScope) (absurd · (Option.some_ne_none _))
      (freshText_proper hback.isCharacterData)

end Fill

/-! ## One turn -/

section Turn

variable {lex : Lexicon} {lib : SignLibs} {res : Resources} {idAttrs : List String}

/-- What a turn does once its Reference is found. -/
theorem signReference_ok {j : Nat} {xml next : String} {doc : Document}
    (h : signReference lib res idAttrs j xml = .ok next) (hdoc : lib.parse xml = .ok doc) :
    ∃ idMap sigNode reference, (referencesOf doc.top)[j]? = some reference
      ∧ fillReference lib res doc idMap xml sigNode reference = .ok next
      ∧ turnDigest lib res idAttrs j xml = referenceDigest lib res doc idMap xml sigNode reference := by
  have hparse : parseXml lib xml = .ok doc := by
    rw [parseXml, hdoc]
  rw [turnDigest, hparse]
  rw [signReference, hparse] at h
  simp only [bind, Except.bind] at h ⊢
  cases hid : buildIdMap lib.toUppsalaNs doc idAttrs with
  | error e =>
      rw [hid] at h
      cases h
  | ok idMap =>
      rw [hid] at h
      simp only at h
      cases hsig : doc.findElement Ns.DSIG "Signature" with
      | none =>
          rw [requireElement, hsig] at h
          cases h
      | some sig =>
          have hrequire : requireElement doc Ns.DSIG "Signature" = .ok sig := by
            rw [requireElement, hsig]
          rw [hrequire] at h ⊢
          simp only at h ⊢
          cases hsi : sig.findChildElement Ns.DSIG "SignedInfo" with
          | none =>
              rw [requireChild, hsi] at h
              cases h
          | some signedInfo =>
              have hrequire' : requireChild sig Ns.DSIG "SignedInfo" "SignedInfo"
                  = .ok signedInfo := by
                rw [requireChild, hsi]
              -- the References are read off the tree as signing finds them
              have hrefs : referencesOf doc.top
                  = signedInfo.findChildElements Ns.DSIG "Reference" := by
                have hfind : (doc.top.cursors []).find? (fun n : Node =>
                    n.isNamed Ns.DSIG "Signature") = some sig := hsig
                rw [referencesOf, signedInfoOf, hfind, Option.bind_some, hsi]
              rw [hrequire'] at h ⊢
              simp only at h ⊢
              rw [hrefs]
              cases href : (signedInfo.findChildElements Ns.DSIG "Reference")[j]? with
              | none =>
                  rw [href] at h
                  cases h
              | some reference =>
                  rw [href] at h
                  exact ⟨idMap, sig.key, reference, rfl, h, rfl⟩

/-- A turn whose Reference is known. -/
theorem signReference_eq {j : Nat} {xml : String} {doc : Document} {idMap : IdMap}
    {sig reference : Node} (hdoc : lib.parse xml = .ok doc)
    (hid : buildIdMap lib.toUppsalaNs doc idAttrs = .ok idMap)
    (hsig : doc.findElement Ns.DSIG "Signature" = some sig)
    (href : (referencesOf doc.top)[j]? = some reference) :
    signReference lib res idAttrs j xml = fillReference lib res doc idMap xml sig.key reference
      ∧ turnDigest lib res idAttrs j xml
        = referenceDigest lib res doc idMap xml sig.key reference := by
  have hparse : parseXml lib xml = .ok doc := by
    rw [parseXml, hdoc]
  have hrequire : requireElement doc Ns.DSIG "Signature" = .ok sig := by
    rw [requireElement, hsig]
  have hfind : (doc.top.cursors []).find? (fun n : Node => n.isNamed Ns.DSIG "Signature")
      = some sig := hsig
  rw [referencesOf, signedInfoOf, hfind, Option.bind_some] at href
  cases hsi : sig.findChildElement Ns.DSIG "SignedInfo" with
  | none =>
      rw [hsi] at href
      cases href
  | some signedInfo =>
      rw [hsi] at href
      have hrequire' : requireChild sig Ns.DSIG "SignedInfo" "SignedInfo" = .ok signedInfo := by
        rw [requireChild, hsi]
      rw [signReference, turnDigest, hparse]
      simp only [bind, Except.bind, hid, hrequire, hrequire', href, and_self]

/-- The turn of a Reference to something that comes with the message. -/
theorem fillReference_cid {doc : Document} {idMap : IdMap} {xml : String} {sigNode : NodeId}
    {reference : Node}
    (hcid : startsWithStr "cid:" (referenceUri lib.toUppsala reference) = true) :
    fillReference lib res doc idMap xml sigNode reference = .ok xml := by
  rw [fillReference, if_pos hcid]

/-- The turn of a Reference whose digest is written. -/
theorem fillReference_pending {doc : Document} {idMap : IdMap} {xml digest : String}
    {sigNode : NodeId} {reference : Node} (hpending : isPending lib reference = true)
    (hdigest : referenceDigest lib res doc idMap xml sigNode reference = .ok digest) :
    fillReference lib res doc idMap xml sigNode reference
      = replaceFirstEmptyElement lib xml "DigestValue" digest := by
  rw [isPending, Bool.and_eq_true, Bool.not_eq_true'] at hpending
  rw [fillReference, hpending.1, if_neg (by decide), hdigest]
  simp only [bind, Except.bind, hpending.2, if_true]

/-- A Reference that is not pending is passed over, and one that is gets its digest written. -/
theorem fillReference_ok {doc : Document} {idMap : IdMap} {xml next : String} {sigNode : NodeId}
    {reference : Node} (h : fillReference lib res doc idMap xml sigNode reference = .ok next) :
    isPending lib reference = false ∧ next = xml
      ∨ isPending lib reference = true ∧ ∃ digest,
        referenceDigest lib res doc idMap xml sigNode reference = .ok digest
          ∧ replaceFirstEmptyElement lib xml "DigestValue" digest = .ok next := by
  rw [fillReference] at h
  rw [isPending]
  cases hcid : startsWithStr "cid:" (referenceUri lib.toUppsala reference) with
  | true =>
      rw [hcid, if_pos rfl] at h
      cases h
      exact Or.inl ⟨rfl, rfl⟩
  | false =>
      rw [hcid, if_neg (by decide)] at h
      cases hdigest : referenceDigest lib res doc idMap xml sigNode reference with
      | error e =>
          rw [hdigest] at h
          cases h
      | ok digest =>
          rw [hdigest] at h
          simp only [bind, Except.bind] at h
          cases hblank : (trimStr (digestValueText reference)).isEmpty with
          | false =>
              rw [hblank, if_neg (by decide)] at h
              cases h
              exact Or.inl ⟨rfl, rfl⟩
          | true =>
              rw [hblank, if_pos rfl] at h
              exact Or.inr ⟨rfl, digest, rfl, h⟩

/-- The state after some turns, with the ids of the template. -/
structure After (lex : Lexicon) (lib : SignLibs) (src : Source) (doc : Document)
    (digests : Nat → String) (xml : String) (j : Nat) : Prop where
  text : xml = sourceText (reached lib src doc digests j)
  nodup : (reached lib src doc digests j).keys.Nodup
  wellFormed : WellFormed lex (reached lib src doc digests j)
  same : Forest.SameBut (slotKeys lib doc j) doc.top
    (treeOf lex [] (reached lib src doc digests j))
  later : ∀ i, j ≤ i → (referencesOf (treeOf lex [] (reached lib src doc digests j)))[i]?
    = (referencesOf doc.top)[i]?
  filled : ∀ i < j, ∀ dv, slot lib doc i = some dv → ∃ reference dv',
    (referencesOf (treeOf lex [] (reached lib src doc digests j)))[i]? = some reference
      ∧ ownDigestValue reference = some dv' ∧ dv'.textContentDeep = digests i

variable {src : Source} {doc : Document} {digests : Nat → String} {xml : String} {j : Nat}

/-- A turn without a DigestValue to fill in. -/
theorem After.skip (h : After lex lib src doc digests xml j) (hslot : slot lib doc j = none) :
    After lex lib src doc digests xml (j + 1) := by
  have hreached : reached lib src doc digests (j + 1) = reached lib src doc digests j := by
    rw [reached, hslot]
  have hkeys : slotKeys lib doc (j + 1) = slotKeys lib doc j := by
    rw [slotKeys, List.range_succ, List.filterMap_append, slotKeys, List.filterMap_cons, hslot]
    exact List.append_nil _
  refine ⟨?_, ?_, ?_, ?_, fun i hi => ?_, fun i hi dv hdv => ?_⟩
  · rw [hreached]
    exact h.text
  · rw [hreached]
    exact h.nodup
  · rw [hreached]
    exact h.wellFormed
  · rw [hreached, hkeys]
    exact h.same
  · rw [hreached]
    exact h.later i (by omega)
  · rw [hreached]
    have hne : i ≠ j := by
      rintro rfl
      rw [hslot] at hdv
      cases hdv
    exact h.filled i (by omega) dv hdv

/-- A turn that fills in the DigestValue of its own Reference. -/
theorem After.fill (h : After lex lib src doc digests xml j) {reference dv : Node}
    (href : (referencesOf doc.top)[j]? = some reference)
    (hpending : isPending lib reference = true) (hown : ownDigestValue reference = some dv)
    (hscope : scopeNamespace dv.path (prefixOf dv) = some Ns.DSIG)
    (hback : WrittenBack lex lib (digests j)) :
    After lex lib src doc digests (sourceText (reached lib src doc digests (j + 1))) (j + 1) := by
  have hslot : slot lib doc j = some dv := by
    rw [slot, href, Option.bind_some, if_pos hpending, hown]
  have hcurrent : (referencesOf (treeOf lex [] (reached lib src doc digests j)))[j]?
      = some reference := (h.later j (le_refl j)).trans href
  have hmem := List.mem_of_getElem? hcurrent
  have htreeKeys : (treeOf lex [] (reached lib src doc digests j)).keys.Nodup :=
    (keys_treeOf [] _).nodup h.nodup
  have hfilled := fill_slot h.nodup h.wellFormed hmem hown hscope hback
  have hreached : reached lib src doc digests (j + 1)
      = (reached lib src doc digests j).replaceNode dv.key (bareTag (newName dv "DigestValue"))
        (freshText (reached lib src doc digests j) (lib.writeText (digests j)).toList) := by
    rw [reached, hslot]
  rw [← hreached] at hfilled
  obtain ⟨e', kids', hnamed, htree, hcontent⟩ := hfilled.tree
  have hreferenceKeys : reference.subtreeKeys.Nodup :=
    (Forest.subtreeKeys_sublist (reference_mem hmem)).nodup htreeKeys
  have hbelow : dv.key ∈ reference.kids.keys :=
    (child_subtreeKeys (Node.findChildElement_some hown).1).subset List.mem_cons_self
  have hrefs := @referencesOf_replaceNode _ dv.key e' kids' htreeKeys _ hmem hbelow
  rw [← htree] at hrefs
  -- what stands at another number is not the Reference of this turn
  have hother : ∀ i r, i ≠ j →
      (referencesOf (treeOf lex [] (reached lib src doc digests j)))[i]? = some r →
      r.refill dv.key e' kids' = r := by
    intro i r hij hr
    refine refill_other htreeKeys hmem (List.mem_of_getElem? hr) (fun hsame => hij ?_) hbelow
    have hlt : i < (referencesOf (treeOf lex [] (reached lib src doc digests j))).length :=
      (List.getElem?_eq_some_iff.mp hr).1
    exact (List.getElem?_inj hlt (referencesOf_nodup htreeKeys)).mp (by rw [hr, hcurrent, hsame])
  refine ⟨rfl, hfilled.nodup, hfilled.wellFormed, ?_, fun i hi => ?_, fun i hi dv' hdv' => ?_⟩
  · rw [htree]
    refine h.same.replaceNode.mono (List.cons_subset.mpr ⟨?_, ?_⟩)
    · rw [slotKeys, List.range_succ, List.filterMap_append, List.mem_append]
      right
      rw [List.filterMap_cons, hslot]
      exact List.mem_cons_self
    · rw [slotKeys, slotKeys, List.range_succ, List.filterMap_append]
      exact List.subset_append_left _ _
  · rw [hrefs, List.getElem?_map, ← h.later i (by omega)]
    cases hr : (referencesOf (treeOf lex [] (reached lib src doc digests j)))[i]? with
    | none => rfl
    | some r => exact congrArg some (hother i r (by omega) hr)
  · rw [hrefs, List.getElem?_map]
    by_cases hij : i = j
    · subst hij
      rw [hslot] at hdv'
      cases hdv'
      rw [hcurrent]
      exact ⟨_, _, rfl, ownDigestValue_refill hreferenceKeys hown hnamed, hcontent _ _⟩
    · obtain ⟨r, own, hr, howned, htext⟩ := h.filled i (by omega) dv' hdv'
      rw [hr, Option.map_some, hother i r hij hr]
      exact ⟨r, own, rfl, howned, htext⟩

theorem prefixOf_mapKeys (g : NodeId → NodeId) (n : Node) :
    prefixOf (n.mapKeys g) = prefixOf n := by
  rw [prefixOf, element?_mapKeys, prefixOf]

theorem hasElementChild_mapKeys (g : NodeId → NodeId) (n : Node) :
    hasElementChild (n.mapKeys g) = hasElementChild n := by
  rw [hasElementChild, Forest.Cursor.children_mapKeys, List.any_map, hasElementChild]
  refine congrArg (List.any n.children) ?_
  funext c
  exact congrArg Option.isSome (element?_mapKeys g c)

/-- The text of a filled DigestValue, whatever the ids of the parse. -/
theorem sourceText_fill {g : NodeId → NodeId} (hg : Function.Injective g) (c : Source) (k : NodeId)
    (t : Tag) (raw : List Char) :
    sourceText ((c.mapKeys g).replaceNode (g k) t (textKids raw))
      = sourceText (c.replaceNode k t (freshText c raw)) := by
  have hkids : (textKids raw).text spelling = ((freshText c raw).mapKeys g).text spelling := by
    rw [textKids_text, Forest.text_mapKeys, freshText_text]
  rw [sourceText, Forest.text_replaceNode_congr hkids, Forest.replaceNode_mapKeys hg,
    Forest.text_mapKeys, sourceText]

/-- The parser reads a document, under ids of its own. -/
def ReadsAgain (lex : Lexicon) (lib : SignLibs) (src : Source) : Prop :=
  ∃ g : NodeId → NodeId, Function.Injective g ∧ ∃ doc, ReadsTemplate lex lib (src.mapKeys g) doc

/-- What is read of a source, with the ids of the source. -/
theorem references_read {g : NodeId → NodeId} {src : Source} {doc : Document}
    (h : ReadsTemplate lex lib (src.mapKeys g) doc) {j : Nat} {reference : Node}
    (href : (referencesOf doc.top)[j]? = some reference) :
    ∃ r, (referencesOf (treeOf lex [] src))[j]? = some r ∧ reference = r.mapKeys g := by
  have htree : doc.top = (treeOf lex [] src).mapKeys g := h.tree.trans (treeOf_mapKeys [] src)
  rw [htree, referencesOf_mapKeys, List.getElem?_map] at href
  obtain ⟨r, hr, hsame⟩ := Option.map_eq_some_iff.mp href
  exact ⟨r, hr, hsame.symm⟩

/-- **One turn** of the loop that writes into the DigestValue of its own Reference. -/
theorem After.turn (h : After lex lib src doc digests xml j) (laws : WriterLaws lib)
    (hread : ReadsAgain lex lib (reached lib src doc digests j)) {next : String}
    (hturn : signReference lib res idAttrs j xml = .ok next) (hfills : FillsOwn lib j xml)
    (hdigest : ∀ digest, turnDigest lib res idAttrs j xml = .ok digest →
      digests j = digest ∧ WrittenBack lex lib digest) :
    After lex lib src doc digests next (j + 1)
      ∧ ∀ dv, slot lib doc j = some dv → hasElementChild dv = false
        ∧ turnDigest lib res idAttrs j xml = .ok (digests j) := by
  obtain ⟨g, hg, current, hreads⟩ := hread
  have hsource : sourceText ((reached lib src doc digests j).mapKeys g) = xml := by
    rw [sourceText, Forest.text_mapKeys, h.text, sourceText]
  have hparsed : lib.parse xml = .ok current := by
    rw [← hsource]
    exact hreads.parsed
  obtain ⟨idMap, sigNode, reference, href, hfill, hcomputed⟩ := signReference_ok hturn hparsed
  obtain ⟨r, hr, hsame⟩ := references_read hreads href
  have hr₀ : (referencesOf doc.top)[j]? = some r := (h.later j (le_refl j)).symm.trans hr
  have hpending : isPending lib reference = isPending lib r := by
    rw [hsame, isPending_mapKeys]
  have hown : ownDigestValue reference = (ownDigestValue r).map (Forest.Cursor.mapKeys g) := by
    rw [hsame, ownDigestValue_mapKeys]
  rcases fillReference_ok hfill with ⟨hnot, hnext⟩ | ⟨hyes, digest, hd, hreplace⟩
  · -- a Reference that waits for no digest is passed over
    have hslot : slot lib doc j = none := by
      rw [slot, hr₀, Option.bind_some, ← hpending, hnot]
      rfl
    rw [hnext]
    refine ⟨h.skip hslot, fun dv hdv => ?_⟩
    rw [hslot] at hdv
    cases hdv
  · rcases hfills current hparsed reference href hyes with ⟨dv', hdv'⟩ | ⟨hnone, hfirst⟩
    · have howned := hdv'.own
      rw [hown] at howned
      obtain ⟨dv, hdv, hmap⟩ := Option.map_eq_some_iff.mp howned
      have hturned := hdigest digest (hcomputed.trans hd)
      have hscope : scopeNamespace dv.path (prefixOf dv) = some Ns.DSIG := by
        have hs := hdv'.scope
        rw [← hmap, prefixOf_mapKeys] at hs
        exact (scopeNamespace_relabel (g := g) dv.path (prefixOf dv)).symm.trans hs
      have hslot : slot lib doc j = some dv := by
        rw [slot, hr₀, Option.bind_some, ← hpending, hyes, if_pos rfl, hdv]
      obtain ⟨hmem, e, he, hlocal⟩ := firstEmptyElement_some hdv'.first
      have hpfx := (prefixFound_iff hreads hmem he).mpr (hsource ▸ hdv'.colon)
      rw [hlocal] at hpfx
      have hwritten := @replaceFirstEmptyElement_eq _ _ _ _ _ laws hreads _ digest hdv'.first hpfx
      rw [hsource, hreplace] at hwritten
      have hname : newName dv' "DigestValue" = newName dv "DigestValue" := by
        rw [newName, newName, ← hmap, prefixOf_mapKeys]
      have hkey : dv'.key = g dv.key := by
        rw [← hmap]
        rfl
      -- the ids of this parse are renamed to those of the template
      rw [hname, hkey, sourceText_fill hg, ← hturned.1] at hwritten
      have hfilled := h.fill hr₀ (hpending ▸ hyes) hdv hscope (hturned.1.symm ▸ hturned.2)
      have hnext : next = sourceText (reached lib src doc digests (j + 1)) := by
        rw [reached, hslot]
        exact Except.ok.inj hwritten
      rw [hnext]
      refine ⟨hfilled, fun other hother => ?_⟩
      rw [hslot] at hother
      cases hother
      have helem := hdv'.noElement
      rw [← hmap, hasElementChild_mapKeys] at helem
      exact ⟨helem, by rw [hcomputed, hd, hturned.1]⟩
    · -- there is nothing to write into
      rw [hown, Option.map_eq_none_iff] at hnone
      have hslot : slot lib doc j = none := by
        rw [slot, hr₀, Option.bind_some, hnone]
        exact ite_self _
      have hnext : next = xml := by
        rw [replaceFirstEmptyElement, hparsed] at hreplace
        simp only [hfirst] at hreplace
        exact (Except.ok.inj hreplace).symm
      rw [hnext]
      refine ⟨h.skip hslot, fun dv hdv => ?_⟩
      rw [hslot] at hdv
      cases hdv

end Turn

/-! ## Runs -/

section Runs

variable {lex : Lexicon} {lib : SignLibs} {res : Resources} {idAttrs : List String} {src : Source}
  {doc : Document} {texts : Nat → String} {turns : Nat}

/-- The digests that the turns of a run compute. -/
def digestsOf (lib : SignLibs) (res : Resources) (idAttrs : List String) (texts : Nat → String)
    (j : Nat) : String :=
  match turnDigest lib res idAttrs j (texts j) with
  | .ok digest => digest
  | .error _ => ""

theorem digestsOf_eq {j : Nat} {digest : String}
    (h : turnDigest lib res idAttrs j (texts j) = .ok digest) :
    digestsOf lib res idAttrs texts j = digest := by
  rw [digestsOf, h]

/-- Before the first turn. -/
theorem After.start (h : ReadsTemplate lex lib src doc) (digests : Nat → String) :
    After lex lib src doc digests (sourceText src) 0 where
  text := rfl
  nodup := h.nodup
  wellFormed := h.wellFormed
  same := by
    rw [h.tree]
    exact Forest.SameBut.refl _ _
  later i _ := by
    rw [h.tree]
    rfl
  filled i hi := absurd hi (Nat.not_lt_zero i)

/-- What the parser, the writer and the digests of a run are to be: each text that is reached is
read, if it is well-formed, and each digest that is written is read back. -/
structure RunReads (lex : Lexicon) (lib : SignLibs) (res : Resources) (idAttrs : List String)
    (src : Source) (doc : Document) (texts : Nat → String) (turns : Nat) : Prop where
  laws : WriterLaws lib
  template : ReadsTemplate lex lib src doc
  again : ∀ j ≤ turns, WellFormed lex (reached lib src doc (digestsOf lib res idAttrs texts) j) →
    (reached lib src doc (digestsOf lib res idAttrs texts) j).keys.Nodup →
    ReadsAgain lex lib (reached lib src doc (digestsOf lib res idAttrs texts) j)
  back : ∀ j < turns, ∀ digest, turnDigest lib res idAttrs j (texts j) = .ok digest →
    WrittenBack lex lib digest

/-- After some turns, each of which wrote into the DigestValue of its own Reference. -/
theorem after_turns (hrun : Run lib res idAttrs (sourceText src) turns texts)
    (hreads : RunReads lex lib res idAttrs src doc texts turns)
    (hfills : ∀ j < turns, FillsOwn lib j (texts j)) :
    ∀ j ≤ turns, After lex lib src doc (digestsOf lib res idAttrs texts) (texts j) j
      ∧ ∀ i < j, ∀ dv, slot lib doc i = some dv → hasElementChild dv = false
        ∧ turnDigest lib res idAttrs i (texts i) = .ok (digestsOf lib res idAttrs texts i) := by
  intro j
  induction j with
  | zero =>
      intro _
      rw [hrun.start]
      exact ⟨After.start hreads.template _, fun i hi => absurd hi (Nat.not_lt_zero i)⟩
  | succ j ih =>
      intro hj
      obtain ⟨hafter, hearlier⟩ := ih (by omega)
      have hread := hreads.again j (by omega) hafter.wellFormed hafter.nodup
      obtain ⟨hnext, hthis⟩ := hafter.turn hreads.laws hread (hrun.turn j (by omega))
        (hfills j (by omega))
        (fun digest hd => ⟨digestsOf_eq hd, hreads.back j (by omega) digest hd⟩)
      refine ⟨hnext, fun i hi dv hdv => ?_⟩
      by_cases hij : i = j
      · subst hij
        exact hthis dv hdv
      · exact hearlier i (by omega) dv hdv

/-- **Each digest lands in its own Reference**, in every state of a run whose turns write into the
DigestValue of their own Reference. -/
theorem digests_in_place (hrun : Run lib res idAttrs (sourceText src) turns texts)
    (hreads : RunReads lex lib res idAttrs src doc texts turns)
    (hfills : ∀ j < turns, FillsOwn lib j (texts j)) :
    ∀ j ≤ turns, InPlace lib res idAttrs doc texts j := by
  intro j hj
  obtain ⟨hafter, hturns⟩ := after_turns hrun hreads hfills j hj
  obtain ⟨g, hg, current, hcurrent⟩ := hreads.again j hj hafter.wellFormed hafter.nodup
  have htree : current.top = (treeOf lex []
      (reached lib src doc (digestsOf lib res idAttrs texts) j)).mapKeys g :=
    hcurrent.tree.trans (treeOf_mapKeys [] _)
  have hparsed : lib.parse (texts j) = .ok current := by
    have hp := hcurrent.parsed
    rw [Forest.text_mapKeys] at hp
    rw [hafter.text]
    exact hp
  refine ⟨current, _, hparsed, ?_, hafter.same, fun i hi dv hdv => ?_⟩
  · rw [htree, Forest.shape, Forest.mapKeys_mapKeys]
    rfl
  · obtain ⟨helem, hdigest⟩ := hturns i hi dv hdv
    obtain ⟨reference, dv', href, hown, htext⟩ := hafter.filled i hi dv hdv
    refine ⟨helem, _, reference.mapKeys g, dv'.mapKeys g, hdigest, ?_, ?_, ?_⟩
    · rw [htree, referencesOf_mapKeys, List.getElem?_map, href]
      rfl
    · rw [ownDigestValue_mapKeys, hown]
      rfl
    · rw [textContentDeep_mapKeys, htext]

end Runs

/-! ## Two References -/

namespace TurnSample

/-- An element that names an algorithm. -/
def method (key : NodeId) (name algorithm : String) (rest : Source) : Source :=
  .node key (fieldTag name.toList "Algorithm".toList algorithm none) .nil rest

/-- A Reference to something outside of the document. -/
def referenceTo (key : NodeId) (uri : String) (digestValue : Source) (rest : Source) : Source :=
  .node key (fieldTag "Reference".toList "URI".toList uri (some []))
    (method (key + 1) "DigestMethod" "http://www.w3.org/2001/04/xmlenc#sha256" digestValue) rest

/-- `<DigestValue/>`. -/
def blankTag : Tag := ⟨"DigestValue".toList, [], [], none⟩

def blank (key : NodeId) : Source := .node key blankTag .nil .nil

/-- The digest of an empty file. -/
def emptyDigest : String := "47DEQpj8HBSa+/TImW+5JCeuQeRkm5NMpJWZG3hSuFU="

/-- The same, filled in. -/
def digested (key text : NodeId) : Source :=
  .node key (bareTag "DigestValue".toList) (.leaf text (.text emptyDigest.toList) .nil) .nil

/-- A template with two References. -/
def template (uri₁ uri₂ : String) (value₁ value₂ : Source) : Source :=
  .node 1 (fieldTag "Signature".toList "xmlns".toList Ns.DSIG (some []))
    (.node 2 (bareTag "SignedInfo".toList)
      (method 10 "CanonicalizationMethod" "http://www.w3.org/2001/10/xml-exc-c14n#"
        (method 11 "SignatureMethod" Algorithm.HMAC_SHA256
          (referenceTo 3 uri₁ value₁ (referenceTo 6 uri₂ value₂ .nil)))) .nil) .nil

/-- The attachment comes second. -/
def last (value : Source) : Source := template "data.bin" "cid:a" value (blank 8)

/-- The attachment comes first. -/
def first (value₁ value₂ : Source) : Source := template "cid:a" "data.bin" value₁ value₂

def table : List Source :=
  [last (blank 5), last (digested 5 12), first (blank 5) (blank 8),
    first (digested 5 12) (blank 8), first (blank 5) (digested 8 12)]

def sha : ByteArray → ByteArray :=
  sumOr [] [227, 176, 196, 66, 152, 252, 28, 20, 154, 251, 244, 200, 153, 111, 185, 36, 39, 174, 65,
    228, 100, 155, 147, 76, 164, 149, 153, 27, 120, 82, 184, 85]

def lib : SignLibs := tableLib table sha

def res : Resources := ⟨[], none⟩

/-- The document of a source. -/
def docOf (src : Source) (h : (0 :: (treeOf plainLexicon [] src).keys).Nodup) : Document :=
  ⟨0, treeOf plainLexicon [] src, h⟩

def lastDoc : Document := docOf (last (blank 5)) (by decide +kernel)

def lastFilledDoc : Document := docOf (last (digested 5 12)) (by decide +kernel)

def firstDoc : Document := docOf (first (blank 5) (blank 8)) (by decide +kernel)

/-- The texts of the turns. -/
def lastTexts : Nat → String
  | 0 => sourceText (last (blank 5))
  | _ => sourceText (last (digested 5 12))

def firstTexts : Nat → String
  | 0 => sourceText (first (blank 5) (blank 8))
  | 1 => sourceText (first (blank 5) (blank 8))
  | _ => sourceText (first (digested 5 12) (blank 8))

theorem last_mem : last (blank 5) ∈ table := List.mem_cons_self

theorem lastFilled_mem : last (digested 5 12) ∈ table := List.mem_cons_of_mem _ List.mem_cons_self

theorem first_mem : first (blank 5) (blank 8) ∈ table :=
  List.mem_cons_of_mem _ (List.mem_cons_of_mem _ List.mem_cons_self)

theorem misplaced_mem : first (digested 5 12) (blank 8) ∈ table :=
  List.mem_cons_of_mem _ (List.mem_cons_of_mem _ (List.mem_cons_of_mem _ List.mem_cons_self))

theorem firstFilled_mem : first (blank 5) (digested 8 12) ∈ table := List.mem_of_getLast? rfl

theorem table_entries : ∀ src ∈ table, table.find? (fun s => s.text spelling == src.text spelling)
    = some src ∧ (0 :: src.keys).Nodup ∧ WellFormed plainLexicon src := by
  decide +kernel

/-- Each document of the table is read. -/
theorem reads_entry {src : Source} (hmem : src ∈ table) (doc : Document)
    (hdoc : documentOf plainLexicon src = .ok doc) : ReadsTemplate plainLexicon lib src doc := by
  obtain ⟨hfind, hkeys, hwf⟩ := table_entries src hmem
  have hentry : entryOf? table (sourceText src) = some src := (entryOf?_ofList _).trans hfind
  obtain ⟨doc', hparsed, hreads⟩ := @reads_table plainLexicon table lib.toUppsala lib.nodeRange src
    (tableLib_parse table sha) (tableLib_nodeRange table sha) hentry hkeys hwf
  have hboth : tableParse plainLexicon table (sourceText src) = .ok doc' :=
    (congrFun (tableLib_parse table sha) _).symm.trans hparsed
  rw [tableParse, hentry] at hboth
  have hsame : doc = doc' := Except.ok.inj (hdoc.symm.trans hboth)
  rw [hsame]
  exact hreads

theorem readsAgain_entry {src : Source} (hmem : src ∈ table) :
    ReadsAgain plainLexicon lib src := by
  obtain ⟨doc, hdoc, -⟩ := @documentOf_eq plainLexicon src (table_entries src hmem).2.1
  refine ⟨id, Function.injective_id, doc, ?_⟩
  rw [Forest.mapKeys_id]
  exact reads_entry hmem doc hdoc

/-- A node of a document, by its number. -/
def nodeAt (doc : Document) (i : Nat) : Node :=
  ((doc.top.cursors [])[i]?).getD ⟨0, [], .leaf (.text "")⟩

theorem documentOf_docOf (src : Source) (h : (0 :: (treeOf plainLexicon [] src).keys).Nodup) :
    documentOf plainLexicon src = .ok (docOf src h) := dif_pos h

theorem reads_last : ReadsTemplate plainLexicon lib (last (blank 5)) lastDoc :=
  reads_entry last_mem _ (documentOf_docOf _ _)

theorem reads_lastFilled : ReadsTemplate plainLexicon lib (last (digested 5 12)) lastFilledDoc :=
  reads_entry lastFilled_mem _ (documentOf_docOf _ _)

theorem reads_first : ReadsTemplate plainLexicon lib (first (blank 5) (blank 8)) firstDoc :=
  reads_entry first_mem _ (documentOf_docOf _ _)

/-- What a turn of these templates starts from. -/
structure Turn (doc : Document) (j i : Nat) : Prop where
  ids : buildIdMap lib.toUppsalaNs doc [] = .ok []
  signature : doc.findElement Ns.DSIG "Signature" = some (nodeAt doc 0)
  reference : (referencesOf doc.top)[j]? = some (nodeAt doc i)

instance (doc : Document) (j i : Nat) : Decidable (Turn doc j i) :=
  decidable_of_iff (_ ∧ _ ∧ _)
    ⟨fun h => ⟨h.1, h.2.1, h.2.2⟩, fun h => ⟨h.ids, h.signature, h.reference⟩⟩

/-- What a turn that writes into the first DigestValue starts from. -/
structure Writes (src filled : Source) (doc : Document) (j i : Nat) : Prop where
  turn : Turn doc j i
  pending : isPending lib (nodeAt doc i) = true
  digest : referenceDigest lib res doc [] (sourceText src) (nodeAt doc 0).key (nodeAt doc i)
    = .ok emptyDigest
  first : firstEmptyElement doc "DigestValue" = some (nodeAt doc 6)
  blank : ∀ c ∈ src.cursors [], c.key = (nodeAt doc 6).key → c.item = .node blankTag .nil
  colon : Text.splitOnce [':'] (Forest.nodeText spelling blankTag (.nil : Source)) = none
  filled : (src.replaceNode (nodeAt doc 6).key (bareTag (newName (nodeAt doc 6) "DigestValue"))
    (textKids emptyDigest.toList)).text spelling = filled.text spelling

instance (src filled : Source) (doc : Document) (j i : Nat) :
    Decidable (Writes src filled doc j i) :=
  decidable_of_iff (_ ∧ _ ∧ _ ∧ _ ∧ _ ∧ _ ∧ _)
    ⟨fun h => ⟨h.1, h.2.1, h.2.2.1, h.2.2.2.1, h.2.2.2.2.1, h.2.2.2.2.2.1, h.2.2.2.2.2.2⟩,
      fun h => ⟨h.turn, h.pending, h.digest, h.first, h.blank, h.colon, h.filled⟩⟩

/-- A turn that is passed over. -/
theorem turn_cid {src : Source} {doc : Document} {j i : Nat}
    (h : ReadsTemplate plainLexicon lib src doc) (hturn : Turn doc j i)
    (hcid : startsWithStr "cid:" (referenceUri lib.toUppsala (nodeAt doc i)) = true) :
    signReference lib res [] j (sourceText src) = .ok (sourceText src) := by
  have hparsed : lib.parse (sourceText src) = .ok doc := h.parsed
  rw [(signReference_eq hparsed hturn.ids hturn.signature hturn.reference).1]
  exact fillReference_cid hcid

section Writing

variable {src filled : Source} {doc : Document} {j i : Nat}

/-- A DigestValue without a text has no colon. -/
theorem Writes.not_colonMisleads (w : Writes src filled doc j i)
    (h : ReadsTemplate plainLexicon lib src doc) :
    ¬ ColonMisleads lib (sourceText src) (nodeAt doc 6) := by
  rintro ⟨e, he, -, before, after, hsplit, -⟩
  have hmem : nodeAt doc 6 ∈ doc.descendants := (firstEmptyElement_some w.first).1
  obtain ⟨c, t, kids, hp⟩ := exists_place h hmem he
  have hitem := hp.item.symm.trans (w.blank c hp.mem hp.key)
  cases hitem
  rw [originalOf, hp.original_eq h hmem, String.toList_ofList] at hsplit
  cases w.colon.symm.trans hsplit

/-- A turn that writes into the first DigestValue. -/
theorem Writes.signReference (w : Writes src filled doc j i)
    (h : ReadsTemplate plainLexicon lib src doc) :
    signReference lib res [] j (sourceText src) = .ok (sourceText filled)
      ∧ turnDigest lib res [] j (sourceText src) = .ok emptyDigest := by
  have hparsed : lib.parse (sourceText src) = .ok doc := h.parsed
  obtain ⟨hsign, hdig⟩ := signReference_eq hparsed w.turn.ids w.turn.signature w.turn.reference
  obtain ⟨hmem, e, he, hlocal⟩ := firstEmptyElement_some w.first
  have hpfx := (prefixFound_iff h hmem he).mpr (w.not_colonMisleads h)
  rw [hlocal] at hpfx
  refine ⟨?_, hdig.trans w.digest⟩
  have laws : WriterLaws lib := tableLib_laws table sha
  rw [hsign.trans (fillReference_pending w.pending w.digest),
    replaceFirstEmptyElement_eq laws h w.first hpfx]
  exact congrArg Except.ok (congrArg String.ofList w.filled)

end Writing

/-- What becomes of the other template. -/
def misplacedDoc : Document := docOf (first (digested 5 12) (blank 8)) (by decide +kernel)

/-- The turns of the template with the attachment in the second place. -/
theorem last_turns : (Writes (last (blank 5)) (last (digested 5 12)) lastDoc 0 4
      ∧ Turn lastFilledDoc 1 8)
    ∧ startsWithStr "cid:" (referenceUri lib.toUppsala (nodeAt lastFilledDoc 8)) = true
    ∧ (slot lib lastDoc 0 = some (nodeAt lastDoc 6) ∧ slot lib lastDoc 1 = none)
    ∧ (last (blank 5)).replaceNode (nodeAt lastDoc 6).key
        (bareTag (newName (nodeAt lastDoc 6) "DigestValue"))
        (freshText (last (blank 5)) (lib.writeText emptyDigest).toList) = last (digested 5 12)
    ∧ (ownDigestValue (nodeAt lastDoc 4) = some (nodeAt lastDoc 6)
      ∧ hasElementChild (nodeAt lastDoc 6) = false
      ∧ scopeNamespace (nodeAt lastDoc 6).path (prefixOf (nodeAt lastDoc 6)) = some Ns.DSIG)
    ∧ isPending lib (nodeAt lastFilledDoc 8) = false := by
  decide +kernel

/-- The turns of the one with the attachment in the first place. -/
theorem first_turns : (Turn firstDoc 0 4
      ∧ Writes (first (blank 5) (blank 8)) (first (digested 5 12) (blank 8)) firstDoc 1 7)
    ∧ startsWithStr "cid:" (referenceUri lib.toUppsala (nodeAt firstDoc 4)) = true
    ∧ (slot lib firstDoc 0 = none ∧ slot lib firstDoc 1 = some (nodeAt firstDoc 9))
    ∧ (first (blank 5) (blank 8)).replaceNode (nodeAt firstDoc 9).key
        (bareTag (newName (nodeAt firstDoc 9) "DigestValue"))
        (freshText (first (blank 5) (blank 8)) (lib.writeText emptyDigest).toList)
      = first (blank 5) (digested 8 12)
    ∧ ((referencesOf misplacedDoc.top)[1]? = some (nodeAt misplacedDoc 8)
      ∧ ownDigestValue (nodeAt misplacedDoc 8) = some (nodeAt misplacedDoc 10)
      ∧ (nodeAt misplacedDoc 10).textContentDeep ≠ emptyDigest) := by
  decide +kernel

theorem last_written : signReference lib res [] 0 (lastTexts 0) = .ok (lastTexts 1)
    ∧ turnDigest lib res [] 0 (lastTexts 0) = .ok emptyDigest :=
  last_turns.1.1.signReference reads_last

theorem first_written : signReference lib res [] 1 (firstTexts 1) = .ok (firstTexts 2)
    ∧ turnDigest lib res [] 1 (firstTexts 1) = .ok emptyDigest :=
  first_turns.1.2.signReference reads_first

theorem last_run : Run lib res [] (sourceText (last (blank 5))) 2 lastTexts where
  start := rfl
  turn j hj := by
    rcases (by omega : j = 0 ∨ j = 1) with rfl | rfl
    · exact last_written.1
    · exact turn_cid reads_lastFilled last_turns.1.2 last_turns.2.1

theorem first_run : Run lib res [] (sourceText (first (blank 5) (blank 8))) 2 firstTexts where
  start := rfl
  turn j hj := by
    rcases (by omega : j = 0 ∨ j = 1) with rfl | rfl
    · exact turn_cid reads_first first_turns.1.1 first_turns.2.1
    · exact first_written.1

/-- What a turn computes is Base64. -/
theorem turnDigest_written {j : Nat} {xml digest : String}
    (h : turnDigest lib res [] j xml = .ok digest) : WrittenBack plainLexicon lib digest := by
  simp only [turnDigest, bind_eq_ok] at h
  obtain ⟨doc, -, idMap, -, sig, -, signedInfo, -, h⟩ := h
  split at h
  · cases h
  · simp only [referenceDigest, bind_eq_ok] at h
    obtain ⟨digestUri, -, resolved, -, bytes, -, computed, -, h⟩ := h
    rw [← Except.ok.inj h]
    exact tableLib_written table sha computed

/-- All that is asked for, of a template whose sources are in the table. -/
theorem runReads {src : Source} {doc : Document} {texts : Nat → String}
    (h : ReadsTemplate plainLexicon lib src doc)
    (hreached : ∀ j ≤ 2, reached lib src doc (digestsOf lib res [] texts) j ∈ table) :
    RunReads plainLexicon lib res [] src doc texts 2 where
  laws := tableLib_laws table sha
  template := h
  again j hj _ _ := readsAgain_entry (hreached j hj)
  back _ _ _ hdigest := turnDigest_written hdigest

theorem last_reads : RunReads plainLexicon lib res [] (last (blank 5)) lastDoc lastTexts 2 := by
  obtain ⟨-, -, ⟨hslot, hnone⟩, hfill, -⟩ := last_turns
  refine runReads reads_last fun j hj => ?_
  have hone : reached lib (last (blank 5)) lastDoc (digestsOf lib res [] lastTexts) 1
      = last (digested 5 12) := by
    rw [reached, hslot, digestsOf_eq last_written.2]
    exact hfill
  rcases (by omega : j = 0 ∨ j = 1 ∨ j = 2) with rfl | rfl | rfl
  · exact last_mem
  · rw [hone]
    exact lastFilled_mem
  · rw [reached, hnone, hone]
    exact lastFilled_mem

theorem first_reads :
    RunReads plainLexicon lib res [] (first (blank 5) (blank 8)) firstDoc firstTexts 2 := by
  obtain ⟨-, -, ⟨hnone, hslot⟩, hfill, -⟩ := first_turns
  refine runReads reads_first fun j hj => ?_
  have hone : reached lib (first (blank 5) (blank 8)) firstDoc (digestsOf lib res [] firstTexts) 1
      = first (blank 5) (blank 8) := by
    rw [reached, hnone]
    rfl
  rcases (by omega : j = 0 ∨ j = 1 ∨ j = 2) with rfl | rfl | rfl
  · exact first_mem
  · rw [hone]
    exact first_mem
  · have htwo : reached lib (first (blank 5) (blank 8)) firstDoc (digestsOf lib res [] firstTexts) 2
        = first (blank 5) (digested 8 12) := by
      rw [reached, hslot, digestsOf_eq first_written.2, hone]
      exact hfill
    rw [htwo]
    exact firstFilled_mem

/-- The Reference in front of the attachment has the first DigestValue without a text. -/
theorem last_fills : ∀ j < 2, FillsOwn lib j (lastTexts j) := by
  obtain ⟨⟨hwrites, hturn⟩, -, -, -, ⟨hown, hchild, hscope⟩, hdone⟩ := last_turns
  intro j hj
  rcases (by omega : j = 0 ∨ j = 1) with rfl | rfl
  · intro doc hdoc reference href _
    have hparsed : lib.parse (lastTexts 0) = .ok lastDoc := reads_last.parsed
    cases hparsed.symm.trans hdoc
    cases hwrites.turn.reference.symm.trans href
    exact Or.inl ⟨nodeAt lastDoc 6, hown, hwrites.first, hchild,
      hwrites.not_colonMisleads reads_last, hscope⟩
  · intro doc hdoc reference href hpending
    have hparsed : lib.parse (lastTexts 1) = .ok lastFilledDoc := reads_lastFilled.parsed
    cases hparsed.symm.trans hdoc
    cases hturn.reference.symm.trans href
    cases hdone.symm.trans hpending

theorem digests_in_place_sample : InPlace lib res [] lastDoc lastTexts 2 :=
  digests_in_place last_run last_reads last_fills 2 le_rfl

/-- Behind an attachment without a digest, the digest of a Reference is written into the
DigestValue of the attachment. -/
theorem digest_in_other_reference :
    Run lib res [] (sourceText (first (blank 5) (blank 8))) 2 firstTexts
      ∧ RunReads plainLexicon lib res [] (first (blank 5) (blank 8)) firstDoc firstTexts 2
      ∧ ¬ InPlace lib res [] firstDoc firstTexts 2 := by
  refine ⟨first_run, first_reads, ?_⟩
  rintro ⟨current, top, hparsed, -, -, hfilled⟩
  obtain ⟨-, digest, reference, dv, hdigest, href, hown, htext⟩ :=
    hfilled 1 (by omega) _ first_turns.2.2.1.2
  have hread : ReadsTemplate plainLexicon lib (first (digested 5 12) (blank 8)) misplacedDoc :=
    reads_entry misplaced_mem _ (documentOf_docOf _ _)
  have hmisplaced : lib.parse (firstTexts 2) = .ok misplacedDoc := hread.parsed
  cases hmisplaced.symm.trans hparsed
  obtain ⟨hreference, hvalue, hother⟩ := first_turns.2.2.2.2
  cases hreference.symm.trans href
  cases hvalue.symm.trans hown
  cases first_written.2.symm.trans hdigest
  exact hother htext

end TurnSample

end Sign

end Bergshamra
