import Bergshamra.Proof.TemplateContent

/-!
# The DigestValue of each Reference

The References of the SignedInfo, as they are found in a document, and what
becomes of them when the DigestValue of one is replaced: that Reference has the
new DigestValue, and the others are what they were.
-/

namespace Bergshamra

open XmlSource

namespace Sign

/-- The SignedInfo of the first Signature. -/
def signedInfoOf (top : Nodes) : Option Node :=
  ((top.cursors []).find? (fun n : Node => n.isNamed Ns.DSIG "Signature")).bind
    (fun sig => sig.findChildElement Ns.DSIG "SignedInfo")

/-- Its References. -/
def referencesOf (top : Nodes) : List Node :=
  match signedInfoOf top with
  | some signedInfo => signedInfo.findChildElements Ns.DSIG "Reference"
  | none => []

/-- Is the Reference one whose digest is written? -/
def isPending (lib : SignLibs) (reference : Node) : Bool :=
  !startsWithStr "cid:" (referenceUri lib.toUppsala reference)
    && (trimStr (digestValueText reference)).isEmpty

/-- The DigestValue of a Reference. -/
def ownDigestValue (reference : Node) : Option Node :=
  reference.findChildElement Ns.DSIG "DigestValue"

/-! ## Ids do not count -/

section MapKeys

variable (g : NodeId → NodeId)

theorem signedInfoOf_mapKeys (top : Nodes) :
    signedInfoOf (top.mapKeys g) = (signedInfoOf top).map (Forest.Cursor.mapKeys g) := by
  have hcursors : (top.mapKeys g).cursors [] = (top.cursors []).map (Forest.Cursor.mapKeys g) :=
    Forest.cursors_mapKeys g [] top
  rw [signedInfoOf, hcursors, List.find?_map, signedInfoOf]
  have hnamed : (fun n : Node => n.isNamed Ns.DSIG "Signature") ∘ Forest.Cursor.mapKeys g
      = fun n : Node => n.isNamed Ns.DSIG "Signature" := by
    funext n
    exact isNamed_mapKeys g n _ _
  rw [hnamed]
  cases (top.cursors []).find? (fun n : Node => n.isNamed Ns.DSIG "Signature") with
  | none => rfl
  | some sig => exact findChildElement_mapKeys g sig _ _

theorem findChildElements_mapKeys (n : Node) (nsUri localName : String) :
    Node.findChildElements (n.mapKeys g) nsUri localName
      = (n.findChildElements nsUri localName).map (Forest.Cursor.mapKeys g) := by
  rw [Node.findChildElements, Forest.Cursor.children_mapKeys, List.filter_map,
    Node.findChildElements]
  refine congrArg (List.map _) (List.filter_congr fun c _ => ?_)
  exact isNamed_mapKeys g c nsUri localName

theorem referencesOf_mapKeys (top : Nodes) :
    referencesOf (top.mapKeys g) = (referencesOf top).map (Forest.Cursor.mapKeys g) := by
  rw [referencesOf, signedInfoOf_mapKeys, referencesOf]
  cases signedInfoOf top with
  | none => rfl
  | some signedInfo => exact findChildElements_mapKeys g signedInfo _ _

theorem ownDigestValue_mapKeys (reference : Node) :
    ownDigestValue (reference.mapKeys g)
      = (ownDigestValue reference).map (Forest.Cursor.mapKeys g) :=
  findChildElement_mapKeys g reference _ _

theorem digestValueText_mapKeys (reference : Node) :
    digestValueText (reference.mapKeys g) = digestValueText reference := by
  have hown := ownDigestValue_mapKeys g reference
  rw [ownDigestValue, ownDigestValue] at hown
  rw [digestValueText, hown, digestValueText]
  cases reference.findChildElement Ns.DSIG "DigestValue" with
  | none => rfl
  | some dv => exact congrArg (fun t => (some t).getD "") (textContentDeep_mapKeys g dv)

theorem referenceUri_mapKeys (up : Uppsala) (reference : Node) :
    referenceUri up (reference.mapKeys g) = referenceUri up reference := by
  rw [referenceUri, element?_mapKeys, referenceUri]

theorem isPending_mapKeys (lib : SignLibs) (reference : Node) :
    isPending lib (reference.mapKeys g) = isPending lib reference := by
  rw [isPending, referenceUri_mapKeys, digestValueText_mapKeys, isPending]

end MapKeys

/-! ## One DigestValue replaced -/

section Replace

variable {top : Nodes} {k : NodeId} {e' : Element} {kids' : Nodes}

theorem signedInfoOf_some {signedInfo : Node} (h : signedInfoOf top = some signedInfo) :
    ∃ sig, (top.cursors []).find? (fun n : Node => n.isNamed Ns.DSIG "Signature") = some sig
      ∧ sig.findChildElement Ns.DSIG "SignedInfo" = some signedInfo := by
  obtain ⟨sig, hsig, hchild⟩ := Option.bind_eq_some_iff.mp h
  exact ⟨sig, hsig, hchild⟩

theorem mem_referencesOf {reference : Node} (h : reference ∈ referencesOf top) :
    ∃ signedInfo, signedInfoOf top = some signedInfo
      ∧ reference ∈ signedInfo.findChildElements Ns.DSIG "Reference" := by
  rw [referencesOf] at h
  cases hs : signedInfoOf top with
  | none =>
      rw [hs] at h
      cases h
  | some signedInfo =>
      rw [hs] at h
      exact ⟨signedInfo, rfl, h⟩

/-- The SignedInfo is a node of the tree. -/
theorem signedInfoOf_mem {signedInfo : Node} (h : signedInfoOf top = some signedInfo) :
    signedInfo ∈ top.cursors [] := by
  obtain ⟨sig, hsig, hchild⟩ := signedInfoOf_some h
  have hmem := (Node.findChildElement_some hchild).1
  exact Forest.mem_cursors_descendants (List.mem_of_find?_eq_some hsig)
    ((Forest.row_sublist _ _).subset hmem)

theorem signedInfoOf_nodup (hn : top.keys.Nodup) {signedInfo : Node}
    (h : signedInfoOf top = some signedInfo) : signedInfo.subtreeKeys.Nodup :=
  (Forest.subtreeKeys_sublist (signedInfoOf_mem h)).nodup hn

theorem findChildElements_refill {n : Node} (hn : n.subtreeKeys.Nodup) (hk : n.key ≠ k)
    {nsUri localName : String}
    (hsame : ∀ c : Node, c ∈ n.children → Node.isNamed (c.refill k e' kids') nsUri localName
      = c.isNamed nsUri localName) :
    Node.findChildElements (n.refill k e' kids') nsUri localName
      = (n.findChildElements nsUri localName).map (Forest.Cursor.refill k e' kids') := by
  rw [Node.findChildElements, Forest.Cursor.children_refill hn hk, List.filter_map,
    Node.findChildElements]
  exact congrArg (List.map _) (List.filter_congr hsame)

/-- **The References, one of them with another DigestValue.** -/
theorem referencesOf_replaceNode (hn : top.keys.Nodup) {reference : Node}
    (hr : reference ∈ referencesOf top) (hk : k ∈ reference.kids.keys) :
    referencesOf (top.replaceNode k e' kids')
      = (referencesOf top).map (Forest.Cursor.refill k e' kids') := by
  obtain ⟨signedInfo, hsi, href⟩ := mem_referencesOf hr
  obtain ⟨sig, hsig, hchild⟩ := signedInfoOf_some hsi
  have hsigMem : sig ∈ top.cursors [] := List.mem_of_find?_eq_some hsig
  have hsigNodup : sig.subtreeKeys.Nodup := (Forest.subtreeKeys_sublist hsigMem).nodup hn
  have hsiNodup := signedInfoOf_nodup hn hsi
  have hrefChild := (Node.mem_findChildElements href).1
  have hsiChild := (Node.findChildElement_some hchild).1
  -- the DigestValue lies below the Reference, this below the SignedInfo, and this below the Signature
  have hkSi : k ∈ signedInfo.kids.keys :=
    (child_subtreeKeys hrefChild).subset (List.mem_cons_of_mem _ hk)
  have hkSig : k ∈ sig.kids.keys := (child_subtreeKeys hsiChild).subset (List.mem_cons_of_mem _ hkSi)
  have hsiKey : signedInfo.key ≠ k := by
    intro he
    exact (List.nodup_cons.mp hsiNodup).1 (he ▸ hkSi)
  have hsigKey : sig.key ≠ k := by
    intro he
    exact (List.nodup_cons.mp hsigNodup).1 (he ▸ hkSig)
  have hrow : ∀ c : Node, c ∈ sig.children → c.key ≠ k := by
    intro c hc he
    have hsame := Forest.row_eq_of_mem_subtreeKeys (List.nodup_cons.mp hsigNodup).2 hc hsiChild
      (he ▸ List.mem_cons_self) (List.mem_cons_of_mem _ hkSi)
    exact hsiKey (hsame ▸ he)
  have hrefRow : ∀ c : Node, c ∈ signedInfo.children → c.key ≠ k := by
    intro c hc he
    have hsame := Forest.row_eq_of_mem_subtreeKeys (List.nodup_cons.mp hsiNodup).2 hc hrefChild
      (he ▸ List.mem_cons_self) (List.mem_cons_of_mem _ hk)
    have hrefNodup := child_nodup hsiNodup hrefChild
    rw [hsame] at he
    exact (List.nodup_cons.mp hrefNodup).1 (he ▸ hk)
  have hsig' := Forest.find?_cursors_replaceNode hn
    (fun c hc => @isNamed_refill k e' kids' c hc Ns.DSIG "Signature") hsig hkSig
  have hsi' : signedInfoOf (top.replaceNode k e' kids')
      = some (signedInfo.refill k e' kids') := by
    rw [signedInfoOf, hsig', Option.bind_some, findChildElement_refill hsigNodup hsigKey
      (fun c hc => isNamed_refill (hrow c hc) Ns.DSIG "SignedInfo"), hchild]
    rfl
  rw [referencesOf, hsi', referencesOf, hsi]
  exact findChildElements_refill hsiNodup hsiKey
    (fun c hc => isNamed_refill (hrefRow c hc) Ns.DSIG "Reference")

theorem referencesOf_nodup (hn : top.keys.Nodup) : (referencesOf top).Nodup := by
  rw [referencesOf]
  cases hs : signedInfoOf top with
  | none => exact List.nodup_nil
  | some signedInfo =>
      have hkids := (List.nodup_cons.mp (signedInfoOf_nodup hn hs)).2
      rw [← Forest.cursors_keys signedInfo.kidsPath] at hkids
      have hrow := (Forest.row_sublist signedInfo.kidsPath signedInfo.kids).nodup
        (List.Nodup.of_map _ hkids)
      exact List.filter_sublist.nodup hrow

/-- The other References are what they were. -/
theorem refill_other (hn : top.keys.Nodup) {reference other : Node}
    (hr : reference ∈ referencesOf top) (ho : other ∈ referencesOf top) (hne : other ≠ reference)
    (hk : k ∈ reference.kids.keys) : other.refill k e' kids' = other := by
  obtain ⟨signedInfo, hsi, href⟩ := mem_referencesOf hr
  obtain ⟨signedInfo', hsi', hother⟩ := mem_referencesOf ho
  rw [hsi] at hsi'
  cases hsi'
  refine Forest.Cursor.refill_of_not_mem fun hin => hne ?_
  exact Forest.row_eq_of_mem_subtreeKeys (List.nodup_cons.mp (signedInfoOf_nodup hn hsi)).2
    (Node.mem_findChildElements hother).1 (Node.mem_findChildElements href).1 hin
    (List.mem_cons_of_mem _ hk)

/-- The Reference itself has the new DigestValue. -/
theorem ownDigestValue_refill {reference dv : Node} (hn : reference.subtreeKeys.Nodup)
    (hown : ownDigestValue reference = some dv) (he' : e'.isNamed Ns.DSIG "DigestValue" = true) :
    ownDigestValue (reference.refill dv.key e' kids') = some ⟨dv.key, dv.path, .node e' kids'⟩ := by
  have hchild := (Node.findChildElement_some hown).1
  have hbelow : dv.key ∈ reference.kids.keys := (child_subtreeKeys hchild).subset List.mem_cons_self
  have hkey : reference.key ≠ dv.key := by
    intro he
    exact (List.nodup_cons.mp hn).1 (he ▸ hbelow)
  obtain ⟨e, he, hnamed⟩ := (Node.findChildElement_some hown).2
  have hself : dv.refill dv.key e' kids' = ⟨dv.key, dv.path, .node e' kids'⟩ := by
    obtain ⟨key, path, item⟩ := dv
    cases item with
    | leaf l => cases he
    | node e₀ kids => exact if_pos rfl
  rw [ownDigestValue, findChildElement_refill hn hkey]
  · rw [ownDigestValue] at hown
    rw [hown, Option.map_some, hself]
  · intro c hc
    by_cases hck : c.key = dv.key
    · have hsame : c = dv := Forest.row_eq_of_mem_subtreeKeys (List.nodup_cons.mp hn).2 hc hchild
        (hck ▸ List.mem_cons_self) List.mem_cons_self
      rw [hsame, hself]
      have hold : dv.isNamed Ns.DSIG "DigestValue" = true := Node.isNamed_iff.mpr ⟨e, he, hnamed⟩
      rw [hold]
      exact he'
    · exact isNamed_refill hck Ns.DSIG "DigestValue"

end Replace

end Sign

end Bergshamra
