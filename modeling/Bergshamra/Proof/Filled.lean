import Bergshamra.Proof.ContentKey
import Mathlib.Data.List.Find

/-!
# The filled template

What encryption writes, without an EncryptedKey, is the template with another
CipherValue. A parser reads it as the document of the template with that one
element anew, and all that decryption reads but the ciphertext is what the
template held.
-/

namespace Bergshamra

/-- A template, and what encryption finds in it. -/
structure EncTemplate (lib : EncLibs) (text : String) where
  doc : Document
  parsed : lib.parse text = .ok doc
  encData : Node
  hasEncData : doc.findElement Ns.ENC "EncryptedData" = some encData
  encMethod : Node
  hasEncMethod : encData.findChildElement Ns.ENC "EncryptionMethod" = some encMethod
  encUri : String
  hasEncUri : attributeOf lib.toUppsala encMethod "Algorithm" = some encUri
  cipherData : Node
  hasCipherData : encData.findChildElement Ns.ENC "CipherData" = some cipherData
  cipherValue : Node
  hasCipherValue : cipherData.findChildElement Ns.ENC "CipherValue" = some cipherValue
  start : Nat
  stop : Nat
  hasRange : lib.nodeRange text cipherValue = some (start, stop)
  cvXml : String
  hasCvXml : sliceStr text start stop = .ok cvXml
  front : String
  hasFront : sliceStr text 0 start = .ok front
  back : String
  hasBack : sliceStr text stop text.utf8ByteSize = .ok back

/-- The namespace that a prefix has inside the elements of a chain. -/
def scopeNamespace (path : List (NodeId × Element)) (pfx : String) : Option String :=
  (path.findSome? (fun a => (a.2.namespaceDeclarations.find? (fun d => d.1 == pfx)).map
    Prod.snd)).filter (fun uri => uri != "")

/-- The text of an element that holds nothing else. -/
def textRow (s : String) : Nodes := if s = "" then .nil else .leaf 0 (.text s) .nil

namespace EncTemplate

variable {lib : EncLibs} {text : String}

/-- The text with the ciphertext in place. -/
def filled (T : EncTemplate lib text) (b64 : String) : String :=
  T.front ++ filledCipherValue lib T.cvXml.toList b64 ++ T.back

/-- The element that takes the place of the CipherValue: its prefix means what it means there. -/
def element (T : EncTemplate lib text) : Element :=
  let pfx := effectivePrefix T.cvXml.toList
  ⟨⟨if pfx = "" then none else some pfx, "CipherValue", scopeNamespace T.cipherValue.path pfx⟩,
    [], []⟩

/-- The document with the ciphertext in place. -/
def filledTop (T : EncTemplate lib text) (b64 : String) : Nodes :=
  T.doc.top.replaceNode T.cipherValue.key T.element (textRow b64)

/-- The filled text, where it is a document, is read as the document of the template with the
written element in the place of the CipherValue. -/
def ReadsBack (T : EncTemplate lib text) : Prop :=
  ∀ key data c, (lib.cipher T.encUri).encrypt key data = .ok c →
    ∀ doc, lib.parse (T.filled (lib.base64Encode c)) = .ok doc →
      doc.top.shape = (T.filledTop (lib.base64Encode c)).shape

/-- The content key is a symmetric key itself, not one that an EncryptedKey holds. -/
structure SymmetricKey (T : EncTemplate lib text) : Prop where
  noEncryptedKey : ∀ n ∈ T.doc.descendants, n.isNamed Ns.ENC "EncryptedKey" = false
  noRetrieval : ∀ c ∈ keyChildren T.encData, c.isNamed Ns.DSIG "RetrievalMethod" = false

/-- The prefix of the written CipherValue means the namespace of the old one. -/
def KeepsNamespace (T : EncTemplate lib text) : Prop :=
  scopeNamespace T.cipherValue.path (effectivePrefix T.cvXml.toList) = some Ns.ENC

/-- The CipherData holds one CipherValue, and no CipherReference. -/
def OneCipherValue (T : EncTemplate lib text) : Prop :=
  ∀ c : Node, c ∈ T.cipherData.children → c ≠ T.cipherValue →
    c.isNamed Ns.ENC "CipherValue" = false ∧ c.isNamed Ns.ENC "CipherReference" = false

end EncTemplate

/-! ## Filling one element -/

section Refill

variable {k : NodeId} {e' : Element} {kids' : Nodes}

theorem element?_refill {c : Node} (h : c.key ≠ k) :
    Node.element? (c.refill k e' kids') = c.element? := by
  obtain ⟨key, path, item⟩ := c
  cases item with
  | leaf l => rfl
  | node e kids => rw [Forest.Cursor.refill_of_node h]; rfl

theorem isNamed_refill {c : Node} (h : c.key ≠ k) (nsUri localName : String) :
    Node.isNamed (c.refill k e' kids') nsUri localName = c.isNamed nsUri localName := by
  rw [Node.isNamed, element?_refill h, Node.isNamed]

theorem findChildElement_refill {n : Node} (hn : n.subtreeKeys.Nodup) (hk : n.key ≠ k)
    {nsUri localName : String}
    (hsame : ∀ c : Node, c ∈ n.children → Node.isNamed (c.refill k e' kids') nsUri localName
      = c.isNamed nsUri localName) :
    Node.findChildElement (n.refill k e' kids') nsUri localName
      = (n.findChildElement nsUri localName).map (Forest.Cursor.refill k e' kids') := by
  rw [Node.findChildElement, Forest.Cursor.children_refill hn hk, List.find?_map,
    Node.findChildElement]
  congr 1
  exact List.find?_congr hsame

end Refill

/-- The keys of a child are among those below its parent. -/
theorem child_subtreeKeys {n c : Node} (h : c ∈ n.children) :
    c.subtreeKeys.Sublist n.kids.keys :=
  Forest.subtreeKeys_sublist ((Forest.row_sublist _ _).subset h)

theorem child_nodup {n c : Node} (hn : n.subtreeKeys.Nodup) (h : c ∈ n.children) :
    c.subtreeKeys.Nodup :=
  (List.nodup_cons.mp hn).2.sublist (child_subtreeKeys h)

/-! ## Places in the template -/

namespace EncTemplate

variable {lib : EncLibs} {text : String} (T : EncTemplate lib text)

theorem encData_mem : T.encData ∈ T.doc.descendants :=
  (Document.findElement_some T.hasEncData).1

theorem encData_nodup : T.encData.subtreeKeys.Nodup :=
  T.doc.nodup_top.sublist (Forest.subtreeKeys_sublist T.encData_mem)

theorem cipherData_mem : T.cipherData ∈ T.encData.children :=
  (Node.findChildElement_some T.hasCipherData).1

theorem cipherData_nodup : T.cipherData.subtreeKeys.Nodup :=
  child_nodup T.encData_nodup T.cipherData_mem

theorem cipherValue_mem : T.cipherValue ∈ T.cipherData.children :=
  (Node.findChildElement_some T.hasCipherValue).1

theorem cipherValue_below : T.cipherValue.key ∈ T.cipherData.kids.keys :=
  (child_subtreeKeys T.cipherValue_mem).subset List.mem_cons_self

theorem cipherValue_deep : T.cipherValue.key ∈ T.encData.kids.keys :=
  (child_subtreeKeys T.cipherData_mem).subset (List.mem_cons_of_mem _ T.cipherValue_below)

theorem encData_ne : T.encData.key ≠ T.cipherValue.key := by
  intro h
  exact (List.nodup_cons.mp T.encData_nodup).1 (h ▸ T.cipherValue_deep)

theorem cipherData_ne : T.cipherData.key ≠ T.cipherValue.key := by
  intro h
  exact (List.nodup_cons.mp T.cipherData_nodup).1 (h ▸ T.cipherValue_below)

/-- Of the children of the EncryptedData only the CipherData holds the CipherValue. -/
theorem cipherData_of_holds {c : Node} (hc : c ∈ T.encData.children)
    (hk : T.cipherValue.key ∈ c.subtreeKeys) : c = T.cipherData :=
  Forest.row_eq_of_mem_subtreeKeys (List.nodup_cons.mp T.encData_nodup).2 hc T.cipherData_mem hk
    (List.mem_cons_of_mem _ T.cipherValue_below)

theorem child_ne {c : Node} (hc : c ∈ T.encData.children) : c.key ≠ T.cipherValue.key := by
  intro h
  have heq := T.cipherData_of_holds hc (h ▸ List.mem_cons_self)
  exact T.cipherData_ne (heq ▸ h)

/-- The element in its place. -/
theorem refill_cipherValue (b64 : String) :
    T.cipherValue.refill T.cipherValue.key T.element (textRow b64)
      = ⟨T.cipherValue.key, T.cipherValue.path, .node T.element (textRow b64)⟩ := by
  obtain ⟨e, he, -⟩ := (Node.findChildElement_some T.hasCipherValue).2
  unfold Forest.Cursor.refill
  cases hi : T.cipherValue.item with
  | leaf l => simp [Node.element?, hi] at he
  | node e' kids => simp

/-! ## The filled document -/

/-- What filling makes of a node of the template. -/
def refilled (b64 : String) (n : Node) : Node :=
  n.refill T.cipherValue.key T.element (textRow b64)

/-- Of what lies in the EncryptedData only the CipherData changes. -/
theorem findChildElement_encData (b64 : String) (nsUri localName : String) :
    (T.refilled b64 T.encData).findChildElement nsUri localName
      = (T.encData.findChildElement nsUri localName).map (T.refilled b64) :=
  findChildElement_refill T.encData_nodup T.encData_ne
    (fun _ hc => isNamed_refill (T.child_ne hc) nsUri localName)

theorem refilled_of_ne {c : Node} (hc : c ∈ T.encData.children) (hne : c ≠ T.cipherData)
    (b64 : String) : T.refilled b64 c = c :=
  Forest.Cursor.refill_of_not_mem (fun h => hne (T.cipherData_of_holds hc h))

/-- A child with another name is as it was. -/
theorem findChildElement_other (b64 : String) {nsUri localName : String}
    (h : localName ≠ "CipherData") :
    (T.refilled b64 T.encData).findChildElement nsUri localName
      = T.encData.findChildElement nsUri localName := by
  rw [T.findChildElement_encData]
  cases hc : T.encData.findChildElement nsUri localName with
  | none => rfl
  | some c =>
      obtain ⟨hmem, e, he, hname⟩ := Node.findChildElement_some hc
      have hne : c ≠ T.cipherData := by
        intro heq
        obtain ⟨e', he', hname'⟩ := (Node.findChildElement_some T.hasCipherData).2
        rw [← heq, he, Option.some.injEq] at he'
        subst he'
        rw [Element.not_isNamed hname h] at hname'
        cases hname'
      rw [Option.map_some, T.refilled_of_ne hmem hne]

theorem keyChildren_refilled (b64 : String) :
    keyChildren (T.refilled b64 T.encData) = keyChildren T.encData := by
  unfold keyChildren
  rw [T.findChildElement_other b64 (by decide)]

/-- The EncryptedData is found where it was. -/
theorem find?_filledTop (b64 : String) :
    ((T.filledTop b64).cursors []).find? (fun n : Node => n.isNamed Ns.ENC "EncryptedData")
      = some (T.refilled b64 T.encData) :=
  Forest.find?_cursors_replaceNode T.doc.nodup_top (fun _ hc => isNamed_refill hc _ _)
    T.hasEncData T.cipherValue_deep

section Filled

variable {T} {b64 : String} {doc : Document}
  (hshape : doc.top.shape = (T.filledTop b64).shape)

include hshape

/-- The EncryptedData of the filled document. -/
theorem findElement_filled :
    ∃ encData, doc.findElement Ns.ENC "EncryptedData" = some encData
      ∧ encData.Alike (T.refilled b64 T.encData) := by
  have hkeys := Forest.mapKeys_eq_of_shape hshape (0 : NodeId)
  have hcursors : (doc.top.cursors []).map Node.bare
      = ((T.filledTop b64).cursors []).map Node.bare := by
    have h := congrArg (fun f : Nodes => f.cursors []) hkeys
    exact (Forest.cursors_mapKeys _ [] doc.top).symm.trans
      (h.trans (Forest.cursors_mapKeys _ [] (T.filledTop b64)))
  have hbare : ∀ l : List Node,
      (l.find? (fun n => n.isNamed Ns.ENC "EncryptedData")).map Node.bare
        = (l.map Node.bare).find? (fun n => n.isNamed Ns.ENC "EncryptedData") := by
    intro l
    rw [List.find?_map]
    refine congrArg (fun p => (List.find? p l).map Node.bare) ?_
    funext n
    exact (isNamed_mapKeys _ n _ _).symm
  have hfind := hbare (doc.top.cursors [])
  rw [hcursors, ← hbare, T.find?_filledTop] at hfind
  obtain ⟨encData, hfound, hbare'⟩ := Option.map_eq_some_iff.mp hfind
  exact ⟨encData, hfound, hbare'⟩

/-- The filled document has no element that the template has not but the CipherValue. -/
theorem element_filled {n : Node} (hn : n ∈ doc.descendants) {e : Element}
    (he : n.element? = some e) :
    e = T.element ∨ ∃ m ∈ T.doc.descendants, m.element? = some e := by
  have hitem : ∃ kids, n.item = .node e kids := by
    obtain ⟨key, path, item⟩ := n
    cases item with
    | leaf l => cases he
    | node e' kids =>
        cases he
        exact ⟨kids, rfl⟩
  have hlabel : e ∈ doc.top.labels := Forest.mem_labels_iff.mpr ⟨n, hn, hitem⟩
  have hlabels : doc.top.labels = (T.filledTop b64).labels := by
    have h := congrArg Forest.labels hshape
    rwa [Forest.shape, Forest.shape, Forest.labels_mapKeys, Forest.labels_mapKeys] at h
  rw [hlabels] at hlabel
  rcases Forest.mem_labels_replaceNode hlabel with h | h | h
  · obtain ⟨m, hm, kids, hi⟩ := (@Forest.mem_labels_iff _ _ _ [] _ _).mp h
    exact Or.inr ⟨m, hm, by rw [Node.element?, hi]⟩
  · exact Or.inl h
  · unfold textRow at h
    split at h
    · cases h
    · cases h

theorem noEncryptedKey_filled (hsym : T.SymmetricKey) :
    ∀ n ∈ doc.descendants, n.isNamed Ns.ENC "EncryptedKey" = false := by
  intro n hn
  rw [Bool.eq_false_iff]
  intro hnamed
  obtain ⟨e, he, hname⟩ := Node.isNamed_iff.mp hnamed
  rcases element_filled hshape hn he with heq | ⟨m, hm, hme⟩
  · have hlocal : T.element.isNamed Ns.ENC "EncryptedKey" = false := rfl
    rw [heq, hlocal] at hname
    cases hname
  · have hno := hsym.noEncryptedKey m hm
    rw [Node.isNamed, hme, Option.any_some, hname] at hno
    cases hno

end Filled

end EncTemplate

/-! ## The ciphertext -/

theorem textContentDeep_textRow (key : NodeId) (path : List (NodeId × Element)) (e : Element)
    (s : String) : Node.textContentDeep ⟨key, path, .node e (textRow s)⟩ = s := by
  unfold textRow
  split
  next h => rw [h]; rfl
  next h =>
    show String.join [s] = s
    simp [String.join]

theorem trimStr_word {s : String} (h : ∀ c ∈ s.toList, Text.isWhitespace c = false) :
    trimStr s = s := by
  have htrim : Text.trim s.toList = s.toList :=
    Text.trim_of_ends (fun c hc => h c (List.mem_of_mem_head? hc))
      (fun c hc => h c (List.mem_of_mem_getLast? hc))
  rw [trimStr, htrim, String.ofList_toList]

theorem withoutWhitespace_word {s : String} (h : ∀ c ∈ s.toList, Text.isWhitespace c = false) :
    withoutWhitespace s = s := by
  have hfilter : s.toList.filter (fun c => !Text.isWhitespace c) = s.toList := by
    rw [List.filter_eq_self]
    intro c hc
    rw [h c hc]
    rfl
  rw [withoutWhitespace, hfilter, String.ofList_toList]

namespace EncTemplate

variable {lib : EncLibs} {text : String} {T : EncTemplate lib text}

theorem element_isNamed_iff : T.element.isNamed Ns.ENC "CipherValue" = true ↔ T.KeepsNamespace := by
  have hne : Ns.ENC ≠ "" := by decide
  have hlocal : T.element.isNamed Ns.ENC "CipherValue" = (T.element.name.uri == Ns.ENC) := rfl
  rw [hlocal, beq_iff_eq, QName.uri]
  show Option.getD (scopeNamespace T.cipherValue.path (effectivePrefix T.cvXml.toList)) "" = Ns.ENC
    ↔ scopeNamespace T.cipherValue.path (effectivePrefix T.cvXml.toList) = some Ns.ENC
  cases scopeNamespace T.cipherValue.path (effectivePrefix T.cvXml.toList) with
  | none => simp [hne.symm]
  | some uri => simp

theorem isNamed_refilled_cipherValue (b64 nsUri localName : String) :
    (T.refilled b64 T.cipherValue).isNamed nsUri localName
      = T.element.isNamed nsUri localName := by
  rw [refilled, T.refill_cipherValue]
  rfl

theorem refilled_isNamed_of_ne {c : Node} (hc : c ∈ T.cipherData.children)
    (hne : c ≠ T.cipherValue) (b64 nsUri localName : String) :
    (T.refilled b64 c).isNamed nsUri localName = c.isNamed nsUri localName := by
  refine isNamed_refill ?_ nsUri localName
  intro hk
  have hbelow : T.cipherValue.key ∈ c.subtreeKeys := hk ▸ List.mem_cons_self
  exact hne (Forest.row_eq_of_mem_subtreeKeys (List.nodup_cons.mp T.cipherData_nodup).2 hc
    T.cipherValue_mem hbelow List.mem_cons_self)

/-- A kept CipherValue is the one that is found. -/
theorem cipherValue_refilled (h : T.KeepsNamespace) (b64 : String) :
    (T.refilled b64 T.cipherData).findChildElement Ns.ENC "CipherValue"
      = some (T.refilled b64 T.cipherValue) := by
  have hsame : ∀ c : Node, c ∈ T.cipherData.children →
      (T.refilled b64 c).isNamed Ns.ENC "CipherValue" = c.isNamed Ns.ENC "CipherValue" := by
    intro c hc
    by_cases heq : c = T.cipherValue
    · obtain ⟨e, he, hname⟩ := (Node.findChildElement_some T.hasCipherValue).2
      have hold : T.cipherValue.isNamed Ns.ENC "CipherValue" = true :=
        Node.isNamed_iff.mpr ⟨e, he, hname⟩
      rw [heq, isNamed_refilled_cipherValue, element_isNamed_iff.mpr h, hold]
    · exact refilled_isNamed_of_ne hc heq b64 _ _
  have hfind := findChildElement_refill T.cipherData_nodup T.cipherData_ne hsame
  rw [T.hasCipherValue] at hfind
  exact hfind

/-- One that lost its namespace is not found. -/
theorem no_cipherValue_refilled (h : ¬ T.KeepsNamespace) (hone : T.OneCipherValue) (b64 : String)
    {localName : String} (hname : localName = "CipherValue" ∨ localName = "CipherReference") :
    (T.refilled b64 T.cipherData).findChildElement Ns.ENC localName = none := by
  rw [Node.findChildElement, refilled,
    Forest.Cursor.children_refill T.cipherData_nodup T.cipherData_ne, List.find?_eq_none]
  intro d hd
  obtain ⟨c, hc, rfl⟩ := List.mem_map.mp hd
  rw [Bool.not_eq_true]
  by_cases heq : c = T.cipherValue
  · have hnamed := isNamed_refilled_cipherValue (T := T) b64 Ns.ENC localName
    rw [heq]
    refine hnamed.trans ?_
    rcases hname with rfl | rfl
    · exact Bool.eq_false_iff.mpr (fun hn => h (element_isNamed_iff.mp hn))
    · rfl
  · refine (refilled_isNamed_of_ne hc heq b64 Ns.ENC localName).trans ?_
    rcases hname with rfl | rfl
    · exact (hone c hc heq).1
    · exact (hone c hc heq).2

section Read

variable {ctx : EncContext} {doc : Document} {idMap : IdMap} {cipherData : Node} {b64 : String}

/-- The ciphertext is read back. -/
theorem readCipherData_kept (h : T.KeepsNamespace)
    (halike : cipherData.Alike (T.refilled b64 T.cipherData)) {c : ByteArray}
    (hword : ∀ ch ∈ b64.toList, Text.isWhitespace ch = false)
    (hdecode : lib.base64Decode b64 = .ok c) :
    readCipherData lib ctx doc cipherData idMap = .ok c := by
  obtain ⟨cipherValue, hfind, hcv⟩ := halike.findChildElement (cipherValue_refilled h b64)
  have htext : trimmedText cipherValue = b64 := by
    rw [hcv.congr trimmedText_mapKeys, refilled, T.refill_cipherValue, trimmedText,
      textContentDeep_textRow, trimStr_word hword]
  simp only [readCipherData, hfind, htext, withoutWhitespace_word hword, hdecode]

theorem readCipherData_lost (h : ¬ T.KeepsNamespace) (hone : T.OneCipherValue)
    (halike : cipherData.Alike (T.refilled b64 T.cipherData)) :
    readCipherData lib ctx doc cipherData idMap
      = .error (.missingElement "CipherValue or CipherReference") := by
  have hvalue : cipherData.findChildElement Ns.ENC "CipherValue" = none :=
    halike.findChildElement_none (no_cipherValue_refilled h hone b64 (Or.inl rfl))
  have href : cipherData.findChildElement Ns.ENC "CipherReference" = none :=
    halike.findChildElement_none (no_cipherValue_refilled h hone b64 (Or.inr rfl))
  simp only [readCipherData, hvalue, href]

end Read

end EncTemplate

end Bergshamra
