import Bergshamra.Enc.Encrypt
import Bergshamra.Proof.Renumber

/-!
# The content key on both sides

Encryption takes the first key that a child of the KeyInfo gives, decryption the
first that a DerivedKey gives and only then one that has a name. Without an
EncryptedKey and a RetrievalMethod the keys are those of the children, and each
side is a search for the first of them.
-/

namespace Bergshamra

/-- What the KeyInfo of an EncryptedData holds. -/
def keyChildren (encData : Node) : List Node :=
  match encData.findChildElement Ns.DSIG "KeyInfo" with
  | none => []
  | some keyInfo => keyInfo.children

/-- No child of the KeyInfo is, or may lead to, an EncryptedKey. -/
def NoWrappedKey (children : List Node) : Prop :=
  ∀ c ∈ children, c.isNamed Ns.ENC "EncryptedKey" = false
    ∧ c.isNamed Ns.DSIG "RetrievalMethod" = false

section

variable (lib : EncLibs) (ctx : EncContext) (encUri : String)

/-- What a DerivedKey comes to: its key, or a fault that nothing catches. -/
def derivedKey? (child : Node) : Option (Except Error ByteArray) :=
  if child.isNamed Ns.ENC11 "DerivedKey" then
    match resolveDerivedKey lib ctx child encUri with
    | .ok key => some (.ok key)
    | .error .panics => some (.error .panics)
    | .error _ => none
  else none

/-- The key that a child gives by name or as a DerivedKey. -/
def givenKey? (child : Node) : Option (Except Error ByteArray) :=
  ((keyNameBytes ctx.keysManager child).map Except.ok).or (derivedKey? lib ctx encUri child)

/-- The first DerivedKey that comes to something. -/
def firstDerived (children : List Node) : Option (Except Error ByteArray) :=
  children.findSome? (derivedKey? lib ctx encUri)

/-- The first key that a child gives. -/
def firstGiven (children : List Node) : Option (Except Error ByteArray) :=
  children.findSome? (givenKey? lib ctx encUri)

end

section

variable {lib : EncLibs} {ctx : EncContext} {encUri : String}

theorem derivedKey?_of_not {child : Node} (h : child.isNamed Ns.ENC11 "DerivedKey" = false) :
    derivedKey? lib ctx encUri child = none := by
  rw [derivedKey?, h]
  rfl

theorem derivedKey?_mapKeys (g : NodeId → NodeId) (n : Node) :
    derivedKey? lib ctx encUri (n.mapKeys g) = derivedKey? lib ctx encUri n := by
  rw [derivedKey?, isNamed_mapKeys, resolveDerivedKey_mapKeys, derivedKey?]

/-- Where no DerivedKey comes to anything the key is one with a name. -/
theorem firstGiven_of_firstDerived_none {children : List Node}
    (h : firstDerived lib ctx encUri children = none) :
    firstGiven lib ctx encUri children
      = (children.findSome? (keyNameBytes ctx.keysManager)).map Except.ok := by
  induction children with
  | nil => rfl
  | cons c cs ih =>
      rw [firstDerived, List.findSome?_cons] at h
      cases hd : derivedKey? lib ctx encUri c with
      | some r =>
          rw [hd] at h
          cases h
      | none =>
          rw [hd] at h
          rw [firstGiven, List.findSome?_cons, givenKey?, hd, Option.or_none, List.findSome?_cons]
          cases keyNameBytes ctx.keysManager c with
          | some bytes => rfl
          | none => exact ih h

theorem firstDerived_of_firstGiven_none {children : List Node}
    (h : firstGiven lib ctx encUri children = none) :
    firstDerived lib ctx encUri children = none := by
  rw [firstGiven, List.findSome?_eq_none_iff] at h
  rw [firstDerived, List.findSome?_eq_none_iff]
  intro c hc
  exact (Option.or_eq_none_iff.mp (h c hc)).2

/-! ## Decryption -/

/-- The first loop, where a DerivedKey comes to something. -/
theorem tryChildKeys_derived {doc : Document} {idMap : IdMap} {children : List Node}
    (hno : NoWrappedKey children) {r : Except Error ByteArray}
    (h : firstDerived lib ctx encUri children = some r) (errs : KeyErrors) :
    tryChildKeys lib ctx doc idMap encUri errs children = r.map Sum.inl := by
  induction children generalizing errs with
  | nil => cases h
  | cons c cs ih =>
      have hcs : NoWrappedKey cs := fun d hd => hno d (List.mem_cons_of_mem _ hd)
      have hwrapped := (hno c List.mem_cons_self).1
      rw [firstDerived, List.findSome?_cons] at h
      by_cases hder : c.isNamed Ns.ENC11 "DerivedKey" = true
      · simp only [tryChildKeys, hwrapped, hder, Bool.false_eq_true, if_false, if_true]
        simp only [derivedKey?, hder, if_true] at h
        cases hres : resolveDerivedKey lib ctx c encUri with
        | ok key =>
            rw [hres] at h
            cases h
            rfl
        | error e =>
            rw [hres] at h
            cases e with
            | panics =>
                cases h
                rfl
            | _ => exact ih hcs h _
      · have hnot : c.isNamed Ns.ENC11 "DerivedKey" = false := Bool.eq_false_iff.mpr hder
        rw [derivedKey?_of_not hnot] at h
        simp only [tryChildKeys, hwrapped, hnot, Bool.false_eq_true, if_false]
        exact ih hcs h errs

/-- The first loop, where none does: it leaves the errors of DerivedKeys. -/
theorem tryChildKeys_none (doc : Document) (idMap : IdMap) {children : List Node}
    (hno : NoWrappedKey children) (h : firstDerived lib ctx encUri children = none)
    (errs : KeyErrors) :
    ∃ errs', tryChildKeys lib ctx doc idMap encUri errs children = .ok (.inr errs')
      ∧ ((∀ c ∈ children, c.isNamed Ns.ENC11 "DerivedKey" = false) → errs' = errs) := by
  induction children generalizing errs with
  | nil => exact ⟨errs, rfl, fun _ => rfl⟩
  | cons c cs ih =>
      have hcs : NoWrappedKey cs := fun d hd => hno d (List.mem_cons_of_mem _ hd)
      have hwrapped := (hno c List.mem_cons_self).1
      rw [firstDerived, List.findSome?_cons] at h
      by_cases hder : c.isNamed Ns.ENC11 "DerivedKey" = true
      · simp only [tryChildKeys, hwrapped, hder, Bool.false_eq_true, if_false, if_true]
        simp only [derivedKey?, hder, if_true] at h
        have hnever : (∀ d ∈ c :: cs, d.isNamed Ns.ENC11 "DerivedKey" = false) → False := by
          intro hall
          rw [hall c List.mem_cons_self] at hder
          cases hder
        cases hres : resolveDerivedKey lib ctx c encUri with
        | ok key =>
            rw [hres] at h
            cases h
        | error e =>
            rw [hres] at h
            cases e with
            | panics => cases h
            | _ =>
                -- the error is kept and the loop goes on
                obtain ⟨errs', hrun, -⟩ := ih hcs h { errs with derived := some _ }
                exact ⟨errs', hrun, fun hall => (hnever hall).elim⟩
      · have hnot : c.isNamed Ns.ENC11 "DerivedKey" = false := Bool.eq_false_iff.mpr hder
        rw [derivedKey?_of_not hnot] at h
        simp only [tryChildKeys, hwrapped, hnot, Bool.false_eq_true, if_false]
        obtain ⟨errs', hrun, heq⟩ := ih hcs h errs
        exact ⟨errs', hrun, fun hall => heq (fun d hd => hall d (List.mem_cons_of_mem _ hd))⟩

/-- The second loop is a search for a name. -/
theorem tryNamesAndReferences_eq {doc : Document} {idMap : IdMap} {children : List Node}
    (hno : NoWrappedKey children) :
    tryNamesAndReferences lib ctx doc idMap children
      = .ok (children.findSome? (keyNameBytes ctx.keysManager)) := by
  induction children with
  | nil => rfl
  | cons c cs ih =>
      have hcs : NoWrappedKey cs := fun d hd => hno d (List.mem_cons_of_mem _ hd)
      have hretrieval := (hno c List.mem_cons_self).2
      have hnone : retrievedEncryptedKey lib.toUppsala idMap c = none := by
        rw [retrievedEncryptedKey, hretrieval]
        rfl
      rw [tryNamesAndReferences, List.findSome?_cons]
      cases keyNameBytes ctx.keysManager c with
      | some bytes => rfl
      | none =>
          simp only [hnone]
          exact ih hcs

section Decryption

variable {doc : Document} {idMap : IdMap} {encData : Node}

/-- Without a KeyInfo the loops have nothing to go through. -/
theorem resolveDecryptionKey_eq :
    resolveDecryptionKey lib ctx doc encData idMap encUri = (do
      match ← tryChildKeys lib ctx doc idMap encUri ⟨none, none⟩ (keyChildren encData) with
      | .inl key => .ok key
      | .inr errs =>
          match ← tryNamesAndReferences lib ctx doc idMap (keyChildren encData) with
          | some key => .ok key
          | none =>
              match errs.encrypted.or errs.derived with
              | some e => .error e
              | none => firstSymmetricKey ctx.keysManager) := by
  unfold resolveDecryptionKey keyChildren
  cases encData.findChildElement Ns.DSIG "KeyInfo" with
  | none => rfl
  | some keyInfo => rfl

theorem resolveDecryptionKey_derived (hno : NoWrappedKey (keyChildren encData))
    {r : Except Error ByteArray} (h : firstDerived lib ctx encUri (keyChildren encData) = some r) :
    resolveDecryptionKey lib ctx doc encData idMap encUri = r := by
  rw [resolveDecryptionKey_eq, tryChildKeys_derived hno h]
  cases r with
  | ok key => rfl
  | error e => rfl

theorem resolveDecryptionKey_named (hno : NoWrappedKey (keyChildren encData))
    (hder : firstDerived lib ctx encUri (keyChildren encData) = none) {k : ByteArray}
    (hname : (keyChildren encData).findSome? (keyNameBytes ctx.keysManager) = some k) :
    resolveDecryptionKey lib ctx doc encData idMap encUri = .ok k := by
  obtain ⟨errs, hrun, -⟩ := tryChildKeys_none doc idMap hno hder ⟨none, none⟩
  rw [resolveDecryptionKey_eq, hrun]
  simp only [bind, Except.bind, tryNamesAndReferences_eq hno, hname]

theorem resolveDecryptionKey_first (hno : NoWrappedKey (keyChildren encData))
    (hder : ∀ c ∈ keyChildren encData, c.isNamed Ns.ENC11 "DerivedKey" = false)
    (hname : (keyChildren encData).findSome? (keyNameBytes ctx.keysManager) = none) :
    resolveDecryptionKey lib ctx doc encData idMap encUri = firstSymmetricKey ctx.keysManager := by
  have hnone : firstDerived lib ctx encUri (keyChildren encData) = none := by
    rw [firstDerived, List.findSome?_eq_none_iff]
    intro c hc
    exact derivedKey?_of_not (hder c hc)
  obtain ⟨errs, hrun, herrs⟩ := tryChildKeys_none doc idMap hno hnone ⟨none, none⟩
  rw [resolveDecryptionKey_eq, hrun, herrs hder]
  simp only [bind, Except.bind, tryNamesAndReferences_eq hno, hname, Option.or_none]

end Decryption

/-! ## Encryption -/

/-- The loop of encryption is a search for the first key, which no DerivedKey without one may
precede where there is none. -/
theorem tryTemplateKeys_ok {children : List Node} (hno : NoWrappedKey children)
    {err : Option Error} {key : Option ByteArray}
    (h : tryTemplateKeys lib ctx encUri err children = .ok key) :
    (∃ k, key = some k ∧ firstGiven lib ctx encUri children = some (.ok k))
      ∨ key = none ∧ err = none ∧ firstGiven lib ctx encUri children = none
        ∧ ∀ c ∈ children, c.isNamed Ns.ENC11 "DerivedKey" = false := by
  induction children generalizing err with
  | nil =>
      cases err with
      | some e => cases h
      | none =>
          cases h
          exact Or.inr ⟨rfl, rfl, rfl, fun c hc => by cases hc⟩
  | cons c cs ih =>
      have hcs : NoWrappedKey cs := fun d hd => hno d (List.mem_cons_of_mem _ hd)
      have hwrapped := (hno c List.mem_cons_self).1
      rw [tryTemplateKeys] at h
      rw [firstGiven, List.findSome?_cons, givenKey?]
      cases hname : keyNameBytes ctx.keysManager c with
      | some bytes =>
          rw [hname] at h
          cases h
          exact Or.inl ⟨bytes, rfl, rfl⟩
      | none =>
          simp only [hname, hwrapped, Bool.false_eq_true, if_false] at h
          rw [Option.map_none, Option.none_or]
          by_cases hder : c.isNamed Ns.ENC11 "DerivedKey" = true
          · simp only [hder, if_true] at h
            simp only [derivedKey?, hder, if_true]
            cases hres : resolveDerivedKey lib ctx c encUri with
            | ok k =>
                rw [hres] at h
                cases h
                exact Or.inl ⟨k, rfl, rfl⟩
            | error e =>
                rw [hres] at h
                cases e with
                | panics => cases h
                | _ =>
                    -- the error stays, so a key has to follow
                    rcases ih hcs h with hsome | ⟨-, herr, -⟩
                    · exact Or.inl hsome
                    · cases herr
          · have hnot : c.isNamed Ns.ENC11 "DerivedKey" = false := Bool.eq_false_iff.mpr hder
            simp only [hnot, Bool.false_eq_true, if_false] at h
            rw [derivedKey?_of_not hnot]
            rcases ih hcs h with hsome | ⟨hkey, herr, hnone, hall⟩
            · exact Or.inl hsome
            · refine Or.inr ⟨hkey, herr, hnone, ?_⟩
              intro d hd
              rcases List.mem_cons.mp hd with rfl | hd
              · exact hnot
              · exact hall d hd

theorem resolveEncryptionKey_eq (encData : Node) :
    resolveEncryptionKey lib ctx encData encUri = (do
      match ← tryTemplateKeys lib ctx encUri none (keyChildren encData) with
      | some key => .ok key
      | none => firstOrSessionKey lib ctx encUri) := by
  unfold resolveEncryptionKey keyChildren
  cases encData.findChildElement Ns.DSIG "KeyInfo" with
  | none => rfl
  | some keyInfo => rfl

/-- The content key of encryption. -/
theorem resolveEncryptionKey_ok {encData : Node} (hno : NoWrappedKey (keyChildren encData))
    {k : ByteArray} (h : resolveEncryptionKey lib ctx encData encUri = .ok k) :
    firstGiven lib ctx encUri (keyChildren encData) = some (.ok k)
      ∨ firstGiven lib ctx encUri (keyChildren encData) = none
        ∧ (∀ c ∈ keyChildren encData, c.isNamed Ns.ENC11 "DerivedKey" = false)
        ∧ firstOrSessionKey lib ctx encUri = .ok k := by
  rw [resolveEncryptionKey_eq] at h
  simp only [bind, Except.bind] at h
  cases htry : tryTemplateKeys lib ctx encUri none (keyChildren encData) with
  | error e =>
      rw [htry] at h
      cases h
  | ok key =>
      rw [htry] at h
      rcases tryTemplateKeys_ok hno htry with ⟨k', rfl, hgiven⟩ | ⟨rfl, -, hnone, hall⟩
      · cases h
        exact Or.inl hgiven
      · exact Or.inr ⟨hnone, hall, h⟩

end

/-! ## Agreement -/

/-- The part of a key that decryption uses. -/
def effectiveKey (encUri : String) (key : ByteArray) : ByteArray :=
  key.extract 0 (min (keyLengthForAlgorithm encUri) key.size)

theorem effectiveKey_eq {encUri : String} {key : ByteArray}
    (h : key.size = keyLengthForAlgorithm encUri) : effectiveKey encUri key = key := by
  rw [effectiveKey, h, Nat.min_self, ← h, ByteArray.extract_zero_size]

section

variable (lib : EncLibs) (ctx : EncContext) (encUri : String) (children : List Node)

/-- Both sides come to one key: a DerivedKey outranks a name that stands before it only with the
same key, and where no child gives a key the first key is symmetric. -/
structure KeysAgree : Prop where
  outranked : ∀ k r, firstGiven lib ctx encUri children = some (.ok k) →
    firstDerived lib ctx encUri children = some r →
      ∃ k', r = .ok k' ∧ effectiveKey encUri k' = k
  fallback : firstGiven lib ctx encUri children = none →
    ∃ key, ctx.keysManager.firstKey = .ok key ∧ key.symmetricKeyBytes.isSome = true

/-- A DerivedKey with another key outranks the name, and by chance that key opens the ciphertext to
bytes of which `finish` makes the data. -/
def OpensByChance (finish : List UInt8 → List UInt8) (data : ByteArray) : Prop :=
  ∃ k k' other, firstGiven lib ctx encUri children = some (.ok k)
    ∧ firstDerived lib ctx encUri children = some (.ok k')
    ∧ effectiveKey encUri k' ≠ k
    ∧ (∀ c, (lib.cipher encUri).encrypt k data = .ok c →
      (lib.cipher encUri).decrypt (effectiveKey encUri k') c = .ok other)
    ∧ finish other.data.toList = data.data.toList

end

section Keys

variable {lib : EncLibs} {ctx : EncContext} {encUri : String} {encData encData' : Node}

theorem mem_of_map_bare {l l' : List Node} (h : l.map Node.bare = l'.map Node.bare) {c : Node}
    (hc : c ∈ l) : ∃ d ∈ l', c.Alike d := by
  have hmem : c.bare ∈ l'.map Node.bare := h ▸ List.mem_map_of_mem hc
  obtain ⟨d, hd, heq⟩ := List.mem_map.mp hmem
  exact ⟨d, hd, heq.symm⟩

theorem keyChildren_alike (h : encData'.Alike encData) :
    (keyChildren encData').map Node.bare = (keyChildren encData).map Node.bare := by
  unfold keyChildren
  cases hki : encData.findChildElement Ns.DSIG "KeyInfo" with
  | none => rw [h.findChildElement_none hki]
  | some keyInfo =>
      obtain ⟨keyInfo', hki', halike⟩ := h.findChildElement hki
      rw [hki']
      exact halike.children

/-- What names tell of the children is the same on both sides. -/
theorem isNamed_of_map_bare {l l' : List Node} (h : l.map Node.bare = l'.map Node.bare)
    {nsUri localName : String} (hl : ∀ c ∈ l', c.isNamed nsUri localName = false) :
    ∀ c ∈ l, c.isNamed nsUri localName = false := by
  intro c hc
  obtain ⟨d, hd, halike⟩ := mem_of_map_bare h hc
  have hnamed := halike.congr (f := fun n => n.isNamed nsUri localName)
    (fun g n => isNamed_mapKeys g n nsUri localName)
  exact hnamed.trans (hl d hd)

theorem NoWrappedKey.of_map_bare {l l' : List Node} (h : l.map Node.bare = l'.map Node.bare)
    (hl : NoWrappedKey l') : NoWrappedKey l := by
  intro c hc
  exact ⟨isNamed_of_map_bare h (fun d hd => (hl d hd).1) c hc,
    isNamed_of_map_bare h (fun d hd => (hl d hd).2) c hc⟩

theorem firstSymmetricKey_ok {manager : KeysManager} {k : ByteArray} :
    firstSymmetricKey manager = .ok k
      ↔ ∃ key, manager.firstKey = .ok key ∧ key.symmetricKeyBytes = some k := by
  unfold firstSymmetricKey
  cases manager.firstKey with
  | error e => simp [bind, Except.bind]
  | ok key =>
      cases hk : key.symmetricKeyBytes with
      | none => simp [bind, Except.bind, bytesOr, hk]
      | some bytes => simp [bind, Except.bind, bytesOr, hk]

theorem firstOrSessionKey_symmetric {key : Key} {k : ByteArray}
    (hfirst : ctx.keysManager.firstKey = .ok key) (hk : key.symmetricKeyBytes = some k) :
    firstOrSessionKey lib ctx encUri = .ok k := by
  rw [firstOrSessionKey, hfirst]
  simp only [bind, Except.bind, hk]

/-- What decryption comes to where encryption took `key`. -/
inductive DecryptionKey (lib : EncLibs) (ctx : EncContext) (encUri : String) (children : List Node)
    (key : ByteArray) : Except Error ByteArray → Prop where
  | derived (r : Except Error ByteArray)
      (hgiven : firstGiven lib ctx encUri children = some (.ok key))
      (hderived : firstDerived lib ctx encUri children = some r) :
      DecryptionKey lib ctx encUri children key r
  | named (hgiven : firstGiven lib ctx encUri children = some (.ok key))
      (hderived : firstDerived lib ctx encUri children = none) :
      DecryptionKey lib ctx encUri children key (.ok key)
  | first (hgiven : firstGiven lib ctx encUri children = none)
      (hfirst : firstOrSessionKey lib ctx encUri = .ok key) :
      DecryptionKey lib ctx encUri children key (firstSymmetricKey ctx.keysManager)

theorem decryptionKey_of_encryption {doc : Document} {idMap : IdMap} {key : ByteArray}
    (hno : NoWrappedKey (keyChildren encData))
    (hsame : (keyChildren encData').map Node.bare = (keyChildren encData).map Node.bare)
    (hkey : resolveEncryptionKey lib ctx encData encUri = .ok key) :
    DecryptionKey lib ctx encUri (keyChildren encData) key
      (resolveDecryptionKey lib ctx doc encData' idMap encUri) := by
  have hno' := hno.of_map_bare hsame
  have hderived : firstDerived lib ctx encUri (keyChildren encData')
      = firstDerived lib ctx encUri (keyChildren encData) :=
    findSome?_congr_bare derivedKey?_mapKeys hsame
  have hnamed : (keyChildren encData').findSome? (keyNameBytes ctx.keysManager)
      = (keyChildren encData).findSome? (keyNameBytes ctx.keysManager) :=
    findSome?_congr_bare (fun g n => keyNameBytes_mapKeys g n ctx.keysManager) hsame
  rcases resolveEncryptionKey_ok hno hkey with hgiven | ⟨hgiven, hnoDerived, hfirst⟩
  · cases hder : firstDerived lib ctx encUri (keyChildren encData) with
    | some r =>
        -- a DerivedKey decides, wherever the names are
        rw [resolveDecryptionKey_derived hno' (hderived.trans hder)]
        exact .derived r hgiven hder
    | none =>
        have hname := firstGiven_of_firstDerived_none hder
        rw [hgiven] at hname
        obtain ⟨k, hk, hkk⟩ := Option.map_eq_some_iff.mp hname.symm
        rw [Except.ok.injEq] at hkk
        subst hkk
        rw [resolveDecryptionKey_named hno' (hderived.trans hder) (hnamed.trans hk)]
        exact .named hgiven hder
  · have hname := firstGiven_of_firstDerived_none (firstDerived_of_firstGiven_none hgiven)
    rw [hgiven] at hname
    have hnone := Option.map_eq_none_iff.mp hname.symm
    rw [resolveDecryptionKey_first hno' (isNamed_of_map_bare hsame hnoDerived)
      (hnamed.trans hnone)]
    exact .first hgiven hfirst

/-- **The keys agree exactly when decryption comes to the key of encryption.** -/
theorem DecryptionKey.agrees_iff {children : List Node} {key : ByteArray}
    {r : Except Error ByteArray} (h : DecryptionKey lib ctx encUri children key r)
    (hkey : effectiveKey encUri key = key) :
    KeysAgree lib ctx encUri children ↔ ∃ k, r = .ok k ∧ effectiveKey encUri k = key := by
  cases h with
  | derived r hgiven hderived =>
      constructor
      · intro h
        exact h.outranked key r hgiven hderived
      · intro h
        refine ⟨fun k r' hk hr' => ?_, fun hnone => (by rw [hgiven] at hnone; cases hnone)⟩
        rw [hgiven, Option.some.injEq, Except.ok.injEq] at hk
        rw [hderived, Option.some.injEq] at hr'
        subst hk hr'
        exact h
  | named hgiven hderived =>
      refine ⟨fun _ => ⟨key, rfl, hkey⟩, fun _ => ?_⟩
      exact ⟨fun k r _ hr => (by rw [hderived] at hr; cases hr),
        fun hnone => (by rw [hgiven] at hnone; cases hnone)⟩
  | first hgiven hfirst =>
      constructor
      · intro h
        -- decryption takes the first key only if it is symmetric
        obtain ⟨first, hfirstKey, hsymmetric⟩ := h.fallback hgiven
        obtain ⟨k, hk⟩ := Option.isSome_iff_exists.mp hsymmetric
        have hkk := @firstOrSessionKey_symmetric lib _ encUri _ _ hfirstKey hk
        rw [hfirst, Except.ok.injEq] at hkk
        subst hkk
        exact ⟨key, firstSymmetricKey_ok.mpr ⟨first, hfirstKey, hk⟩, hkey⟩
      · rintro ⟨k, hk, -⟩
        obtain ⟨first, hfirstKey, hbytes⟩ := firstSymmetricKey_ok.mp hk
        refine ⟨fun k' r hk' => (by rw [hgiven] at hk'; cases hk'), fun _ => ?_⟩
        exact ⟨first, hfirstKey, by rw [hbytes]; rfl⟩

/-- Another key is that of a DerivedKey. -/
theorem DecryptionKey.other {children : List Node} {key k : ByteArray}
    (h : DecryptionKey lib ctx encUri children key (.ok k)) (hkey : effectiveKey encUri key = key)
    (hne : effectiveKey encUri k ≠ key) :
    firstGiven lib ctx encUri children = some (.ok key)
      ∧ firstDerived lib ctx encUri children = some (.ok k) := by
  generalize hr : Except.ok k = r at h
  cases h with
  | derived r hgiven hderived =>
      exact ⟨hgiven, hderived⟩
  | named hgiven hderived =>
      rw [Except.ok.injEq] at hr
      rw [hr] at hne
      exact absurd hkey hne
  | first hgiven hfirst =>
      obtain ⟨first, hfirstKey, hk⟩ := firstSymmetricKey_ok.mp hr.symm
      have hkk := @firstOrSessionKey_symmetric lib _ encUri _ _ hfirstKey hk
      rw [hfirst, Except.ok.injEq] at hkk
      rw [← hkk] at hne
      exact absurd hkey hne

/-- A DerivedKey that has a key decides. -/
theorem DecryptionKey.of_derived {children : List Node} {key k₀ k : ByteArray}
    {r : Except Error ByteArray} (h : DecryptionKey lib ctx encUri children key r)
    (hgiven : firstGiven lib ctx encUri children = some (.ok k₀))
    (hderived : firstDerived lib ctx encUri children = some (.ok k)) : key = k₀ ∧ r = .ok k := by
  cases h with
  | derived r hgiven' hderived' =>
      rw [hgiven', Option.some.injEq, Except.ok.injEq] at hgiven
      rw [hderived', Option.some.injEq] at hderived
      exact ⟨hgiven, hderived⟩
  | named hgiven' hderived' =>
      rw [hderived'] at hderived
      cases hderived
  | first hgiven' hfirst =>
      rw [hgiven'] at hgiven
      cases hgiven

end Keys

end Bergshamra
