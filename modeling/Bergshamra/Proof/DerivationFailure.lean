import Bergshamra.Proof.OpaqueRoundTrip

/-!
# A derivation that fails

A DerivedKey that is there and whose derivation fails is meant to surface as an
error and not to give way to a key by name or to the first key of the manager.
The last error is remembered for that, but it is looked at when a name has
already answered: in decryption by the second loop over the children, in
encryption by a name on either side of the DerivedKey.
-/

namespace Bergshamra

/-- No key comes out. -/
def NoKey (r : Except Error ByteArray) : Prop := ∀ key, r ≠ .ok key

/-- An error is returned. -/
def Fails (r : Except Error ByteArray) : Prop := ∃ e, e ≠ .panics ∧ r = .error e

/-- The computation ends in a fault. -/
def faults : Except Error ByteArray → Bool
  | .error .panics => true
  | _ => false

theorem faults_iff {r : Except Error ByteArray} : faults r = true ↔ r = .error .panics := by
  unfold faults
  split
  next => simp
  next hne => simpa using hne

theorem fails_iff {r : Except Error ByteArray} : Fails r ↔ NoKey r ∧ faults r = false := by
  constructor
  · intro h
    obtain ⟨e, hne, rfl⟩ := h
    refine ⟨fun key h => (by cases h), ?_⟩
    rw [Bool.eq_false_iff]
    intro hf
    exact hne (Except.error.inj (faults_iff.mp hf))
  · intro h
    obtain ⟨hno, hf⟩ := h
    cases r with
    | ok key => exact absurd rfl (hno key)
    | error e =>
        refine ⟨e, ?_, rfl⟩
        intro he
        rw [faults_iff.mpr (congrArg Except.error he)] at hf
        cases hf

theorem not_fails_ok (key : ByteArray) : ¬ Fails (.ok key) := by
  intro h
  obtain ⟨e, -, he⟩ := h
  cases he

theorem not_fails_panics : ¬ Fails (.error .panics) := by
  intro h
  obtain ⟨e, hne, he⟩ := h
  exact hne (Except.error.inj he).symm

section

variable (lib : EncLibs) (ctx : EncContext) (doc : Document) (idMap : IdMap) (encUri : String)
  (children : List Node)

/-- What a child of the KeyInfo comes to in the first loop of decryption. -/
def childKey? (c : Node) : Option (Except Error ByteArray) :=
  if c.isNamed Ns.ENC "EncryptedKey" then some (decryptEncryptedKey lib ctx doc c idMap)
  else if c.isNamed Ns.ENC11 "DerivedKey" then some (resolveDerivedKey lib ctx c encUri)
  else none

/-- A DerivedKey fails, and neither a child nor what a RetrievalMethod leads to gives a key. -/
structure DerivationFailure : Prop where
  failed : ∃ c ∈ children, c.isNamed Ns.ENC11 "DerivedKey" = true
    ∧ Fails (resolveDerivedKey lib ctx c encUri)
  noChild : ∀ c ∈ children, ∀ r, childKey? lib ctx doc idMap encUri c = some r → NoKey r
  noTarget : ∀ c ∈ children, ∀ target, retrievedEncryptedKey lib.toUppsala idMap c = some target →
    NoKey (decryptEncryptedKey lib ctx doc target idMap)

/-- The child that the second loop of decryption stops at. -/
def lookupChild : Option Node :=
  children.find? (fun c => (keyNameBytes ctx.keysManager c).isSome
    || (retrievedEncryptedKey lib.toUppsala idMap c).isSome)

/-- No child faults, and no known name comes before the first reference to an EncryptedKey. -/
structure DecryptionSurfaces : Prop where
  noFault : ∀ c ∈ children, ∀ r, childKey? lib ctx doc idMap encUri c = some r → faults r = false
  noName : ∀ c, lookupChild lib ctx idMap children = some c → keyNameBytes ctx.keysManager c = none
    ∧ ∀ target, retrievedEncryptedKey lib.toUppsala idMap c = some target →
      faults (decryptEncryptedKey lib ctx doc target idMap) = false

/-- In encryption: a DerivedKey fails, none gives a key, and neither does an EncryptedKey, for which
a session key would be made. -/
structure TemplateDerivationFailure : Prop where
  failed : ∃ c ∈ children, c.isNamed Ns.ENC11 "DerivedKey" = true
    ∧ Fails (resolveDerivedKey lib ctx c encUri)
  noDerived : ∀ c ∈ children, c.isNamed Ns.ENC11 "DerivedKey" = true →
    NoKey (resolveDerivedKey lib ctx c encUri)
  noSession : ∀ c ∈ children, c.isNamed Ns.ENC "EncryptedKey" = true →
    NoKey (generateSessionKey lib encUri)

/-- The child that the loop of encryption stops at. -/
def templateChild : Option Node :=
  children.find? (fun c => (keyNameBytes ctx.keysManager c).isSome
    || c.isNamed Ns.ENC "EncryptedKey"
    || c.isNamed Ns.ENC11 "DerivedKey" && faults (resolveDerivedKey lib ctx c encUri))

/-- No known name and no fault comes before the first EncryptedKey. -/
def EncryptionSurfaces : Prop :=
  ∀ c, templateChild lib ctx encUri children = some c → c.isNamed Ns.ENC "EncryptedKey" = true

end

variable {lib : EncLibs} {ctx : EncContext} {doc : Document} {idMap : IdMap} {encUri : String}
  {children : List Node}

theorem isNamed_unique {n : Node} {nsUri nsUri' localName localName' : String}
    (h : n.isNamed nsUri localName = true) (h' : n.isNamed nsUri' localName' = true) :
    localName = localName' ∧ nsUri = nsUri' := by
  obtain ⟨e, he, hn⟩ := Node.isNamed_iff.mp h
  obtain ⟨e', he', hn'⟩ := Node.isNamed_iff.mp h'
  rw [he, Option.some.injEq] at he'
  subst he'
  simp only [Element.isNamed, Bool.and_eq_true, beq_iff_eq] at hn hn'
  exact ⟨hn.1.symm.trans hn'.1, hn.2.symm.trans hn'.2⟩

theorem keyNameBytes_encryptedKey {manager : KeysManager} {c : Node}
    (h : c.isNamed Ns.ENC "EncryptedKey" = true) : keyNameBytes manager c = none := by
  have hname : ¬ c.isNamed Ns.DSIG "KeyName" = true := by
    intro h'
    exact absurd (isNamed_unique h h').1 (by decide)
  rw [keyNameBytes, if_neg hname]

theorem childKey?_derived {c : Node} (h : c.isNamed Ns.ENC11 "DerivedKey" = true) :
    childKey? lib ctx doc idMap encUri c = some (resolveDerivedKey lib ctx c encUri) := by
  have henc : ¬ c.isNamed Ns.ENC "EncryptedKey" = true := by
    intro h'
    exact absurd (isNamed_unique h h').1 (by decide)
  rw [childKey?, if_neg henc, if_pos h]

/-! ## The first loop of decryption -/

/-- The remembered errors were returned. -/
def KeyErrors.Returned (errs : KeyErrors) : Prop :=
  ∀ e, errs.encrypted.or errs.derived = some e → e ≠ .panics

theorem tryChildKeys_cons (errs : KeyErrors) (c : Node) (cs : List Node) :
    tryChildKeys lib ctx doc idMap encUri errs (c :: cs)
      = match childKey? lib ctx doc idMap encUri c with
        | none => tryChildKeys lib ctx doc idMap encUri errs cs
        | some (.ok key) => .ok (.inl key)
        | some (.error .panics) => .error .panics
        | some (.error e) =>
            if c.isNamed Ns.ENC "EncryptedKey" then
              tryChildKeys lib ctx doc idMap encUri { errs with encrypted := some e } cs
            else tryChildKeys lib ctx doc idMap encUri { errs with derived := some e } cs := by
  rw [tryChildKeys, childKey?]
  by_cases henc : c.isNamed Ns.ENC "EncryptedKey" = true
  · simp only [if_pos henc]
    rcases decryptEncryptedKey lib ctx doc c idMap with e | key
    · cases e <;> rfl
    · rfl
  · simp only [if_neg henc]
    by_cases hder : c.isNamed Ns.ENC11 "DerivedKey" = true
    · simp only [if_pos hder]
      rcases resolveDerivedKey lib ctx c encUri with e | key
      · cases e <;> rfl
      · rfl
    · simp only [if_neg hder]

/-- What is remembered after one more error. -/
theorem KeyErrors.Returned.remember {errs : KeyErrors} (h : errs.Returned) {e : Error}
    (he : e ≠ .panics) :
    KeyErrors.Returned { errs with encrypted := some e }
      ∧ KeyErrors.Returned { errs with derived := some e } := by
  refine ⟨fun e' h' => ?_, fun e' h' => ?_⟩
  · obtain rfl : e = e' := Option.some.inj h'
    exact he
  · cases henc : errs.encrypted with
    | none =>
        rw [henc] at h'
        obtain rfl : e = e' := Option.some.inj h'
        exact he
    | some e₀ =>
        rw [henc] at h'
        obtain rfl : e₀ = e' := Option.some.inj h'
        exact h e₀ (by rw [henc]; rfl)

/-- Where no child gives a key and none faults, all are tried and the errors remembered. -/
theorem tryChildKeys_noKey
    (hkey : ∀ c ∈ children, ∀ r, childKey? lib ctx doc idMap encUri c = some r → NoKey r)
    (hfault : ∀ c ∈ children, ∀ r, childKey? lib ctx doc idMap encUri c = some r →
      faults r = false) (errs : KeyErrors) (herrs : errs.Returned) :
    ∃ errs', tryChildKeys lib ctx doc idMap encUri errs children = .ok (.inr errs')
      ∧ errs'.Returned
      ∧ (errs'.encrypted.or errs'.derived = none → errs.encrypted.or errs.derived = none
        ∧ ∀ c ∈ children, childKey? lib ctx doc idMap encUri c = none) := by
  induction children generalizing errs with
  | nil =>
      refine ⟨errs, rfl, herrs, fun h => ⟨h, ?_⟩⟩
      intro c hc
      cases hc
  | cons c cs ih =>
      have hkeys := fun d hd => hkey d (List.mem_cons_of_mem c hd)
      have hfaults := fun d hd => hfault d (List.mem_cons_of_mem c hd)
      rw [tryChildKeys_cons]
      cases hc : childKey? lib ctx doc idMap encUri c with
      | none =>
          obtain ⟨errs', hrun, hret, hnone⟩ := ih hkeys hfaults _ herrs
          refine ⟨errs', hrun, hret, fun h => ⟨(hnone h).1, ?_⟩⟩
          intro d hd
          rcases List.mem_cons.mp hd with rfl | hd
          · exact hc
          · exact (hnone h).2 d hd
      | some r =>
          obtain ⟨e, hne, rfl⟩ := fails_iff.mpr
            ⟨hkey c List.mem_cons_self r hc, hfault c List.mem_cons_self r hc⟩
          obtain ⟨henc, hder⟩ := herrs.remember hne
          by_cases hnamed : c.isNamed Ns.ENC "EncryptedKey" = true
          · obtain ⟨errs', hrun, hret, hnone⟩ := ih hkeys hfaults _ henc
            -- an error is remembered from here on, so the last part is void
            refine ⟨errs', ?_, hret, fun h => absurd (hnone h).1 (by simp)⟩
            cases e with
            | panics => exact absurd rfl hne
            | _ =>
                simp only [if_pos hnamed]
                exact hrun
          · obtain ⟨errs', hrun, hret, hnone⟩ := ih hkeys hfaults _ hder
            refine ⟨errs', ?_, hret, fun h => absurd (hnone h).1 (by simp)⟩
            cases e with
            | panics => exact absurd rfl hne
            | _ =>
                simp only [if_neg hnamed]
                exact hrun

/-- Where no child gives a key, a fault in one of them is the outcome. -/
theorem tryChildKeys_faults
    (hkey : ∀ c ∈ children, ∀ r, childKey? lib ctx doc idMap encUri c = some r → NoKey r)
    (hfault : ∃ c ∈ children, childKey? lib ctx doc idMap encUri c = some (.error .panics))
    (errs : KeyErrors) :
    tryChildKeys lib ctx doc idMap encUri errs children = .error .panics := by
  induction children generalizing errs with
  | nil =>
      obtain ⟨c, hc, -⟩ := hfault
      cases hc
  | cons c cs ih =>
      obtain ⟨d, hd, hdr⟩ := hfault
      have hkeys := fun d hd => hkey d (List.mem_cons_of_mem c hd)
      rw [tryChildKeys_cons]
      rcases List.mem_cons.mp hd with rfl | hd
      · rw [hdr]
      · have hrest := ih hkeys ⟨d, hd, hdr⟩
        cases hc : childKey? lib ctx doc idMap encUri c with
        | none => exact hrest errs
        | some r =>
            have hno := hkey c List.mem_cons_self r hc
            cases r with
            | ok key => exact absurd rfl (hno key)
            | error e =>
                cases e with
                | panics => rfl
                | _ =>
                    dsimp only
                    split
                    · exact hrest _
                    · exact hrest _

/-! ## The second loop of decryption -/

/-- Names and references are tried up to the child that the loop stops at. -/
theorem tryNamesAndReferences_stops :
    tryNamesAndReferences lib ctx doc idMap children
      = match lookupChild lib ctx idMap children with
        | none => .ok none
        | some c =>
            match keyNameBytes ctx.keysManager c with
            | some bytes => .ok (some bytes)
            | none =>
                match retrievedEncryptedKey lib.toUppsala idMap c with
                | some target => (decryptEncryptedKey lib ctx doc target idMap).map some
                | none => .ok none := by
  induction children with
  | nil => rfl
  | cons c cs ih =>
      rw [lookupChild] at ih
      rw [tryNamesAndReferences, lookupChild, List.find?_cons]
      cases hname : keyNameBytes ctx.keysManager c with
      | some bytes => simp [hname]
      | none =>
          cases hret : retrievedEncryptedKey lib.toUppsala idMap c with
          | some target => simp [hname, hret]
          | none => simpa [hname, hret] using ih

/-- A found child answers by a name or by a reference. -/
theorem lookupChild_answers {c : Node} (h : lookupChild lib ctx idMap children = some c)
    (hname : keyNameBytes ctx.keysManager c = none) :
    c ∈ children ∧ ∃ target, retrievedEncryptedKey lib.toUppsala idMap c = some target := by
  have hstop := List.find?_some h
  rw [hname, Option.isSome_none, Bool.false_or] at hstop
  exact ⟨List.mem_of_find?_eq_some h, Option.isSome_iff_exists.mp hstop⟩

/-! ## Decryption -/

/-- **The failure surfaces exactly where no known name answers first and nothing faults.** -/
theorem resolveDecryptionKey_fails_iff {encData keyInfo : Node}
    (hinfo : encData.findChildElement Ns.DSIG "KeyInfo" = some keyInfo)
    (hfail : DerivationFailure lib ctx doc idMap encUri keyInfo.children) :
    Fails (resolveDecryptionKey lib ctx doc encData idMap encUri)
      ↔ DecryptionSurfaces lib ctx doc idMap encUri keyInfo.children := by
  rw [resolveDecryptionKey, hinfo]
  by_cases hfault : ∀ c ∈ keyInfo.children, ∀ r,
      childKey? lib ctx doc idMap encUri c = some r → faults r = false
  · obtain ⟨errs, hrun, hret, hnone⟩ := tryChildKeys_noKey hfail.noChild hfault
      ⟨none, none⟩ (fun e he => by cases he)
    simp only [bind, Except.bind, hrun, tryNamesAndReferences_stops]
    -- the failed DerivedKey left an error
    obtain ⟨e, he⟩ : ∃ e, errs.encrypted.or errs.derived = some e := by
      obtain ⟨c, hc, hder, -⟩ := hfail.failed
      cases herr : errs.encrypted.or errs.derived with
      | some e => exact ⟨e, rfl⟩
      | none =>
          have := (hnone herr).2 c hc
          rw [childKey?_derived hder] at this
          cases this
    cases hc : lookupChild lib ctx idMap keyInfo.children with
    | none =>
        simp only [he]
        refine ⟨fun _ => ⟨hfault, ?_⟩, fun _ => ⟨e, hret e he, rfl⟩⟩
        intro c hc'
        rw [hc] at hc'
        cases hc'
    | some c =>
        cases hname : keyNameBytes ctx.keysManager c with
        | some bytes =>
            simp only [hname]
            refine ⟨fun h => absurd h (not_fails_ok bytes), fun h => ?_⟩
            rw [(h.noName c hc).1] at hname
            cases hname
        | none =>
            obtain ⟨hmem, target, htarget⟩ := lookupChild_answers hc hname
            have hno := hfail.noTarget c hmem target htarget
            simp only [hname, htarget]
            cases hdec : decryptEncryptedKey lib ctx doc target idMap with
            | ok key => exact absurd hdec (hno key)
            | error e' =>
                show Fails (.error e') ↔ _
                rw [← hdec, fails_iff]
                constructor
                · intro h
                  refine ⟨hfault, fun c' hc' => ?_⟩
                  obtain rfl : c = c' := Option.some.inj (hc.symm.trans hc')
                  refine ⟨hname, fun target' ht' => ?_⟩
                  obtain rfl : target = target' := Option.some.inj (htarget.symm.trans ht')
                  exact h.2
                · intro h
                  exact ⟨hno, (h.noName c hc).2 target htarget⟩
  · have hpanics : ∃ c ∈ keyInfo.children,
        childKey? lib ctx doc idMap encUri c = some (.error .panics) := by
      by_contra hno
      refine hfault fun c hc r hr => ?_
      rw [Bool.eq_false_iff]
      intro hf
      exact hno ⟨c, hc, faults_iff.mp hf ▸ hr⟩
    simp only [bind, Except.bind, tryChildKeys_faults hfail.noChild hpanics]
    exact ⟨fun h => absurd h not_fails_panics, fun h => absurd h.noFault hfault⟩

/-! ## Encryption -/

/-- Where the loop is not stopped, the last error of a DerivedKey is reported. -/
theorem tryTemplateKeys_unstopped
    (hno : ∀ c ∈ children, c.isNamed Ns.ENC11 "DerivedKey" = true →
      NoKey (resolveDerivedKey lib ctx c encUri))
    (hstop : templateChild lib ctx encUri children = none)
    (err : Option Error) (herr : ∀ e, err = some e → e ≠ .panics)
    (hsome : err.isSome = true ∨ ∃ c ∈ children, c.isNamed Ns.ENC11 "DerivedKey" = true) :
    ∃ e, e ≠ .panics ∧ tryTemplateKeys lib ctx encUri err children = .error e := by
  induction children generalizing err with
  | nil =>
      cases err with
      | some e => exact ⟨e, herr e rfl, rfl⟩
      | none =>
          rcases hsome with h | h
          · cases h
          · obtain ⟨c, hc, -⟩ := h
            cases hc
  | cons c cs ih =>
      have hnos := fun d hd => hno d (List.mem_cons_of_mem c hd)
      rw [templateChild, List.find?_eq_none] at hstop
      have hpass := hstop c List.mem_cons_self
      have hstops : templateChild lib ctx encUri cs = none := by
        rw [templateChild, List.find?_eq_none]
        exact fun d hd => hstop d (List.mem_cons_of_mem c hd)
      simp only [Bool.or_eq_true, Bool.and_eq_true, not_or, not_and, Bool.not_eq_true,
        Option.isSome_eq_false_iff, Option.isNone_iff_eq_none] at hpass
      obtain ⟨⟨hname, henc⟩, hder⟩ := hpass
      simp only [tryTemplateKeys, hname, henc, Bool.false_eq_true, if_false]
      by_cases hnamed : c.isNamed Ns.ENC11 "DerivedKey" = true
      · obtain ⟨e, hne, he⟩ := fails_iff.mpr ⟨hno c List.mem_cons_self hnamed, hder hnamed⟩
        -- the error is kept, and the loop goes on
        have hrun := ih hnos hstops (some e)
          (fun e' he' => Option.some.inj he' ▸ hne) (Or.inl rfl)
        rw [if_pos hnamed, he]
        cases e with
        | panics => exact absurd rfl hne
        | _ => exact hrun
      · rw [if_neg hnamed]
        refine ih hnos hstops err herr ?_
        rcases hsome with h | h
        · exact Or.inl h
        · obtain ⟨d, hd, hdn⟩ := h
          rcases List.mem_cons.mp hd with rfl | hd
          · exact absurd hdn hnamed
          · exact Or.inr ⟨d, hd, hdn⟩

/-- The child that stops the loop decides. -/
theorem tryTemplateKeys_stopped
    (hno : ∀ c ∈ children, c.isNamed Ns.ENC11 "DerivedKey" = true →
      NoKey (resolveDerivedKey lib ctx c encUri))
    {c : Node} (hstop : templateChild lib ctx encUri children = some c) (err : Option Error) :
    tryTemplateKeys lib ctx encUri err children
      = match keyNameBytes ctx.keysManager c with
        | some bytes => .ok (some bytes)
        | none =>
            if c.isNamed Ns.ENC "EncryptedKey" then (generateSessionKey lib encUri).map some
            else .error .panics := by
  induction children generalizing err with
  | nil => cases hstop
  | cons d ds ih =>
      have hnos := fun c hc => hno c (List.mem_cons_of_mem d hc)
      rw [templateChild, List.find?_cons] at hstop
      rw [tryTemplateKeys]
      cases hname : keyNameBytes ctx.keysManager d with
      | some bytes =>
          simp only [hname, Option.isSome_some, Bool.true_or, Option.some.injEq] at hstop
          subst hstop
          rw [hname]
      | none =>
          simp only [hname, Option.isSome_none, Bool.false_or] at hstop
          by_cases henc : d.isNamed Ns.ENC "EncryptedKey" = true
          · simp only [henc, Bool.true_or, Option.some.injEq] at hstop
            subst hstop
            simp only [henc, hname, if_true]
          · by_cases hder : d.isNamed Ns.ENC11 "DerivedKey" = true
            · simp only [henc, hder, Bool.false_or, Bool.true_and] at hstop
              -- it can stop the loop only by a panic
              have hnod := hno d List.mem_cons_self hder
              simp only [henc, hder, if_true, Bool.false_eq_true, if_false]
              cases hres : resolveDerivedKey lib ctx d encUri with
              | ok key => exact absurd hres (hnod key)
              | error e =>
                  rw [hres] at hstop
                  cases e with
                  | panics =>
                      simp only [faults, Option.some.injEq] at hstop
                      subst hstop
                      simp only [hname, henc, Bool.false_eq_true, if_false]
                  | _ => exact ih hnos hstop _
            · simp only [henc, hder, Bool.false_or, Bool.false_and] at hstop
              simp only [henc, hder, Bool.false_eq_true, if_false]
              exact ih hnos hstop err

/-- **The failure surfaces exactly where no known name and no fault comes before the first
EncryptedKey.** -/
theorem resolveEncryptionKey_fails_iff {encData keyInfo : Node}
    (hinfo : encData.findChildElement Ns.DSIG "KeyInfo" = some keyInfo)
    (hfail : TemplateDerivationFailure lib ctx encUri keyInfo.children) :
    Fails (resolveEncryptionKey lib ctx encData encUri)
      ↔ EncryptionSurfaces lib ctx encUri keyInfo.children := by
  rw [resolveEncryptionKey, hinfo]
  cases hc : templateChild lib ctx encUri keyInfo.children with
  | none =>
      obtain ⟨c, hcm, hder, -⟩ := hfail.failed
      obtain ⟨e, hne, hrun⟩ := tryTemplateKeys_unstopped hfail.noDerived hc none
        (fun e he => by cases he) (Or.inr ⟨c, hcm, hder⟩)
      simp only [bind, Except.bind, hrun]
      refine ⟨fun _ c' hc' => ?_, fun _ => ⟨e, hne, rfl⟩⟩
      rw [hc] at hc'
      cases hc'
  | some c =>
      have hrun := tryTemplateKeys_stopped hfail.noDerived hc none
      have hmem : c ∈ keyInfo.children := List.mem_of_find?_eq_some hc
      have hsurf : EncryptionSurfaces lib ctx encUri keyInfo.children
          ↔ c.isNamed Ns.ENC "EncryptedKey" = true := by
        refine ⟨fun h => h c hc, fun h c' hc' => ?_⟩
        obtain rfl : c = c' := Option.some.inj (hc.symm.trans hc')
        exact h
      rw [hsurf]
      simp only [bind, Except.bind, hrun]
      cases hname : keyNameBytes ctx.keysManager c with
      | some bytes =>
          -- a KeyName is no EncryptedKey
          refine ⟨fun h => absurd h (not_fails_ok bytes), fun h => ?_⟩
          rw [keyNameBytes_encryptedKey h] at hname
          cases hname
      | none =>
          by_cases henc : c.isNamed Ns.ENC "EncryptedKey" = true
          · have hses := hfail.noSession c hmem henc
            rw [if_pos henc]
            unfold generateSessionKey at hses ⊢
            by_cases hsup : cipherAlgorithms.contains encUri = true
            · rw [if_pos hsup] at hses
              exact absurd rfl (hses _)
            · rw [if_neg hsup]
              exact ⟨fun _ => henc, fun _ => ⟨_, by simp, rfl⟩⟩
          · rw [if_neg henc]
            exact ⟨fun h => absurd h not_fails_panics, fun h => absurd h henc⟩

/-- **A failed derivation surfaces exactly under these conditions.** -/
theorem failed_derivation_surfaces_iff (lib : EncLibs) (ctx : EncContext) (doc : Document)
    (idMap : IdMap) (encUri : String) (encData keyInfo : Node)
    (hinfo : encData.findChildElement Ns.DSIG "KeyInfo" = some keyInfo) :
    (DerivationFailure lib ctx doc idMap encUri keyInfo.children →
      (Fails (resolveDecryptionKey lib ctx doc encData idMap encUri)
        ↔ DecryptionSurfaces lib ctx doc idMap encUri keyInfo.children))
    ∧ (TemplateDerivationFailure lib ctx encUri keyInfo.children →
      (Fails (resolveEncryptionKey lib ctx encData encUri)
        ↔ EncryptionSurfaces lib ctx encUri keyInfo.children)) :=
  ⟨resolveDecryptionKey_fails_iff hinfo, resolveEncryptionKey_fails_iff hinfo⟩

namespace SampleDerivation

open SampleOpaque

/-- `<DerivedKey/>`, which says nothing of how to derive. -/
def derivedKey : Element := ⟨⟨none, "DerivedKey", some Ns.ENC11⟩, [], []⟩

def keyInfoKids (name : Nodes) : Nodes := .node 3 derivedKey .nil name

/-- The KeyInfo of an EncryptedData, with what stands after the DerivedKey. -/
def keyInfo (name : Nodes) : Node :=
  ⟨2, [(1, encryptedData)], .node (Sample.element "KeyInfo" []) (keyInfoKids name)⟩

def encData (name : Nodes) : Node :=
  ⟨1, [], .node encryptedData (.node 2 (Sample.element "KeyInfo" []) (keyInfoKids name) .nil)⟩

/-- `<KeyName>k</KeyName>`. -/
def known : Nodes := Sample.textElement 4 "KeyName" "k" .nil

/-- One key with the name `k`. -/
def manager : EncContext := .new ⟨[⟨some "k", .aes key, .any, []⟩], [], [], []⟩

abbrev noLibs : EncLibs := libs .empty .empty ""

theorem hasKeyInfo (name : Nodes) :
    (encData name).findChildElement Ns.DSIG "KeyInfo" = some (keyInfo name) := rfl

theorem derivation_fails (path : List (NodeId × Element)) :
    resolveDerivedKey noLibs manager ⟨3, path, .node derivedKey .nil⟩ Algorithm.AES128_CBC
      = .error (.missingElement "KeyDerivationMethod") := rfl

theorem fails_missing (e : String) : Fails (.error (.missingElement e)) := ⟨_, by simp, rfl⟩

theorem mem_known {c : Node} (h : c ∈ (keyInfo known).children) :
    c = ⟨3, (keyInfo known).selfPath, .node derivedKey .nil⟩
      ∨ c = ⟨4, (keyInfo known).selfPath, .node (Sample.element "KeyName" [])
        (.leaf 5 (.text "k") .nil)⟩ := by
  have hkids : (keyInfo known).children
      = [⟨3, (keyInfo known).selfPath, .node derivedKey .nil⟩,
        ⟨4, (keyInfo known).selfPath, .node (Sample.element "KeyName" [])
          (.leaf 5 (.text "k") .nil)⟩] := rfl
  rw [hkids] at h
  simpa using h

theorem failure (idMap : IdMap) (doc : Document) :
    DerivationFailure noLibs manager doc idMap Algorithm.AES128_CBC (keyInfo known).children where
  failed := ⟨_, List.mem_cons_self, rfl, by rw [derivation_fails]; exact fails_missing _⟩
  noChild c hc r hr := by
    rcases mem_known hc with rfl | rfl
    · obtain rfl := Option.some.inj hr
      rw [derivation_fails]
      exact (fails_iff.mp (fails_missing _)).1
    · cases hr
  noTarget c hc target ht := by
    rcases mem_known hc with rfl | rfl
    · cases ht
    · cases ht

theorem mem_alone {c : Node} (h : c ∈ (keyInfo .nil).children) :
    c = ⟨3, (keyInfo .nil).selfPath, .node derivedKey .nil⟩ := List.mem_singleton.mp h

theorem failure_alone :
    DerivationFailure noLibs manager template [] Algorithm.AES128_CBC (keyInfo .nil).children where
  failed := ⟨_, List.mem_cons_self, rfl, by rw [derivation_fails]; exact fails_missing _⟩
  noChild c hc r hr := by
    obtain rfl := mem_alone hc
    obtain rfl := Option.some.inj hr
    rw [derivation_fails]
    exact (fails_iff.mp (fails_missing _)).1
  noTarget c hc target ht := by
    obtain rfl := mem_alone hc
    cases ht

theorem template_failure_alone :
    TemplateDerivationFailure noLibs manager Algorithm.AES128_CBC (keyInfo .nil).children where
  failed := ⟨_, List.mem_cons_self, rfl, by rw [derivation_fails]; exact fails_missing _⟩
  noDerived c hc _ := by
    obtain rfl := mem_alone hc
    rw [derivation_fails]
    exact (fails_iff.mp (fails_missing _)).1
  noSession c hc hn := by
    obtain rfl := mem_alone hc
    cases hn

theorem surfaces_alone :
    DecryptionSurfaces noLibs manager template [] Algorithm.AES128_CBC
      (keyInfo .nil).children where
  noFault c hc r hr := by
    obtain rfl := mem_alone hc
    obtain rfl := Option.some.inj hr
    rw [derivation_fails]
    rfl
  noName c hc := by cases hc

theorem template_surfaces_alone :
    EncryptionSurfaces noLibs manager Algorithm.AES128_CBC (keyInfo .nil).children := by
  intro c hc
  cases hc

end SampleDerivation

open SampleDerivation SampleOpaque

/-- Without a name the failure is reported on both sides. -/
theorem failed_derivation_surfaces_alone :
    Fails (resolveDecryptionKey noLibs manager template (encData .nil) [] Algorithm.AES128_CBC)
      ∧ Fails (resolveEncryptionKey noLibs manager (encData .nil) Algorithm.AES128_CBC) := by
  have h := failed_derivation_surfaces_iff noLibs manager template [] Algorithm.AES128_CBC
    (encData .nil) (keyInfo .nil) (hasKeyInfo .nil)
  exact ⟨(h.1 failure_alone).mpr surfaces_alone,
    (h.2 template_failure_alone).mpr template_surfaces_alone⟩

/-- The name answers after the derivation has failed. -/
theorem derivation_gives_way_to_name :
    ¬ ∀ (lib : EncLibs) (ctx : EncContext) (doc : Document) (idMap : IdMap) (encUri : String)
      (encData keyInfo : Node), encData.findChildElement Ns.DSIG "KeyInfo" = some keyInfo →
      (DerivationFailure lib ctx doc idMap encUri keyInfo.children →
        Fails (resolveDecryptionKey lib ctx doc encData idMap encUri))
      ∧ (TemplateDerivationFailure lib ctx encUri keyInfo.children →
        Fails (resolveEncryptionKey lib ctx encData encUri)) := by
  intro h
  have hfail := (h noLibs manager template [] Algorithm.AES128_CBC (encData known) (keyInfo known)
    (hasKeyInfo known)).1 (failure [] template)
  have hkey : resolveDecryptionKey noLibs manager template (encData known) [] Algorithm.AES128_CBC
      = .ok key := rfl
  rw [hkey] at hfail
  exact not_fails_ok key hfail

end Bergshamra
