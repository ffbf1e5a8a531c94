import Bergshamra.Dsig.Verify
import Bergshamra.Proof.LeafCert

/-!
# The leaf of an issuing path

The certificates of a path, in any order. Each of them but the end entity issued
another one, so the end entity alone has the highest rank, whatever the others
say of themselves.
-/

namespace Bergshamra

variable {lib : KeyLibs} {certs path : List ParsedCert} {endEntity : ParsedCert}

/-- One issuing path, from the end entity up: each certificate is issued by the next one, the last
one by itself or by one that is not in the path. -/
structure IssuingPath (lib : KeyLibs) (path : List ParsedCert) : Prop where
  issued : path.IsChain (fun c d => c.cert.issuer = d.cert.subject)
  distinct : (path.map (fun c => c.cert.subject)).Nodup
  top : ∀ c ∈ path.getLast?, c.cert.issuer = c.cert.subject
    ∨ ∀ d ∈ path, c.cert.issuer ≠ d.cert.subject
  endEntity : ∀ c ∈ path.head?, c.isCa lib = false

/-! ## Above the end entity -/

/-- Every certificate of a chain but the last one stands in front of another one. -/
theorem exists_next {r : ParsedCert → ParsedCert → Prop} {c : ParsedCert} {l : List ParsedCert}
    (h : l.IsChain r) (hc : c ∈ l) : c ∈ l.getLast? ∨ ∃ d ∈ l.tail, r c d := by
  induction l with
  | nil => cases hc
  | cons a l ih =>
      cases l with
      | nil =>
          left
          rw [List.mem_singleton.mp hc]
          rfl
      | cons b l =>
          rw [List.isChain_cons_cons] at h
          rcases List.mem_cons.mp hc with rfl | hc
          · exact Or.inr ⟨b, List.mem_cons_self, h.1⟩
          · rcases ih h.2 hc with hlast | ⟨d, hd, hr⟩
            · left
              rwa [List.getLast?_cons_cons]
            · exact Or.inr ⟨d, List.mem_cons_of_mem b hd, hr⟩

/-- Every certificate of a chain but the first one stands behind another one. -/
theorem exists_previous {r : ParsedCert → ParsedCert → Prop} {a c : ParsedCert}
    {l : List ParsedCert} (h : (a :: l).IsChain r) (hn : (a :: l).Nodup) (hc : c ∈ l) :
    ∃ d ∈ a :: l, d ≠ c ∧ r d c := by
  induction l generalizing a with
  | nil => cases hc
  | cons b l ih =>
      rw [List.isChain_cons_cons] at h
      rw [List.nodup_cons] at hn
      rcases List.mem_cons.mp hc with rfl | hc
      · refine ⟨a, List.mem_cons_self, ?_, h.1⟩
        rintro rfl
        exact hn.1 List.mem_cons_self
      · obtain ⟨d, hd, hne, hr⟩ := ih h.2 hn.2 hc
        exact ⟨d, List.mem_cons_of_mem a hd, hne, hr⟩

/-- In a list with distinct subjects the subject says which certificate it is. -/
theorem eq_of_subject {c d : ParsedCert} {l : List ParsedCert}
    (h : (l.map (fun c => c.cert.subject)).Nodup) (hc : c ∈ l) (hd : d ∈ l)
    (hs : c.cert.subject = d.cert.subject) : c = d :=
  List.inj_on_of_nodup_map h hc hd hs

/-- The end entity issued no other certificate of the path. -/
theorem IssuingPath.not_issuer (h : IssuingPath lib (endEntity :: path)) {c : ParsedCert}
    (hc : c ∈ endEntity :: path) (hs : endEntity.cert.subject = c.cert.issuer) : c = endEntity := by
  rcases exists_next h.issued hc with hlast | ⟨d, hd, hissued⟩
  · rcases h.top c hlast with hself | hother
    · exact eq_of_subject h.distinct hc List.mem_cons_self (hself.symm.trans hs.symm)
    · exact absurd hs.symm (hother endEntity List.mem_cons_self)
  · -- the issuer of a certificate that is not the last one is not the first one
    have hsame : d = endEntity := eq_of_subject h.distinct (List.mem_cons_of_mem _ hd)
      List.mem_cons_self (hissued.symm.trans hs.symm)
    have hdistinct := h.distinct
    rw [List.map_cons, List.nodup_cons] at hdistinct
    exact absurd (List.mem_map.mpr ⟨d, hd, by rw [hsame]⟩) hdistinct.1

/-- Each of the others issued one. -/
theorem IssuingPath.issuer (h : IssuingPath lib (endEntity :: path)) {c : ParsedCert}
    (hc : c ∈ path) : ∃ d ∈ endEntity :: path, d ≠ c ∧ c.cert.subject = d.cert.issuer := by
  obtain ⟨d, hd, hne, hr⟩ := exists_previous h.issued (List.Nodup.of_map _ h.distinct) hc
  exact ⟨d, hd, hne, hr.symm⟩

/-! ## The highest rank -/

/-- A certificate of the list issued another one. -/
theorem isIssuerOfOther_of_mem {i : Nat} {c d : ParsedCert} (hi : certs[i]? = some c)
    (hd : d ∈ certs) (hne : d ≠ c) (hs : c.cert.subject = d.cert.issuer) :
    isIssuerOfOther certs i = true := by
  obtain ⟨j, hj⟩ := List.getElem?_of_mem hd
  have hlt : j < certs.length := (List.getElem?_eq_some_iff.mp hj).1
  have hij : i ≠ j := by
    rintro rfl
    exact hne (Option.some.inj (hj.symm.trans hi))
  rw [isIssuerOfOther, List.any_eq_true]
  refine ⟨j, List.mem_range.mpr hlt, ?_⟩
  rw [hi, hj, Bool.and_eq_true]
  exact ⟨by simpa using hij, octets_beq.mpr hs⟩

/-- It issued none. -/
theorem isIssuerOfOther_eq_false {i : Nat} {c : ParsedCert} (hi : certs[i]? = some c)
    (h : ∀ j d, certs[j]? = some d → c.cert.subject = d.cert.issuer → j = i) :
    isIssuerOfOther certs i = false := by
  rw [isIssuerOfOther, List.any_eq_false]
  intro j hj hany
  rw [Bool.and_eq_true, hi] at hany
  have hlt := List.mem_range.mp hj
  rw [List.getElem?_eq_getElem hlt] at hany
  have hs : c.cert.subject = certs[j].cert.issuer := octets_beq.mp hany.2
  have hne : i ≠ j := by simpa using hany.1
  exact hne (h j _ (List.getElem?_eq_getElem hlt) hs).symm

/-- **The end entity of a path is the leaf**, in any order of the certificates, whether the others
are flagged as CAs or not. -/
theorem findLeafCert_of_path (h : IssuingPath lib (endEntity :: path))
    (hperm : certs.Perm (endEntity :: path)) :
    certs[findLeafCert lib certs]? = some endEntity := by
  obtain ⟨i, hi⟩ := List.getElem?_of_mem (hperm.mem_iff.mpr List.mem_cons_self)
  obtain ⟨hlt, hget⟩ := List.getElem?_eq_some_iff.mp hi
  have hnodup : certs.Nodup := hperm.nodup_iff.mpr (List.Nodup.of_map _ h.distinct)
  have hne : certs ≠ [] := List.ne_nil_of_length_pos (by omega)
  have hflag : isCaAt lib certs i = false := by
    rw [isCaAt, hi]
    exact h.endEntity endEntity rfl
  have hissuer : isIssuerOfOther certs i = false := by
    refine isIssuerOfOther_eq_false hi fun j d hj hs => ?_
    have hd := hperm.mem_iff.mp (List.mem_of_getElem? hj)
    rw [h.not_issuer hd hs] at hj
    exact (List.getElem?_inj (List.getElem?_eq_some_iff.mp hj).1 hnodup).mp (hj.trans hi.symm)
  have hrank : leafRank lib certs i = 3 := by
    rw [leafRank_plain, hflag, hissuer]
    rfl
  rw [(findLeafCert_eq_iff hne).mpr ⟨hlt, fun j hj => ?_⟩, hi]
  refine ⟨hrank ▸ leafRank_le j, fun hij => ?_⟩
  -- a certificate at another place is not the end entity
  have hj' := List.getElem?_eq_getElem hj
  have hother : certs[j] ≠ endEntity := by
    intro hsame
    rw [hsame] at hj'
    have := (List.getElem?_inj hj hnodup).mp (hj'.trans hi.symm)
    omega
  have hmem : certs[j] ∈ path :=
    (List.mem_cons.mp (hperm.mem_iff.mp (List.getElem_mem hj))).resolve_left hother
  obtain ⟨d, hd, hned, hs⟩ := h.issuer hmem
  have hissued := isIssuerOfOther_of_mem hj' (hperm.mem_iff.mpr hd) hned hs
  have hlow : ¬ 2 ≤ leafRank lib certs j := by
    rw [leafRank_noIssuer, hissued]
    decide
  omega

namespace SamplePath

/-- A certificate with these names and extensions. -/
def cert (subject issuer : UInt8) (extensions : List (String × ByteArray)) : ParsedCert where
  cert := {
    subject := ⟨#[subject]⟩
    issuer := ⟨#[issuer]⟩
    serialNumber := ⟨#[1]⟩
    extensions := extensions
    subjectPublicKeyInfo := .empty
    algorithmOid := ""
    notBefore := 0
    notAfter := 100 }
  der := ⟨#[subject]⟩

/-- BasicConstraints with the flag set. -/
def caExtension : String × ByteArray := ("2.5.29.19", ⟨#[0x30, 0x03, 0x01, 0x01, 0xff]⟩)

def libs : KeyLibs :=
  { (VerifyLibs.ofParser (fun _ => .error "no text is known")).toKeyLibs with
    basicConstraintsCa := fun value => some (value == caExtension.2) }

def leaf : ParsedCert := cert 1 2 []

def middle : ParsedCert := cert 2 3 []

def root : ParsedCert := cert 3 3 [caExtension]

theorem isPath : IssuingPath libs [leaf, middle, root] where
  issued := by
    rw [List.isChain_cons_cons, List.isChain_cons_cons]
    exact ⟨rfl, rfl, List.IsChain.singleton _⟩
  distinct := by decide
  top c hc := by
    cases hc
    exact Or.inl rfl
  endEntity c hc := by
    cases hc
    rfl

/-- An intermediate certificate without BasicConstraints, and the leaf in the middle. -/
theorem findLeafCert_of_path_sample :
    [root, leaf, middle][findLeafCert libs [root, leaf, middle]]? = some leaf :=
  findLeafCert_of_path isPath (by
    refine (List.Perm.swap leaf root [middle]).trans ?_
    exact (List.Perm.swap middle root []).cons leaf)

end SamplePath

end Bergshamra
