import Bergshamra.Keys.KeyInfo

/-!
# Which certificate is taken for the leaf

`findLeafCert` tries three selections one after the other and takes the last
candidate of the first that has any. Read together, the selections rank the
certificates: whether it issued another one counts before whether it is a CA.
The leaf is the last certificate of the highest rank, whatever the list.
-/

namespace Bergshamra

variable {lib : KeyLibs} {certs : List ParsedCert}

/-- How much a certificate looks like a leaf. -/
def leafRank (lib : KeyLibs) (certs : List ParsedCert) (i : Nat) : Nat :=
  (if isIssuerOfOther certs i then 0 else 2) + (if isCaAt lib certs i then 0 else 1)

/-- No certificate ranks higher than this one, and no later one as high. -/
def Outranks (lib : KeyLibs) (certs : List ParsedCert) (i : Nat) : Prop :=
  i < certs.length ∧ ∀ j < certs.length,
    leafRank lib certs j ≤ leafRank lib certs i
      ∧ (i < j → leafRank lib certs j < leafRank lib certs i)

theorem outranks_unique {i j : Nat} (hi : Outranks lib certs i) (hj : Outranks lib certs j) :
    i = j := by
  have hij := hi.2 j hj.1
  have hji := hj.2 i hi.1
  rcases Nat.lt_trichotomy i j with h | h | h
  · have := hij.2 h
    omega
  · exact h
  · have := hji.2 h
    omega

/-! ## The last candidate -/

/-- The last candidate satisfies the selection, and no certificate after it does. -/
theorem candidates_getLast? {p : Nat → Bool} {i : Nat}
    (h : (candidates certs p).getLast? = some i) :
    i < certs.length ∧ p i = true ∧ ∀ j, i < j → j < certs.length → p j = false := by
  unfold candidates at h
  generalize certs.length = n at h ⊢
  induction n with
  | zero => simp at h
  | succ n ih =>
      rw [List.range_succ, List.filter_append] at h
      by_cases hn : p n = true
      · rw [List.filter_cons_of_pos hn, List.filter_nil, List.getLast?_concat] at h
        obtain rfl := Option.some.inj h
        exact ⟨by omega, hn, fun j hj hlt => by omega⟩
      · rw [List.filter_cons_of_neg hn, List.filter_nil, List.append_nil] at h
        obtain ⟨hlt, hp, hlast⟩ := ih h
        refine ⟨by omega, hp, fun j hj hjn => ?_⟩
        by_cases hjn' : j = n
        · rw [hjn']
          simpa using hn
        · exact hlast j hj (by omega)

theorem candidates_nil {p : Nat → Bool} (h : candidates certs p = []) {j : Nat}
    (hj : j < certs.length) : p j = false := by
  have := List.filter_eq_nil_iff.mp h j (List.mem_range.mpr hj)
  simpa using this

/-- The three selections and the fallback: the first selection with candidates decides. -/
theorem findLeafCert_eq (h : 1 < certs.length) :
    findLeafCert lib certs
      = (((candidates certs (fun i => !isCaAt lib certs i && !isIssuerOfOther certs i)).getLast?.or
          ((candidates certs (fun i => !isIssuerOfOther certs i)).getLast?.or
            (candidates certs (fun i => !isCaAt lib certs i)).getLast?)).getD
          (certs.length - 1)) := by
  unfold findLeafCert
  rw [if_neg (by omega)]
  rcases candidates certs (fun i => !isCaAt lib certs i && !isIssuerOfOther certs i) with
    _ | ⟨i, _ | ⟨j, l⟩⟩
  · rcases candidates certs (fun i => !isIssuerOfOther certs i) with _ | ⟨i, _ | ⟨j, l⟩⟩
    · cases hl : (candidates certs (fun i => !isCaAt lib certs i)).getLast? <;> simp [hl]
    · simp
    · cases hl : (i :: j :: l).getLast? with
      | none => simp at hl
      | some k => simp [hl]
  · simp
  · cases hl : (i :: j :: l).getLast? with
    | none => simp at hl
    | some k => simp [hl]

/-! ## The ranks -/

theorem leafRank_le (i : Nat) : leafRank lib certs i ≤ 3 := by
  unfold leafRank
  split <;> split <;> omega

theorem leafRank_plain {i : Nat} :
    leafRank lib certs i = 3
      ↔ (!isCaAt lib certs i && !isIssuerOfOther certs i) = true := by
  unfold leafRank
  cases isCaAt lib certs i <;> cases isIssuerOfOther certs i <;> simp

theorem leafRank_noIssuer {i : Nat} :
    2 ≤ leafRank lib certs i ↔ (!isIssuerOfOther certs i) = true := by
  unfold leafRank
  cases isCaAt lib certs i <;> cases isIssuerOfOther certs i <;> simp

theorem leafRank_noCa {i : Nat} (h : leafRank lib certs i ≤ 1) :
    leafRank lib certs i = 1 ↔ (!isCaAt lib certs i) = true := by
  revert h
  unfold leafRank
  cases isCaAt lib certs i <;> cases isIssuerOfOther certs i <;> simp

/-- The last candidate of a selection that picks out the highest rank. -/
theorem outranks_of_getLast? {p : Nat → Bool} {i r : Nat}
    (h : (candidates certs p).getLast? = some i)
    (hle : ∀ j < certs.length, leafRank lib certs j ≤ r)
    (hp : ∀ j < certs.length, leafRank lib certs j = r ↔ p j = true) :
    Outranks lib certs i := by
  obtain ⟨hlt, hpi, hlast⟩ := candidates_getLast? h
  have hi := (hp i hlt).mpr hpi
  refine ⟨hlt, fun j hj => ⟨by rw [hi]; exact hle j hj, fun hij => ?_⟩⟩
  have hne : leafRank lib certs j ≠ r := by
    intro hr
    have := (hp j hj).mp hr
    rw [hlast j hij hj] at this
    simp at this
  have := hle j hj
  omega

/-- **The leaf is the last certificate of the highest rank.** -/
theorem findLeafCert_outranks (h : certs ≠ []) : Outranks lib certs (findLeafCert lib certs) := by
  by_cases hlen : certs.length ≤ 1
  · have hpos : 0 < certs.length := List.length_pos_iff.mpr h
    have hzero : findLeafCert lib certs = 0 := by
      unfold findLeafCert
      rw [if_pos hlen]
    rw [hzero]
    refine ⟨hpos, fun j hj => ?_⟩
    obtain rfl : j = 0 := by omega
    exact ⟨le_refl _, fun hlt => by omega⟩
  · rw [findLeafCert_eq (by omega)]
    cases h1 : (candidates certs
        (fun i => !isCaAt lib certs i && !isIssuerOfOther certs i)).getLast? with
    | some i =>
        exact outranks_of_getLast? h1 (fun j _ => leafRank_le j) (fun j _ => leafRank_plain)
    | none =>
        have hle2 : ∀ j < certs.length, leafRank lib certs j ≤ 2 := by
          intro j hj
          have hne : leafRank lib certs j ≠ 3 := by
            rw [Ne, leafRank_plain, candidates_nil (List.getLast?_eq_none_iff.mp h1) hj]
            simp
          have hle : leafRank lib certs j ≤ 3 := leafRank_le j
          omega
        cases h2 : (candidates certs (fun i => !isIssuerOfOther certs i)).getLast? with
        | some i =>
            refine outranks_of_getLast? h2 hle2 (fun j hj => ?_)
            have hissuer : 2 ≤ leafRank lib certs j ↔ _ := leafRank_noIssuer
            rw [← hissuer]
            have := hle2 j hj
            omega
        | none =>
            have hle1 : ∀ j < certs.length, leafRank lib certs j ≤ 1 := by
              intro j hj
              have hlt : ¬ 2 ≤ leafRank lib certs j := by
                rw [leafRank_noIssuer, candidates_nil (List.getLast?_eq_none_iff.mp h2) hj]
                simp
              omega
            cases h3 : (candidates certs (fun i => !isCaAt lib certs i)).getLast? with
            | some i => exact outranks_of_getLast? h3 hle1 (fun j hj => leafRank_noCa (hle1 j hj))
            | none =>
                -- all of them are issuing CAs
                have hzero : ∀ j < certs.length, leafRank lib certs j = 0 := by
                  intro j hj
                  have hne : leafRank lib certs j ≠ 1 := by
                    rw [Ne, leafRank_noCa (hle1 j hj),
                      candidates_nil (List.getLast?_eq_none_iff.mp h3) hj]
                    simp
                  have := hle1 j hj
                  omega
                simp only [Option.or_none, Option.getD_none]
                refine ⟨by omega, fun j hj => ?_⟩
                rw [hzero j hj, hzero _ (by omega)]
                exact ⟨le_refl 0, fun hlt => by omega⟩

theorem findLeafCert_eq_iff (h : certs ≠ []) {i : Nat} :
    findLeafCert lib certs = i ↔ Outranks lib certs i := by
  constructor
  · rintro rfl
    exact findLeafCert_outranks h
  · intro hi
    exact outranks_unique (findLeafCert_outranks h) hi

end Bergshamra
