import Bergshamra.Crypto.SignatureValue
import Mathlib.Data.Nat.Size

/-!
# DSA signature values

The encoder puts each number at the end of its half. A number below the order
fits there, and so does every number that was read from a half: both ways the
half is the number in as many bytes as the order has.
-/

namespace Bergshamra

open BigEndian Slices

/-- What `num-bigint-dig` and `dsa` say of their functions: zero has one byte, and components that
are not zero are a signature. -/
structure DsaLaws (lib : DsaLibs) : Prop where
  bits : ∀ n, lib.bits n = Nat.size n
  toBytesBe : ∀ n, lib.toBytesBe n = if n = 0 then [0] else minimal n
  fromBytesBe : ∀ bs, lib.fromBytesBe bs = value bs
  accepts : ∀ r s, 0 < r → 0 < s → lib.fromComponents r s = .ok (r, s)
  components : ∀ r s sig, lib.fromComponents r s = .ok sig → sig = (r, s)

section Encoder

variable {lib : DsaLibs} {q n : Nat}

/-- The length is the bytes of the order. -/
theorem lt_qLen (laws : DsaLaws lib) (h : n ≤ q) : n < 256 ^ qLen lib q := by
  have hsize : q < 2 ^ Nat.size q := Nat.lt_size_self q
  have hbits : Nat.size q ≤ 8 * qLen lib q := by
    rw [qLen, laws.bits]
    omega
  calc n ≤ q := h
    _ < 2 ^ Nat.size q := hsize
    _ ≤ 2 ^ (8 * qLen lib q) := Nat.pow_le_pow_right (by decide) hbits
    _ = 256 ^ qLen lib q := pow_mul 2 8 _

/-- The last bytes of a number, after as many zeros as there is room for. -/
def aligned (lib : DsaLibs) (len n : Nat) : List UInt8 :=
  List.replicate (len - (lib.toBytesBe n).length) 0
    ++ (lib.toBytesBe n).drop ((lib.toBytesBe n).length - len)

theorem aligned_length (len : Nat) : (aligned lib len n).length = len := by
  rw [aligned, List.length_append, List.length_replicate, List.length_drop]
  omega

theorem aligned_eq (laws : DsaLaws lib) {len : Nat} (h : n < 256 ^ len) :
    aligned lib len n = fixed len n := by
  refine (fixed_eq_of_value (aligned_length len) ?_).symm
  rw [aligned, value_replicate_append, laws.toBytesBe]
  by_cases hn : n = 0
  · rw [if_pos hn, hn]
    cases len with
    | zero => rfl
    | succ len =>
        rw [Nat.sub_eq_zero_of_le (by simp)]
        rfl
  · have hwidth := width_le_iff.mpr h
    rw [if_neg hn, minimal_length, Nat.sub_eq_zero_of_le hwidth, List.drop_zero, value_minimal]

/-- Both slices of the encoder are within their bounds. -/
theorem rightAlign_eq {out front tail : List UInt8} {half len : Nat} (bytes : List UInt8)
    (hfront : front.length = half * len) (hout : out = front ++ List.replicate len 0 ++ tail) :
    rightAlign out half len bytes
      = .ok (front ++ (List.replicate (len - bytes.length) 0
        ++ bytes.drop (bytes.length - len)) ++ tail) := by
  have hlast : (bytes.drop (bytes.length - len)).length = min bytes.length len := by
    rw [List.length_drop]
    omega
  have hroom : len - bytes.length + min bytes.length len = len := by omega
  have hcopy := @copy?_replicate UInt8 0 (len - bytes.length) _ front
    (bytes.drop (bytes.length - len)) tail hlast
  rw [hroom] at hcopy
  rw [rightAlign, slice?_drop (Nat.sub_le _ _), hout, ← hfront]
  have hend : front.length + (len - bytes.length) + min bytes.length len = front.length + len := by
    omega
  rw [hend] at hcopy
  show orPanics (copy? _ _ _ _) = _
  rw [hcopy, orPanics, List.append_assoc front, List.append_assoc]

/-- **The encoder does not fail**, and puts the two numbers one after the other. -/
theorem dsaSigToXmldsig_eq (sig : Nat × Nat) :
    dsaSigToXmldsig lib q sig
      = .ok (aligned lib (qLen lib q) sig.1 ++ aligned lib (qLen lib q) sig.2) := by
  have hzeros : List.replicate (qLen lib q * 2) (0 : UInt8)
      = [] ++ List.replicate (qLen lib q) 0 ++ List.replicate (qLen lib q) 0 := by
    rw [List.nil_append, ← List.replicate_add, Nat.mul_two]
  have hfirst := @rightAlign_eq _ _ _ 0 (qLen lib q) (lib.toBytesBe sig.1)
    (by simp) hzeros
  rw [List.nil_append] at hfirst
  have hsecond := @rightAlign_eq _ (aligned lib (qLen lib q) sig.1) [] 1 (qLen lib q)
    (lib.toBytesBe sig.2) (by rw [aligned_length, Nat.one_mul])
    (List.append_nil _).symm
  rw [dsaSigToXmldsig, hfirst]
  show rightAlign (aligned lib (qLen lib q) sig.1 ++ _) 1 _ _ = _
  rw [hsecond, List.append_nil]
  rfl

end Encoder

section Halves

variable {lib : DsaLibs}

/-- The two halves of what the encoder puts together. -/
theorem halves_aligned (len a b : Nat) :
    (aligned lib len a ++ aligned lib len b).take len = aligned lib len a
      ∧ (aligned lib len a ++ aligned lib len b).drop len = aligned lib len b := by
  have hlen := @aligned_length lib a len
  constructor
  · rw [List.take_append_of_le_length (le_of_eq hlen.symm), List.take_of_length_le (le_of_eq hlen)]
  · rw [List.drop_append_of_le_length (le_of_eq hlen.symm), List.drop_of_length_le (le_of_eq hlen),
      List.nil_append]

/-- Numbers below the order are read back. -/
theorem xmldsigToDsa_encoded (laws : DsaLaws lib) {q r s : Nat} (hr : 0 < r) (hrq : r < q)
    (hs : 0 < s) (hsq : s < q) :
    xmldsigToDsa lib q (aligned lib (qLen lib q) r ++ aligned lib (qLen lib q) s) = .ok (r, s) := by
  have hlen : (aligned lib (qLen lib q) r ++ aligned lib (qLen lib q) s).length
      = qLen lib q * 2 := by
    rw [List.length_append, aligned_length, aligned_length, Nat.mul_two]
  obtain ⟨hfirst, hsecond⟩ := @halves_aligned lib (qLen lib q) r s
  have hr' := lt_qLen laws (le_of_lt hrq)
  have hs' := lt_qLen laws (le_of_lt hsq)
  rw [xmldsigToDsa, if_neg (not_not_intro hlen), hfirst, hsecond, aligned_eq laws hr',
    aligned_eq laws hs', laws.fromBytesBe, laws.fromBytesBe, value_fixed_of_lt hr',
    value_fixed_of_lt hs', laws.accepts r s hr hs]

/-- What is read is written the same. -/
theorem dsaSigToXmldsig_decoded (laws : DsaLaws lib) {q : Nat} {rs : List UInt8} {sig : Nat × Nat}
    (h : xmldsigToDsa lib q rs = .ok sig) : dsaSigToXmldsig lib q sig = .ok rs := by
  rw [xmldsigToDsa] at h
  split at h
  · cases h
  · rename_i hlen
    have hlen' : rs.length = qLen lib q * 2 := not_not.mp hlen
    split at h
    · rename_i found hfound
      cases h
      have hsig := laws.components _ _ _ hfound
      have hfirst : (rs.take (qLen lib q)).length = qLen lib q := by
        rw [List.length_take]
        omega
      have hsecond : (rs.drop (qLen lib q)).length = qLen lib q := by
        rw [List.length_drop]
        omega
      have hr := value_lt (rs.take (qLen lib q))
      have hs := value_lt (rs.drop (qLen lib q))
      rw [hfirst] at hr
      rw [hsecond] at hs
      rw [dsaSigToXmldsig_eq, hsig, laws.fromBytesBe, laws.fromBytesBe]
      dsimp only
      rw [aligned_eq laws hr, aligned_eq laws hs, fixed_eq_of_value hfirst rfl,
        fixed_eq_of_value hsecond rfl, List.take_append_drop]
    · cases h

/-- **DSA signature values round trip**, for every order. -/
theorem dsa_values_round_trip (lib : DsaLibs) (laws : DsaLaws lib) (q : Nat) :
    (∀ r s, 0 < r → r < q → 0 < s → s < q → ∃ bytes, dsaSigToXmldsig lib q (r, s) = .ok bytes
      ∧ bytes.length = 2 * ((Nat.size q + 7) / 8) ∧ xmldsigToDsa lib q bytes = .ok (r, s))
    ∧ (∀ sig, ∃ bytes, dsaSigToXmldsig lib q sig = .ok bytes)
    ∧ ∀ rs sig, xmldsigToDsa lib q rs = .ok sig → dsaSigToXmldsig lib q sig = .ok rs := by
  refine ⟨fun r s hr hrq hs hsq => ?_, fun sig => ⟨_, dsaSigToXmldsig_eq sig⟩,
    fun rs sig h => dsaSigToXmldsig_decoded laws h⟩
  refine ⟨_, dsaSigToXmldsig_eq (r, s), ?_, xmldsigToDsa_encoded laws hr hrq hs hsq⟩
  rw [List.length_append, aligned_length, aligned_length, qLen, laws.bits, Nat.two_mul]

end Halves

namespace SampleDsa

def lib : DsaLibs where
  bits := Nat.size
  toBytesBe n := if n = 0 then [0] else minimal n
  fromBytesBe := value
  fromComponents r s := if r = 0 ∨ s = 0 then .error "signature error" else .ok (r, s)

theorem laws : DsaLaws lib where
  bits _ := rfl
  toBytesBe _ := rfl
  fromBytesBe _ := rfl
  accepts r s hr hs := if_neg (by omega)
  components r s sig h := by
    rw [lib] at h
    dsimp only at h
    split at h
    · cases h
    · exact (Except.ok.inj h).symm

/-- An order of nine bits, and a number of one byte beside one of two. -/
theorem dsa_values_round_trip_sample : ∃ bytes, dsaSigToXmldsig lib 263 (5, 258) = .ok bytes
    ∧ bytes.length = 2 * ((Nat.size 263 + 7) / 8) ∧ xmldsigToDsa lib 263 bytes = .ok (5, 258) :=
  (dsa_values_round_trip lib laws 263).1 5 258 (by decide) (by decide) (by decide) (by decide)

end SampleDsa

end Bergshamra
