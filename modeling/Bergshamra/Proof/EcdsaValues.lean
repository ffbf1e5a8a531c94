import Bergshamra.Crypto.SignatureValue
import Bergshamra.Lib.Der

/-!
# ECDSA signature values

The three forms of a signature value are told apart by the length and the first
byte. A DER encoding as long as the fixed-width form is taken for that, and a
pair of another width that begins like DER for DER; then the numbers are not the
signature's. In all other cases they are.
-/

namespace Bergshamra

open BigEndian

namespace EcdsaCurve

/-- The order of the group. -/
def order : EcdsaCurve → Nat
  | .p256 => 0xffffffff00000000ffffffffffffffffbce6faada7179e84f3b9cac2fc632551
  | .p384 =>
      0xffffffffffffffffffffffffffffffffffffffffffffffffc7634d81f4372ddf581a0db248b0a77aecec196accc52973
  | .p521 =>
      0x1fffffffffffffffffffffffffffffffffffffffffffffffffffffffffffffffffa51868783bf2f966b7fcc0148f709a5d03bb5c9b8899c47aebb6fb71e91386409

/-- The scalars of a signature. -/
def Valid (curve : EcdsaCurve) (n : Nat) : Prop := 0 < n ∧ n < curve.order

theorem Valid.lt {curve : EcdsaCurve} {n : Nat} (h : curve.Valid n) : n < 256 ^ curve.field := by
  refine lt_trans h.2 ?_
  cases curve with
  | p256 => decide
  | p384 => decide
  | p521 => decide

theorem field_le (curve : EcdsaCurve) : curve.field ≤ 66 := by
  cases curve with
  | p256 => decide
  | p384 => decide
  | p521 => decide

/-- The function for signature values of the curve. -/
def decode (lib : EcdsaLibs) : EcdsaCurve → List UInt8 → Except Error (Nat × Nat)
  | .p256 => xmldsigToP256 lib
  | .p384 => xmldsigToP384 lib
  | .p521 => xmldsigToP521 lib

theorem decode_eq (lib : EcdsaLibs) (curve : EcdsaCurve) (bytes : List UInt8) :
    curve.decode lib bytes = xmldsigToEcdsa lib curve bytes := by
  cases curve with
  | p256 => rfl
  | p384 => rfl
  | p521 => rfl

end EcdsaCurve

/-- The crates of the curves: scalars are read as they stand, and DER is read as the pair that it
is the encoding of. -/
structure EcdsaLaws (lib : EcdsaLibs) : Prop where
  scalars : ∀ curve r s, EcdsaCurve.Valid curve r → EcdsaCurve.Valid curve s →
    lib.fromScalars curve (fixed curve.field r) (fixed curve.field s) = .ok (r, s)
  scalarValues : ∀ curve a b sig, lib.fromScalars curve a b = .ok sig → sig = (value a, value b)
  der : ∀ curve r s, EcdsaCurve.Valid curve r → EcdsaCurve.Valid curve s →
    lib.fromDer curve (Der.pair r s) = .ok (r, s)
  derOnly : ∀ curve bs sig, lib.fromDer curve bs = .ok sig → bs = Der.pair sig.1 sig.2
  split : ∀ curve r s, EcdsaCurve.Valid curve r → EcdsaCurve.Valid curve s →
    lib.splitBytes curve (r, s) = (fixed curve.field r, fixed curve.field s)

/-- The forms in which a signature value is accepted: the two numbers in the width of the field,
as DER, or in another width. -/
inductive WireFormat where
  | fixedWidth
  | der
  | raw (width : Nat)

namespace WireFormat

def encode (curve : EcdsaCurve) (r s : Nat) : WireFormat → List UInt8
  | fixedWidth => fixed curve.field r ++ fixed curve.field s
  | der => Der.pair r s
  | raw width => fixed width r ++ fixed width s

/-- The numbers fit in the width. -/
def Fits (r s : Nat) : WireFormat → Prop
  | raw width => r < 256 ^ width ∧ s < 256 ^ width
  | _ => True

/-- The encoding looks like another form: DER of the length of the fixed-width form, or a pair of
another width that begins with the tag of a SEQUENCE. -/
def Mistaken (curve : EcdsaCurve) (r s : Nat) : WireFormat → Prop
  | fixedWidth => False
  | der => (Der.pair r s).length = curve.field * 2
  | raw width => width ≠ curve.field ∧ (fixed width r).head? = some 0x30

end WireFormat

/-! ## The components -/

section Normalize

variable {fieldSize : Nat}

theorem findIdx?_drop {bs : List UInt8} {pos : Nat} (h : bs.findIdx? (· != 0) = some pos) :
    bs.drop pos = strip bs := by
  induction bs generalizing pos with
  | nil => cases h
  | cons b bs ih =>
      rw [List.findIdx?_cons] at h
      by_cases hb : b = 0
      · rw [hb, if_neg (by decide), Option.map_eq_some_iff] at h
        obtain ⟨p, hp, rfl⟩ := h
        rw [hb, strip, List.dropWhile_cons_of_pos rfl]
        exact ih hp
      · rw [if_pos (by simpa using hb)] at h
        cases h
        rw [strip, List.dropWhile_cons_of_neg (by simpa using hb)]
        rfl

/-- A component that is not zero is put at the end of its place. -/
theorem placeComponent_eq {out front tail component : List UInt8} {i n : Nat} (hn : 0 < n)
    (hvalue : value component = n) (hfits : n < 256 ^ fieldSize) (hi : front.length = i * fieldSize)
    (hout : out = front ++ List.replicate fieldSize 0 ++ tail) :
    placeComponent fieldSize out component i = .ok (front ++ fixed fieldSize n ++ tail) := by
  have hsome : ∃ pos, component.findIdx? (· != 0) = some pos := by
    rw [← Option.isSome_iff_exists, List.findIdx?_isSome, List.any_eq_true]
    by_contra hnone
    have hzeros : component = List.replicate component.length 0 := by
      refine List.eq_replicate_of_mem fun b hb => ?_
      by_contra hne
      exact hnone ⟨b, hb, by simpa using hne⟩
    rw [hzeros, value_replicate_zero] at hvalue
    omega
  obtain ⟨pos, hpos⟩ := hsome
  have hlength : (component.drop pos).length = width n := by
    rw [findIdx?_drop hpos, ← minimal_value, hvalue, minimal_length]
  have hwidth := width_le_iff.mpr hfits
  have hroom : fieldSize - width n + width n = fieldSize := by omega
  have hcopy := @Slices.copy?_replicate UInt8 0 (fieldSize - width n) _ front
    (minimal n) tail (minimal_length n)
  rw [hroom, hi] at hcopy
  have hstart : i * fieldSize + fieldSize - width n = i * fieldSize + (fieldSize - width n) := by
    omega
  have hend : i * fieldSize + (fieldSize - width n) + width n = i * fieldSize + fieldSize := by
    omega
  have htrim : component.drop pos = minimal n := by
    rw [findIdx?_drop hpos, ← minimal_value, hvalue]
  rw [placeComponent, hpos]
  simp only [hlength]
  rw [if_neg (by omega), hout, hstart, htrim, hcopy, orPanics, fixed_eq_replicate hfits,
    List.append_assoc front]

/-- A pair of equal widths is normalized to the width of the field. -/
theorem normalizeRawEcdsa_eq {r s width : Nat} (hr : 0 < r) (hs : 0 < s)
    (hrw : r < 256 ^ width) (hsw : s < 256 ^ width) (hrf : r < 256 ^ fieldSize)
    (hsf : s < 256 ^ fieldSize) :
    normalizeRawEcdsa (fixed width r ++ fixed width s) fieldSize
      = .ok (fixed fieldSize r ++ fixed fieldSize s) := by
  have hlen : (fixed width r ++ fixed width s).length = width * 2 := by
    rw [List.length_append, fixed_length, fixed_length, Nat.mul_two]
  have hhalf : width * 2 / 2 = width := by omega
  have hzeros : List.replicate (fieldSize * 2) (0 : UInt8)
      = [] ++ List.replicate fieldSize 0 ++ List.replicate fieldSize 0 := by
    rw [List.nil_append, ← List.replicate_add, Nat.mul_two]
  have hfirst := placeComponent_eq (i := 0) hr (value_fixed_of_lt hrw) hrf (by simp) hzeros
  have hsecond := @placeComponent_eq fieldSize _ (fixed fieldSize r) [] _ 1 _ hs
    (value_fixed_of_lt hsw) hsf (by rw [fixed_length, Nat.one_mul]) (List.append_nil _).symm
  have htake : (fixed width r ++ fixed width s).take width = fixed width r := by
    rw [List.take_left' (fixed_length width r)]
  have hdrop : (fixed width r ++ fixed width s).drop width = fixed width s := by
    rw [List.drop_left' (fixed_length width r)]
  rw [normalizeRawEcdsa, hlen, if_neg (by omega), hhalf]
  dsimp only
  rw [htake, hdrop, hfirst]
  show placeComponent fieldSize ([] ++ fixed fieldSize r ++ _) _ 1 = _
  rw [List.nil_append, hsecond, List.append_nil]

end Normalize

/-! ## The three forms -/

section Decode

variable {lib : EcdsaLibs} {curve : EcdsaCurve} {r s : Nat}

/-- What has the length of the fixed-width form is read as that. -/
theorem decode_halves {bytes : List UInt8} {sig : Nat × Nat}
    (hlen : bytes.length = curve.field * 2)
    (laws : EcdsaLaws lib) (h : curve.decode lib bytes = .ok sig) :
    sig = (value (bytes.take curve.field), value (bytes.drop curve.field)) := by
  rw [EcdsaCurve.decode_eq, xmldsigToEcdsa, if_pos hlen, fromHalves] at h
  split at h
  · rename_i found hfound
    cases h
    exact laws.scalarValues _ _ _ _ hfound
  · cases h

/-- What else begins like DER is read as DER. -/
theorem decode_der {bytes : List UInt8} {sig : Nat × Nat} (hlen : bytes.length ≠ curve.field * 2)
    (hhead : bytes.head? = some 0x30) (laws : EcdsaLaws lib)
    (h : curve.decode lib bytes = .ok sig) : bytes = Der.pair sig.1 sig.2 := by
  rw [EcdsaCurve.decode_eq, xmldsigToEcdsa, if_neg hlen, if_pos hhead] at h
  split at h
  · rename_i found hfound
    cases h
    exact laws.derOnly _ _ _ hfound
  · cases h

/-- The two numbers in the width of the field. -/
theorem decode_fixed (laws : EcdsaLaws lib) (hr : curve.Valid r) (hs : curve.Valid s) :
    curve.decode lib (fixed curve.field r ++ fixed curve.field s) = .ok (r, s) := by
  have hlen : (fixed curve.field r ++ fixed curve.field s).length = curve.field * 2 := by
    rw [List.length_append, fixed_length, fixed_length, Nat.mul_two]
  rw [EcdsaCurve.decode_eq, xmldsigToEcdsa, if_pos hlen, fromHalves,
    List.take_left' (fixed_length curve.field r), List.drop_left' (fixed_length curve.field r),
    laws.scalars curve r s hr hs]

/-- What `p256_to_xmldsig` and its like write is the fixed-width form. -/
theorem decode_written (laws : EcdsaLaws lib) (hr : curve.Valid r) (hs : curve.Valid s) :
    curve.decode lib (ecdsaToXmldsig lib curve (r, s)) = .ok (r, s) := by
  rw [ecdsaToXmldsig, laws.split curve r s hr hs]
  exact decode_fixed laws hr hs

theorem integerContent_short (hs : curve.Valid s) : (Der.integerContent s).length < 128 := by
  have hle := Der.integerContent_length_le hs.lt
  have hfield := curve.field_le
  omega

theorem decode_der_iff (laws : EcdsaLaws lib) (hr : curve.Valid r) (hs : curve.Valid s) :
    curve.decode lib (Der.pair r s) = .ok (r, s) ↔ (Der.pair r s).length ≠ curve.field * 2 := by
  constructor
  · intro h hlen
    have hsig := decode_halves hlen laws h
    rw [Prod.mk.injEq] at hsig
    have hlt := Der.lt_second_half (integerContent_short hs) (hlen.trans (Nat.mul_comm _ _))
      hsig.1.symm
    omega
  · intro hlen
    have hhead : (Der.pair r s).head? = some 0x30 := rfl
    rw [EcdsaCurve.decode_eq, xmldsigToEcdsa, if_neg hlen, if_pos hhead, laws.der curve r s hr hs]

theorem decode_raw_iff (laws : EcdsaLaws lib) (hr : curve.Valid r) (hs : curve.Valid s)
    {width : Nat}
    (hrw : r < 256 ^ width) (hsw : s < 256 ^ width) :
    curve.decode lib (fixed width r ++ fixed width s) = .ok (r, s)
      ↔ ¬ (width ≠ curve.field ∧ (fixed width r).head? = some 0x30) := by
  have hlen : (fixed width r ++ fixed width s).length = width * 2 := by
    rw [List.length_append, fixed_length, fixed_length, Nat.mul_two]
  have hwidth : 0 < width := by
    by_contra hzero
    rw [Nat.eq_zero_of_not_pos hzero, pow_zero] at hrw
    have := hr.1
    omega
  have hhead : (fixed width r ++ fixed width s).head? = (fixed width r).head? :=
    List.head?_append_of_ne_nil _ (List.ne_nil_of_length_pos (by rw [fixed_length]; exact hwidth))
  constructor
  · rintro h ⟨hne, hfirst⟩
    -- the pair would be its own DER encoding, whose second half is more than the second number
    have hder := decode_der (by rw [hlen]; omega) (hhead.trans hfirst) laws h
    have hlt := Der.lt_second_half (r := r) (w := width) (integerContent_short hs)
      (by rw [← hder, hlen, Nat.mul_comm])
      (by rw [← hder, List.take_left' (fixed_length width r), value_fixed_of_lt hrw])
    rw [← hder, List.drop_left' (fixed_length width r), value_fixed_of_lt hsw] at hlt
    omega
  · intro hnot
    by_cases hfield : width = curve.field
    · rw [hfield]
      exact decode_fixed laws hr hs
    · have hfirst : (fixed width r).head? ≠ some 0x30 := fun h => hnot ⟨hfield, h⟩
      have hnormal := normalizeRawEcdsa_eq hr.1 hs.1 hrw hsw hr.lt hs.lt
      have hdecode := @decode_fixed lib curve r s laws hr hs
      have hflen : (fixed curve.field r ++ fixed curve.field s).length = curve.field * 2 := by
        rw [List.length_append, fixed_length, fixed_length, Nat.mul_two]
      rw [EcdsaCurve.decode_eq, xmldsigToEcdsa, if_pos hflen] at hdecode
      rw [EcdsaCurve.decode_eq, xmldsigToEcdsa, if_neg (by rw [hlen]; omega),
        if_neg (hhead ▸ hfirst),
        hnormal]
      exact hdecode

/-- **A signature value is read as the signature exactly when it is not mistaken for another
form.** -/
theorem decode_iff_not_mistaken (laws : EcdsaLaws lib) (hr : curve.Valid r) (hs : curve.Valid s)
    (format : WireFormat) (hfits : format.Fits r s) :
    curve.decode lib (format.encode curve r s) = .ok (r, s) ↔ ¬ format.Mistaken curve r s := by
  cases format with
  | fixedWidth => exact ⟨fun _ => id, fun _ => decode_fixed laws hr hs⟩
  | der => exact decode_der_iff laws hr hs
  | raw width => exact decode_raw_iff laws hr hs hfits.1 hfits.2

end Decode

namespace SampleEcdsa

instance (curve : EcdsaCurve) (n : Nat) : Decidable (curve.Valid n) :=
  inferInstanceAs (Decidable (0 < n ∧ n < curve.order))

/-- The numbers, if they are scalars. -/
def checked (curve : EcdsaCurve) (r s : Nat) : Except String (Nat × Nat) :=
  if curve.Valid r ∧ curve.Valid s then .ok (r, s) else .error "signature error"

def lib : EcdsaLibs where
  fromScalars curve a b := checked curve (value a) (value b)
  fromDer curve bs :=
    match Der.readPair bs with
    | some p => checked curve p.1 p.2
    | none => .error "ASN.1 error"
  splitBytes curve sig := (fixed curve.field sig.1, fixed curve.field sig.2)

theorem checked_ok {curve : EcdsaCurve} {r s : Nat} {sig : Nat × Nat}
    (h : checked curve r s = .ok sig) : sig = (r, s) := by
  rw [checked] at h
  split at h
  · exact (Except.ok.inj h).symm
  · cases h

theorem readPair_valid {curve : EcdsaCurve} {r s : Nat} (hr : curve.Valid r) (hs : curve.Valid s) :
    Der.readPair (Der.pair r s) = some (r, s) := by
  have hlen : ∀ n, curve.Valid n → (Der.integer n).length < 130 := by
    intro n hn
    have hshort := integerContent_short hn
    rw [Der.integer, Der.tlv_short hshort, List.length_append]
    simp only [List.length_cons, List.length_nil]
    omega
  have hr' := hlen r hr
  have hs' := hlen s hs
  refine Der.readPair_pair ?_
  have hle := Der.tlv_length 0x30 (Der.integer r ++ Der.integer s)
  rw [List.length_append] at hle
  have hwidth : width ((Der.integer r).length + (Der.integer s).length) ≤ 2 :=
    width_le_iff.mpr (by omega)
  have hpair : (Der.pair r s).length ≤ 300 := by
    rw [Der.pair]
    omega
  exact lt_of_le_of_lt hpair (by norm_num)

theorem laws : EcdsaLaws lib where
  scalars curve r s hr hs := by
    show checked curve (value (fixed _ r)) (value (fixed _ s)) = _
    rw [value_fixed_of_lt hr.lt, value_fixed_of_lt hs.lt, checked, if_pos ⟨hr, hs⟩]
  scalarValues curve a b sig h := checked_ok h
  der curve r s hr hs := by
    rw [lib]
    dsimp only
    rw [readPair_valid hr hs]
    exact if_pos ⟨hr, hs⟩
  derOnly curve bs sig h := by
    rw [lib] at h
    dsimp only at h
    split at h
    · rename_i p hp
      rw [checked_ok h]
      exact Der.eq_pair_of_readPair hp
    · cases h
  split _ _ _ _ _ := rfl

theorem decode_iff_not_mistaken_sample :
    EcdsaCurve.p256.decode lib (WireFormat.der.encode .p256 5 7) = .ok (5, 7) :=
  (decode_iff_not_mistaken laws (by decide) (by decide) .der trivial).mpr
    (show ¬ (Der.pair 5 7).length = EcdsaCurve.p256.field * 2 by decide +kernel)

/-- Two numbers of 29 bytes have a DER encoding of 64 bytes, and a number of 31 bytes can begin
with the tag of a SEQUENCE. -/
theorem ecdsa_forms_mistaken :
    EcdsaCurve.p256.decode lib (WireFormat.der.encode .p256 (256 ^ 28) (256 ^ 28))
        ≠ .ok (256 ^ 28, 256 ^ 28)
      ∧ EcdsaCurve.p256.decode lib ((WireFormat.raw 31).encode .p256 (0x30 * 256 ^ 30) 7)
        ≠ .ok (0x30 * 256 ^ 30, 7) := by
  constructor
  · intro h
    exact (decode_der_iff laws (by decide) (by decide)).mp h (by decide +kernel)
  · intro h
    refine (@decode_raw_iff _ _ _ _ laws (by decide) (by decide) 31 (by decide) (by decide)).mp h
      ⟨by decide, by decide +kernel⟩

end SampleEcdsa

end Bergshamra
