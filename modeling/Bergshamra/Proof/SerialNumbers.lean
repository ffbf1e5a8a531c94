import Bergshamra.Dsig.CertInfo
import Bergshamra.Keys.KeyInfo
import Bergshamra.Lib.Decimal

/-!
# Serial numbers

The writer divides the number by ten, the reader multiplies its digits by 256.
Both end with the numeral of a number, but the writer's number has a sign and
the reader's has none.
-/

namespace Bergshamra

open BigEndian

namespace Sign

/-! ## The writer -/

/-- The digits that are pushed are those of the numeral, the last one first. -/
theorem serialDigits_reverse (bytes : List UInt8) :
    (serialDigits bytes).reverse = Nat.toDigits 10 (value bytes) := by
  fun_induction serialDigits bytes with
  | case1 bytes step hlast =>
      have hlt := bigDivmod_last.mp hlast
      have hrem := (value_bigDivmod bytes (by decide : 0 < 10)).2
      rw [Nat.toDigits_of_lt_base hlt, List.reverse_singleton]
      show [Nat.digitChar (bigDivmod bytes 10).2] = _
      rw [hrem, Nat.mod_eq_of_lt hlt]
  | case2 bytes step hmore ih =>
      have hle : 10 ≤ value bytes := by
        by_contra hlt
        exact hmore (bigDivmod_last.mpr (by omega))
      obtain ⟨hquotient, hrem⟩ := value_bigDivmod bytes (by decide : 0 < 10)
      rw [List.reverse_cons, ih, Nat.toDigits_of_base_le (by decide) hle]
      show Nat.toDigits 10 (value (bigDivmod bytes 10).1)
        ++ [Nat.digitChar (bigDivmod bytes 10).2] = _
      rw [hquotient, hrem]

theorem formatSerialBytes_eq (bytes : List UInt8) :
    formatSerialBytes bytes = Nat.repr (value bytes) := by
  rw [formatSerialBytes, serialDigits_reverse, Nat.repr_eq_ofList_toDigits]

/-- The loop over the bytes: every bit turned over, and one added. -/
theorem negateStep_spec (bytes : List UInt8) :
    (bytes.foldr negateStep ([], true)).1.length = bytes.length
      ∧ value (bytes.foldr negateStep ([], true)).1
          + (if (bytes.foldr negateStep ([], true)).2 then 256 ^ bytes.length else 0)
        = 256 ^ bytes.length - value bytes := by
  induction bytes with
  | nil => exact ⟨rfl, rfl⟩
  | cons b bytes ih =>
      obtain ⟨hlen, hvalue⟩ := ih
      have hb := b.toNat_lt
      have hlt := value_lt bytes
      have hnot : (~~~b).toNat = 255 - b.toNat := UInt8.toNat_not b
      have hcons := value_cons b bytes
      have hproduct : (255 - b.toNat) * 256 ^ bytes.length
          = 255 * 256 ^ bytes.length - b.toNat * 256 ^ bytes.length := Nat.sub_mul _ _ _
      have hle : b.toNat * 256 ^ bytes.length ≤ 255 * 256 ^ bytes.length :=
        Nat.mul_le_mul_right _ (by omega)
      rw [List.foldr_cons, negateStep, List.length_cons, pow_succ]
      cases hcarry : (bytes.foldr negateStep ([], true)).2 with
      | false =>
          rw [hcarry, if_neg Bool.false_ne_true, Nat.add_zero] at hvalue
          rw [if_neg Bool.false_ne_true, if_neg Bool.false_ne_true, List.length_cons, hlen, value_cons,
            hlen, hnot, hvalue, hcons]
          omega
      | true =>
          -- the bytes behind are zeros, and the carry is still there
          rw [hcarry, if_pos rfl] at hvalue
          rw [if_pos rfl, List.length_cons, hlen, value_cons, hlen, hcons]
          by_cases hzero : b.toNat = 0
          · have hover : (~~~b == 255) = true := by
              rw [beq_iff_eq]
              exact UInt8.toNat_inj.mp (by rw [hnot, hzero]; rfl)
            have hsum : (~~~b + 1).toNat = 0 := by
              rw [beq_iff_eq.mp hover]
              rfl
            rw [hover, if_pos rfl, hsum, hzero]
            omega
          · have hover : ¬ (~~~b == 255) = true := by
              rw [beq_iff_eq]
              intro h
              rw [h] at hnot
              have hmax : (255 : UInt8).toNat = 255 := rfl
              omega
            have hsum : (~~~b + 1).toNat = 256 - b.toNat := by
              have hone : (1 : UInt8).toNat = 1 := rfl
              rw [UInt8.toNat_add, hnot, hone]
              omega
            have hrest : (256 - b.toNat) * 256 ^ bytes.length
                = 256 * 256 ^ bytes.length - b.toNat * 256 ^ bytes.length := Nat.sub_mul _ _ _
            rw [if_neg hover, hsum, hrest]
            omega

/-- The negative of a negative number. -/
theorem value_negate {bytes : List UInt8} (h : 0 < value bytes) :
    value (negate bytes) = 256 ^ bytes.length - value bytes := by
  obtain ⟨hlen, hvalue⟩ := negateStep_spec bytes
  have hlt := value_lt bytes
  rw [negate, ← hvalue]
  split
  · rename_i hcarry
    rw [hcarry, if_pos rfl] at hvalue
    omega
  · rfl

/-- The first bit is the sign. -/
theorem high_bit (b : UInt8) : b &&& 0x80 ≠ 0 ↔ 0x80 ≤ b := by
  have hall : ∀ n < 256, UInt8.ofNat n &&& 0x80 ≠ 0 ↔ 0x80 ≤ UInt8.ofNat n := by
    decide +kernel
  have h := hall b.toNat b.toNat_lt
  rwa [UInt8.ofNat_toNat] at h

/-- **The writer prints the signed number.** -/
theorem formatSerial_eq (bytes : List UInt8) : formatSerial bytes = toString (signed bytes) := by
  rw [Int.toString_eq_repr, Int.repr_eq_if]
  cases bytes with
  | nil => rfl
  | cons b bytes =>
      rw [formatSerial]
      by_cases hneg : signed (b :: bytes) < 0
      · have hsigned := signed_of_neg hneg
        have hhigh : 0x80 ≤ b := by
          by_contra hlow
          have := (signed_nonneg_iff (b :: bytes)).mpr (by simpa using hlow)
          omega
        have hpos : 0 < value (b :: bytes) := by
          have hpow : 0 < 256 ^ bytes.length := Nat.pow_pos (by decide)
          have hb : 0x80 ≤ b.toNat := hhigh
          have hterm := Nat.mul_pos (show 0 < b.toNat by omega) hpow
          rw [value_cons]
          omega
        have hlt := value_lt (b :: bytes)
        have habs : (-signed (b :: bytes)).toNat = 256 ^ (b :: bytes).length - value (b :: bytes) := by
          have hcast : (256 : Int) ^ (b :: bytes).length = ((256 ^ (b :: bytes).length : Nat) : Int) :=
            (Nat.cast_pow 256 _).symm
          rw [hsigned, hcast]
          omega
        rw [if_pos ((high_bit b).mpr hhigh), if_neg (by omega), formatNegativeSerial,
          formatSerialBytes_eq, value_negate hpos, habs]
      · have hnonneg : 0 ≤ signed (b :: bytes) := by omega
        have hlow : ¬ 0x80 ≤ b := by
          have := (signed_nonneg_iff (b :: bytes)).mp hnonneg
          simpa using this
        rw [if_neg (fun h => hlow ((high_bit b).mp h)), if_pos hnonneg, formatSerialBytes_eq,
          signed_of_nonneg hnonneg, Int.toNat_natCast]

end Sign

/-! ## The reader -/

/-- A pass over the digits: the number times `m`, plus the carry, and the digits are digits. -/
theorem carryDigits_spec (m carry : Nat) (ds : List Nat) :
    Nat.ofDigits 10 (carryDigits m carry ds) = Nat.ofDigits 10 ds * m + carry
      ∧ ∀ d ∈ carryDigits m carry ds, d < 10 := by
  induction ds generalizing carry with
  | nil =>
      rw [carryDigits, Nat.ofDigits_digits, Nat.ofDigits_nil, Nat.zero_mul, Nat.zero_add]
      exact ⟨rfl, fun d hd => Nat.digits_lt_base (by decide) hd⟩
  | cons d ds ih =>
      obtain ⟨hvalue, hlt⟩ := ih ((d * m + carry) / 10)
      rw [carryDigits, Nat.ofDigits_cons, hvalue, Nat.ofDigits_cons]
      constructor
      · have hdiv := Nat.mod_add_div (d * m + carry) 10
        calc (d * m + carry) % 10 + 10 * (Nat.ofDigits 10 ds * m + (d * m + carry) / 10)
            = ((d * m + carry) % 10 + 10 * ((d * m + carry) / 10))
              + 10 * Nat.ofDigits 10 ds * m := by ring
          _ = (d + 10 * Nat.ofDigits 10 ds) * m + carry := by
              rw [hdiv]
              ring
      · intro x hx
        rcases List.mem_cons.mp hx with rfl | hx
        · exact Nat.mod_lt _ (by decide)
        · exact hlt x hx

/-- The digits after some bytes. -/
theorem serialFold_spec (bytes : List UInt8) :
    Nat.ofDigits 10 (bytes.foldl (fun result byte =>
        carryDigits 1 byte.toNat (carryDigits 256 0 result)) [0]) = value bytes
      ∧ ∀ d ∈ bytes.foldl (fun result byte =>
        carryDigits 1 byte.toNat (carryDigits 256 0 result)) [0], d < 10 := by
  induction bytes using List.reverseRecOn with
  | nil =>
      refine ⟨rfl, fun d hd => ?_⟩
      rw [List.mem_singleton.mp hd]
      decide
  | append_singleton bytes b ih =>
      rw [List.foldl_append, List.foldl_cons, List.foldl_nil, value_concat]
      obtain ⟨hvalue, hlt⟩ := carryDigits_spec 1 b.toNat (carryDigits 256 0 (bytes.foldl
        (fun result byte => carryDigits 1 byte.toNat (carryDigits 256 0 result)) [0]))
      rw [hvalue, (carryDigits_spec 256 0 _).1, ih.1]
      exact ⟨by omega, hlt⟩

/-- **The reader prints the number without its sign.** -/
theorem formatSerialDecimal_eq (bytes : List UInt8) :
    formatSerialDecimal bytes = Nat.repr (value bytes) := by
  by_cases hnil : bytes = []
  · rw [hnil]
    rfl
  · obtain ⟨hvalue, hlt⟩ := serialFold_spec bytes
    have hnumeral := Decimal.numeral_of_digits hlt
    rw [hvalue] at hnumeral
    rw [formatSerialDecimal, if_neg hnil, Nat.repr_eq_ofList_toDigits, ← hnumeral]
    dsimp only
    split
    · rfl
    · rfl

/-- The reader prints the signed number where that is not negative. -/
theorem serialDecimal_signed_iff (bytes : List UInt8) :
    formatSerialDecimal bytes = toString (signed bytes) ↔ 0 ≤ signed bytes := by
  rw [formatSerialDecimal_eq, Int.toString_eq_repr, Int.repr_eq_if]
  constructor
  · intro hreader
    by_contra hneg
    rw [if_neg hneg] at hreader
    exact Decimal.repr_ne_neg _ _ hreader
  · intro hnonneg
    rw [if_pos hnonneg, signed_of_nonneg hnonneg, Int.toNat_natCast]

/-- **Both numerals are that of the serial number exactly when it is not negative.** The writer's
always is. -/
theorem serial_numerals_iff (bytes : List UInt8) :
    Sign.formatSerial bytes = toString (signed bytes)
      ∧ ((formatSerialDecimal bytes = toString (signed bytes)
          ∧ Sign.formatSerial bytes = formatSerialDecimal bytes) ↔ 0 ≤ signed bytes) := by
  have hwriter := Sign.formatSerial_eq bytes
  refine ⟨hwriter, ?_⟩
  rw [hwriter, ← serialDecimal_signed_iff]
  constructor
  · rintro ⟨hreader, -⟩
    exact hreader
  · intro hreader
    exact ⟨hreader, hreader.symm⟩

/-- The byte `FF` denotes -1, and the reader prints 255. -/
theorem negative_serial_differs : formatSerialDecimal [0xff] ≠ toString (signed [0xff])
    ∧ Sign.formatSerial [0xff] ≠ formatSerialDecimal [0xff] := by
  rw [Sign.formatSerial_eq, formatSerialDecimal_eq]
  decide

end Bergshamra
