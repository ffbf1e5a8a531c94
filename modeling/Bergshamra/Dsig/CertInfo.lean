import Bergshamra.Dsig.Sign
import Bergshamra.Lib.BigEndian

/-!
# What signing writes of a certificate

`extract_x509_info` of `sign.rs`: the names and the serial number of a
certificate as text. A serial number is divided by ten again and again; its
bytes are those of a signed integer.
-/

namespace Bergshamra

/-- `AttributeTypeAndValue`: the identifier in dotted form, and the value. -/
structure AttributeTypeAndValue where
  oid : String
  value : ByteArray

/-- What `extract_x509_info` takes from the crates that read certificates. -/
structure CertInfoLibs extends KeyLibs where
  /-- The attributes of each relative name in a `Name`. -/
  rdns : ByteArray → List (List AttributeTypeAndValue)
  /-- `Utf8StringRef::from_der`. -/
  utf8String : ByteArray → Option String
  /-- `PrintableStringRef::from_der`. -/
  printableString : ByteArray → Option String
  /-- `Ia5StringRef::from_der`. -/
  ia5String : ByteArray → Option String
  /-- `String::from_utf8_lossy`. -/
  fromUtf8Lossy : ByteArray → String
  /-- `OctetString::from_der`. -/
  octetString : ByteArray → Option ByteArray
  /-- `STANDARD.encode`. -/
  base64Encode : ByteArray → String

namespace Sign

open BigEndian

/-! ## Names -/

/-- `decode_atv_value`. -/
def decodeAtvValue (lib : CertInfoLibs) (value : ByteArray) : String :=
  match lib.utf8String value with
  | some s => s
  | none =>
      match lib.printableString value with
      | some s => s
      | none =>
          match lib.ia5String value with
          | some s => s
          | none => lib.fromUtf8Lossy value

/-- The names of the attribute types that have one. -/
def atvPrefixes : List (String × String) :=
  [("2.5.4.3", "CN"), ("2.5.4.10", "O"), ("2.5.4.11", "OU"), ("2.5.4.6", "C"), ("2.5.4.8", "ST"),
    ("2.5.4.7", "L"), ("2.5.4.5", "serialNumber")]

/-- One part of a name; of an unknown type only the identifier is written. -/
def atvPart (lib : CertInfoLibs) (atv : AttributeTypeAndValue) : String :=
  match atvPrefixes.lookup atv.oid with
  | some pfx => pfx ++ "=" ++ decodeAtvValue lib atv.value
  | none => atv.oid

/-- `format_rdn_sequence`. -/
def formatRdnSequence (lib : CertInfoLibs) (name : ByteArray) : String :=
  String.intercalate "," (((lib.rdns name).flatMap (List.map (atvPart lib))).reverse)

/-! ## Serial numbers -/

/-- One turn of the loop of `big_divmod`: the quotient so far, and the remainder. -/
def divStep (divisor : Nat) (acc : List UInt8 × Nat) (b : UInt8) : List UInt8 × Nat :=
  let rem := acc.2 * 256 + b.toNat
  (acc.1 ++ [UInt8.ofNat (rem / divisor)], rem % divisor)

/-- Leading zeros are taken away, but for the last byte. -/
def dropZeros : List UInt8 → List UInt8
  | b :: c :: rest => if b = 0 then dropZeros (c :: rest) else b :: c :: rest
  | bs => bs

/-- `big_divmod`. -/
def bigDivmod (bytes : List UInt8) (divisor : Nat) : List UInt8 × Nat :=
  let acc := bytes.foldl (divStep divisor) ([], 0)
  (dropZeros acc.1, acc.2)

theorem divStep_spec {divisor : Nat} (hpos : 0 < divisor) (bytes : List UInt8) :
    value (bytes.foldl (divStep divisor) ([], 0)).1 = value bytes / divisor
      ∧ (bytes.foldl (divStep divisor) ([], 0)).2 = value bytes % divisor := by
  induction bytes using List.reverseRecOn with
  | nil => exact ⟨(Nat.zero_div _).symm, (Nat.zero_mod _).symm⟩
  | append_singleton bytes b ih =>
      obtain ⟨hquotient, hrem⟩ := ih
      have hb := b.toNat_lt
      have hlt : value bytes % divisor < divisor := Nat.mod_lt _ hpos
      have hdiv := Nat.div_add_mod (value bytes) divisor
      -- the remainder so far, with the next byte behind it
      have hsmall : (value bytes % divisor * 256 + b.toNat) / divisor < 256 := by
        rw [Nat.div_lt_iff_lt_mul hpos]
        omega
      have hbyte : (UInt8.ofNat ((value bytes % divisor * 256 + b.toNat) / divisor)).toNat
          = (value bytes % divisor * 256 + b.toNat) / divisor := Nat.mod_eq_of_lt hsmall
      have hnext : value bytes * 256 + b.toNat
          = value bytes % divisor * 256 + b.toNat + divisor * (value bytes / divisor * 256) := by
        calc value bytes * 256 + b.toNat
            = (divisor * (value bytes / divisor) + value bytes % divisor) * 256 + b.toNat := by
              rw [hdiv]
          _ = _ := by ring
      rw [List.foldl_append, List.foldl_cons, List.foldl_nil, divStep, value_concat]
      dsimp only
      rw [value_concat, hquotient, hrem, hbyte, hnext, Nat.add_mul_div_left _ _ hpos,
        Nat.add_mul_mod_self_left]
      exact ⟨Nat.add_comm _ _, rfl⟩

@[simp] theorem value_dropZeros (bs : List UInt8) : value (dropZeros bs) = value bs := by
  fun_induction dropZeros bs with
  | case1 c rest ih =>
      rw [ih, value_cons 0]
      simp
  | case2 b c rest hb => rfl
  | case3 bs h => rfl

theorem value_bigDivmod (bytes : List UInt8) {divisor : Nat} (hpos : 0 < divisor) :
    value (bigDivmod bytes divisor).1 = value bytes / divisor
      ∧ (bigDivmod bytes divisor).2 = value bytes % divisor := by
  obtain ⟨hquotient, hrem⟩ := divStep_spec hpos bytes
  exact ⟨(value_dropZeros _).trans hquotient, hrem⟩

/-- Only a zero or nothing is left of zeros. -/
theorem dropZeros_of_value {bs : List UInt8} (h : value bs = 0) :
    dropZeros bs = [] ∨ dropZeros bs = [0] := by
  fun_induction dropZeros bs with
  | case1 c rest ih =>
      rw [value_cons] at h
      exact ih (by omega)
  | case2 b c rest hb =>
      rw [value_cons] at h
      have hpow : 0 < 256 ^ (c :: rest).length := Nat.pow_pos (by decide)
      have hzero : b.toNat = 0 := by
        by_contra hne
        have hterm := Nat.mul_pos (Nat.pos_of_ne_zero hne) hpow
        omega
      exact absurd (UInt8.toNat_inj.mp hzero) hb
  | case3 bs hshort =>
      cases bs with
      | nil => exact Or.inl rfl
      | cons b bs =>
          cases bs with
          | nil =>
              rw [value_singleton] at h
              right
              rw [UInt8.toNat_inj.mp (show b.toNat = (0 : UInt8).toNat from h)]
          | cons c rest => exact absurd rfl (hshort b c rest)

/-- The division by ten ends the loop exactly at the last digit. -/
theorem bigDivmod_last {bytes : List UInt8} :
    ((bigDivmod bytes 10).1 = [] ∨ (bigDivmod bytes 10).1 = [0]) ↔ value bytes < 10 := by
  have hvalue := (value_bigDivmod bytes (by decide : 0 < 10)).1
  constructor
  · rintro (h | h)
    · rw [h, value_nil] at hvalue
      omega
    · rw [h, value_singleton] at hvalue
      have hzero : (0 : UInt8).toNat = 0 := rfl
      omega
  · intro h
    have hraw := (divStep_spec (by decide : 0 < 10) bytes).1
    rw [Nat.div_eq_of_lt h] at hraw
    exact dropZeros_of_value hraw

/-- The loop of `format_serial` and of `format_serial_bytes`: the digits as they are pushed. -/
def serialDigits (remainder : List UInt8) : List Char :=
  let step := bigDivmod remainder 10
  if step.1 = [] ∨ step.1 = [0] then [Nat.digitChar step.2]
  else Nat.digitChar step.2 :: serialDigits step.1
termination_by value remainder
decreasing_by
  rename_i hmore
  have hlarge : ¬ value remainder < 10 := fun h => hmore (bigDivmod_last.mpr h)
  have hvalue := (value_bigDivmod remainder (by decide : 0 < 10)).1
  show value (bigDivmod remainder 10).1 < value remainder
  omega

/-- `format_serial_bytes`. -/
def formatSerialBytes (bytes : List UInt8) : String := String.ofList (serialDigits bytes).reverse

/-- One turn of the loop of `format_negative_serial`, from the last byte on. -/
def negateStep (b : UInt8) (acc : List UInt8 × Bool) : List UInt8 × Bool :=
  if acc.2 then ((~~~b + 1) :: acc.1, ~~~b == 255) else (~~~b :: acc.1, false)

/-- The two's complement. -/
def negate (bytes : List UInt8) : List UInt8 := (bytes.foldr negateStep ([], true)).1

/-- `format_negative_serial`. -/
def formatNegativeSerial (bytes : List UInt8) : String := "-" ++ formatSerialBytes (negate bytes)

/-- `format_serial`. -/
def formatSerial (bytes : List UInt8) : String :=
  match bytes with
  | [] => "0"
  | b :: _ =>
      if b &&& 0x80 ≠ 0 then formatNegativeSerial bytes else formatSerialBytes bytes

/-- `extract_ski`. -/
def extractSki (lib : CertInfoLibs) (cert : Certificate) : Option String :=
  (cert.extensions.find? (fun ext => ext.1 == "2.5.29.14")).bind
    (fun ext => (lib.octetString ext.2).map lib.base64Encode)

/-- `extract_x509_info`. -/
def extractX509Info (lib : CertInfoLibs) (certDer : ByteArray) : X509Info :=
  match lib.parseCertificate certDer with
  | .error _ => ⟨none, none, none, none⟩
  | .ok cert =>
      ⟨some (formatRdnSequence lib cert.subject), some (formatRdnSequence lib cert.issuer),
        some (formatSerial cert.serialNumber.toList), extractSki lib cert⟩

end Sign

end Bergshamra
