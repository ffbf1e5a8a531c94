import Bergshamra.Lib.BigEndian

/-!
# DER

The distinguished encoding of a SEQUENCE of two INTEGERs that are not negative,
and a reader for it that takes nothing else.
-/

namespace Der

open BigEndian

/-- The octets of a length. -/
def lengthOctets (n : Nat) : List UInt8 :=
  if n < 128 then [UInt8.ofNat n] else UInt8.ofNat (128 + width n) :: minimal n

/-- A tag, the length of the content, and the content. -/
def tlv (tag : UInt8) (content : List UInt8) : List UInt8 :=
  tag :: (lengthOctets content.length ++ content)

/-- The content of an INTEGER: a zero in front where the first bit is set, and for zero itself. -/
def integerContent (n : Nat) : List UInt8 :=
  if (minimal n).head?.any (fun b => b < 128) then minimal n else 0 :: minimal n

/-- `INTEGER`. -/
def integer (n : Nat) : List UInt8 := tlv 0x02 (integerContent n)

/-- `SEQUENCE { r INTEGER, s INTEGER }`. -/
def pair (r s : Nat) : List UInt8 := tlv 0x30 (integer r ++ integer s)

/-- The content behind a tag, and the rest. -/
def readTlv (tag : UInt8) : List UInt8 → Option (List UInt8 × List UInt8)
  | t :: l :: rest =>
      if t ≠ tag then none
      else
        let lengthBytes := if l < 128 then 0 else l.toNat - 128
        let n := if l < 128 then l.toNat else value (rest.take lengthBytes)
        some ((rest.drop lengthBytes).take n, (rest.drop lengthBytes).drop n)
  | _ => none

/-- The two numbers of a pair; only the bytes that `pair` writes are taken. -/
def readPair (bs : List UInt8) : Option (Nat × Nat) := do
  let (content, _) ← readTlv 0x30 bs
  let (r, rest) ← readTlv 0x02 content
  let (s, _) ← readTlv 0x02 rest
  if pair (value r) (value s) = bs then some (value r, value s) else none

/-! ## Contents -/

@[simp] theorem value_integerContent (n : Nat) : value (integerContent n) = n := by
  rw [integerContent]
  split
  · exact value_minimal n
  · rw [value_cons, value_minimal]
    simp

theorem integerContent_ne_nil (n : Nat) : integerContent n ≠ [] := by
  rw [integerContent]
  split
  · rename_i h
    intro hnil
    rw [hnil] at h
    cases h
  · exact List.cons_ne_nil _ _

theorem integerContent_length_le {n w : Nat} (h : n < 256 ^ w) :
    (integerContent n).length ≤ w + 1 := by
  have hwidth := width_le_iff.mpr h
  rw [integerContent]
  split
  · rw [minimal_length]
    omega
  · rw [List.length_cons, minimal_length]
    omega

/-- A short length has one octet. -/
theorem tlv_short {tag : UInt8} {content : List UInt8} (h : content.length < 128) :
    tlv tag content = [tag, UInt8.ofNat content.length] ++ content := by
  rw [tlv, lengthOctets, if_pos h]
  rfl

/-! ## Reading -/

theorem readTlv_tlv (tag : UInt8) {content : List UInt8} (rest : List UInt8)
    (h : width content.length < 128) : readTlv tag (tlv tag content ++ rest) = some (content, rest) := by
  rw [tlv, lengthOctets, List.cons_append]
  by_cases hshort : content.length < 128
  · have hbyte : (UInt8.ofNat content.length).toNat = content.length :=
      Nat.mod_eq_of_lt (by omega)
    have hlt : UInt8.ofNat content.length < 128 := by
      rw [UInt8.lt_iff_toNat_lt, hbyte]
      exact hshort
    rw [if_pos hshort, List.cons_append, List.nil_append, List.cons_append, readTlv]
    simp only [ne_eq, not_true_eq_false, if_false, if_pos hlt, hbyte, List.drop_zero, List.take_left,
      List.drop_left]
  · have hbyte : (UInt8.ofNat (128 + width content.length)).toNat = 128 + width content.length :=
      Nat.mod_eq_of_lt (by omega)
    have hlt : ¬ UInt8.ofNat (128 + width content.length) < 128 := by
      rw [UInt8.lt_iff_toNat_lt, hbyte]
      simp
    have hsub : 128 + width content.length - 128 = (minimal content.length).length := by
      rw [minimal_length]
      omega
    rw [if_neg hshort, List.cons_append, List.cons_append, List.append_assoc, readTlv]
    simp only [ne_eq, not_true_eq_false, if_false, if_neg hlt, hbyte, hsub, List.take_left,
      List.drop_left, value_minimal]

theorem tlv_length_le (tag : UInt8) (content : List UInt8) :
    content.length ≤ (tlv tag content).length := by
  rw [tlv, List.length_cons, List.length_append]
  omega

theorem tlv_length (tag : UInt8) (content : List UInt8) :
    (tlv tag content).length ≤ content.length + width content.length + 2 := by
  rw [tlv, List.length_cons, List.length_append, lengthOctets]
  split
  · rw [List.length_singleton]
    omega
  · rw [List.length_cons, minimal_length]
    omega

/-- **A pair is read back.** -/
theorem readPair_pair {r s : Nat} (h : (pair r s).length < 256 ^ 127) :
    readPair (pair r s) = some (r, s) := by
  have hcontent := tlv_length_le 0x30 (integer r ++ integer s)
  have hr := tlv_length_le 0x02 (integerContent r)
  have hs := tlv_length_le 0x02 (integerContent s)
  have hwidth : ∀ {n : Nat}, n ≤ (pair r s).length → width n < 128 := fun hle =>
    Nat.lt_succ_of_le (width_le_iff.mpr (lt_of_le_of_lt hle h))
  rw [List.length_append] at hcontent
  have hpair : (integer r).length + (integer s).length ≤ (pair r s).length := hcontent
  have hr' : (integerContent r).length ≤ (integer r).length := hr
  have hs' : (integerContent s).length ≤ (integer s).length := hs
  have houter := @readTlv_tlv 0x30 (integer r ++ integer s) []
    (hwidth (by rw [List.length_append]; exact hpair))
  have hfirst := readTlv_tlv 0x02 (integer s) (hwidth (by omega : (integerContent r).length ≤ _))
  have hsecond := readTlv_tlv 0x02 [] (hwidth (by omega : (integerContent s).length ≤ _))
  rw [List.append_nil] at houter hsecond
  have houter' : readTlv 0x30 (pair r s) = some (integer r ++ integer s, []) := houter
  have hfirst' : readTlv 0x02 (integer r ++ integer s) = some (integerContent r, integer s) := hfirst
  have hsecond' : readTlv 0x02 (integer s) = some (integerContent s, []) := hsecond
  simp only [readPair, houter', hfirst', hsecond', Option.bind_eq_bind, Option.bind_some,
    value_integerContent, if_true]

/-- Nothing else is read as the pair. -/
theorem eq_pair_of_readPair {bs : List UInt8} {p : Nat × Nat} (h : readPair bs = some p) :
    bs = pair p.1 p.2 := by
  simp only [readPair, Option.bind_eq_bind, Option.bind_eq_some_iff] at h
  obtain ⟨_, -, _, -, _, -, h⟩ := h
  split at h
  · rename_i hpair
    cases h
    exact hpair.symm
  · cases h

/-! ## Halves -/

/-- A pair whose first half is the first number has more than the second one in the other half: the
first number takes up so much that the length octet of the second one is there too. -/
theorem lt_second_half {r s w : Nat} (hs : (integerContent s).length < 128)
    (hlen : (pair r s).length = 2 * w) (hfirst : value ((pair r s).take w) = r) :
    s < value ((pair r s).drop w) := by
  have hparts : pair r s = (0x30 :: (lengthOctets (integer r ++ integer s).length ++ integer r)
      ++ [0x02]) ++ (UInt8.ofNat (integerContent s).length :: integerContent s) := by
    have hinteger : integer s = [0x02, UInt8.ofNat (integerContent s).length] ++ integerContent s :=
      tlv_short hs
    rw [pair, tlv, ← List.append_assoc, hinteger]
    simp only [List.cons_append, List.nil_append, List.append_assoc]
  -- the first half begins with the tag, so the number has as many bytes as the half
  have hwpos : 0 < w := by
    have hlength := congrArg List.length hparts
    rw [List.length_append, List.length_cons] at hlength
    omega
  have hlarge : 256 ^ (w - 1) ≤ r := by
    have hhead : ((pair r s).take w).head? = some 0x30 := by
      rw [List.head?_take, if_neg (by omega)]
      rfl
    have htake : ((pair r s).take w).length = w := by
      rw [List.length_take]
      omega
    have hle := @le_value ((pair r s).take w) (List.ne_nil_of_length_pos (by omega))
      (fun b hb => by
        rw [hhead] at hb
        cases hb
        decide)
    rwa [htake, hfirst] at hle
  have hcontent : w ≤ (integerContent r).length := by
    have hlt := value_lt (integerContent r)
    rw [value_integerContent] at hlt
    have hpow := (Nat.pow_lt_pow_iff_right (by decide : 1 < 256)).mp (lt_of_le_of_lt hlarge hlt)
    omega
  have hfront : w ≤ (0x30 :: (lengthOctets (integer r ++ integer s).length ++ integer r)
      ++ [(0x02 : UInt8)]).length := by
    have hle := tlv_length_le 0x02 (integerContent r)
    have hle' : (integerContent r).length ≤ (integer r).length := hle
    simp only [List.length_append, List.length_cons, List.length_nil]
    omega
  have hpos : 0 < (integerContent s).length := List.length_pos_iff.mpr (integerContent_ne_nil s)
  have hbyte : (UInt8.ofNat (integerContent s).length).toNat = (integerContent s).length :=
    Nat.mod_eq_of_lt (by omega)
  rw [hparts, List.drop_append_of_le_length hfront, value_append, value_cons, hbyte,
    value_integerContent]
  have hpow : 0 < 256 ^ (integerContent s).length := Nat.pow_pos (by decide)
  have hterm : 0 < (integerContent s).length * 256 ^ (integerContent s).length :=
    Nat.mul_pos hpos hpow
  omega

end Der
