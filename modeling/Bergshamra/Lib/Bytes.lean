import Bergshamra.Lib.Text
import Mathlib.Data.List.Basic

/-!
# Byte positions in a text

Strings that are encoded in UTF-8 are cut at byte positions, and a cut inside a
character or past an end is a fault. `slice?` is such a cut; the lemmas say that
a cut where a known part of the text begins and ends is never a fault. The bytes
below `0x80` stand for themselves: a search for one of them in the bytes is a
search in the text.
-/

namespace Text

/-- `str::as_bytes`. -/
def bytes (s : List Char) : List UInt8 := s.flatMap String.utf8EncodeChar

/-- `str::len`. -/
def byteLength (s : List Char) : Nat := (bytes s).length

/-- `&s[start..stop]`; nothing stands for the panic. -/
def slice? (s : List Char) (start stop : Nat) : Option (List Char) :=
  if stop < start then none
  else (splitBytes start s).bind (fun r => (splitBytes (stop - start) r.2).map Prod.fst)

/-- `str::find`: the position of the first occurrence. -/
def find? (pat s : List Char) : Option Nat := (splitOnce pat s).map (fun r => byteLength r.1)

@[simp] theorem bytes_nil : bytes [] = [] := rfl

@[simp] theorem bytes_cons (c : Char) (s : List Char) :
    bytes (c :: s) = String.utf8EncodeChar c ++ bytes s := rfl

@[simp] theorem bytes_append (s t : List Char) : bytes (s ++ t) = bytes s ++ bytes t :=
  List.flatMap_append

@[simp] theorem byteLength_nil : byteLength [] = 0 := rfl

theorem byteLength_cons (c : Char) (s : List Char) :
    byteLength (c :: s) = c.utf8Size + byteLength s := by
  rw [byteLength, bytes_cons, List.length_append, String.length_utf8EncodeChar, byteLength]

@[simp] theorem byteLength_append (s t : List Char) :
    byteLength (s ++ t) = byteLength s + byteLength t := by
  rw [byteLength, bytes_append, List.length_append, byteLength, byteLength]

theorem byteLength_pos {s : List Char} (h : s ≠ []) : 0 < byteLength s := by
  cases s with
  | nil => exact absurd rfl h
  | cons c s =>
      have := Char.utf8Size_pos c
      rw [byteLength_cons]
      omega

theorem utf8ByteSize_ofList (s : List Char) : (String.ofList s).utf8ByteSize = byteLength s := by
  rw [← String.size_toByteArray, String.toByteArray_ofList, List.utf8Encode, List.size_toByteArray]
  rfl

/-! ## Cuts -/

/-- At the end of a part the cut leaves that part. -/
theorem splitBytes_append (s t : List Char) : splitBytes (byteLength s) (s ++ t) = some (s, t) := by
  induction s with
  | nil => rw [byteLength_nil, List.nil_append, splitBytes]
  | cons c s ih =>
      have hpos := Char.utf8Size_pos c
      have hlen : byteLength (c :: s) = (c.utf8Size + byteLength s - 1) + 1 := by
        rw [byteLength_cons]
        omega
      have hrest : c.utf8Size + byteLength s - 1 + 1 - c.utf8Size = byteLength s := by omega
      rw [hlen, List.cons_append, splitBytes, if_neg (by omega), hrest, ih]
      rfl

/-- A cut leaves a beginning of that length, and the rest. -/
theorem splitBytes_eq_some {n : Nat} {s front back : List Char} :
    splitBytes n s = some (front, back) ↔ s = front ++ back ∧ byteLength front = n := by
  constructor
  · intro h
    induction n, s using splitBytes.induct generalizing front back with
    | case1 s =>
        rw [splitBytes] at h
        cases h
        exact ⟨rfl, rfl⟩
    | case2 n =>
        rw [splitBytes] at h
        cases h
    | case3 n c s hlt =>
        rw [splitBytes, if_pos hlt] at h
        cases h
    | case4 n c s hge ih =>
        rw [splitBytes, if_neg hge] at h
        obtain ⟨p, hp, heq⟩ := Option.map_eq_some_iff.mp h
        cases heq
        obtain ⟨hs, hlen⟩ := ih hp
        refine ⟨by rw [hs, List.cons_append], ?_⟩
        rw [byteLength_cons, hlen]
        omega
  · rintro ⟨rfl, rfl⟩
    exact splitBytes_append front back

/-- `str::is_char_boundary`: the first `n` bytes are those of a beginning of the text. -/
def IsBoundary (n : Nat) (s : List Char) : Prop :=
  ∃ front back, s = front ++ back ∧ byteLength front = n

theorem splitBytes_eq_none {n : Nat} {s : List Char} :
    splitBytes n s = none ↔ ¬ IsBoundary n s := by
  constructor
  · rintro hnone ⟨front, back, hs, hlen⟩
    rw [splitBytes_eq_some.mpr ⟨hs, hlen⟩] at hnone
    cases hnone
  · intro h
    cases hsplit : splitBytes n s with
    | none => rfl
    | some p => exact absurd ⟨p.1, p.2, splitBytes_eq_some.mp hsplit⟩ h

theorem slice?_append (s t u : List Char) :
    slice? (s ++ (t ++ u)) (byteLength s) (byteLength s + byteLength t) = some t := by
  have hlen : byteLength s + byteLength t - byteLength s = byteLength t := by omega
  rw [slice?, if_neg (by omega), splitBytes_append, Option.bind_some, hlen, splitBytes_append]
  rfl

/-- `&s[..n]`. -/
theorem slice?_before (s t : List Char) : slice? (s ++ t) 0 (byteLength s) = some s := by
  have := slice?_append [] s t
  rwa [byteLength_nil, Nat.zero_add, List.nil_append] at this

/-- `&s[n..]`. -/
theorem slice?_after (s t : List Char) :
    slice? (s ++ t) (byteLength s) (byteLength (s ++ t)) = some t := by
  have := slice?_append s t []
  rwa [List.append_nil, ← byteLength_append] at this

/-- The end of a text cut off. -/
theorem slice?_dropEnd (s t u : List Char) :
    slice? (s ++ (t ++ u)) (byteLength s) (byteLength (s ++ (t ++ u)) - byteLength u) = some t := by
  have hlen : byteLength (s ++ (t ++ u)) - byteLength u = byteLength s + byteLength t := by
    simp only [byteLength_append]
    omega
  rw [hlen, slice?_append]

/-- Do the first `n` bytes of the text end with a character? -/
def EndsChar (n : Nat) (s : List Char) : Prop :=
  byteLength s ≤ n ∨ ∃ front back, s = front ++ back ∧ byteLength front = n

theorem prefix_of_byteLength_le {p a s : List Char} (hp : p <+: s) (ha : a <+: s)
    (h : byteLength p ≤ byteLength a) : p <+: a := by
  rcases List.prefix_or_prefix_of_prefix hp ha with hpa | ⟨t, ht⟩
  · exact hpa
  · have ht' : t = [] := by
      by_contra hne
      have hpos := byteLength_pos hne
      rw [← ht, byteLength_append] at h
      omega
    rw [ht', List.append_nil] at ht
    exact ht ▸ List.prefix_rfl

theorem IsBoundary.le {n : Nat} {s : List Char} (h : IsBoundary n s) : n ≤ byteLength s := by
  obtain ⟨front, back, rfl, rfl⟩ := h
  rw [byteLength_append]
  omega

/-- A boundary after a beginning of the text is a boundary of the rest. -/
theorem isBoundary_append {n : Nat} {front back : List Char} :
    IsBoundary (byteLength front + n) (front ++ back) ↔ IsBoundary n back := by
  constructor
  · rintro ⟨p, q, hpq, hlen⟩
    have hprefix : front <+: p := by
      refine prefix_of_byteLength_le (List.prefix_append front back) ⟨q, hpq.symm⟩ ?_
      omega
    obtain ⟨r, rfl⟩ := hprefix
    rw [List.append_assoc, List.append_cancel_left_eq] at hpq
    rw [byteLength_append] at hlen
    exact ⟨r, q, hpq, by omega⟩
  · rintro ⟨p, q, rfl, rfl⟩
    exact ⟨front ++ p, q, by rw [List.append_assoc], byteLength_append front p⟩

theorem isBoundary_zero (s : List Char) : IsBoundary 0 s := ⟨[], s, rfl, rfl⟩

theorem isBoundary_cons {n : Nat} {c : Char} {s : List Char} :
    IsBoundary (n + 1) (c :: s) ↔ c.utf8Size ≤ n + 1 ∧ IsBoundary (n + 1 - c.utf8Size) s := by
  constructor
  · rintro ⟨front, back, hs, hlen⟩
    cases front with
    | nil => cases hlen
    | cons d front =>
        obtain ⟨rfl, rfl⟩ := List.cons.inj hs
        rw [byteLength_cons] at hlen
        exact ⟨by omega, front, back, rfl, by omega⟩
  · rintro ⟨hle, front, back, rfl, hlen⟩
    refine ⟨c :: front, back, rfl, ?_⟩
    rw [byteLength_cons]
    omega

/-- Where they do, they are the text of the longest beginning that fits. -/
theorem EndsChar.take {n : Nat} {s : List Char} (h : EndsChar n s) :
    ∃ front, front <+: s ∧ (bytes s).take n = bytes front
      ∧ ∀ p, p <+: s → byteLength p ≤ n → p <+: front := by
  rcases h with hle | ⟨front, back, rfl, hlen⟩
  · exact ⟨s, List.prefix_rfl, List.take_of_length_le hle, fun p hp _ => hp⟩
  · have hfront : front <+: front ++ back := List.prefix_append _ _
    refine ⟨front, hfront, ?_, ?_⟩
    · rw [bytes_append, ← hlen, byteLength, List.take_left]
    · intro p hp hle
      exact prefix_of_byteLength_le hp hfront (hlen.symm ▸ hle)

/-! ## Bytes of characters -/

/-- The bytes of a character begin those of no other. -/
theorem char_of_bytes_prefix {c d : Char} {r r' : List UInt8}
    (h : String.utf8EncodeChar c ++ r = String.utf8EncodeChar d ++ r') : c = d := by
  have hc := @ByteArray.utf8DecodeChar?_utf8EncodeChar_append r.toByteArray c
  have hd := @ByteArray.utf8DecodeChar?_utf8EncodeChar_append r'.toByteArray d
  rw [← List.toByteArray_append] at hc hd
  rw [h, hd, Option.some.injEq] at hc
  exact hc.symm

/-- Bytes that begin a text and are a text are its beginning. -/
theorem prefix_of_bytes_prefix {a s : List Char} (h : bytes a <+: bytes s) : a <+: s := by
  induction a generalizing s with
  | nil => exact List.nil_prefix
  | cons c a ih =>
      obtain ⟨r, hr⟩ := h
      rw [bytes_cons, List.append_assoc] at hr
      cases s with
      | nil =>
          rw [bytes_nil, List.append_eq_nil_iff] at hr
          exact absurd hr.1 String.utf8EncodeChar_ne_nil
      | cons d s =>
          rw [bytes_cons] at hr
          obtain rfl := char_of_bytes_prefix hr
          exact (List.prefix_cons_inj c).mpr (ih ⟨r, List.append_cancel_left hr⟩)

/-- The bytes determine the text. -/
theorem bytes_inj {a s : List Char} (h : bytes a = bytes s) : a = s := by
  have hle := prefix_of_bytes_prefix (h ▸ List.prefix_rfl : bytes a <+: bytes s)
  have hge := prefix_of_bytes_prefix (h ▸ List.prefix_rfl : bytes s <+: bytes a)
  exact hle.eq_of_length (le_antisymm hle.length_le hge.length_le)

/-- An ASCII character is one byte, itself. -/
theorem utf8EncodeChar_ascii {c : Char} (h : c.toNat < 0x80) :
    String.utf8EncodeChar c = [c.val.toUInt8] := by
  refine String.utf8EncodeChar_eq_singleton ?_
  rw [Char.utf8Size_eq_one_iff, UInt32.le_iff_toNat_le]
  have : c.val.toNat < 0x80 := h
  show c.val.toNat ≤ 0x7f
  omega

theorem le_toNat_or (x y : UInt8) (h : 0x80 ≤ y.toNat) : 0x80 ≤ (x ||| y).toNat := by
  rw [UInt8.toNat_or]
  exact le_trans h Nat.right_le_or

/-- All bytes of any other character are above. -/
theorem utf8EncodeChar_high {c : Char} (h : 0x80 ≤ c.toNat) :
    ∀ b ∈ String.utf8EncodeChar c, 0x80 ≤ b.toNat := by
  have hone : c.utf8Size ≠ 1 := by
    intro h1
    rw [Char.utf8Size_eq_one_iff, UInt32.le_iff_toNat_le] at h1
    have h' : c.val.toNat ≤ 0x7f := h1
    have h'' : 0x80 ≤ c.val.toNat := h
    omega
  have hsize := Char.utf8Size_le_four c
  have hpos := Char.utf8Size_pos c
  intro b hb
  have hcases : c.utf8Size = 2 ∨ c.utf8Size = 3 ∨ c.utf8Size = 4 := by omega
  rcases hcases with h2 | h3 | h4
  · rw [String.utf8EncodeChar_eq_cons_cons h2] at hb
    simp only [List.mem_cons, List.not_mem_nil, or_false] at hb
    rcases hb with rfl | rfl
    · exact le_toNat_or _ _ (by decide)
    · exact le_toNat_or _ _ (by decide)
  · rw [String.utf8EncodeChar_eq_cons_cons_cons h3] at hb
    simp only [List.mem_cons, List.not_mem_nil, or_false] at hb
    rcases hb with rfl | rfl | rfl
    · exact le_toNat_or _ _ (by decide)
    · exact le_toNat_or _ _ (by decide)
    · exact le_toNat_or _ _ (by decide)
  · rw [String.utf8EncodeChar_eq_cons_cons_cons_cons h4] at hb
    simp only [List.mem_cons, List.not_mem_nil, or_false] at hb
    rcases hb with rfl | rfl | rfl | rfl
    · exact le_toNat_or _ _ (by decide)
    · exact le_toNat_or _ _ (by decide)
    · exact le_toNat_or _ _ (by decide)
    · exact le_toNat_or _ _ (by decide)

/-- The bytes of ASCII characters determine them. -/
theorem byte_eq_iff {c d : Char} (hc : c.toNat < 0x80) (hd : d.toNat < 0x80) :
    c.val.toUInt8 = d.val.toUInt8 ↔ c = d := by
  constructor
  · intro h
    have hn := congrArg UInt8.toNat h
    rw [UInt32.toNat_toUInt8, UInt32.toNat_toUInt8] at hn
    have hc' : c.val.toNat < 0x80 := hc
    have hd' : d.val.toNat < 0x80 := hd
    have : c.val.toNat = d.val.toNat := by omega
    exact Char.ext (UInt32.toNat_inj.mp this)
  · rintro rfl
    rfl

/-- An ASCII character is in a text exactly when its byte is in the bytes. -/
theorem mem_bytes_iff {c : Char} (hc : c.toNat < 0x80) {s : List Char} :
    c.val.toUInt8 ∈ bytes s ↔ c ∈ s := by
  induction s with
  | nil => simp
  | cons d s ih =>
      rw [bytes_cons, List.mem_append, List.mem_cons, ih]
      refine or_congr_left ?_
      by_cases hd : d.toNat < 0x80
      · rw [utf8EncodeChar_ascii hd, List.mem_singleton, byte_eq_iff hc hd]
      · refine iff_of_false (fun h => ?_) (fun h => hd (h ▸ hc))
        have hb := utf8EncodeChar_high (Nat.le_of_not_lt hd) _ h
        rw [UInt32.toNat_toUInt8] at hb
        have hc' : c.val.toNat < 0x80 := hc
        omega

/-- The last byte is an ASCII character only if the last character is. -/
theorem getLast?_bytes {c : Char} (hc : c.toNat < 0x80) {s : List Char}
    (h : (bytes s).getLast? = some c.val.toUInt8) : s.getLast? = some c := by
  induction s using List.reverseRecOn with
  | nil => cases h
  | append_singleton s d =>
      rw [List.getLast?_concat, bytes_append, bytes_cons, bytes_nil, List.append_nil] at *
      have hne : String.utf8EncodeChar d ≠ [] := String.utf8EncodeChar_ne_nil
      rw [List.getLast?_append_of_ne_nil _ hne] at h
      have hmem : c.val.toUInt8 ∈ bytes [d] := by
        rw [bytes_cons, bytes_nil, List.append_nil]
        exact List.mem_of_getLast? h
      rw [mem_bytes_iff hc, List.mem_singleton] at hmem
      rw [hmem]

/-- The first byte is an ASCII character only if the first character is. -/
theorem head?_bytes {c : Char} (hc : c.toNat < 0x80) {s : List Char}
    (h : (bytes s).head? = some c.val.toUInt8) : s.head? = some c := by
  cases s with
  | nil => cases h
  | cons d s =>
      have hne : String.utf8EncodeChar d ≠ [] := String.utf8EncodeChar_ne_nil
      rw [bytes_cons, List.head?_append_of_ne_nil _ hne] at h
      have hmem : c.val.toUInt8 ∈ bytes [d] := by
        rw [bytes_cons, bytes_nil, List.append_nil]
        exact List.mem_of_head? h
      rw [mem_bytes_iff hc, List.mem_singleton] at hmem
      rw [hmem]
      rfl

/-- **A marker in ASCII begins the bytes exactly when it begins the text.** -/
theorem bytes_prefix_iff {pat s : List Char} (hp : ∀ c ∈ pat, c.toNat < 0x80) :
    bytes pat <+: bytes s ↔ (stripPrefix? pat s).isSome = true := by
  induction pat generalizing s with
  | nil => simp [stripPrefix?]
  | cons p pat ih =>
      have hpa : p.toNat < 0x80 := hp p List.mem_cons_self
      have htail : ∀ c ∈ pat, c.toNat < 0x80 := fun c hc => hp c (List.mem_cons_of_mem _ hc)
      cases s with
      | nil => simp [stripPrefix?, utf8EncodeChar_ascii hpa]
      | cons c s =>
          rw [bytes_cons, utf8EncodeChar_ascii hpa, bytes_cons, stripPrefix?]
          by_cases hca : c.toNat < 0x80
          · rw [utf8EncodeChar_ascii hca, List.singleton_append, List.singleton_append,
              List.cons_prefix_cons, byte_eq_iff hpa hca]
            by_cases hpc : p = c
            · rw [if_pos hpc, ih htail]
              simp [hpc]
            · simp [hpc]
          · have hne : p ≠ c := fun h => hca (h ▸ hpa)
            have hhigh := utf8EncodeChar_high (Nat.le_of_not_lt hca)
            rw [if_neg hne]
            cases he : String.utf8EncodeChar c with
            | nil => exact absurd he String.utf8EncodeChar_ne_nil
            | cons b bs =>
                have hb : 0x80 ≤ b.toNat := hhigh b (he ▸ List.mem_cons_self)
                simp only [List.cons_append, List.cons_prefix_cons,
                  Option.isSome_none, Bool.false_eq_true, iff_false, not_and]
                intro hpb
                have hn := congrArg UInt8.toNat hpb
                rw [UInt32.toNat_toUInt8] at hn
                have hp' : p.val.toNat < 0x80 := hpa
                omega

end Text
