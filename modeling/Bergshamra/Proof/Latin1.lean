import Bergshamra.Enc.Replace

/-!
# What the conversion to ISO-8859-1 leaves alone

`maybe_convert_encoding` rewrites the characters from U+0080 to U+00FF, two bytes
each in UTF-8, to one byte. Bytes that it may have been given are thus garbled
exactly when they declare the encoding and hold such a character.
-/

namespace Bergshamra

/-- A character beyond ASCII that ISO-8859-1 has. -/
def IsLatin1Supplement (c : Char) : Prop := 0x80 ≤ c.toNat ∧ c.toNat ≤ 0xFF

instance (c : Char) : Decidable (IsLatin1Supplement c) := inferInstanceAs (Decidable (_ ∧ _))

/-- The bytes declare ISO-8859-1 and are text in UTF-8 with a character that has another code
there. -/
def Garbled (data : List UInt8) : Prop :=
  declaresLatin1 data = true ∧ ∃ s, utf8? data = some s ∧ ∃ c ∈ s.toList, IsLatin1Supplement c

/-- A text is the bytes of its characters. -/
theorem bytes_of_utf8? {data : List UInt8} {s : String} (h : utf8? data = some s) :
    Text.bytes s.toList = data := by
  unfold utf8? String.fromUTF8? at h
  split at h
  next hvalid =>
    have hs : s.toByteArray = ⟨data.toArray⟩ := by
      rw [← Option.some.inj h]
      rfl
    have henc := @String.utf8Encode_toList s
    rw [hs, List.utf8Encode] at henc
    have hlist := congrArg (fun b => b.data.toList) henc
    simpa [Text.bytes] using hlist
  next hvalid => cases h

theorem utf8?_bytes (s : List Char) : utf8? (Text.bytes s) = some (String.ofList s) := by
  have hbytes : (⟨(Text.bytes s).toArray⟩ : ByteArray) = (String.ofList s).toByteArray := by
    rw [String.toByteArray_ofList, List.utf8Encode]
    exact ByteArray.ext (List.data_toByteArray).symm
  have hvalid : ByteArray.IsValidUTF8 ⟨(Text.bytes s).toArray⟩ :=
    hbytes ▸ (String.ofList s).isValidUTF8
  rw [utf8?, String.fromUTF8?, dif_pos hvalid]
  refine congrArg some (String.toByteArray_inj.mp ?_)
  exact hbytes

theorem latin1Bytes_eq {c : Char} (h : ¬ IsLatin1Supplement c) :
    latin1Bytes c = String.utf8EncodeChar c := by
  unfold latin1Bytes
  split
  next hle =>
    have hascii : c.toNat < 0x80 := by
      by_contra hge
      exact h ⟨by omega, hle⟩
    exact (Text.utf8EncodeChar_ascii hascii).symm
  next hle => rfl

/-- One byte instead of more. -/
theorem latin1Bytes_shorter {c : Char} (h : IsLatin1Supplement c) :
    (latin1Bytes c).length < (String.utf8EncodeChar c).length := by
  have hone : c.utf8Size ≠ 1 := by
    intro h1
    rw [Char.utf8Size_eq_one_iff, UInt32.le_iff_toNat_le] at h1
    have hge : 0x80 ≤ c.val.toNat := h.1
    have hle : c.val.toNat ≤ 0x7f := h1
    omega
  have hpos := Char.utf8Size_pos c
  rw [latin1Bytes, if_pos h.2, String.length_utf8EncodeChar, List.length_singleton]
  omega

theorem latin1Bytes_length_le (c : Char) :
    (latin1Bytes c).length ≤ (String.utf8EncodeChar c).length := by
  by_cases h : IsLatin1Supplement c
  · exact (latin1Bytes_shorter h).le
  · rw [latin1Bytes_eq h]

theorem flatMap_latin1Bytes_length_le (s : List Char) :
    (s.flatMap latin1Bytes).length ≤ (Text.bytes s).length := by
  induction s with
  | nil => exact le_rfl
  | cons c s ih =>
      have hc := latin1Bytes_length_le c
      rw [List.flatMap_cons, Text.bytes_cons, List.length_append, List.length_append]
      omega

theorem flatMap_latin1Bytes_shorter {s : List Char} (h : ∃ c ∈ s, IsLatin1Supplement c) :
    (s.flatMap latin1Bytes).length < (Text.bytes s).length := by
  induction s with
  | nil =>
      obtain ⟨c, hc, -⟩ := h
      cases hc
  | cons c s ih =>
      obtain ⟨d, hd, hsup⟩ := h
      have hc := latin1Bytes_length_le c
      have hs := flatMap_latin1Bytes_length_le s
      rw [List.flatMap_cons, Text.bytes_cons, List.length_append, List.length_append]
      rcases List.mem_cons.mp hd with rfl | hd
      · have := latin1Bytes_shorter hsup
        omega
      · have := ih ⟨d, hd, hsup⟩
        omega

theorem flatMap_latin1Bytes_eq {s : List Char} (h : ∀ c ∈ s, ¬ IsLatin1Supplement c) :
    s.flatMap latin1Bytes = Text.bytes s := by
  induction s with
  | nil => rfl
  | cons c s ih =>
      rw [List.flatMap_cons, Text.bytes_cons, latin1Bytes_eq (h c List.mem_cons_self),
        ih (fun d hd => h d (List.mem_cons_of_mem _ hd))]

/-- **The conversion leaves exactly the other bytes as they are.** -/
theorem maybeConvertEncoding_eq_self_iff (data : List UInt8) :
    maybeConvertEncoding data = data ↔ ¬ Garbled data := by
  unfold maybeConvertEncoding
  by_cases hdecl : declaresLatin1 data = true
  · rw [if_pos hdecl, utf8ToLatin1]
    cases hutf : utf8? data with
    | none =>
        refine ⟨?_, fun _ => rfl⟩
        rintro - ⟨-, s, hs, -⟩
        rw [hutf] at hs
        cases hs
    | some s =>
        have hbytes := bytes_of_utf8? hutf
        constructor
        · rintro heq ⟨-, s', hs', hsup⟩
          rw [hutf, Option.some.injEq] at hs'
          subst hs'
          have hlt := flatMap_latin1Bytes_shorter hsup
          rw [hbytes] at hlt
          exact absurd (congrArg List.length heq) (Nat.ne_of_lt hlt)
        · intro hno
          refine (flatMap_latin1Bytes_eq ?_).trans hbytes
          intro c hc hsup
          exact hno ⟨hdecl, s, hutf, c, hc, hsup⟩
  · rw [if_neg hdecl]
    exact ⟨fun _ h => hdecl h.1, fun _ => rfl⟩

end Bergshamra
