import Bergshamra.Enc.Derive
import Bergshamra.Keys.KeyInfo
import Bergshamra.Keys.Loader
import Bergshamra.Keys.X509
import Bergshamra.Lib.Bytes
import Bergshamra.Proof.KdfParameters

/-!
# Where the decoders panic

The decoders cut their inputs at byte positions. A cut panics where it is past the
end or not a boundary of characters. For each decoder this says on which inputs such
a cut is reached, and what the hexadecimal decoder accepts beside digits.
-/

namespace Bergshamra

open Text

/-! ## Numbers in KeyInfo -/

/-- Pairs are cut from texts of even length. -/
theorem hexPairs_eq_none {s : List Char} : hexPairs s = none ↔ s.length % 2 = 1 := by
  induction s using hexPairs.induct with
  | case1 => simp [hexPairs]
  | case2 c => simp [hexPairs]
  | case3 a b s ih =>
      rw [hexPairs, Option.map_eq_none_iff, ih, List.length_cons, List.length_cons]
      omega

/-- The text of a number without white space. -/
def numberText (text : String) : String := withoutWhitespace (trimStr text)

/-- Is the number taken for hexadecimal, where it is not base64? -/
def LooksHex (clean : String) : Prop :=
  clean.utf8ByteSize ≥ 2 ∧ clean.toList.all isHexDigit = true

/-- No cut of `decode_crypto_binary` fails: a number that is not base64 has an even number of hex
digits, or is cut at a character for the message. -/
def NumberFits (lib : TransformLibs) (text : String) : Prop :=
  numberText text = "" ∨ (∃ bytes, lib.base64Decode (numberText text) = .ok bytes)
    ∨ (LooksHex (numberText text) ∧ (numberText text).toList.length % 2 = 0)
    ∨ (¬ LooksHex (numberText text)
        ∧ IsBoundary (min (numberText text).utf8ByteSize 20) (numberText text).toList)

theorem invalidSymbol_eq_none {clean : String} :
    invalidSymbol clean.toList = none ↔ ¬ IsBoundary (min clean.utf8ByteSize 20) clean.toList := by
  rw [invalidSymbol, Option.map_eq_none_iff, splitBytes_eq_none, String.ofList_toList]

/-- What is not base64 is cut into pairs, or quoted in the message. -/
theorem decodeCryptoBinary_of_error {lib : TransformLibs} {text e : String}
    (hempty : numberText text ≠ "") (hb64 : lib.base64Decode (numberText text) = .error e) :
    (LooksHex (numberText text) → decodeCryptoBinary lib text
        = (hexPairs (numberText text).toList).map (fun bytes => .ok ⟨bytes.toArray⟩))
      ∧ (¬ LooksHex (numberText text) → decodeCryptoBinary lib text
        = (invalidSymbol (numberText text).toList).map .error) := by
  rw [decodeCryptoBinary, ← numberText, if_neg hempty, hb64]
  exact ⟨fun h => if_pos h, fun h => if_neg h⟩

theorem decodeCryptoBinary_total_iff (lib : TransformLibs) (text : String) :
    decodeCryptoBinary lib text ≠ none ↔ NumberFits lib text := by
  rw [NumberFits]
  by_cases hempty : numberText text = ""
  · have hdecode : decodeCryptoBinary lib text = some (.error "empty value") := by
      rw [decodeCryptoBinary, ← numberText, if_pos hempty]
    simp [hdecode, hempty]
  · cases hb64 : lib.base64Decode (numberText text) with
    | ok bytes =>
        have hdecode : decodeCryptoBinary lib text = some (.ok bytes) := by
          rw [decodeCryptoBinary, ← numberText, if_neg hempty, hb64]
        simp [hdecode]
    | error e =>
        obtain ⟨hpairs, hmessage⟩ := decodeCryptoBinary_of_error hempty hb64
        by_cases hhex : LooksHex (numberText text)
        · rw [hpairs hhex, ne_eq, Option.map_eq_none_iff, hexPairs_eq_none]
          have heven : ¬ (numberText text).toList.length % 2 = 1
              ↔ (numberText text).toList.length % 2 = 0 := by omega
          simp [hempty, hhex, heven]
        · rw [hmessage hhex, ne_eq, Option.map_eq_none_iff, invalidSymbol_eq_none, not_not]
          simp [hempty, hhex]

/-- Beside base64, what is accepted is an even number of hex digits, two at least. -/
theorem decodeCryptoBinary_hex_iff {lib : TransformLibs} {text : String}
    (h : ∀ bytes, lib.base64Decode (numberText text) ≠ .ok bytes) :
    (∃ bytes, decodeCryptoBinary lib text = some (.ok bytes))
      ↔ LooksHex (numberText text) ∧ (numberText text).toList.length % 2 = 0 := by
  by_cases hempty : numberText text = ""
  · have hdecode : decodeCryptoBinary lib text = some (.error "empty value") := by
      rw [decodeCryptoBinary, ← numberText, if_pos hempty]
    simp [hdecode, hempty, LooksHex]
  · cases hb64 : lib.base64Decode (numberText text) with
    | ok bytes => exact absurd hb64 (h bytes)
    | error e =>
        obtain ⟨hpairs, hmessage⟩ := decodeCryptoBinary_of_error hempty hb64
        by_cases hhex : LooksHex (numberText text)
        · rw [hpairs hhex]
          cases hread : hexPairs (numberText text).toList with
          | none =>
              have hodd := hexPairs_eq_none.mp hread
              simp [hodd]
          | some bytes =>
              have hne : hexPairs (numberText text).toList ≠ none := by
                rw [hread]
                exact Option.some_ne_none bytes
              have hodd := hexPairs_eq_none.not.mp hne
              have heven : (numberText text).toList.length % 2 = 0 := by omega
              simp [hhex, heven]
        · rw [hmessage hhex]
          cases invalidSymbol (numberText text).toList with
          | none => simp [hhex]
          | some msg => simp [hhex]

/-! ## Hexadecimal parameters -/

/-- The text without white space around it and without `0x`. -/
def hexDigits (s : String) : List Char :=
  (stripPrefix? "0x".toList (trim s.toList)).getD (trim s.toList)

/-- What is cut into pairs: the digits, with a zero in front where their number is odd. -/
def hexInput (s : String) : List Char :=
  if byteLength (hexDigits s) % 2 ≠ 0 then '0' :: hexDigits s else hexDigits s

/-- Every pair is read as a byte. -/
def ReadsPairs : List Char → Prop
  | [] => True
  | [_] => False
  | c :: d :: s => (hexPair? c d).isSome = true ∧ ReadsPairs s

/-- After pairs that are read, a cut after two bytes is inside a character. -/
def CutsCharacter (s : List Char) : Prop :=
  ∃ front back, s = front ++ back ∧ ReadsPairs front ∧ back ≠ [] ∧ ¬ IsBoundary 2 back

theorem hexDigit?_utf8Size {c : Char} {n : Nat} (h : hexDigit? c = some n) : c.utf8Size = 1 :=
  utf8Size_ascii (hexDigit?_ascii h).1

theorem hexPair?_utf8Size {c d : Char} (h : (hexPair? c d).isSome = true) :
    c.utf8Size = 1 ∧ d.utf8Size = 1 := by
  rw [hexPair?] at h
  split at h
  · rename_i hplus
    cases hd : hexDigit? d with
    | none =>
        rw [hd] at h
        cases h
    | some l =>
        rw [hplus]
        exact ⟨by decide, hexDigit?_utf8Size hd⟩
  · cases hc : hexDigit? c with
    | none =>
        rw [hc] at h
        cases h
    | some n =>
        cases hd : hexDigit? d with
        | none =>
            rw [hc, hd] at h
            cases h
        | some l => exact ⟨hexDigit?_utf8Size hc, hexDigit?_utf8Size hd⟩

/-- A pair that is read moves the cut to the next. -/
theorem cutsCharacter_pair {c d : Char} {s : List Char} (h : (hexPair? c d).isSome = true) :
    CutsCharacter (c :: d :: s) ↔ CutsCharacter s := by
  obtain ⟨hc, hd⟩ := hexPair?_utf8Size h
  constructor
  · rintro ⟨front, back, hs, hreads, hne, hcut⟩
    match front, hreads with
    | [], _ =>
        obtain rfl : back = c :: d :: s := hs.symm
        refine absurd ?_ hcut
        rw [isBoundary_cons, hc, isBoundary_cons, hd]
        exact ⟨by omega, by omega, isBoundary_zero s⟩
    | [_], hreads => exact hreads.elim
    | c' :: d' :: front, hreads =>
        injection hs with hc' hs
        injection hs with hd' hs
        exact ⟨front, back, hs, hreads.2, hne, hcut⟩
  · rintro ⟨front, back, rfl, hreads, hne, hcut⟩
    exact ⟨c :: d :: front, back, rfl, ⟨h, hreads⟩, hne, hcut⟩

/-- Where the first pair is not read, the first cut decides. -/
theorem cutsCharacter_first {c : Char} {s : List Char}
    (h : ∀ d rest, s = d :: rest → ¬ (hexPair? c d).isSome = true) :
    CutsCharacter (c :: s) ↔ ¬ IsBoundary 2 (c :: s) := by
  constructor
  · rintro ⟨front, back, hs, hreads, hne, hcut⟩
    match front, hreads with
    | [], _ =>
        obtain rfl : back = c :: s := hs.symm
        exact hcut
    | [_], hreads => exact hreads.elim
    | c' :: d' :: front, hreads =>
        injection hs with hc' hs
        rw [← hc'] at hreads
        exact absurd hreads.1 (h d' (front ++ back) hs)
  · intro hcut
    exact ⟨[], c :: s, rfl, trivial, List.cons_ne_nil c s, hcut⟩

theorem cutsCharacter_nil : ¬ CutsCharacter [] := by
  rintro ⟨front, back, hs, -, hne, -⟩
  exact hne (List.append_eq_nil_iff.mp hs.symm).2

theorem isBoundary_nil (n : Nat) : ¬ IsBoundary (n + 1) [] := fun h => absurd h.le (by simp)

/-- A cut after two bytes where the first character is not one byte. -/
theorem isBoundary_two_of_ne {c : Char} {s : List Char} (h : c.utf8Size ≠ 1) :
    IsBoundary 2 (c :: s) ↔ c.utf8Size = 2 := by
  have hpos := Char.utf8Size_pos c
  rw [isBoundary_cons]
  constructor
  · rintro ⟨hle, -⟩
    omega
  · intro htwo
    rw [htwo]
    exact ⟨Nat.le_refl _, isBoundary_zero s⟩

/-- A cut after two bytes where it is. -/
theorem isBoundary_two_of_one {c : Char} {s : List Char} (h : c.utf8Size = 1) :
    IsBoundary 2 (c :: s) ↔ IsBoundary 1 s := by
  rw [isBoundary_cons, h]
  simp

/-- The pairs panic where a cut is inside a character. -/
theorem hexBytes_panics_iff {e : Error} (he : e ≠ .panics) (s : List Char) :
    hexBytes e s = .error .panics ↔ CutsCharacter s := by
  have hnot : (.error e : Except Error (List UInt8)) ≠ .error .panics := fun h => he (by cases h; rfl)
  -- the cases of the reader: nothing, one character, a pair that is read, or one that is not
  induction s using hexBytes.induct with
  | case1 =>
      rw [hexBytes]
      exact iff_of_false (fun h => by cases h) cutsCharacter_nil
  | case2 c hc =>
      rw [hexBytes, if_pos hc, cutsCharacter_first (fun d rest h => by cases h),
        isBoundary_two_of_ne (by omega)]
      exact iff_of_false hnot (fun h => h hc)
  | case3 c hc =>
      rw [hexBytes, if_neg hc, cutsCharacter_first (fun d rest h => by cases h)]
      refine iff_of_true rfl ?_
      by_cases hone : c.utf8Size = 1
      · rw [isBoundary_two_of_one hone]
        exact isBoundary_nil 0
      · rw [isBoundary_two_of_ne hone]
        exact hc
  | case4 c d s hone hpair =>
      rw [hexBytes, if_pos hone, hpair]
      refine iff_of_false hnot ?_
      rw [cutsCharacter_first, isBoundary_two_of_one hone.1, isBoundary_cons, hone.2]
      · exact fun h => h ⟨Nat.le_refl _, isBoundary_zero s⟩
      · intro d' rest hs
        obtain ⟨rfl, rfl⟩ := List.cons.inj hs
        rw [hpair]
        exact Bool.false_ne_true
  | case5 c d s hone b hpair ih =>
      have hread : (hexPair? c d).isSome = true := by
        rw [hpair]
        rfl
      rw [hexBytes, if_pos hone, hpair, cutsCharacter_pair hread]
      refine Iff.trans ?_ ih
      simp only [bind, Except.bind]
      cases hexBytes e s with
      | error e' => simp
      | ok bs => simp
  | case6 c d s hne hc =>
      rw [hexBytes, if_neg hne, if_pos hc]
      refine iff_of_false hnot ?_
      rw [cutsCharacter_first, isBoundary_two_of_ne (by omega)]
      · exact fun h => h hc
      · intro d' rest hs hpair
        have := (hexPair?_utf8Size hpair).1
        omega
  | case7 c d s hne hc =>
      rw [hexBytes, if_neg hne, if_neg hc, cutsCharacter_first]
      · refine iff_of_true rfl ?_
        by_cases hone : c.utf8Size = 1
        · have hd : d.utf8Size ≠ 1 := fun h => hne ⟨hone, h⟩
          have hpos := Char.utf8Size_pos d
          rw [isBoundary_two_of_one hone, isBoundary_cons]
          rintro ⟨hle, -⟩
          omega
        · rw [isBoundary_two_of_ne hone]
          exact hc
      · intro d' rest hs hpair
        obtain ⟨rfl, rfl⟩ := List.cons.inj hs
        exact hne (hexPair?_utf8Size hpair)

/-- What is accepted is what is read pair by pair. -/
theorem hexBytes_ok_iff (e : Error) (s : List Char) :
    (∃ bs, hexBytes e s = .ok bs) ↔ ReadsPairs s := by
  induction s using hexBytes.induct with
  | case1 => exact iff_of_true ⟨[], rfl⟩ trivial
  | case2 c hc =>
      rw [hexBytes, if_pos hc]
      simp [ReadsPairs]
  | case3 c hc =>
      rw [hexBytes, if_neg hc]
      simp [ReadsPairs]
  | case4 c d s hone hpair =>
      rw [hexBytes, if_pos hone, hpair]
      simp [ReadsPairs, hpair]
  | case5 c d s hone b hpair ih =>
      rw [hexBytes, if_pos hone, hpair, ReadsPairs, ← ih, hpair]
      simp only [bind, Except.bind]
      cases hexBytes e s with
      | error e' => simp
      | ok bs => simp
  | case6 c d s hne hc =>
      rw [hexBytes, if_neg hne, if_pos hc]
      refine iff_of_false (fun h => by obtain ⟨bs, h⟩ := h; cases h) ?_
      exact fun h => hne (hexPair?_utf8Size h.1)
  | case7 c d s hne hc =>
      rw [hexBytes, if_neg hne, if_neg hc]
      refine iff_of_false (fun h => by obtain ⟨bs, h⟩ := h; cases h) ?_
      exact fun h => hne (hexPair?_utf8Size h.1)

theorem hexDecode_eq (s : String) : hexDecode s
    = (hexBytes (.other ("invalid hex: " ++ String.ofList (trim s.toList))) (hexInput s)).bind
        (fun bs => .ok ⟨bs.toArray⟩) := by
  rw [hexDecode, hexInput, ← utf8ByteSize_ofList]
  rfl

theorem hexDecode_panics_iff (s : String) :
    hexDecode s = .error .panics ↔ CutsCharacter (hexInput s) := by
  rw [hexDecode_eq, ← hexBytes_panics_iff
    (e := .other ("invalid hex: " ++ String.ofList (trim s.toList))) (fun h => by cases h)]
  cases hexBytes (.other ("invalid hex: " ++ String.ofList (trim s.toList))) (hexInput s) with
  | error e => simp [Except.bind]
  | ok bs => simp [Except.bind]

theorem hexDecode_ok_iff (s : String) :
    (∃ bytes, hexDecode s = .ok bytes) ↔ ReadsPairs (hexInput s) := by
  rw [hexDecode_eq,
    ← hexBytes_ok_iff (.other ("invalid hex: " ++ String.ofList (trim s.toList)))]
  cases hexBytes (.other ("invalid hex: " ++ String.ofList (trim s.toList))) (hexInput s) with
  | error e => simp [Except.bind]
  | ok bs => simp [Except.bind]

/-- The padding byte is taken off what was decoded. -/
theorem hexDecodeStripPad_same (s : String) :
    (hexDecodeStripPad s = .error .panics ↔ hexDecode s = .error .panics)
      ∧ ((∃ bytes, hexDecodeStripPad s = .ok bytes) ↔ ∃ bytes, hexDecode s = .ok bytes) := by
  rw [hexDecodeStripPad]
  cases hexDecode s with
  | error e => simp [bind, Except.bind]
  | ok bytes =>
      simp only [bind, Except.bind]
      split
      · simp
      · simp

/-! ### Digits -/

theorem hexPair?_isSome {c d : Char} : (hexPair? c d).isSome = true
    ↔ (c = '+' ∨ (hexDigit? c).isSome = true) ∧ (hexDigit? d).isSome = true := by
  rw [hexPair?]
  by_cases hplus : c = '+'
  · simp [hplus]
  · cases hc : hexDigit? c with
    | none => simp [hplus]
    | some h => simp [hplus]

/-- In pairs that are read everything is a digit, except for a plus. -/
theorem ReadsPairs.digits_iff {s : List Char} (h : ReadsPairs s) :
    (∀ c ∈ s, (hexDigit? c).isSome = true) ↔ '+' ∉ s := by
  have hplus : hexDigit? '+' = none := by decide
  induction s using hexBytes.induct with
  | case1 => simp
  | case2 c _ => exact h.elim
  | case3 c _ => exact h.elim
  | case4 c d s _ hpair =>
      have hsome := h.1
      rw [hpair] at hsome
      cases hsome
  | case5 c d s _ b hpair ih =>
      obtain ⟨hc, hd⟩ := hexPair?_isSome.mp h.1
      have hdne : '+' ≠ d := by
        intro heq
        rw [← heq, hplus] at hd
        cases hd
      have hrest : (∀ x ∈ s, (hexDigit? x).isSome = true) ↔ '+' ∉ s := ih h.2
      rw [List.forall_mem_cons, List.forall_mem_cons, hrest, List.mem_cons, List.mem_cons]
      rcases hc with rfl | hc
      · simp [hplus]
      · have hcne : '+' ≠ c := by
          intro heq
          rw [← heq, hplus] at hc
          cases hc
        simp [hc, hd, hdne, hcne]
  | case6 c d s hne _ => exact absurd (hexPair?_utf8Size h.1) hne
  | case7 c d s hne _ => exact absurd (hexPair?_utf8Size h.1) hne

/-- An even number of digits is read. -/
theorem readsPairs_of_digits {s : List Char} (h : ∀ c ∈ s, (hexDigit? c).isSome = true)
    (heven : s.length % 2 = 0) : ReadsPairs s := by
  induction s using hexPairs.induct with
  | case1 => trivial
  | case2 c => cases heven
  | case3 c d s ih =>
      rw [List.forall_mem_cons, List.forall_mem_cons] at h
      rw [List.length_cons, List.length_cons] at heven
      exact ⟨hexPair?_isSome.mpr ⟨Or.inr h.1, h.2.1⟩, ih h.2.2 (by omega)⟩

/-- Only hexadecimal digits. -/
def HexText (s : String) : Prop := ∀ c ∈ hexDigits s, (hexDigit? c).isSome = true

/-- No cut of `hex_decode` fails, and no pair begins with a plus where all are read. -/
def HexFits (s : String) : Prop :=
  ¬ CutsCharacter (hexInput s) ∧ ¬ (ReadsPairs (hexInput s) ∧ '+' ∈ hexDigits s)

theorem hexInput_digits_iff (s : String) :
    (∀ c ∈ hexInput s, (hexDigit? c).isSome = true) ↔ HexText s := by
  rw [hexInput, HexText]
  split
  · have hzero : (hexDigit? '0').isSome = true := by decide
    rw [List.forall_mem_cons, and_iff_right hzero]
  · rfl

theorem plus_mem_hexInput (s : String) : '+' ∈ hexInput s ↔ '+' ∈ hexDigits s := by
  rw [hexInput]
  split
  · simp
  · rfl

/-- Digits are one byte each, and a zero in front makes their number even. -/
theorem hexInput_length {s : String} (h : HexText s) : (hexInput s).length % 2 = 0 := by
  have hbytes : byteLength (hexDigits s) = (hexDigits s).length := by
    refine byteLength_of_ascii fun c hc => ?_
    obtain ⟨n, hn⟩ := Option.isSome_iff_exists.mp (h c hc)
    exact hexDigit?_utf8Size hn
  rw [hexInput, hbytes]
  split
  · rw [List.length_cons]
    omega
  · omega

/-- **`hex_decode` is total and accepts exactly digits**, exactly where its cuts fit and no plus
passes for a digit. -/
theorem hexDecode_total_iff (s : String) :
    (hexDecode s ≠ .error .panics ∧ ((∃ bytes, hexDecode s = .ok bytes) ↔ HexText s))
      ↔ HexFits s := by
  rw [HexFits, ne_eq, hexDecode_panics_iff, hexDecode_ok_iff]
  refine and_congr_right fun _ => ?_
  rw [← plus_mem_hexInput, ← hexInput_digits_iff]
  have heven := fun hdigits => hexInput_length ((hexInput_digits_iff s).mp hdigits)
  generalize hexInput s = input at heven
  constructor
  · rintro h ⟨hreads, hplus⟩
    exact hreads.digits_iff.mp (h.mp hreads) hplus
  · intro h
    constructor
    · intro hreads
      exact hreads.digits_iff.mpr fun hplus => h ⟨hreads, hplus⟩
    · intro hdigits
      exact readsPairs_of_digits hdigits (heven hdigits)

/-! ## Verification times -/

/-- What a slice is. -/
theorem byteSlice_eq_ok {s t : List Char} {start stop : Nat} (h : start ≤ stop) :
    byteSlice s start stop = .ok t ↔ ∃ front back, s = front ++ (t ++ back)
      ∧ byteLength front = start ∧ byteLength t = stop - start := by
  rw [byteSlice]
  constructor
  · intro hslice
    cases hfront : splitBytes start s with
    | none =>
        rw [hfront] at hslice
        cases hslice
    | some p =>
        rw [hfront] at hslice
        dsimp only at hslice
        cases hback : splitBytes (stop - start) p.2 with
        | none =>
            rw [hback] at hslice
            cases hslice
        | some q =>
            rw [hback] at hslice
            dsimp only at hslice
            rw [if_pos h] at hslice
            cases hslice
            obtain ⟨hs, hlen⟩ := splitBytes_eq_some.mp hfront
            obtain ⟨hrest, hlen'⟩ := splitBytes_eq_some.mp hback
            exact ⟨p.1, q.2, by rw [← hrest, ← hs], hlen, hlen'⟩
  · rintro ⟨front, back, rfl, rfl, hlen⟩
    rw [splitBytes_append, ← hlen]
    dsimp only
    rw [splitBytes_append]
    exact if_pos h

/-- A slice fits where both its ends are boundaries. -/
theorem byteSlice_fits_iff {s : List Char} {start stop : Nat} (h : start ≤ stop) :
    (∃ t, byteSlice s start stop = .ok t) ↔ IsBoundary start s ∧ IsBoundary stop s := by
  constructor
  · rintro ⟨t, ht⟩
    obtain ⟨front, back, rfl, rfl, hlen⟩ := (byteSlice_eq_ok h).mp ht
    refine ⟨⟨front, t ++ back, rfl, rfl⟩, front ++ t, back, by rw [List.append_assoc], ?_⟩
    rw [byteLength_append, hlen]
    omega
  · rintro ⟨⟨front, rest, rfl, rfl⟩, hstop⟩
    have hrest : IsBoundary (stop - byteLength front) rest := by
      refine (@isBoundary_append _ front rest).mp ?_
      rwa [Nat.add_sub_cancel' h]
    obtain ⟨t, back, rfl, hlen⟩ := hrest
    exact ⟨t, (byteSlice_eq_ok h).mpr ⟨front, back, rfl, rfl, hlen⟩⟩

theorem byteSlice_error {s : List Char} {start stop : Nat} {e : Error}
    (h : byteSlice s start stop = .error e) : e = .panics := by
  rw [byteSlice] at h
  split at h
  · cases h
    rfl
  · split at h
    · split at h
      · cases h
      · cases h
        rfl
    · cases h
      rfl

/-- Where a field of a time stands, and its largest value. -/
structure TimeField where
  start : Nat
  stop : Nat
  max : Nat

/-- The fields of `YYYY-MM-DD+HH:MM:SS`. -/
def timeFields : List TimeField :=
  [⟨0, 4, 65535⟩, ⟨5, 7, 255⟩, ⟨8, 10, 255⟩, ⟨11, 13, 255⟩, ⟨14, 16, 255⟩, ⟨17, 19, 255⟩]

/-- There is a number in the field. -/
def ReadsField (s : List Char) (field : TimeField) : Prop :=
  ∃ front digits back, s = front ++ (digits ++ back) ∧ byteLength front = field.start
    ∧ byteLength digits = field.stop - field.start
    ∧ (parseUnsigned? field.max digits).isSome = true

/-- The ends of a field are boundaries, and so are those of the next field where there is a number
in this one. -/
def FieldsFit (s : List Char) : List TimeField → Prop
  | [] => True
  | field :: fields =>
      (IsBoundary field.start s ∧ IsBoundary field.stop s)
        ∧ (ReadsField s field → FieldsFit s fields)

/-- One field and what comes after it. -/
theorem timeField_total_iff {s : List Char} {start stop max : Nat} {msg : String} {β : Type}
    {next : Nat → Except Error β} {fields : List TimeField} (h : start ≤ stop)
    (hnext : ∀ n, next n ≠ .error .panics ↔ FieldsFit s fields) :
    (timeField s start stop max msg).bind next ≠ .error .panics
      ↔ FieldsFit s (⟨start, stop, max⟩ :: fields) := by
  rw [FieldsFit, ← byteSlice_fits_iff h, timeField]
  cases hslice : byteSlice s start stop with
  | error e =>
      obtain rfl := byteSlice_error hslice
      simp [bind, Except.bind]
  | ok digits =>
      have hfits : ∃ t, (.ok digits : Except Error (List Char)) = .ok t := ⟨digits, rfl⟩
      rw [and_iff_right hfits]
      simp only [bind, Except.bind]
      obtain ⟨front, back, hs, hlen, hlen'⟩ := (byteSlice_eq_ok h).mp hslice
      cases hread : parseUnsigned? max digits with
      | none =>
          refine iff_of_true (fun hpanics => by cases hpanics) ?_
          rintro ⟨front', digits', back', hs', hstart, hlength, hsome⟩
          have hsame := (byteSlice_eq_ok h).mpr ⟨front', back', hs', hstart, hlength⟩
          rw [hslice] at hsame
          cases hsame
          rw [hread] at hsome
          cases hsome
      | some n =>
          have hreads : ReadsField s ⟨start, stop, max⟩ :=
            ⟨front, digits, back, hs, hlen, hlen', by rw [hread]; rfl⟩
          dsimp only
          rw [hnext n]
          exact ⟨fun hfit _ => hfit, fun hfit => hfit hreads⟩

/-- The cuts of `parse_verification_time` fit: the text is too short for any, or each field up to
the first that is not a number stands between boundaries. -/
def TimeFits (s : String) : Prop :=
  byteLength (trim s.toList) < 19 ∨ FieldsFit (trim s.toList) timeFields

theorem parseVerificationTime_total_iff (lib : KeyLibs) (s : String) :
    parseVerificationTime lib s ≠ .error .panics ↔ TimeFits s := by
  rw [parseVerificationTime, TimeFits, utf8ByteSize_ofList]
  by_cases hshort : byteLength (trim s.toList) < 19
  · rw [if_pos hshort]
    exact iff_of_true (fun h => by cases h) (Or.inl hshort)
  · rw [if_neg hshort, or_iff_right hshort, timeFields]
    refine timeField_total_iff (by omega) fun year => ?_
    refine timeField_total_iff (by omega) fun month => ?_
    refine timeField_total_iff (by omega) fun day => ?_
    refine timeField_total_iff (by omega) fun hour => ?_
    refine timeField_total_iff (by omega) fun min => ?_
    refine timeField_total_iff (by omega) fun sec => ?_
    refine iff_of_true ?_ trivial
    split
    · exact fun h => by cases h
    · exact fun h => by cases h

/-! ## Octet strings -/

/-- The declared length and the data after it, for an OCTET STRING that comes first in a
SEQUENCE. -/
def DeclaresOctets (data : List UInt8) (octetLen : Nat) (octetContent : List UInt8) : Prop :=
  ∃ header seqLen rest, data = 0x30 :: header ∧ parseAsn1Length header = some (seqLen, 0x04 :: rest)
    ∧ parseAsn1Length rest = some (octetLen, octetContent)

/-- No OCTET STRING that comes first declares more than there is. -/
def OctetsFit (data : List UInt8) : Prop :=
  ∀ octetLen octetContent, DeclaresOctets data octetLen octetContent → octetLen ≤ octetContent.length

theorem extract_of_declares {data octetContent : List UInt8} {octetLen : Nat}
    (h : DeclaresOctets data octetLen octetContent) :
    extractFirstOctetString data = (orPanics (Slices.slice? octetContent 0 octetLen)).map some := by
  obtain ⟨header, seqLen, rest, rfl, hseq, hoctets⟩ := h
  rw [extractFirstOctetString, if_neg (by simp), hseq]
  dsimp only
  rw [if_neg (by simp), hoctets]

theorem extract_of_not {data : List UInt8}
    (h : ∀ octetLen octetContent, ¬ DeclaresOctets data octetLen octetContent) :
    extractFirstOctetString data = .ok none := by
  cases data with
  | nil => rfl
  | cons tag header =>
      rw [extractFirstOctetString]
      by_cases htag : tag = 0x30
      · rw [if_neg (not_not_intro htag)]
        rcases hseq : parseAsn1Length header with _ | ⟨seqLen, _ | ⟨tag', rest⟩⟩
        · rfl
        · rfl
        · dsimp only
          by_cases htag' : tag' = 0x04
          · rw [if_neg (not_not_intro htag')]
            rcases hoctets : parseAsn1Length rest with _ | ⟨octetLen, octetContent⟩
            · rfl
            · rw [htag'] at hseq
              exact absurd ⟨header, seqLen, rest, by rw [htag], hseq, hoctets⟩
                (h octetLen octetContent)
          · rw [if_pos htag']
      · rw [if_pos htag]

theorem extractFirstOctetString_total_iff (data : List UInt8) :
    extractFirstOctetString data ≠ .error .panics ↔ OctetsFit data := by
  rw [OctetsFit]
  by_cases hdeclares : ∃ octetLen octetContent, DeclaresOctets data octetLen octetContent
  · obtain ⟨octetLen, octetContent, hdata⟩ := hdeclares
    have hslice : extractFirstOctetString data ≠ .error .panics ↔ octetLen ≤ octetContent.length := by
      rw [extract_of_declares hdata]
      by_cases hfits : octetLen ≤ octetContent.length
      · rw [Slices.slice?_take hfits]
        exact iff_of_true (fun h => by cases h) hfits
      · rw [Slices.slice?_eq_none.mpr (Or.inr (by omega))]
        exact iff_of_false (fun h => h rfl) hfits
    rw [hslice]
    constructor
    · intro hfits octetLen' octetContent' hdata'
      obtain ⟨header, seqLen, rest, rfl, hseq, hoctets⟩ := hdata
      obtain ⟨header', seqLen', rest', heq, hseq', hoctets'⟩ := hdata'
      obtain ⟨-, rfl⟩ := List.cons.inj heq
      rw [hseq] at hseq'
      cases hseq'
      rw [hoctets] at hoctets'
      cases hoctets'
      exact hfits
    · intro hfits
      exact hfits octetLen octetContent hdata
  · have hnone : ∀ octetLen octetContent, ¬ DeclaresOctets data octetLen octetContent :=
      fun octetLen octetContent h => hdeclares ⟨octetLen, octetContent, h⟩
    rw [extract_of_not hnone]
    exact iff_of_true (fun h => by cases h)
      (fun octetLen octetContent h => absurd h (hnone octetLen octetContent))

/-! ## All of them -/

/-- **Where the decoders of texts and bytes are total.** For every input each of them returns
exactly where its cuts fit, and beside base64 only hexadecimal digits are accepted, except where a
plus passes for one. -/
theorem decoders_total_iff (lib : KeyLibs) :
    (∀ text, decodeCryptoBinary lib.toTransformLibs text ≠ none
        ↔ NumberFits lib.toTransformLibs text)
      ∧ (∀ text, (∀ bytes, lib.base64Decode (numberText text) ≠ .ok bytes) →
        ((∃ bytes, decodeCryptoBinary lib.toTransformLibs text = some (.ok bytes))
          ↔ LooksHex (numberText text) ∧ (numberText text).toList.length % 2 = 0))
      ∧ (∀ s, (hexDecode s ≠ .error .panics ∧ ((∃ bytes, hexDecode s = .ok bytes) ↔ HexText s))
        ↔ HexFits s)
      ∧ (∀ s, (hexDecodeStripPad s ≠ .error .panics
          ∧ ((∃ bytes, hexDecodeStripPad s = .ok bytes) ↔ HexText s)) ↔ HexFits s)
      ∧ (∀ s, parseVerificationTime lib s ≠ .error .panics ↔ TimeFits s)
      ∧ ∀ data, extractFirstOctetString data ≠ .error .panics ↔ OctetsFit data := by
  refine ⟨decodeCryptoBinary_total_iff _, fun _ => decodeCryptoBinary_hex_iff,
    hexDecode_total_iff, ?_,
    parseVerificationTime_total_iff lib, extractFirstOctetString_total_iff⟩
  intro s
  obtain ⟨hpanics, hok⟩ := hexDecodeStripPad_same s
  rw [ne_eq, hpanics, hok]
  exact hexDecode_total_iff s

/-- **Each of them fails somewhere**: a hexadecimal value and a time with a character of two bytes
across a cut, a plus sign read as a digit, an OCTET STRING longer than the data, and three
hexadecimal digits that are not base64. -/
theorem decoders_fail :
    hexDecode "aéb" = .error .panics
      ∧ (hexDecode "+5" = .ok ⟨#[5]⟩ ∧ ¬ HexText "+5")
      ∧ (∀ lib, parseVerificationTime lib "202é-01-01T00:00:00" = .error .panics)
      ∧ extractFirstOctetString [0x30, 0x03, 0x04, 0x05, 0x00] = .error .panics
      ∧ ∀ lib e, lib.base64Decode "abc" = .error e → decodeCryptoBinary lib "abc" = none := by
  refine ⟨rfl, ⟨rfl, ?_⟩, ?_, rfl, ?_⟩
  · intro h
    have hplus := h '+' (by decide)
    cases hplus
  · intro lib
    by_contra hne
    have htrim : trim "202é-01-01T00:00:00".toList = "202é-01-01T00:00:00".toList := by decide
    have hlen : ¬ byteLength "202é-01-01T00:00:00".toList < 19 := by decide
    rcases (parseVerificationTime_total_iff lib _).mp hne with hshort | hfit
    · rw [htrim] at hshort
      exact hlen hshort
    · rw [htrim] at hfit
      obtain ⟨⟨-, hfour⟩, -⟩ := hfit
      have hsplit : splitBytes 4 "202é-01-01T00:00:00".toList = none := by
        simp [splitBytes, Char.utf8Size]
      exact splitBytes_eq_none.mp hsplit hfour
  · intro lib e hb64
    have htext : numberText "abc" = "abc" := by decide
    have hhex : LooksHex "abc" := ⟨by decide, by decide⟩
    by_contra hne
    have hfits := (decodeCryptoBinary_total_iff lib "abc").mp hne
    rw [NumberFits, htext, hb64] at hfits
    rcases hfits with hempty | ⟨bytes, hbytes⟩ | ⟨-, heven⟩ | ⟨hnot, -⟩
    · exact absurd hempty (by decide)
    · cases hbytes
    · exact absurd heven (by decide)
    · exact hnot hhex

end Bergshamra
