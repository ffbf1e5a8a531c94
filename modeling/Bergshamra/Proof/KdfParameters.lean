import Bergshamra.Proof.OpaqueRoundTrip

/-!
# Parameters that are there

A parameter of a key derivation or of OAEP that stands in the document is meant
to be used or to be an error. The parsers drop one that does not decode, keep
the padding byte of a hexadecimal value that has no other, and look at one
element of a name. What is said here is said of every element of the name: each
has a value, and it is the value that was parsed.
-/

namespace Bergshamra

/-! ## Used and readable -/

section

variable {α β : Type}

/-- Everything that is present has a value, and this was parsed. -/
def Used (present : List α) (value? : α → Option β) (parsed : Option β) : Prop :=
  ∀ x ∈ present, ∃ v, value? x = some v ∧ parsed = some v

/-- Everything that is present has one value, and what is read has it in plain form. -/
def ReadAs (present : List α) (value? : α → Option β) (chosen : Option α) (plain : α → Prop) :
    Prop :=
  ∀ x ∈ present, ∃ v, value? x = some v
    ∧ ∃ x₀, chosen = some x₀ ∧ value? x₀ = some v ∧ plain x₀

/-- The same of numbers, where one that is not read is a default and the largest is `max`. -/
def ReadAsOr (present : List α) (value? : α → Option Nat) (chosen : Option α) (dflt max : Nat) :
    Prop :=
  ∀ x ∈ present, ∃ n, value? x = some n
    ∧ (chosen = none ∧ n = dflt ∨ ∃ x₀, chosen = some x₀ ∧ value? x₀ = some n ∧ n ≤ max)

variable {present : List α} {chosen : Option α}

theorem used_iff_readAs {value? read : α → Option β} {plain : α → Prop}
    (hchosen : ∀ x, chosen = some x → x ∈ present)
    (hread : ∀ x v, value? x = some v → (read x = some v ↔ plain x)) :
    Used present value? (chosen.bind read) ↔ ReadAs present value? chosen plain := by
  constructor
  · intro h x hx
    obtain ⟨v, hv, hparsed⟩ := h x hx
    obtain ⟨x₀, hx₀, hr⟩ := Option.bind_eq_some_iff.mp hparsed
    -- what is read is present itself, so it has the value that was parsed
    obtain ⟨v₀, hv₀, hparsed₀⟩ := h x₀ (hchosen x₀ hx₀)
    obtain rfl : v = v₀ := Option.some.inj (hparsed.symm.trans hparsed₀)
    exact ⟨v, hv, x₀, hx₀, hv₀, (hread x₀ v hv₀).mp hr⟩
  · intro h x hx
    obtain ⟨v, hv, x₀, hx₀, hv₀, hplain⟩ := h x hx
    refine ⟨v, hv, ?_⟩
    rw [hx₀]
    exact (hread x₀ v hv₀).mpr hplain

theorem used_iff_readAsOr {value? read : α → Option Nat} (dflt max : Nat)
    (hchosen : ∀ x, chosen = some x → x ∈ present)
    (hread : ∀ x n, value? x = some n → read x = if n ≤ max then some n else none)
    (hdflt : dflt ≤ max) :
    Used present value? (some ((chosen.bind read).getD dflt))
      ↔ ReadAsOr present value? chosen dflt max := by
  constructor
  · intro h x hx
    obtain ⟨n, hn, hparsed⟩ := h x hx
    refine ⟨n, hn, ?_⟩
    cases hc : chosen with
    | none =>
        rw [hc] at hparsed
        exact Or.inl ⟨rfl, (Option.some.inj hparsed).symm⟩
    | some x₀ =>
        obtain ⟨n₀, hn₀, hparsed₀⟩ := h x₀ (hchosen x₀ hc)
        obtain rfl : n = n₀ := Option.some.inj (hparsed.symm.trans hparsed₀)
        refine Or.inr ⟨x₀, rfl, hn₀, ?_⟩
        by_contra hbig
        -- a number that is too large gives way to the default, which is not
        rw [hc, Option.bind_some, hread x₀ n hn₀, if_neg hbig] at hparsed
        have : dflt = n := Option.some.inj hparsed
        omega
  · intro h x hx
    obtain ⟨n, hn, hcase⟩ := h x hx
    refine ⟨n, hn, ?_⟩
    rcases hcase with ⟨hc, hd⟩ | ⟨x₀, hc, hn₀, hle⟩
    · rw [hc, hd]
      rfl
    · rw [hc, Option.bind_some, hread x₀ n hn₀, if_pos hle]
      rfl

end

/-! ## Values -/

/-- The bytes of pairs of hexadecimal digits. -/
def hexOctets : List Char → Option (List UInt8)
  | [] => some []
  | [_] => none
  | c :: d :: s =>
      (hexDigit? c).bind (fun h => (hexDigit? d).bind (fun l =>
        (hexOctets s).map (fun bs => UInt8.ofNat (16 * h + l) :: bs)))

/-- The bytes of a text in hexadecimal; `0x` may stand first, and where the number of digits is odd
a zero is understood before them. -/
def hexText? (s : String) : Option (List UInt8) :=
  let t := Text.trim s.toList
  let digits := (Text.stripPrefix? "0x".toList t).getD t
  hexOctets (if digits.length % 2 ≠ 0 then '0' :: digits else digits)

/-- The value of a parameter of ConcatKDF: the bytes after the padding indicator. -/
def hexValue? (s : String) : Option ByteArray :=
  (hexText? s).map (fun bs => ⟨(bs.drop 1).toArray⟩)

/-- The bytes of a text in Base64. -/
def base64Value? (lib : TransformLibs) (n : Node) : Option ByteArray :=
  (lib.base64Decode (withoutWhitespace (trimmedText n))).toOption

/-- The number that digits stand for. -/
def digitsValue (digits : List Char) : Nat :=
  digits.foldl (fun n d => 10 * n + (d.toNat - '0'.toNat)) 0

def withoutPlus (s : List Char) : List Char :=
  match s with
  | '+' :: rest => rest
  | _ => s

/-- The value of a decimal numeral; a plus sign may stand first. -/
def decimal? (s : List Char) : Option Nat :=
  if withoutPlus s = [] ∨ !(withoutPlus s).all Char.isDigit then none
  else some (digitsValue (withoutPlus s))

def numberValue? (n : Node) : Option Nat := decimal? (trimmedText n).toList

theorem parseUnsigned?_of_decimal {s : List Char} {n : Nat} (h : decimal? s = some n)
    (max : Nat) : parseUnsigned? max s = if n ≤ max then some n else none := by
  have hparse : parseUnsigned? max s
      = if withoutPlus s = [] ∨ !(withoutPlus s).all Char.isDigit then none
        else if digitsValue (withoutPlus s) ≤ max then some (digitsValue (withoutPlus s))
        else none := rfl
  rw [decimal?] at h
  by_cases hdigits : withoutPlus s = [] ∨ !(withoutPlus s).all Char.isDigit
  · rw [if_pos hdigits] at h
    cases h
  · rw [if_neg hdigits] at h
    rw [hparse, if_neg hdigits, Option.some.inj h]

/-! ### Hexadecimal -/

theorem hexDigit?_ascii {c : Char} {h : Nat} (hd : hexDigit? c = some h) :
    c.toNat < 0x80 ∧ c ≠ '+' := by
  have hne : c ≠ '+' := by
    intro hc
    have hplus : hexDigit? '+' = none := by decide
    rw [hc, hplus] at hd
    cases hd
  refine ⟨?_, hne⟩
  unfold hexDigit? at hd
  split at hd
  next hdig =>
    have h9 : c.val ≤ '9'.val := by
      rw [Char.isDigit, Bool.and_eq_true, decide_eq_true_eq, decide_eq_true_eq] at hdig
      exact hdig.2
    rw [UInt32.le_iff_toNat_le] at h9
    have h9' : c.toNat ≤ 57 := h9
    omega
  next =>
    split at hd
    next hlow =>
      have : 'f'.toNat = 102 := rfl
      omega
    next =>
      split at hd
      next hup =>
        have : 'F'.toNat = 70 := rfl
        omega
      next => cases hd

theorem utf8Size_ascii {c : Char} (h : c.toNat < 0x80) : c.utf8Size = 1 := by
  have hlen := String.length_utf8EncodeChar c
  rw [Text.utf8EncodeChar_ascii h, List.length_singleton] at hlen
  exact hlen.symm

theorem hexPair?_eq {c d : Char} {h l : Nat} (hc : hexDigit? c = some h)
    (hd : hexDigit? d = some l) : hexPair? c d = some (UInt8.ofNat (16 * h + l)) := by
  rw [hexPair?, if_neg (hexDigit?_ascii hc).2, hc, hd]
  rfl

/-- Pairs of digits decode to their bytes. -/
theorem hexBytes_of_octets (e : Error) {s : List Char} {bs : List UInt8}
    (h : hexOctets s = some bs) : hexBytes e s = .ok bs := by
  induction s using hexOctets.induct generalizing bs with
  | case1 =>
      obtain rfl := Option.some.inj h
      rfl
  | case2 c => cases h
  | case3 c d s ih =>
      rw [hexOctets] at h
      obtain ⟨hi, hhi, h⟩ := Option.bind_eq_some_iff.mp h
      obtain ⟨lo, hlo, h⟩ := Option.bind_eq_some_iff.mp h
      obtain ⟨rest, hrest, rfl⟩ := Option.map_eq_some_iff.mp h
      have hc := utf8Size_ascii (hexDigit?_ascii hhi).1
      have hd := utf8Size_ascii (hexDigit?_ascii hlo).1
      rw [hexBytes, if_pos ⟨hc, hd⟩, hexPair?_eq hhi hlo, ih hrest]
      rfl

/-- Digits take one byte each. -/
theorem utf8Size_of_octets {s : List Char} {bs : List UInt8} (h : hexOctets s = some bs) :
    ∀ c ∈ s, c.utf8Size = 1 := by
  induction s using hexOctets.induct generalizing bs with
  | case1 => simp
  | case2 c => cases h
  | case3 c d s ih =>
      rw [hexOctets] at h
      obtain ⟨hi, hhi, h⟩ := Option.bind_eq_some_iff.mp h
      obtain ⟨lo, hlo, h⟩ := Option.bind_eq_some_iff.mp h
      obtain ⟨rest, hrest, -⟩ := Option.map_eq_some_iff.mp h
      intro x hx
      rcases List.mem_cons.mp hx with rfl | hx
      · exact utf8Size_ascii (hexDigit?_ascii hhi).1
      rcases List.mem_cons.mp hx with rfl | hx
      · exact utf8Size_ascii (hexDigit?_ascii hlo).1
      · exact ih hrest x hx

theorem byteLength_of_ascii {s : List Char} (h : ∀ c ∈ s, c.utf8Size = 1) :
    Text.byteLength s = s.length := by
  induction s with
  | nil => rfl
  | cons c s ih =>
      rw [Text.byteLength_cons, h c List.mem_cons_self,
        ih (fun d hd => h d (List.mem_cons_of_mem _ hd)), List.length_cons]
      omega

/-- A text in hexadecimal decodes to its bytes. -/
theorem hexDecode_of_text {s : String} {bs : List UInt8} (h : hexText? s = some bs) :
    hexDecode s = .ok ⟨bs.toArray⟩ := by
  unfold hexText? at h
  unfold hexDecode
  dsimp only at h ⊢
  generalize (Text.stripPrefix? "0x".toList (Text.trim s.toList)).getD (Text.trim s.toList)
    = digits at h ⊢
  have hlen : (String.ofList digits).utf8ByteSize = digits.length := by
    rw [Text.utf8ByteSize_ofList]
    refine byteLength_of_ascii fun c hc => ?_
    refine utf8Size_of_octets h c ?_
    split
    · exact List.mem_cons_of_mem _ hc
    · exact hc
  rw [hlen, hexBytes_of_octets _ h]
  rfl

/-- What the parser of a parameter gets of a text in hexadecimal. -/
theorem hexDecodeStripPad_of_text {s : String} {bs : List UInt8} (h : hexText? s = some bs) :
    hexDecodeStripPad s = .ok ⟨(if bs.length > 1 then bs.drop 1 else bs).toArray⟩ := by
  rw [hexDecodeStripPad, hexDecode_of_text h]
  simp only [bind, Except.bind]
  have hsize : (⟨bs.toArray⟩ : ByteArray).size = bs.length := by simp [ByteArray.size]
  rw [hsize]
  by_cases hlong : bs.length > 1
  · rw [if_pos hlong, if_pos hlong]
    refine congrArg Except.ok (ByteArray.ext ?_)
    rw [ByteArray.data_extract]
    simp
  · rw [if_neg hlong, if_neg hlong]

/-- A value is read as it is where it is not the padding indicator alone. -/
theorem hexDecodeStripPad_iff {s : String} {v : ByteArray} (h : hexValue? s = some v) :
    (attempt (hexDecodeStripPad s) = .ok (some v)
      ↔ ∀ bs, hexText? s = some bs → bs.length ≠ 1) := by
  obtain ⟨bs, hbs, rfl⟩ := Option.map_eq_some_iff.mp h
  rw [attempt_some, hexDecodeStripPad_of_text hbs, Except.ok.injEq, ByteArray.mk.injEq]
  have hplain : (∀ bs', hexText? s = some bs' → bs'.length ≠ 1) ↔ bs.length ≠ 1 := by
    refine ⟨fun h' => h' bs hbs, fun h' bs' hbs' => ?_⟩
    obtain rfl := Option.some.inj (hbs.symm.trans hbs')
    exact h'
  rw [hplain]
  rcases bs with _ | ⟨b, _ | ⟨c, rest⟩⟩
  · simp
  · simp
  · simp

/-! ## ConcatKDF -/

/-- A parser ends in an error, or in parameters of which something holds. -/
def Settles {α : Type} (r : Except Error α) (holds : α → Prop) : Prop :=
  (∃ e, e ≠ .panics ∧ r = .error e) ∨ ∃ a, r = .ok a ∧ holds a

section

variable (up : Uppsala) (kdMethod : Node)

/-- The texts of an attribute in every ConcatKDFParams. -/
def concatTexts (name : String) : List String :=
  (kdMethod.findChildElements Ns.ENC11 "ConcatKDFParams").filterMap
    (fun params => attributeOf up params name)

/-- The one that is read: that of the first element. -/
def concatText (name : String) : Option String :=
  (kdMethod.findChildElement Ns.ENC11 "ConcatKDFParams").bind
    (fun params => attributeOf up params name)

/-- Every attribute of ConcatKDF that is present was parsed to its value. -/
structure ConcatUsed (params : ConcatKdfParams) : Prop where
  algorithmId : Used (concatTexts up kdMethod "AlgorithmID") hexValue? params.algorithmId
  partyUInfo : Used (concatTexts up kdMethod "PartyUInfo") hexValue? params.partyUInfo
  partyVInfo : Used (concatTexts up kdMethod "PartyVInfo") hexValue? params.partyVInfo

/-- The text has more than the padding indicator, or nothing at all. -/
def MoreThanIndicator (s : String) : Prop := ∀ bs, hexText? s = some bs → bs.length ≠ 1

/-- Every attribute is in hexadecimal, with a byte after the padding indicator. -/
def ConcatReadable : Prop :=
  ∀ name ∈ ["AlgorithmID", "PartyUInfo", "PartyVInfo"],
    ReadAs (concatTexts up kdMethod name) hexValue? (concatText up kdMethod name)
      MoreThanIndicator

end

theorem mem_findChildElements {n c : Node} {nsUri localName : String}
    (h : n.findChildElement nsUri localName = some c) :
    c ∈ n.findChildElements nsUri localName :=
  List.mem_filter.mpr ⟨List.mem_of_find?_eq_some h,
    List.find?_some (p := fun c : Node => c.isNamed nsUri localName) h⟩

/-- What an attribute in hexadecimal is read as, where that is no fault. -/
def readHex (s : String) : Option ByteArray :=
  match attempt (hexDecodeStripPad s) with
  | .ok v => v
  | .error _ => none

theorem readHex_iff {s : String} {v : ByteArray} (h : hexValue? s = some v) :
    readHex s = some v ↔ MoreThanIndicator s := by
  refine Iff.trans ?_ (hexDecodeStripPad_iff h)
  unfold readHex
  cases attempt (hexDecodeStripPad s) with
  | ok o => simp
  | error e => simp

variable {up : Uppsala} {kdMethod : Node}

theorem concatText_mem {name : String} (s : String)
    (h : concatText up kdMethod name = some s) : s ∈ concatTexts up kdMethod name := by
  obtain ⟨params, hp, hs⟩ := Option.bind_eq_some_iff.mp h
  exact List.mem_filterMap.mpr ⟨params, mem_findChildElements hp, hs⟩

theorem hexAttribute_ok {n : Node} {name : String} {o : Option ByteArray}
    (h : hexAttribute up n name = .ok o) : o = (attributeOf up n name).bind readHex := by
  unfold hexAttribute at h
  cases hs : attributeOf up n name with
  | none =>
      rw [hs] at h
      exact (Except.ok.inj h).symm
  | some s =>
      rw [hs] at h
      dsimp only at h
      unfold readHex
      rw [Option.bind_some, h]

theorem hexAttribute_error {n : Node} {name : String} {e : Error}
    (h : hexAttribute up n name = .error e) : e = .panics := by
  unfold hexAttribute at h
  cases hs : attributeOf up n name with
  | none =>
      rw [hs] at h
      cases h
  | some s =>
      rw [hs] at h
      dsimp only at h
      cases hdec : hexDecodeStripPad s with
      | ok v =>
          rw [hdec] at h
          cases h
      | error e' =>
          rw [hdec] at h
          cases e' <;> cases h
          rfl

/-- An attribute in hexadecimal is no fault. -/
theorem hexAttribute_total {n : Node} {name : String}
    (h : ∀ s, attributeOf up n name = some s → ∃ v, hexValue? s = some v) :
    ∃ o, hexAttribute up n name = .ok o := by
  cases hres : hexAttribute up n name with
  | ok o => exact ⟨o, rfl⟩
  | error e =>
      obtain rfl := hexAttribute_error hres
      unfold hexAttribute at hres
      cases hs : attributeOf up n name with
      | none =>
          rw [hs] at hres
          cases hres
      | some s =>
          obtain ⟨v, hv⟩ := h s hs
          obtain ⟨bs, hbs, -⟩ := Option.map_eq_some_iff.mp hv
          rw [hs] at hres
          dsimp only at hres
          rw [hexDecodeStripPad_of_text hbs] at hres
          cases hres

/-- The fields are what the attributes of the first element are read as. -/
theorem parseConcatKdfParams_ok {p : ConcatKdfParams}
    (h : parseConcatKdfParams up kdMethod = .ok p) :
    p.algorithmId = (concatText up kdMethod "AlgorithmID").bind readHex
      ∧ p.partyUInfo = (concatText up kdMethod "PartyUInfo").bind readHex
      ∧ p.partyVInfo = (concatText up kdMethod "PartyVInfo").bind readHex := by
  unfold parseConcatKdfParams at h
  unfold concatText
  cases hc : kdMethod.findChildElement Ns.ENC11 "ConcatKDFParams" with
  | none =>
      rw [hc] at h
      obtain rfl := Except.ok.inj h
      exact ⟨rfl, rfl, rfl⟩
  | some c =>
      rw [hc] at h
      dsimp only at h
      obtain ⟨a, ha, h⟩ := bind_eq_ok.mp h
      obtain ⟨u, hu, h⟩ := bind_eq_ok.mp h
      obtain ⟨v, hv, h⟩ := bind_eq_ok.mp h
      obtain rfl := Except.ok.inj h
      exact ⟨hexAttribute_ok ha, hexAttribute_ok hu, hexAttribute_ok hv⟩

/-- The only error is a fault. -/
theorem parseConcatKdfParams_error {e : Error}
    (h : parseConcatKdfParams up kdMethod = .error e) : e = .panics := by
  unfold parseConcatKdfParams at h
  cases hc : kdMethod.findChildElement Ns.ENC11 "ConcatKDFParams" with
  | none =>
      rw [hc] at h
      cases h
  | some c =>
      rw [hc] at h
      simp only [bind, Except.bind] at h
      cases ha : hexAttribute up c "AlgorithmID" with
      | error e' =>
          rw [ha] at h
          exact (Except.error.inj h) ▸ hexAttribute_error ha
      | ok a =>
          rw [ha] at h
          cases hu : hexAttribute up c "PartyUInfo" with
          | error e' =>
              rw [hu] at h
              exact (Except.error.inj h) ▸ hexAttribute_error hu
          | ok u =>
              rw [hu] at h
              cases hv : hexAttribute up c "PartyVInfo" with
              | error e' =>
                  rw [hv] at h
                  exact (Except.error.inj h) ▸ hexAttribute_error hv
              | ok v =>
                  rw [hv] at h
                  cases h

theorem parseConcatKdfParams_total (h : ConcatReadable up kdMethod) :
    ∃ p, parseConcatKdfParams up kdMethod = .ok p := by
  unfold parseConcatKdfParams
  cases hc : kdMethod.findChildElement Ns.ENC11 "ConcatKDFParams" with
  | none => exact ⟨_, rfl⟩
  | some c =>
      have hattr : ∀ name ∈ ["AlgorithmID", "PartyUInfo", "PartyVInfo"],
          ∃ o, hexAttribute up c name = .ok o := by
        intro name hname
        refine hexAttribute_total fun s hs => ?_
        have hmem : s ∈ concatTexts up kdMethod name :=
          List.mem_filterMap.mpr ⟨c, mem_findChildElements hc, hs⟩
        obtain ⟨v, hv, -⟩ := h name hname s hmem
        exact ⟨v, hv⟩
      obtain ⟨a, ha⟩ := hattr "AlgorithmID" (by simp)
      obtain ⟨u, hu⟩ := hattr "PartyUInfo" (by simp)
      obtain ⟨v, hv⟩ := hattr "PartyVInfo" (by simp)
      simp only [bind, Except.bind, ha, hu, hv]
      exact ⟨_, rfl⟩

/-- **ConcatKDF.** -/
theorem concatUsed_iff :
    Settles (parseConcatKdfParams up kdMethod) (ConcatUsed up kdMethod)
      ↔ ConcatReadable up kdMethod := by
  have hused : ∀ name, Used (concatTexts up kdMethod name) hexValue?
      ((concatText up kdMethod name).bind readHex)
        ↔ ReadAs (concatTexts up kdMethod name) hexValue? (concatText up kdMethod name)
          MoreThanIndicator :=
    fun name => used_iff_readAs concatText_mem (fun _ _ => readHex_iff)
  constructor
  · intro h
    rcases h with ⟨e, hne, he⟩ | ⟨p, hp, hfields⟩
    · exact absurd (parseConcatKdfParams_error he) hne
    · obtain ⟨ha, hu, hv⟩ := parseConcatKdfParams_ok hp
      intro name hname
      rw [← hused name]
      rcases List.mem_cons.mp hname with rfl | hname
      · exact ha ▸ hfields.algorithmId
      rcases List.mem_cons.mp hname with rfl | hname
      · exact hu ▸ hfields.partyUInfo
      · obtain rfl := List.mem_singleton.mp hname
        exact hv ▸ hfields.partyVInfo
  · intro h
    obtain ⟨p, hp⟩ := parseConcatKdfParams_total h
    obtain ⟨ha, hu, hv⟩ := parseConcatKdfParams_ok hp
    refine Or.inr ⟨p, hp, ?_, ?_, ?_⟩
    · rw [ha, hused]
      exact h _ (by simp)
    · rw [hu, hused]
      exact h _ (by simp)
    · rw [hv, hused]
      exact h _ (by simp)

/-! ## PBKDF2 -/

variable {lib : EncLibs}

section

variable (lib : EncLibs) (kdMethod : Node)

/-- The KeyLength elements of every PBKDF2-params. -/
def pbkdf2KeyLengths : List Node :=
  (kdMethod.findChildElements Ns.ENC11 "PBKDF2-params").flatMap
    (fun params => params.findChildElements Ns.ENC11 "KeyLength")

/-- The one that is read: the first of the first. -/
def pbkdf2KeyLength : Option Node :=
  (kdMethod.findChildElement Ns.ENC11 "PBKDF2-params").bind
    (fun params => params.findChildElement Ns.ENC11 "KeyLength")

/-- What PBKDF2 cannot do without is there and in order. -/
structure Pbkdf2Complete (params : Node) : Prop where
  salt : ∃ bytes, pbkdf2Salt lib params = .ok bytes
  iterations : ∃ n, params.findChildElement Ns.ENC11 "IterationCount" = some n
    ∧ (parseUnsigned? (2 ^ 32 - 1) (trimmedText n).toList).isSome = true
  prf : ∃ n, params.findChildElement Ns.ENC11 "PRF" = some n
    ∧ (attributeOf lib.toUppsala n "Algorithm").isSome = true

/-- Every KeyLength that is present was parsed to its value. -/
def Pbkdf2Used (params : Pbkdf2Params) : Prop :=
  Used (pbkdf2KeyLengths kdMethod) numberValue? (some params.keyLength)

/-- Something that is required is missing or not in order, or every KeyLength is a numeral in
range. -/
def Pbkdf2Readable (dflt : Nat) : Prop :=
  (∀ params, kdMethod.findChildElement Ns.ENC11 "PBKDF2-params" = some params →
      ¬ Pbkdf2Complete lib params)
    ∨ ReadAsOr (pbkdf2KeyLengths kdMethod) numberValue? (pbkdf2KeyLength kdMethod) dflt
      (2 ^ 64 - 1)

end

theorem pbkdf2Salt_error {params : Node} {e : Error} (h : pbkdf2Salt lib params = .error e) :
    e ≠ .panics := by
  unfold pbkdf2Salt at h
  intro he
  subst he
  simp only [bind, Except.bind, required] at h
  cases hs : params.findChildElement Ns.ENC11 "Salt" with
  | none =>
      rw [hs] at h
      cases h
  | some salt =>
      rw [hs] at h
      dsimp only at h
      cases hsp : salt.findChildElement Ns.ENC11 "Specified" with
      | none =>
          rw [hsp] at h
          cases h
      | some specified =>
          rw [hsp] at h
          dsimp only at h
          cases hb : lib.base64Decode (withoutWhitespace (trimmedText specified)) with
          | ok bytes =>
              rw [hb] at h
              cases h
          | error e =>
              rw [hb] at h
              cases h

/-- `parse` of the text of an element. -/
def readNumber (max : Nat) (n : Node) : Option Nat := parseUnsigned? max (trimmedText n).toList

theorem readNumber_eq {max : Nat} (n : Node) (k : Nat) (h : numberValue? n = some k) :
    readNumber max n = if k ≤ max then some k else none := parseUnsigned?_of_decimal h max

theorem parsePbkdf2Params_complete {params : Node} (dflt : Nat)
    (hparams : kdMethod.findChildElement Ns.ENC11 "PBKDF2-params" = some params)
    (h : Pbkdf2Complete lib params) :
    ∃ p, parsePbkdf2Params lib kdMethod dflt = .ok p
      ∧ p.keyLength
        = ((pbkdf2KeyLength kdMethod).bind (readNumber (2 ^ 64 - 1))).getD dflt := by
  obtain ⟨bytes, hsalt⟩ := h.salt
  obtain ⟨iter, hiter, hn⟩ := h.iterations
  obtain ⟨n, hn⟩ := Option.isSome_iff_exists.mp hn
  obtain ⟨prf, hprf, huri⟩ := h.prf
  obtain ⟨uri, huri⟩ := Option.isSome_iff_exists.mp huri
  rw [pbkdf2KeyLength, hparams, Option.bind_some]
  simp only [parsePbkdf2Params, required, bind, Except.bind, hparams, hsalt, hiter, hn, hprf, huri]
  refine ⟨_, rfl, ?_⟩
  cases params.findChildElement Ns.ENC11 "KeyLength" with
  | none => rw [Option.bind_none, Option.getD_none]
  | some kl => rw [Option.bind_some, readNumber]

theorem parsePbkdf2Params_incomplete {params : Node} (dflt : Nat)
    (hparams : kdMethod.findChildElement Ns.ENC11 "PBKDF2-params" = some params)
    (h : ¬ Pbkdf2Complete lib params) :
    ∃ e, e ≠ .panics ∧ parsePbkdf2Params lib kdMethod dflt = .error e := by
  simp only [parsePbkdf2Params, required, bind, Except.bind, hparams]
  cases hsalt : pbkdf2Salt lib params with
  | error e => exact ⟨e, pbkdf2Salt_error hsalt, rfl⟩
  | ok bytes =>
      cases hiter : params.findChildElement Ns.ENC11 "IterationCount" with
      | none => exact ⟨_, by simp, rfl⟩
      | some iter =>
          dsimp only
          cases hn : parseUnsigned? (2 ^ 32 - 1) (trimmedText iter).toList with
          | none => exact ⟨_, by simp, rfl⟩
          | some n =>
              dsimp only
              cases hprf : params.findChildElement Ns.ENC11 "PRF" with
              | none => exact ⟨_, by simp, rfl⟩
              | some prf =>
                  dsimp only
                  cases huri : attributeOf lib.toUppsala prf "Algorithm" with
                  | none => exact ⟨_, by simp, rfl⟩
                  | some uri =>
                      exact absurd ⟨⟨bytes, hsalt⟩, ⟨iter, hiter, by rw [hn]; rfl⟩,
                        ⟨prf, hprf, by rw [huri]; rfl⟩⟩ h

theorem pbkdf2KeyLength_mem (n : Node) (h : pbkdf2KeyLength kdMethod = some n) :
    n ∈ pbkdf2KeyLengths kdMethod := by
  obtain ⟨params, hp, hn⟩ := Option.bind_eq_some_iff.mp h
  exact List.mem_flatMap.mpr ⟨params, mem_findChildElements hp, mem_findChildElements hn⟩

/-- **PBKDF2.** -/
theorem pbkdf2Used_iff {dflt : Nat} (hdflt : dflt < 2 ^ 64) :
    Settles (parsePbkdf2Params lib kdMethod dflt) (Pbkdf2Used kdMethod)
      ↔ Pbkdf2Readable lib kdMethod dflt := by
  have hused := used_iff_readAsOr dflt (2 ^ 64 - 1)
    (@pbkdf2KeyLength_mem kdMethod) (@readNumber_eq (2 ^ 64 - 1)) (by omega)
  cases hc : kdMethod.findChildElement Ns.ENC11 "PBKDF2-params" with
  | none =>
      refine ⟨fun _ => Or.inl fun params hp => ?_,
        fun _ => Or.inl ⟨.missingElement "PBKDF2-params", by simp, ?_⟩⟩
      · rw [hc] at hp
        cases hp
      · simp only [parsePbkdf2Params, required, bind, Except.bind, hc]
  | some params =>
      by_cases hcomplete : Pbkdf2Complete lib params
      · obtain ⟨p, hp, hlen⟩ := parsePbkdf2Params_complete dflt hc hcomplete
        have hsettled : Settles (parsePbkdf2Params lib kdMethod dflt) (Pbkdf2Used kdMethod)
            ↔ Pbkdf2Used kdMethod p := by
          rw [hp]
          refine ⟨fun h => ?_, fun h => Or.inr ⟨p, rfl, h⟩⟩
          rcases h with ⟨e, -, he⟩ | ⟨p', hp', hu⟩
          · cases he
          · exact Except.ok.inj hp' ▸ hu
        rw [hsettled, Pbkdf2Used, hlen, hused]
        refine ⟨Or.inr, fun h => ?_⟩
        rcases h with hno | hread
        · exact absurd hcomplete (hno params hc)
        · exact hread
      · refine ⟨fun _ => Or.inl fun params' hp => ?_,
          fun _ => Or.inl (parsePbkdf2Params_incomplete dflt hc hcomplete)⟩
        exact Option.some.inj (hc.symm.trans hp) ▸ hcomplete

/-! ## HKDF -/

/-- The child elements with a local name, in any namespace. -/
def childrenNamed (n : Node) (localName : String) : List Node :=
  n.children.filter (fun c : Node => c.element?.any (fun e => e.name.localName == localName))

section

variable (lib : EncLibs) (kdMethod : Node)

/-- The elements of a name in every HKDFParams. -/
def hkdfElements (localName : String) : List Node :=
  (childrenNamed kdMethod "HKDFParams").flatMap (fun params => childrenNamed params localName)

/-- The one that is read. -/
def hkdfElement (localName : String) : Option Node :=
  (hkdfChild kdMethod "HKDFParams").bind (fun params => hkdfChild params localName)

/-- The value of a Salt: that of its one Specified. -/
def saltValue? (salt : Node) : Option ByteArray :=
  match childrenNamed salt "Specified" with
  | [specified] => base64Value? lib.toTransformLibs specified
  | _ => none

/-- Every Salt, Info and KeyLength that is present was parsed to its value. -/
structure HkdfUsed (params : HkdfParams) : Prop where
  salt : Used (hkdfElements kdMethod "Salt") (saltValue? lib) params.salt
  info : Used (hkdfElements kdMethod "Info") (base64Value? lib.toTransformLibs) params.info
  keyLength : Used (hkdfElements kdMethod "KeyLength") numberValue? (some params.keyLengthBits)

/-- The text is not empty. -/
def NonBlank (n : Node) : Prop := trimmedText n ≠ ""

/-- Every Salt and Info decodes and is not empty, and every KeyLength is a numeral in range. -/
structure HkdfReadable (dflt : Nat) : Prop where
  salt : ReadAs (hkdfElements kdMethod "Salt") (saltValue? lib) (hkdfElement kdMethod "Salt")
    (fun salt => ∀ specified ∈ childrenNamed salt "Specified", NonBlank specified)
  info : ReadAs (hkdfElements kdMethod "Info") (base64Value? lib.toTransformLibs)
    (hkdfElement kdMethod "Info") NonBlank
  keyLength : ReadAsOr (hkdfElements kdMethod "KeyLength") numberValue?
    (hkdfElement kdMethod "KeyLength") (dflt * 8 % 2 ^ 32) (2 ^ 32 - 1)

end

theorem mem_childrenNamed {n c : Node} {localName : String} (h : hkdfChild n localName = some c) :
    c ∈ childrenNamed n localName := by
  refine List.mem_filter.mpr ?_
  rcases Option.or_eq_some_iff.mp h with h | ⟨-, h⟩
  · have hname := List.find?_some (p := fun c : Node => c.isNamed Ns.DSIG_MORE localName) h
    refine ⟨List.mem_of_find?_eq_some h, ?_⟩
    obtain ⟨e, he, hn⟩ := Node.isNamed_iff.mp hname
    rw [he, Option.any_some]
    simp only [Element.isNamed, Bool.and_eq_true] at hn
    exact hn.1
  · rw [findChildElementAnyNs] at h
    exact ⟨List.mem_of_find?_eq_some h, List.find?_some
      (p := fun c : Node => c.element?.any (fun e => e.name.localName == localName)) h⟩

theorem childrenNamed_eq_nil {n : Node} {localName : String} (h : hkdfChild n localName = none) :
    childrenNamed n localName = [] := by
  have hany := (Option.or_eq_none_iff.mp h).2
  rw [findChildElementAnyNs, List.find?_eq_none] at hany
  exact List.filter_eq_nil_iff.mpr hany

theorem hkdfElement_mem {localName : String} (n : Node)
    (h : hkdfElement kdMethod localName = some n) : n ∈ hkdfElements kdMethod localName := by
  obtain ⟨params, hp, hn⟩ := Option.bind_eq_some_iff.mp h
  exact List.mem_flatMap.mpr ⟨params, mem_childrenNamed hp, mem_childrenNamed hn⟩

theorem hkdfBytes_iff (n : Node) (v : ByteArray)
    (h : base64Value? lib.toTransformLibs n = some v) :
    hkdfBytes lib n = some v ↔ NonBlank n := by
  unfold hkdfBytes NonBlank
  by_cases hblank : trimmedText n = ""
  · simp [hblank]
  · rw [if_neg hblank]
    exact iff_of_true h hblank

theorem saltBytes_iff (salt : Node) (v : ByteArray) (h : saltValue? lib salt = some v) :
    (hkdfChild salt "Specified").bind (hkdfBytes lib) = some v
      ↔ ∀ specified ∈ childrenNamed salt "Specified", NonBlank specified := by
  unfold saltValue? at h
  split at h
  next specified hone =>
    have hchild : hkdfChild salt "Specified" = some specified := by
      cases hc : hkdfChild salt "Specified" with
      | none =>
          rw [childrenNamed_eq_nil hc] at hone
          cases hone
      | some c =>
          have hmem := mem_childrenNamed hc
          rw [hone] at hmem
          rw [List.mem_singleton.mp hmem]
    rw [hchild, Option.bind_some, hkdfBytes_iff specified v h, hone]
    simp
  next => cases h

/-- **HKDF.** -/
theorem hkdfUsed_iff (dflt : Nat) :
    Settles (parseHkdfParams lib kdMethod dflt) (HkdfUsed lib kdMethod)
      ↔ HkdfReadable lib kdMethod dflt := by
  have hsalt := used_iff_readAs (@hkdfElement_mem kdMethod "Salt") (@saltBytes_iff lib)
  have hinfo := used_iff_readAs (@hkdfElement_mem kdMethod "Info") (@hkdfBytes_iff lib)
  have hlen := used_iff_readAsOr (dflt * 8 % 2 ^ 32) (2 ^ 32 - 1)
    (@hkdfElement_mem kdMethod "KeyLength") (@readNumber_eq (2 ^ 32 - 1)) (by omega)
  cases hc : hkdfChild kdMethod "HKDFParams" with
  | none =>
      -- without parameters there is nothing to use, and the reader refuses
      have hnone : ∀ name, hkdfElements kdMethod name = [] := by
        intro name
        rw [hkdfElements, childrenNamed_eq_nil hc, List.flatMap_nil]
      refine ⟨fun _ => ⟨?_, ?_, ?_⟩, fun _ => Or.inl ⟨.missingElement "HKDFParams", by simp, ?_⟩⟩
      · intro x hx
        rw [hnone] at hx
        cases hx
      · intro x hx
        rw [hnone] at hx
        cases hx
      · intro x hx
        rw [hnone] at hx
        cases hx
      · simp only [parseHkdfParams, required, bind, Except.bind, hc]
  | some params =>
      have hel : ∀ name, hkdfElement kdMethod name = hkdfChild params name := by
        intro name
        rw [hkdfElement, hc, Option.bind_some]
      have hparse : ∃ p, parseHkdfParams lib kdMethod dflt = .ok p
          ∧ p.salt = (hkdfElement kdMethod "Salt").bind
            (fun salt => (hkdfChild salt "Specified").bind (hkdfBytes lib))
          ∧ p.info = (hkdfElement kdMethod "Info").bind (hkdfBytes lib)
          ∧ p.keyLengthBits = ((hkdfElement kdMethod "KeyLength").bind
            (readNumber (2 ^ 32 - 1))).getD (dflt * 8 % 2 ^ 32) := by
        simp only [parseHkdfParams, required, bind, Except.bind, hc, hel]
        exact ⟨_, rfl, Option.bind_assoc _ _ _, rfl, rfl⟩
      obtain ⟨p, hp, hps, hpi, hpl⟩ := hparse
      rw [hp]
      constructor
      · intro h
        rcases h with ⟨e, -, he⟩ | ⟨p', hp', hu⟩
        · cases he
        · obtain rfl := Except.ok.inj hp'
          exact ⟨hsalt.mp (hps ▸ hu.salt), hinfo.mp (hpi ▸ hu.info), hlen.mp (hpl ▸ hu.keyLength)⟩
      · intro h
        exact Or.inr ⟨p, rfl, hps ▸ hsalt.mpr h.salt, hpi ▸ hinfo.mpr h.info,
          hpl ▸ hlen.mpr h.keyLength⟩

/-! ## OAEP -/

section

variable (lib : TransformLibs) (encMethod : Node)

/-- What an OAEPparams element sets. -/
def readOaep (n : Node) : Option ByteArray :=
  if withoutWhitespace (trimmedText n) = "" then none else base64Value? lib n

/-- Every OAEPparams that is present was read as its value. -/
def OaepUsed : Prop :=
  Used (childrenNamed encMethod "OAEPparams") (base64Value? lib)
    (encReadOaepParams lib encMethod).oaepParams

/-- All OAEPparams have one value, and one of them is not blank. -/
def OaepReadable : Prop :=
  ∀ x ∈ childrenNamed encMethod "OAEPparams", ∃ v,
    (∀ y ∈ childrenNamed encMethod "OAEPparams", base64Value? lib y = some v)
      ∧ ∃ y ∈ childrenNamed encMethod "OAEPparams", withoutWhitespace (trimmedText y) ≠ ""

end

variable {tlib : TransformLibs}

theorem encOaepParam_other {params : OaepParams} {c : Node}
    (h : c.element?.any (fun e => e.name.localName == "OAEPparams") = false) :
    (encOaepParam tlib params c).oaepParams = params.oaepParams := by
  unfold encOaepParam
  split
  next => rfl
  next e he =>
    have hname : ¬ e.name.localName = "OAEPparams" := by
      intro hn
      rw [he, Option.any_some, hn] at h
      cases h
    dsimp only
    rw [if_neg hname]
    split
    · rfl
    · split
      · rfl
      · rfl

theorem encOaepParam_oaep {params : OaepParams} {c : Node}
    (h : c.element?.any (fun e => e.name.localName == "OAEPparams") = true) :
    (encOaepParam tlib params c).oaepParams = (readOaep tlib c).or params.oaepParams := by
  cases he : c.element? with
  | none =>
      rw [he] at h
      cases h
  | some e =>
      rw [he, Option.any_some, beq_iff_eq] at h
      have hother : ∀ nsUri localName, localName ≠ "OAEPparams" →
          e.isNamed nsUri localName = false := by
        intro nsUri localName hne
        rw [Element.isNamed, h, beq_eq_false_iff_ne.mpr (Ne.symm hne), Bool.false_and]
      simp only [encOaepParam, he, hother _ "DigestMethod" (by decide),
        hother _ "MGF" (by decide), Bool.or_self, Bool.false_eq_true, if_false, h, if_true]
      unfold readOaep base64Value?
      by_cases hblank : withoutWhitespace (trimmedText c) = ""
      · rw [if_pos hblank, if_pos hblank, Option.none_or]
      · rw [if_neg hblank, if_neg hblank]
        cases tlib.base64Decode (withoutWhitespace (trimmedText c)) with
        | ok bytes => rfl
        | error e => rfl

/-- The last element that decodes is the one that is used. -/
theorem foldl_encOaepParam (children : List Node) (params : OaepParams) :
    (children.foldl (encOaepParam tlib) params).oaepParams
      = ((children.filter (fun c : Node =>
          c.element?.any (fun e => e.name.localName == "OAEPparams"))).filterMap
            (readOaep tlib)).getLast?.or params.oaepParams := by
  induction children generalizing params with
  | nil => rfl
  | cons c cs ih =>
      rw [List.foldl_cons, ih]
      cases hc : c.element?.any (fun e => e.name.localName == "OAEPparams") with
      | false => rw [encOaepParam_other hc, List.filter_cons_of_neg (by simp [hc])]
      | true =>
          rw [encOaepParam_oaep hc, List.filter_cons, hc, if_pos rfl, List.filterMap_cons]
          cases readOaep tlib c with
          | none => rfl
          | some v =>
              rw [List.getLast?_cons]
              generalize List.getLast? _ = last
              cases last with
              | none => rfl
              | some w => rfl

/-- **OAEP.** -/
theorem oaepUsed_iff (encMethod : Node) :
    OaepUsed tlib encMethod ↔ OaepReadable tlib encMethod := by
  have hparsed : (encReadOaepParams tlib encMethod).oaepParams
      = ((childrenNamed encMethod "OAEPparams").filterMap (readOaep tlib)).getLast? := by
    rw [encReadOaepParams, foldl_encOaepParam, Option.or_none]
    rfl
  have hread : ∀ n v, readOaep tlib n = some v →
      base64Value? tlib n = some v ∧ withoutWhitespace (trimmedText n) ≠ "" := by
    intro n v h
    unfold readOaep at h
    split at h
    next => cases h
    next hne => exact ⟨h, hne⟩
  constructor
  · intro h x hx
    obtain ⟨v, -, hp⟩ := h x hx
    refine ⟨v, fun y hy => ?_, ?_⟩
    · obtain ⟨w, hw, hp'⟩ := h y hy
      rw [hw, ← hp, ← hp']
    · rw [hparsed] at hp
      obtain ⟨y, hy, hr⟩ := List.mem_filterMap.mp (List.mem_of_getLast? hp)
      exact ⟨y, hy, (hread y v hr).2⟩
  · intro h x hx
    obtain ⟨v, hall, y, hy, hne⟩ := h x hx
    refine ⟨v, hall x hx, ?_⟩
    have hr : readOaep tlib y = some v := by
      rw [readOaep, if_neg hne]
      exact hall y hy
    have hmem : v ∈ (childrenNamed encMethod "OAEPparams").filterMap (readOaep tlib) :=
      List.mem_filterMap.mpr ⟨y, hy, hr⟩
    rw [hparsed]
    cases hlast : ((childrenNamed encMethod "OAEPparams").filterMap (readOaep tlib)).getLast? with
    | none =>
        rw [List.getLast?_eq_none_iff] at hlast
        rw [hlast] at hmem
        cases hmem
    | some w =>
        obtain ⟨z, hz, hrz⟩ := List.mem_filterMap.mp (List.mem_of_getLast? hlast)
        rw [← (hread z w hrz).1, hall z hz]

/-! ## All parameters -/

/-- **A parameter that is there is used, or an error, exactly where it can be read.** -/
theorem parameters_used_iff (lib : EncLibs) (kdMethod encMethod : Node) (dflt : Nat)
    (hdflt : dflt < 2 ^ 64) :
    (Settles (parseConcatKdfParams lib.toUppsala kdMethod) (ConcatUsed lib.toUppsala kdMethod)
        ↔ ConcatReadable lib.toUppsala kdMethod)
      ∧ (Settles (parsePbkdf2Params lib kdMethod dflt) (Pbkdf2Used kdMethod)
        ↔ Pbkdf2Readable lib kdMethod dflt)
      ∧ (Settles (parseHkdfParams lib kdMethod dflt) (HkdfUsed lib kdMethod)
        ↔ HkdfReadable lib kdMethod dflt)
      ∧ (OaepUsed lib.toTransformLibs encMethod ↔ OaepReadable lib.toTransformLibs encMethod) :=
  ⟨concatUsed_iff, pbkdf2Used_iff hdflt, hkdfUsed_iff dflt, oaepUsed_iff encMethod⟩

namespace SampleParameters

/-- Libraries that decode one text in Base64. -/
abbrev decoding : EncLibs := SampleOpaque.libs .empty ⟨#[1, 2]⟩ "AQI="

def concatParams (algorithmId : String) : Element :=
  ⟨⟨none, "ConcatKDFParams", some Ns.ENC11⟩, [Sample.attr "AlgorithmID" algorithmId], []⟩

/-- A KeyDerivationMethod around `<ConcatKDFParams AlgorithmID="…"/>`. -/
def method (algorithmId : String) : Node :=
  ⟨1, [], .node ⟨⟨none, "KeyDerivationMethod", some Ns.ENC11⟩, [], []⟩
    (.node 2 (concatParams algorithmId) .nil .nil)⟩

section

variable (algorithmId : String)

theorem texts_algorithmId :
    concatTexts decoding.toUppsala (method algorithmId) "AlgorithmID" = [algorithmId] := rfl

theorem texts_partyUInfo :
    concatTexts decoding.toUppsala (method algorithmId) "PartyUInfo" = [] := rfl

theorem texts_partyVInfo :
    concatTexts decoding.toUppsala (method algorithmId) "PartyVInfo" = [] := rfl

end

/-- A value with a padding indicator and two more bytes. -/
theorem readable : ConcatReadable decoding.toUppsala (method "000102") := by
  have hbytes : hexText? "000102" = some [0, 1, 2] := by decide
  intro name hname
  rcases List.mem_cons.mp hname with rfl | hname
  · intro x hx
    rw [texts_algorithmId] at hx
    obtain rfl := List.mem_singleton.mp hx
    have hvalue : hexValue? "000102" = some ⟨#[1, 2]⟩ := by
      rw [hexValue?, hbytes]
      rfl
    refine ⟨_, hvalue, "000102", rfl, hvalue, fun bs hbs => ?_⟩
    obtain rfl := Option.some.inj (hbytes.symm.trans hbs)
    decide
  rcases List.mem_cons.mp hname with rfl | hname
  · intro x hx
    rw [texts_partyUInfo] at hx
    cases hx
  · obtain rfl := List.mem_singleton.mp hname
    intro x hx
    rw [texts_partyVInfo] at hx
    cases hx

end SampleParameters

open SampleParameters

theorem parameters_used_sample :
    Settles (parseConcatKdfParams decoding.toUppsala (method "000102"))
      (ConcatUsed decoding.toUppsala (method "000102")) :=
  (parameters_used_iff decoding (method "000102") (method "000102") 16 (by decide)).1.mpr readable

/-- An AlgorithmID that is not hexadecimal counts as none. -/
theorem malformed_algorithmId_dropped :
    ¬ ∀ (lib : EncLibs) (kdMethod encMethod : Node) (dflt : Nat), dflt < 2 ^ 64 →
      Settles (parseConcatKdfParams lib.toUppsala kdMethod) (ConcatUsed lib.toUppsala kdMethod)
        ∧ Settles (parsePbkdf2Params lib kdMethod dflt) (Pbkdf2Used kdMethod)
        ∧ Settles (parseHkdfParams lib kdMethod dflt) (HkdfUsed lib kdMethod)
        ∧ OaepUsed lib.toTransformLibs encMethod := by
  intro h
  have hread := concatUsed_iff.mp
    (h decoding (method "00zz") (method "00zz") 16 (by decide)).1
  obtain ⟨v, hv, -⟩ := hread "AlgorithmID" (by simp) "00zz" List.mem_cons_self
  have hbytes : hexText? "00zz" = none := by decide
  rw [hexValue?, hbytes] at hv
  cases hv

end Bergshamra
