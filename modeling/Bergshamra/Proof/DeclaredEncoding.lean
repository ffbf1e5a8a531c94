import Bergshamra.Lib.XmlDecl
import Bergshamra.Proof.Latin1

/-!
# The declared encoding against the bytes

`maybe_convert_encoding` looks for `encoding="ISO-8859-1"` in the first 200 bytes
of a result and does not read the XML declaration there. Where a declaration says
it in that spelling and within these bytes, the result is written in ISO-8859-1:
its characters are those of the text unless the text has a character that
ISO-8859-1 has not, which stays in UTF-8.
-/

namespace Bergshamra

/-- `iso-8859-1`, the name in lower case. -/
def latin1Name : List Char := "iso-8859-1".toList

/-- The text of bytes in ISO-8859-1. -/
def decodeLatin1 (data : List UInt8) : List Char := data.map (fun b => Char.ofNat b.toNat)

/-- What `maybe_convert_encoding` looks for. -/
def latin1Marker (quote : Char) : List Char :=
  XmlDecl.encodingWord ++ ['='] ++ [quote] ++ latin1Name ++ [quote]

/-- Is the marker among the first 200 bytes? -/
def MarkerInHeader (s : List Char) : Prop :=
  ∃ front quote, front <+: s ∧ Text.byteLength front ≤ 200
    ∧ (quote = '"' ∨ quote = apostrophe) ∧ latin1Marker quote <:+: toLowercase front

/-! ## Characters and bytes -/

theorem toNat_ofNat_lt {n : Nat} (h : n < 256) : (Char.ofNat n).toNat = n := by
  have hv : n.isValidChar := Or.inl (by omega)
  rw [Char.ofNat, dif_pos hv]
  rfl

theorem le_of_mem_decodeLatin1 {data : List UInt8} {c : Char} (h : c ∈ decodeLatin1 data) :
    c.toNat ≤ 0xFF := by
  obtain ⟨b, -, rfl⟩ := List.mem_map.mp h
  have hb := b.toNat_lt
  rw [toNat_ofNat_lt (by omega)]
  omega

theorem decodeLatin1_latin1Bytes {c : Char} (h : c.toNat ≤ 0xFF) :
    decodeLatin1 (latin1Bytes c) = [c] := by
  have hc : c.val.toUInt8.toNat = c.toNat := by
    rw [UInt32.toNat_toUInt8]
    show c.toNat % 256 = c.toNat
    omega
  rw [latin1Bytes, if_pos h, decodeLatin1, List.map_cons, List.map_nil, hc, Char.ofNat_toNat]

/-- **The characters come back exactly where ISO-8859-1 has them all.** -/
theorem decodeLatin1_flatMap_iff (s : List Char) :
    decodeLatin1 (s.flatMap latin1Bytes) = s ↔ ∀ c ∈ s, c.toNat ≤ 0xFF := by
  refine ⟨fun h c hc => le_of_mem_decodeLatin1 (h ▸ hc), fun h => ?_⟩
  induction s with
  | nil => rfl
  | cons c s ih =>
      have hhead := decodeLatin1_latin1Bytes (h c List.mem_cons_self)
      have htail := ih (fun d hd => h d (List.mem_cons_of_mem _ hd))
      rw [decodeLatin1] at hhead htail
      rw [List.flatMap_cons, decodeLatin1, List.map_append, hhead, htail, List.singleton_append]

/-! ## The search for the marker -/

theorem toLowercase_append (s t : List Char) :
    toLowercase (s ++ t) = toLowercase s ++ toLowercase t := List.map_append

/-- Both spellings of the marker are looked for in the text of the first 200 bytes. -/
theorem declaresLatin1_iff (data : List UInt8) :
    declaresLatin1 data = true ↔ ∃ header quote, utf8? (data.take 200) = some header
      ∧ (quote = '"' ∨ quote = apostrophe)
      ∧ latin1Marker quote <:+: toLowercase header.toList := by
  unfold declaresLatin1
  cases hutf : utf8? (data.take 200) with
  | none => simp
  | some header =>
      have hdouble : "encoding=\"iso-8859-1\"".toList = latin1Marker '"' := by decide
      have hsingle : "encoding=".toList ++ apostrophe :: "iso-8859-1".toList ++ [apostrophe]
          = latin1Marker apostrophe := by decide
      simp only [hdouble, hsingle, Bool.or_eq_true, Text.containsSub_iff, Option.some.injEq]
      constructor
      · rintro (h | h)
        · exact ⟨header, _, rfl, Or.inl rfl, h⟩
        · exact ⟨header, _, rfl, Or.inr rfl, h⟩
      · rintro ⟨_, quote, rfl, rfl | rfl, h⟩
        · exact Or.inl h
        · exact Or.inr h

/-- What the bytes were found to declare stands in the text. -/
theorem markerInHeader_of_declares {s : List Char}
    (h : declaresLatin1 (Text.bytes s) = true) : MarkerInHeader s := by
  obtain ⟨header, quote, hutf, hquote, hmark⟩ := (declaresLatin1_iff _).mp h
  have hbytes := bytes_of_utf8? hutf
  refine ⟨header.toList, quote, ?_, ?_, hquote, hmark⟩
  · refine Text.prefix_of_bytes_prefix ?_
    rw [hbytes]
    exact List.take_prefix 200 _
  · have hlen := congrArg List.length hbytes
    rw [List.length_take] at hlen
    rw [Text.byteLength]
    omega

/-- A declaration in the spelling that is looked for is found. -/
theorem declaresLatin1_of_declaration {d : XmlDecl} {e : XmlDecl.Setting XmlDecl.IsEncName}
    {body : List Char} (henc : d.encoding = some e)
    (hname : e.value.map Char.toLower = latin1Name) (htight : e.Tight)
    (hlen : Text.byteLength (d.opening ++ e.text XmlDecl.encodingWord) ≤ 200)
    (hcut : Text.EndsChar 200 (d.text ++ body)) :
    declaresLatin1 (Text.bytes (d.text ++ body)) = true := by
  obtain ⟨front, -, htake, hlongest⟩ := hcut.take
  have hpre : d.opening ++ e.text XmlDecl.encodingWord <+: d.text ++ body := by
    rw [XmlDecl.text_of_encoding henc, List.append_assoc]
    exact List.prefix_append _ _
  obtain ⟨rest, hfront⟩ := hlongest _ hpre hlen
  refine (declaresLatin1_iff _).mpr ⟨String.ofList front, e.quote, ?_, e.quoted, ?_⟩
  · rw [htake, utf8?_bytes]
  · have hname' : toLowercase e.value = latin1Name := hname
    have hquote : toLowercase [e.quote] = [e.quote] := by
      rcases e.quoted with h | h
      · rw [h]; rfl
      · rw [h]; rfl
    have hword : toLowercase XmlDecl.encodingWord = XmlDecl.encodingWord := by decide
    have heq : toLowercase ['='] = ['='] := by decide
    refine ⟨toLowercase (d.opening ++ e.before), toLowercase rest, ?_⟩
    rw [String.toList_ofList, ← hfront, XmlDecl.Setting.text_of_tight htight]
    simp only [toLowercase_append, latin1Marker, hword, heq, hquote, hname', List.append_assoc]

/-- Text that was found to declare ISO-8859-1 is converted character by character. -/
theorem maybeConvertEncoding_of_found {s : List Char}
    (h : declaresLatin1 (Text.bytes s) = true) :
    maybeConvertEncoding (Text.bytes s) = s.flatMap latin1Bytes := by
  rw [maybeConvertEncoding, if_pos h, utf8ToLatin1, utf8?_bytes]
  show (String.ofList s).toList.flatMap latin1Bytes = _
  rw [String.toList_ofList]

/-- **What the declaration says, the bytes are.** -/
theorem maybeConvertEncoding_of_declaration (s : List Char) :
    (∀ (d : XmlDecl) (e : XmlDecl.Setting XmlDecl.IsEncName) (body : List Char),
      s = d.text ++ body → d.encoding = some e → e.value.map Char.toLower = latin1Name →
      e.Tight → Text.byteLength (d.opening ++ e.text XmlDecl.encodingWord) ≤ 200 →
      Text.EndsChar 200 s →
      maybeConvertEncoding (Text.bytes s) = s.flatMap latin1Bytes
        ∧ (decodeLatin1 (maybeConvertEncoding (Text.bytes s)) = s ↔ ∀ c ∈ s, c.toNat ≤ 0xFF))
    ∧ ((¬ MarkerInHeader s ∨ ∀ c ∈ s, ¬ IsLatin1Supplement c) →
      maybeConvertEncoding (Text.bytes s) = Text.bytes s) := by
  constructor
  · intro d e body hs henc hname htight hlen hcut
    have hfound : declaresLatin1 (Text.bytes s) = true := by
      subst hs
      exact declaresLatin1_of_declaration henc hname htight hlen hcut
    have hconv := maybeConvertEncoding_of_found hfound
    refine ⟨hconv, ?_⟩
    rw [hconv]
    exact decodeLatin1_flatMap_iff s
  · intro hfree
    rw [maybeConvertEncoding_eq_self_iff]
    intro hgarbled
    obtain ⟨hdecl, t, ht, c, hc, hsup⟩ := hgarbled
    rcases hfree with hmark | hsupp
    · exact hmark (markerInHeader_of_declares hdecl)
    · rw [utf8?_bytes, Option.some.injEq] at ht
      rw [← ht, String.toList_ofList] at hc
      exact hsupp c hc hsup

/-! ## A sample -/

/-- `<?xml version="1.0" encoding="ISO-8859-1"?>` -/
def latin1Decl : XmlDecl where
  version :=
    { before := [' ']
      beforeEq := []
      afterEq := []
      quote := '"'
      value := ['1', '.', '0']
      before_ne := by decide
      blank := by
        intro c hc
        exact Or.inl (List.mem_singleton.mp hc)
      quoted := Or.inl rfl
      isValue := ⟨['0'], by decide, by decide, rfl⟩ }
  encoding := some
    { before := [' ']
      beforeEq := []
      afterEq := []
      quote := '"'
      value := "ISO-8859-1".toList
      before_ne := by decide
      blank := by
        intro c hc
        exact Or.inl (List.mem_singleton.mp hc)
      quoted := Or.inl rfl
      isValue := ⟨'I', "SO-8859-1".toList, rfl, by decide, by decide⟩ }
  standalone := none
  close := []
  close_blank := by
    intro c hc
    cases hc

/-- The sample document with a text in it. -/
def latin1Sample (content : List Char) : List Char :=
  latin1Decl.text ++ ("<a>".toList ++ content ++ "</a>".toList)

theorem latin1Sample_declares (content : List Char) :
    XmlDecl.Declares latin1Name (latin1Sample content) :=
  ⟨latin1Decl, _, _, rfl, rfl, by decide⟩

/-- An é is one byte. -/
theorem maybeConvertEncoding_eAcute :
    decodeLatin1 (maybeConvertEncoding (Text.bytes (latin1Sample ['é']))) = latin1Sample ['é'] :=
  ((maybeConvertEncoding_of_declaration (latin1Sample ['é'])).1 latin1Decl _ _ rfl rfl
    (by decide) ⟨rfl, rfl⟩ (by decide) (Or.inl (by decide))).2.mpr (by decide)

/-- A euro sign is not in ISO-8859-1 and nothing is reported. -/
theorem euro_stays_in_utf8 :
    ¬ ∀ s, (XmlDecl.Declares latin1Name s →
        decodeLatin1 (maybeConvertEncoding (Text.bytes s)) = s)
      ∧ (¬ XmlDecl.Declares latin1Name s →
        maybeConvertEncoding (Text.bytes s) = Text.bytes s) := by
  intro h
  have hsame := (h (latin1Sample ['€'])).1 (latin1Sample_declares _)
  have hfound : declaresLatin1 (Text.bytes (latin1Sample ['€'])) = true :=
    declaresLatin1_of_declaration (d := latin1Decl) rfl (by decide) ⟨rfl, rfl⟩ (by decide)
      (Or.inl (by decide))
  rw [maybeConvertEncoding_of_found hfound, decodeLatin1_flatMap_iff] at hsame
  exact absurd (hsame '€' (by decide)) (by decide)

end Bergshamra
