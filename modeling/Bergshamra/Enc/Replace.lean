import Bergshamra.Enc.Context
import Bergshamra.Lib.Bytes

/-!
# Putting the plaintext in place

`replace_encrypted_data_bytes`: plaintext that is not XML is the result as it
is, an element or content takes the place of the EncryptedData in the text of
the document. The bytes that come out are then converted to ISO-8859-1 where
they declare that encoding (`maybe_convert_encoding`).
-/

namespace Bergshamra

/-- The byte of an ASCII character. -/
abbrev asciiByte (c : Char) : UInt8 := c.val.toUInt8

/-- `str::from_utf8`. -/
def utf8? (data : List UInt8) : Option String := String.fromUTF8? ⟨data.toArray⟩

/-! ## Normalizing markup -/

/-- `normalize_line_endings`. -/
def normalizeLineEndings : List UInt8 → List UInt8
  | [] => []
  | b :: rest =>
      if b = asciiByte '\r' then
        match rest with
        | c :: rest' =>
            if c = asciiByte '\n' then asciiByte '\n' :: normalizeLineEndings rest'
            else asciiByte '\n' :: normalizeLineEndings (c :: rest')
        | [] => [asciiByte '\n']
      else b :: normalizeLineEndings rest

/-- The bytes that end the name in an opening tag. -/
def endsTagName (b : UInt8) : Bool :=
  b = asciiByte ' ' || b = asciiByte '\t' || b = asciiByte '\n' || b = asciiByte '\r'
    || b = asciiByte '>'

/-- Does a closing tag follow at once on the tag that ends here? `seen` are the bytes before, the
last one first. The length of the closing tag's name. -/
def emptyElement? (seen : List UInt8) : List UInt8 → Option Nat
  | c₀ :: c₁ :: c₂ :: rest =>
      if c₀ = asciiByte '>' ∧ c₁ = asciiByte '<' ∧ c₂ = asciiByte '/' then
        let closeName := rest.takeWhile (fun b => b != asciiByte '>')
        let tag := (seen.takeWhile (fun b => b != asciiByte '<')).reverse
        if closeName.length < rest.length ∧ closeName ≠ []
            ∧ closeName.all (fun b => b != asciiByte ' ' && b != asciiByte '<')
            ∧ tag.length < seen.length
            ∧ tag.head?.all (fun b =>
              b != asciiByte '/' && b != asciiByte '!' && b != asciiByte '?')
            ∧ tag.takeWhile (fun b => !endsTagName b) = closeName then
          some closeName.length
        else none
      else none
  | _ => none

/-- The loop of `normalize_empty_elements`; `skip` bytes belong to a closing tag that is left
out. -/
def normalizeEmptyFrom (seen : List UInt8) (skip : Nat) : List UInt8 → List UInt8
  | [] => []
  | b :: rest =>
      match skip with
      | n + 1 => normalizeEmptyFrom (b :: seen) n rest
      | 0 =>
          match emptyElement? seen (b :: rest) with
          | some n => asciiByte '/' :: asciiByte '>' :: normalizeEmptyFrom (b :: seen) (n + 3) rest
          | none => b :: normalizeEmptyFrom (b :: seen) 0 rest

/-- `normalize_empty_elements`. -/
def normalizeEmptyElements (data : List UInt8) : List UInt8 :=
  if (utf8? data).isSome then normalizeEmptyFrom [] 0 data else data

/-- Where the scan for spaces is: outside a tag, inside one, or inside an attribute value. -/
inductive TagState where
  | text
  | tag
  | value (quote : UInt8)

/-- The loop of `normalize_self_closing_space`. -/
def normalizeSpaceFrom (st : TagState) : List UInt8 → List UInt8
  | [] => []
  | b :: rest =>
      match st with
      | .value quote => b :: normalizeSpaceFrom (if b = quote then .tag else st) rest
      | .text => b :: normalizeSpaceFrom (if b = asciiByte '<' then .tag else .text) rest
      | .tag =>
          if b = asciiByte '"' ∨ b = asciiByte apostrophe then
            b :: normalizeSpaceFrom (.value b) rest
          else if b = asciiByte '>' then b :: normalizeSpaceFrom .text rest
          else if b = asciiByte ' ' ∧ [asciiByte '/', asciiByte '>'].isPrefixOf rest then
            normalizeSpaceFrom .tag rest
          else b :: normalizeSpaceFrom .tag rest

/-- `normalize_self_closing_space`. -/
def normalizeSelfClosingSpace (data : List UInt8) : List UInt8 :=
  if (utf8? data).isSome then normalizeSpaceFrom .text data else data

/-! ## Replacing the EncryptedData -/

/-- What is left of a prolog after its XML declaration; nothing where that does not end. -/
def afterXmlDecl (s : List Char) : Option (List Char) :=
  if Text.startsWith "<?xml".toList s then
    (Text.splitOnce "?>".toList s).map (fun p => Text.trim p.2)
  else some s

/-- What is left after the document type declaration. -/
def afterDoctype (s : List Char) : Option (List Char) :=
  if Text.startsWith "<!DOCTYPE".toList s then
    match Text.splitOnce ['['] s with
    | some (_, subset) => (Text.splitOnce "]>".toList subset).map (fun p => Text.trim p.2)
    | none => (Text.splitOnce ['>'] s).map (fun p => Text.trim p.2)
  else some s

/-- `is_xml_prolog`. -/
def isXmlProlog (s : List Char) : Bool :=
  match (afterXmlDecl s).bind afterDoctype with
  | some rest => rest = []
  | none => false

/-- Is the plaintext the result? It is not for the types Element and Content, nor without a type
where the MIME type is absent or XML. -/
def isOpaque (up : Uppsala) (encData : Node) (encType : String) : Bool :=
  if encType = "" then
    let mime := (attributeOf up encData "MimeType").getD ""
    mime ≠ "" && !Text.containsSub "xml".toList mime.toList
  else !(Text.endsWith "#Element".toList encType.toList
    || Text.endsWith "#Content".toList encType.toList)

/-- The plaintext as it is put into a document. -/
def outputBytes (plaintext : List UInt8) : List UInt8 :=
  let trimmed := ((utf8? plaintext).map (fun s => Text.trimStart s.toList)).getD []
  if Text.startsWith ['<'] trimmed then
    normalizeSelfClosingSpace (normalizeEmptyElements (normalizeLineEndings plaintext))
  else plaintext

/-- The text of a whole document whose only element was the EncryptedData. -/
def wholeDocument (before : List Char) (plaintext : List UInt8) : List UInt8 :=
  let trimmed := ((utf8? plaintext).map (fun s => Text.trimStart s.toList)).getD []
  let output := outputBytes plaintext
  if Text.startsWith ['<'] trimmed && !Text.startsWith "<?xml".toList trimmed then
    let decl :=
      if Text.startsWith "<?xml".toList before then before else "<?xml version=\"1.0\"?>".toList
    let result := Text.bytes decl ++ asciiByte '\n' :: output
    if output.getLast? = some (asciiByte '\n') then result else result ++ [asciiByte '\n']
  else output

/-- `replace_encrypted_data_bytes`. -/
def replaceEncryptedDataBytes (lib : EncLibs) (xml : String) (encData : Node) (encType : String)
    (plaintext : List UInt8) : Except Error (List UInt8) :=
  if isOpaque lib.toUppsala encData encType then .ok plaintext
  else
    match lib.nodeRange xml encData with
    | none => .error .panics
    | some (start, stop) => do
        let front ← byteSlice xml.toList 0 start
        let back ← byteSlice xml.toList stop xml.utf8ByteSize
        let before := Text.trim front
        let after := Text.trim back
        if (before = [] || isXmlProlog before) && after = [] then
          .ok (wholeDocument before plaintext)
        else
          .ok (normalizeSelfClosingSpace (normalizeEmptyElements
            (Text.bytes front ++ outputBytes plaintext ++ Text.bytes back)))

/-! ## The encoding of the result -/

/-- `to_lowercase`. The markers below are found in it exactly as in the full mapping of Unicode: of
the characters beyond ASCII only U+0130 and U+212A have ASCII letters in theirs, an `i` that
U+0307 follows and a `k`. -/
def toLowercase (s : List Char) : List Char := s.map Char.toLower

/-- Do the first 200 bytes declare ISO-8859-1? -/
def declaresLatin1 (data : List UInt8) : Bool :=
  match utf8? (data.take 200) with
  | none => false
  | some header =>
      let lower := toLowercase header.toList
      Text.containsSub "encoding=\"iso-8859-1\"".toList lower
        || Text.containsSub ("encoding=".toList ++ apostrophe :: "iso-8859-1".toList ++ [apostrophe])
          lower

/-- A character of ISO-8859-1 in one byte, any other in UTF-8. -/
def latin1Bytes (c : Char) : List UInt8 :=
  if c.toNat ≤ 0xFF then [c.val.toUInt8] else String.utf8EncodeChar c

/-- `utf8_to_latin1`. -/
def utf8ToLatin1 (data : List UInt8) : List UInt8 :=
  match utf8? data with
  | none => data
  | some s => s.toList.flatMap latin1Bytes

/-- `maybe_convert_encoding`. -/
def maybeConvertEncoding (data : List UInt8) : List UInt8 :=
  if declaresLatin1 data then utf8ToLatin1 data else data

end Bergshamra
