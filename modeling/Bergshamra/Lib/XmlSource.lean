import Bergshamra.Lib.Spans
import Bergshamra.Lib.Text

/-!
# XML as it is written

A document with every detail of its spelling: the white space and the quotes of
a tag, which of the two forms an empty element has, and character data before
their references are resolved. A `Lexicon` says which names and which data are
allowed, and what the data mean.
-/

namespace XmlSource

/-- An attribute or a declaration. -/
structure Field where
  /-- The white space before the name. -/
  space : List Char
  name : List Char
  /-- The equals sign, with white space around it. -/
  equals : List Char
  quote : Char
  value : List Char
deriving DecidableEq

structure Tag where
  name : List Char
  fields : List Field
  /-- The white space after the last field. -/
  space : List Char
  /-- The white space in the closing tag; nothing where the element has no closing tag. -/
  close : Option (List Char)
deriving DecidableEq

/-- What is not an element. A declaration is a document type, or the first line. -/
inductive Piece where
  | text (raw : List Char)
  | cdata (raw : List Char)
  | comment (raw : List Char)
  | instruction (raw : List Char)
  | declaration (raw : List Char)
deriving DecidableEq

def Field.text (f : Field) : List Char :=
  f.space ++ f.name ++ f.equals ++ f.quote :: (f.value ++ [f.quote])

/-- A tag without its end. -/
def Tag.start (t : Tag) : List Char :=
  '<' :: (t.name ++ t.fields.flatMap Field.text ++ t.space)

def Tag.opening (t : Tag) : List Char :=
  t.start ++ (match t.close with
    | none => ['/', '>']
    | some _ => ['>'])

def Tag.closing (t : Tag) : List Char :=
  match t.close with
  | none => []
  | some space => '<' :: '/' :: (t.name ++ space ++ ['>'])

def Piece.written : Piece → List Char
  | .text raw => raw
  | .cdata raw => "<![CDATA[".toList ++ raw ++ "]]>".toList
  | .comment raw => "<!--".toList ++ raw ++ "-->".toList
  | .instruction raw => "<?".toList ++ raw ++ "?>".toList
  | .declaration raw => raw

/-- How a document is written. -/
def spelling : Forest.Spelling Tag Piece where
  opening := Tag.opening
  closing := Tag.closing
  leaf := Piece.written

/-- White space of XML. -/
def isSpace (c : Char) : Bool := c == ' ' || c == '\t' || c == '\n' || c == '\r'

/-- The characters that a name cannot have. -/
def nameStops : List Char := [' ', '\t', '\n', '\r', '<', '>', '/', '=', ':', '"', Char.ofNat 39]

/-- Which names and data there are, and what the data mean. -/
structure Lexicon where
  /-- Is this a name without a colon? -/
  name : List Char → Bool
  /-- Character data of a text, with references resolved. -/
  text : List Char → Option (List Char)
  /-- The value of an attribute, with references resolved. -/
  value : List Char → Option (List Char)
  comment : List Char → Bool
  /-- The target and the data of an instruction. -/
  instruction : List Char → Option (List Char × Option (List Char))
  declaration : List Char → Bool
  name_ne_nil : ∀ n, name n = true → n ≠ []
  name_chars : ∀ n, name n = true → ∀ c ∈ n, c ∉ nameStops
  text_ne_nil : ∀ s, (text s).isSome = true → s ≠ []
  text_chars : ∀ s, (text s).isSome = true → '<' ∉ s
  value_chars : ∀ s, (value s).isSome = true → '<' ∉ s

/-- A prefix and a local name. -/
def nameParts (n : List Char) : Option (List Char) × List Char :=
  match Text.splitOnce [':'] n with
  | some (p, l) => (some p, l)
  | none => (none, n)

variable (lex : Lexicon)

/-- A name, or two with a colon between them. -/
def validName (n : List Char) : Bool :=
  match nameParts n with
  | (some p, l) => lex.name p && lex.name l
  | (none, l) => lex.name l

def Field.valid (f : Field) : Bool :=
  !f.space.isEmpty && f.space.all isSpace && validName lex f.name
    && f.equals.all (fun c => isSpace c || c == '=') && f.equals.count '=' == 1
    && (f.quote == '"' || f.quote == Char.ofNat 39)
    && (lex.value f.value).isSome && !f.value.contains f.quote

def Tag.valid (t : Tag) : Bool :=
  validName lex t.name && t.fields.all (Field.valid lex) && t.space.all isSpace
    && t.close.all (fun s => s.all isSpace)

def Piece.valid : Piece → Bool
  | .text raw => (lex.text raw).isSome
  | .cdata raw => !Text.containsSub "]]>".toList raw
  | .comment raw => lex.comment raw
  | .instruction raw => (lex.instruction raw).isSome
  | .declaration raw => lex.declaration raw

def Piece.isText : Piece → Bool
  | .text _ => true
  | _ => false

/-- Does a row start with a text? -/
def startsWithText {ι : Type} : Forest ι Tag Piece → Bool
  | .leaf _ p _ => p.isText
  | _ => false

/-! ## Names -/

variable {lex}

theorem nameParts_of_prefix {p l : List Char} (hp : ':' ∉ p) :
    nameParts (p ++ ':' :: l) = (some p, l) := by
  rw [nameParts, Text.splitOnce_append hp]
  have hmark := Text.splitOnce_marker ':' [] l
  rw [List.cons_append, List.nil_append] at hmark
  rw [hmark]
  simp

/-- A name is its two parts again. -/
theorem nameParts_eq {n l : List Char} {p : Option (List Char)} (h : nameParts n = (p, l)) :
    n = (match p with
      | some p => p ++ ':' :: l
      | none => l) := by
  unfold nameParts at h
  split at h
  · rename_i p' l' hs
    cases h
    have hn := Text.splitOnce_eq_some hs
    simpa using hn
  · cases h
    rfl

theorem validName_chars {n : List Char} (h : validName lex n = true) {c : Char} (hc : c ∈ n)
    (hcolon : c ≠ ':') : c ∉ nameStops := by
  unfold validName at h
  split at h
  · rename_i p l hs
    rw [Bool.and_eq_true] at h
    rw [nameParts_eq hs] at hc
    rcases List.mem_append.mp hc with hc | hc
    · exact lex.name_chars p h.1 c hc
    rcases List.mem_cons.mp hc with hc | hc
    · exact absurd hc hcolon
    · exact lex.name_chars l h.2 c hc
  · rename_i l hs
    rw [nameParts_eq hs] at hc
    exact lex.name_chars l h c hc

theorem validName_ne_nil {n : List Char} (h : validName lex n = true) : n ≠ [] := by
  unfold validName at h
  split at h
  · rename_i p l hs
    rw [nameParts_eq hs]
    simp
  · rename_i l hs
    rw [nameParts_eq hs]
    exact lex.name_ne_nil l h

/-- Fields end in a quote. -/
theorem exists_quote {fields : List Field} {c : Char}
    (h : (fields.flatMap Field.text).getLast? = some c) : ∃ f ∈ fields, f.quote = c := by
  induction fields with
  | nil => cases h
  | cons f fields ih =>
      rw [List.flatMap_cons, List.getLast?_append] at h
      cases hrest : (fields.flatMap Field.text).getLast? with
      | some d =>
          rw [hrest] at h
          obtain ⟨g, hg, hquote⟩ := ih (hrest.trans h)
          exact ⟨g, List.mem_cons_of_mem f hg, hquote⟩
      | none =>
          have htext : f.text = (f.space ++ f.name ++ f.equals ++ f.quote :: f.value) ++ [f.quote] := by
            simp [Field.text]
          rw [hrest, htext, List.getLast?_concat] at h
          exact ⟨f, List.mem_cons_self, Option.some.inj h⟩

/-- A valid tag does not end in a slash before its end is written. -/
theorem Tag.start_getLast {t : Tag} (h : t.valid lex = true) : t.start.getLast? ≠ some '/' := by
  simp only [Tag.valid, Bool.and_eq_true] at h
  obtain ⟨⟨⟨hname, hfields⟩, hspace⟩, -⟩ := h
  rw [Tag.start, ← List.singleton_append, List.getLast?_append, List.getLast?_append,
    List.getLast?_append]
  cases hs : t.space.getLast? with
  | some c =>
      have hc := List.all_eq_true.mp hspace c (List.mem_of_getLast? hs)
      rintro hslash
      cases hslash
      revert hc
      decide
  | none =>
      cases hf : (t.fields.flatMap Field.text).getLast? with
      | some c =>
          obtain ⟨f, hmem, hquote⟩ := exists_quote hf
          have hvalid := List.all_eq_true.mp hfields f hmem
          simp only [Field.valid, Bool.and_eq_true, Bool.or_eq_true, beq_iff_eq] at hvalid
          rintro hslash
          cases hslash
          rcases hvalid.1.1.2 with hq | hq
          · rw [hquote] at hq
            revert hq
            decide
          · rw [hquote] at hq
            revert hq
            decide
      | none =>
          cases hn : t.name.getLast? with
          | none => exact absurd (List.getLast?_eq_none_iff.mp hn) (validName_ne_nil hname)
          | some c =>
              have hc := validName_chars hname (List.mem_of_getLast? hn)
              rintro hslash
              cases hslash
              exact hc (by decide) (by simp [nameStops])

/-- The tag of a node is the first thing in its text. -/
theorem nodeText_eq {ι : Type} (t : Tag) (kids : Forest ι Tag Piece) :
    Forest.nodeText spelling t kids = '<' :: (t.name ++ (t.fields.flatMap Field.text ++ t.space
      ++ (match t.close with
        | none => ['/', '>']
        | some _ => ['>']) ++ kids.text spelling ++ t.closing)) := by
  show t.opening ++ _ ++ t.closing = _
  rw [Tag.opening, Tag.start]
  simp only [List.cons_append, List.append_assoc]

end XmlSource
