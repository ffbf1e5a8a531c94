import Bergshamra.Enc.Replace
import Bergshamra.Proof.SourceTree
import Bergshamra.Proof.Latin1
import Bergshamra.Proof.TableParser
import Mathlib.Data.List.TakeWhile

/-!
# What the rewriters do to a document

`normalize_empty_elements` and `normalize_self_closing_space` go over the bytes
of a document without parsing it. On a calm document (angle brackets and quotes
only where a tag has them) they close the elements without content in their
opening tags and take the blank before the end of such a tag away, and nothing
else; the tree of the document stays. An element without content that is the last
thing in an element of its own name misleads the first of them: it is taken for
the opening tag of the closing tag that follows it.
-/

namespace Bergshamra

open XmlSource

/-! ## The loops on bytes -/

section Bytes

variable {seen w rest : List UInt8}

theorem emptyElement?_of_ne {b : UInt8} (h : b ≠ asciiByte '>') (l : List UInt8) :
    emptyElement? seen (b :: l) = none := by
  rw [emptyElement?.eq_def]
  split
  · rename_i heq
    cases heq
    rw [if_neg fun hc => h hc.1]
  · rfl

theorem normalizeEmpty_run (h : asciiByte '>' ∉ w) :
    normalizeEmptyFrom seen 0 (w ++ rest) = w ++ normalizeEmptyFrom (w.reverse ++ seen) 0 rest := by
  induction w generalizing seen with
  | nil => rfl
  | cons b w ih =>
      rw [List.mem_cons, not_or] at h
      rw [List.cons_append, normalizeEmptyFrom]
      simp only [emptyElement?_of_ne (Ne.symm h.1)]
      rw [ih h.2, List.reverse_cons, List.append_assoc, List.cons_append, List.singleton_append]

theorem normalizeEmpty_skip :
    normalizeEmptyFrom seen w.length (w ++ rest) = normalizeEmptyFrom (w.reverse ++ seen) 0 rest := by
  induction w generalizing seen with
  | nil => rfl
  | cons b w ih =>
      rw [List.cons_append, List.length_cons, normalizeEmptyFrom, ih, List.reverse_cons,
        List.append_assoc, List.singleton_append]

/-- The end of a tag that no closing tag follows. -/
theorem emptyElement?_open (h : ¬ [asciiByte '<', asciiByte '/'] <+: rest) (b : UInt8) :
    emptyElement? seen (b :: rest) = none := by
  rw [emptyElement?.eq_def]
  split
  · rename_i c₀ c₁ c₂ rest' heq
    cases heq
    rw [if_neg]
    rintro ⟨-, rfl, rfl⟩
    exact h ⟨rest', rfl⟩
  · rfl

theorem takeWhile_stop {p : UInt8 → Bool} {b : UInt8} (hw : ∀ x ∈ w, p x = true)
    (hb : p b = false) : (w ++ b :: rest).takeWhile p = w := by
  rw [List.takeWhile_append_of_pos hw, List.takeWhile_cons_of_neg (by rw [hb]; decide),
    List.append_nil]

theorem ne_of_not_mem {b : UInt8} (h : b ∉ w) : ∀ x ∈ w, (x != b) = true := by
  intro x hx
  rw [bne_iff_ne]
  rintro rfl
  exact h hx

/-- The end of a tag that a closing tag follows. -/
theorem emptyElement?_eq {tag name : List UInt8} (htag : asciiByte '<' ∉ tag)
    (hname : asciiByte '>' ∉ name) :
    emptyElement? (tag.reverse ++ asciiByte '<' :: seen)
        (asciiByte '>' :: asciiByte '<' :: asciiByte '/' :: (name ++ asciiByte '>' :: rest))
      = if name ≠ [] ∧ name.all (fun b => b != asciiByte ' ' && b != asciiByte '<')
          ∧ tag.head?.all (fun b =>
            b != asciiByte '/' && b != asciiByte '!' && b != asciiByte '?')
          ∧ tag.takeWhile (fun b => !endsTagName b) = name then some name.length else none := by
  have hclose : (name ++ asciiByte '>' :: rest).takeWhile (fun b => b != asciiByte '>') = name :=
    takeWhile_stop (ne_of_not_mem hname) (by decide)
  have hopen : (tag.reverse ++ asciiByte '<' :: seen).takeWhile (fun b => b != asciiByte '<')
      = tag.reverse :=
    takeWhile_stop (ne_of_not_mem fun h => htag (List.mem_reverse.mp h)) (by decide)
  have hl₁ : name.length < (name ++ asciiByte '>' :: rest).length := by
    rw [List.length_append, List.length_cons]
    omega
  have hl₂ : tag.length < (tag.reverse ++ asciiByte '<' :: seen).length := by
    rw [List.length_append, List.length_reverse, List.length_cons]
    omega
  rw [emptyElement?]
  simp only [hclose, hopen, List.reverse_reverse, hl₁, hl₂, true_and, and_self, if_true]

/-- The quote that is open after some bytes of a tag. -/
def openQuote (quote : Option UInt8) : List UInt8 → Option UInt8
  | [] => quote
  | b :: rest =>
      openQuote
        (match quote with
          | some q => if b = q then none else some q
          | none => if b = asciiByte '"' ∨ b = asciiByte apostrophe then some b else none)
        rest

/-- Where the scan for spaces is inside of a tag. -/
def inTag : Option UInt8 → TagState
  | none => .tag
  | some q => .value q

theorem getLast?_cons_of_some {b x : UInt8} (h : w.getLast? = some x) :
    (b :: w).getLast? = some x := by
  cases w with
  | nil => cases h
  | cons c w => exact h

theorem normalizeSpace_tag {quote : Option UInt8} (hgt : asciiByte '>' ∉ w)
    (hblank : w.getLast? = some (asciiByte ' ') → ¬ [asciiByte '/', asciiByte '>'] <+: rest)
    (hslash : w.getLast? = some (asciiByte '/') → rest.head? ≠ some (asciiByte '>')) :
    normalizeSpaceFrom (inTag quote) (w ++ rest)
      = w ++ normalizeSpaceFrom (inTag (openQuote quote w)) rest := by
  induction w generalizing quote with
  | nil => rfl
  | cons b w ih =>
      rw [List.mem_cons, not_or] at hgt
      have hih := fun quote => @ih quote hgt.2 (fun h => hblank (getLast?_cons_of_some h))
        (fun h => hslash (getLast?_cons_of_some h))
      cases quote with
      | some q =>
          have hstep : normalizeSpaceFrom (.value q) (b :: (w ++ rest))
              = b :: normalizeSpaceFrom (inTag (if b = q then none else some q)) (w ++ rest) := by
            rw [normalizeSpaceFrom]
            by_cases hb : b = q
            · rw [if_pos hb, if_pos hb]
              rfl
            · rw [if_neg hb, if_neg hb]
              rfl
          rw [List.cons_append, inTag, hstep, hih, openQuote]
          rfl
      | none =>
          -- a blank of the tag itself is not before its end
          have hkept :
              ¬ (b = asciiByte ' ' ∧ [asciiByte '/', asciiByte '>'].isPrefixOf (w ++ rest)) := by
            rintro ⟨rfl, hpre⟩
            have hpre' := List.isPrefixOf_iff_prefix.mp hpre
            cases w with
            | nil => exact hblank rfl hpre'
            | cons c w =>
                rw [List.cons_append, List.cons_prefix_cons] at hpre'
                obtain ⟨rfl, hpre'⟩ := hpre'
                cases w with
                | nil =>
                    obtain ⟨tail, htail⟩ := hpre'
                    refine hslash rfl ?_
                    rw [← List.nil_append rest, ← htail]
                    rfl
                | cons d w =>
                    rw [List.cons_append, List.cons_prefix_cons] at hpre'
                    exact hgt.2 (by simp [hpre'.1])
          have hstep : normalizeSpaceFrom .tag (b :: (w ++ rest)) = b :: normalizeSpaceFrom
              (inTag (if b = asciiByte '"' ∨ b = asciiByte apostrophe then some b else none))
              (w ++ rest) := by
            rw [normalizeSpaceFrom]
            by_cases hb : b = asciiByte '"' ∨ b = asciiByte apostrophe
            · rw [if_pos hb, if_pos hb]
              rfl
            · rw [if_neg hb, if_neg hb, if_neg (Ne.symm hgt.1), if_neg hkept]
              rfl
          rw [List.cons_append, inTag, hstep, hih, openQuote]
          rfl

theorem normalizeSpace_text (h : asciiByte '<' ∉ w) :
    normalizeSpaceFrom .text (w ++ rest) = w ++ normalizeSpaceFrom .text rest := by
  induction w with
  | nil => rfl
  | cons b w ih =>
      rw [List.mem_cons, not_or] at h
      rw [List.cons_append, normalizeSpaceFrom, if_neg (Ne.symm h.1), ih h.2, List.cons_append]

end Bytes

theorem openQuote_append {quote : Option UInt8} (w w' : List UInt8) :
    openQuote quote (w ++ w') = openQuote (openQuote quote w) w' := by
  induction w generalizing quote with
  | nil => rfl
  | cons b w ih => simp only [List.cons_append, openQuote, ih]

theorem openQuote_none {w : List UInt8} (hd : asciiByte '"' ∉ w) (hs : asciiByte apostrophe ∉ w) :
    openQuote none w = none := by
  induction w with
  | nil => rfl
  | cons b w ih =>
      rw [List.mem_cons, not_or] at hd hs
      have hb : ¬ (b = asciiByte '"' ∨ b = asciiByte apostrophe) :=
        fun h => h.elim (fun h => hd.1 h.symm) (fun h => hs.1 h.symm)
      rw [openQuote]
      simp only [if_neg hb]
      exact ih hd.2 hs.2

/-- A value in quotes leaves no quote open. -/
theorem openQuote_value {q : UInt8} {w : List UInt8} (hw : q ∉ w) :
    openQuote (some q) (w ++ [q]) = none := by
  induction w with
  | nil => simp [openQuote]
  | cons b w ih =>
      rw [List.mem_cons, not_or] at hw
      rw [List.cons_append, openQuote]
      simp only [if_neg (Ne.symm hw.1)]
      exact ih hw.2

/-! ## Calm documents -/

/-- A tag without its angle brackets and its end. -/
def tagBody (t : Tag) : List Char := t.name ++ t.fields.flatMap Field.text ++ t.space

/-- Markup of one pair of angle brackets, with the quotes in it closed, that is not a tag; white
space may follow. -/
def calmMarkup (s : List Char) : Bool :=
  let body := s.tail.takeWhile (fun c => c != '>')
  let space := (s.tail.dropWhile (fun c => c != '>')).tail
  s == '<' :: (body ++ '>' :: space) && !body.contains '<'
    && (body.head? == some '!' || body.head? == some '?') && body.getLast? != some '/'
    && openQuote none (Text.bytes body) == none && space.all isSpace

def calmPiece : Piece → Bool
  | .text raw => !raw.contains '>'
  | p => calmMarkup p.written

/-- A tag whose name and values do not look like other markup. -/
def calmTag (t : Tag) : Bool :=
  t.name.head?.all (fun c => c != '!' && c != '?') && t.fields.all (fun f => !f.value.contains '>')

/-- Angle brackets are where a tag has them, and so are the quotes. -/
def calm : Source → Bool
  | .nil => true
  | .leaf _ p rest => calmPiece p && calm rest
  | .node _ t kids rest => calmTag t && calm kids && calm rest

/-- Does a row end in an element without content, of the name `n`, with more than the name in its
tag? -/
def endsAlike (n : List Char) : Source → Bool
  | .nil => false
  | .leaf _ _ rest => endsAlike n rest
  | .node _ t .nil .nil => t.name == n && !(t.fields.isEmpty && t.space.isEmpty)
  | .node _ _ _ rest => endsAlike n rest

/-- No element ends in an element that is taken for its opening tag. -/
def unmistaken : Source → Bool
  | .nil => true
  | .leaf _ _ rest => unmistaken rest
  | .node _ t kids rest => !endsAlike t.name kids && unmistaken kids && unmistaken rest

/-! ## What is written instead -/

/-- The document with its tags spelled in another way. -/
def respelled (g : Source → Tag → Tag) : Source → Source
  | .nil => .nil
  | .leaf i p rest => .leaf i p (respelled g rest)
  | .node i t kids rest => .node i (g kids t) (respelled g kids) (respelled g rest)

/-- What `normalize_empty_elements` makes of a tag: without content it is also the closing one. -/
def closedTag (kids : Source) (t : Tag) : Tag :=
  match kids with
  | .nil => if t.close = some [] then { t with close := none } else t
  | _ => t

/-- What `normalize_self_closing_space` makes of a tag: no blank before its end. -/
def tightTag (t : Tag) : Tag :=
  if t.close = none ∧ t.space.getLast? = some ' ' then { t with space := t.space.dropLast } else t

/-- What is written instead of a document. -/
def rewritten (f : Source) : Source := respelled (fun _ => tightTag) (respelled closedTag f)

/-! ## The parts of a tag -/

section Tags

variable {lex : Lexicon} {t : Tag} {c : Char}

theorem start_eq (t : Tag) : t.start = '<' :: tagBody t := rfl

/-- The characters that stand nowhere in a tag but in its names and values. -/
theorem name_not_mem {n : List Char} (h : validName lex n = true) (hc : c ∈ nameStops)
    (hcolon : c ≠ ':') : c ∉ n :=
  fun hmem => validName_chars h hmem hcolon hc

theorem space_not_mem {s : List Char} (h : s.all isSpace = true) (hc : isSpace c = false) :
    c ∉ s := by
  intro hmem
  rw [List.all_eq_true.mp h c hmem] at hc
  cases hc

/-- A field of a valid tag: a name between white space and a value in quotes. -/
structure FieldParts (lex : Lexicon) (f : Field) : Prop where
  space : f.space.all isSpace = true
  ne_nil : f.space ≠ []
  name : validName lex f.name = true
  equals : ∀ c ∈ f.equals, isSpace c = true ∨ c = '='
  quote : f.quote = '"' ∨ f.quote = apostrophe
  value : '<' ∉ f.value
  closed : f.quote ∉ f.value

theorem fieldParts {f : Field} (h : f.valid lex = true) : FieldParts lex f := by
  simp only [Field.valid, Bool.and_eq_true, Bool.or_eq_true, beq_iff_eq, Bool.not_eq_true',
    List.isEmpty_eq_false_iff] at h
  obtain ⟨⟨⟨⟨⟨⟨⟨hne, hspace⟩, hname⟩, hequals⟩, -⟩, hquote⟩, hvalue⟩, hclosed⟩ := h
  refine ⟨hspace, hne, hname, fun c hc => ?_, hquote, lex.value_chars _ hvalue, ?_⟩
  · have := List.all_eq_true.mp hequals c hc
    simpa only [Bool.or_eq_true, beq_iff_eq] using this
  · intro hmem
    rw [List.contains_iff_mem.mpr hmem] at hclosed
    cases hclosed

theorem FieldParts.not_mem {f : Field} (h : FieldParts lex f) (hc : c ∈ nameStops)
    (hcolon : c ≠ ':') (hspace : isSpace c = false) (hequals : c ≠ '=') (hquote : c ≠ f.quote)
    (hvalue : c ∉ f.value) : c ∉ f.text := by
  intro hmem
  simp only [Field.text, List.mem_append, List.mem_cons, List.not_mem_nil, or_false] at hmem
  rcases hmem with ((hm | hm) | hm) | hm | hm | hm
  · exact space_not_mem h.space hspace hm
  · exact name_not_mem h.name hc hcolon hm
  · rcases h.equals c hm with hs | he
    · rw [hs] at hspace
      cases hspace
    · exact hequals he
  · exact hquote hm
  · exact hvalue hm
  · exact hquote hm

theorem quote_ne {f : Field} (h : FieldParts lex f) (hd : c ≠ '"') (hs : c ≠ apostrophe) :
    c ≠ f.quote := by
  rcases h.quote with hq | hq
  · rw [hq]
    exact hd
  · rw [hq]
    exact hs

/-- An angle bracket is not in a tag unless it is in a value. -/
theorem tagBody_not_mem (h : t.valid lex = true) (hc : c = '<' ∨ c = '>')
    (hvalue : ∀ f ∈ t.fields, c ∉ f.value) : c ∉ tagBody t := by
  simp only [Tag.valid, Bool.and_eq_true] at h
  obtain ⟨⟨⟨hname, hfields⟩, hspace⟩, -⟩ := h
  have hfacts : c ∈ nameStops ∧ c ≠ ':' ∧ isSpace c = false ∧ c ≠ '=' ∧ c ≠ '"'
      ∧ c ≠ apostrophe := by
    rcases hc with rfl | rfl
    · decide
    · decide
  obtain ⟨hstop, hcolon, hnot, heq, hd, hs⟩ := hfacts
  intro hmem
  simp only [tagBody, List.mem_append, List.mem_flatMap] at hmem
  rcases hmem with (hm | ⟨f, hf, hm⟩) | hm
  · exact name_not_mem hname hstop hcolon hm
  · have hparts := fieldParts (List.all_eq_true.mp hfields f hf)
    exact hparts.not_mem hstop hcolon hnot heq (quote_ne hparts hd hs) (hvalue f hf) hm
  · exact space_not_mem hspace hnot hm

theorem tagBody_lt (h : t.valid lex = true) : '<' ∉ tagBody t := by
  refine tagBody_not_mem h (Or.inl rfl) fun f hf => ?_
  simp only [Tag.valid, Bool.and_eq_true] at h
  exact (fieldParts (List.all_eq_true.mp h.1.1.2 f hf)).value

theorem tagBody_gt (h : t.valid lex = true) (hcalm : calmTag t = true) : '>' ∉ tagBody t := by
  refine tagBody_not_mem h (Or.inr rfl) fun f hf hmem => ?_
  rw [calmTag, Bool.and_eq_true] at hcalm
  have hf' := List.all_eq_true.mp hcalm.2 f hf
  rw [List.contains_iff_mem.mpr hmem] at hf'
  cases hf'

/-- Where no quote is, none is opened. -/
theorem openQuote_chars {s : List Char} (hd : '"' ∉ s) (hs : apostrophe ∉ s) :
    openQuote none (Text.bytes s) = none :=
  openQuote_none (fun h => hd ((Text.mem_bytes_iff (by decide)).mp h))
    (fun h => hs ((Text.mem_bytes_iff (by decide)).mp h))

theorem openQuote_space {s : List Char} (h : s.all isSpace = true) :
    openQuote none (Text.bytes s) = none :=
  openQuote_chars (space_not_mem h (by decide)) (space_not_mem h (by decide))

theorem openQuote_name {n : List Char} (h : validName lex n = true) :
    openQuote none (Text.bytes n) = none :=
  openQuote_chars (name_not_mem h (by decide) (by decide)) (name_not_mem h (by decide) (by decide))

/-- A field closes its quote. -/
theorem openQuote_field {f : Field} (h : FieldParts lex f) :
    openQuote none (Text.bytes f.text) = none := by
  have hequals : openQuote none (Text.bytes f.equals) = none := by
    refine openQuote_chars (fun hm => ?_) (fun hm => ?_)
    · exact absurd (h.equals _ hm) (by decide)
    · exact absurd (h.equals _ hm) (by decide)
  have hascii : f.quote.toNat < 0x80 := by
    rcases h.quote with hq | hq
    · rw [hq]
      decide
    · rw [hq]
      decide
  have hopen : (if asciiByte f.quote = asciiByte '"' ∨ asciiByte f.quote = asciiByte apostrophe
      then some (asciiByte f.quote) else none) = some (asciiByte f.quote) :=
    if_pos (h.quote.imp (congrArg asciiByte) (congrArg asciiByte))
  rw [Field.text, Text.bytes_append, Text.bytes_append, Text.bytes_append, openQuote_append,
    openQuote_append, openQuote_append, openQuote_space h.space, openQuote_name h.name, hequals,
    Text.bytes_cons, Text.bytes_append, Text.bytes_cons, Text.bytes_nil, List.append_nil,
    Text.utf8EncodeChar_ascii hascii, List.singleton_append, openQuote]
  simp only [hopen]
  exact openQuote_value fun hm => h.closed ((Text.mem_bytes_iff hascii).mp hm)

/-- A tag closes its quotes. -/
theorem openQuote_tagBody (h : t.valid lex = true) :
    openQuote none (Text.bytes (tagBody t)) = none := by
  simp only [Tag.valid, Bool.and_eq_true] at h
  obtain ⟨⟨⟨hname, hfields⟩, hspace⟩, -⟩ := h
  have hall : openQuote none (Text.bytes (t.fields.flatMap Field.text)) = none := by
    generalize t.fields = fields at hfields
    induction fields with
    | nil => rfl
    | cons f fields ih =>
        rw [List.all_cons, Bool.and_eq_true] at hfields
        rw [List.flatMap_cons, Text.bytes_append, openQuote_append,
          openQuote_field (fieldParts hfields.1), ih hfields.2]
  rw [tagBody, Text.bytes_append, Text.bytes_append, openQuote_append, openQuote_append,
    openQuote_name hname, hall, openQuote_space hspace]

/-- What follows the name in a tag starts with white space. -/
theorem after_name (h : t.valid lex = true) :
    (t.fields.flatMap Field.text ++ t.space = [] ∧ t.fields = [] ∧ t.space = [])
      ∨ ∃ c after, t.fields.flatMap Field.text ++ t.space = c :: after ∧ isSpace c = true := by
  simp only [Tag.valid, Bool.and_eq_true] at h
  obtain ⟨⟨⟨-, hfields⟩, hspace⟩, -⟩ := h
  cases hf : t.fields with
  | nil =>
      rw [List.flatMap_nil, List.nil_append]
      cases hs : t.space with
      | nil => exact Or.inl ⟨rfl, rfl, rfl⟩
      | cons c after =>
          rw [hs] at hspace
          exact Or.inr ⟨c, after, rfl, List.all_eq_true.mp hspace c List.mem_cons_self⟩
  | cons f fields =>
      rw [hf] at hfields
      have hparts := fieldParts (List.all_eq_true.mp hfields f List.mem_cons_self)
      obtain ⟨c, after, hc⟩ := List.exists_cons_of_ne_nil hparts.ne_nil
      refine Or.inr ⟨c, ?_, ?_, List.all_eq_true.mp hparts.space c (hc ▸ List.mem_cons_self)⟩
      · exact after ++ f.name ++ f.equals ++ f.quote :: (f.value ++ [f.quote])
          ++ fields.flatMap Field.text ++ t.space
      · rw [List.flatMap_cons, Field.text, hc]
        simp only [List.cons_append, List.append_assoc]

end Tags

/-! ## Elements without content -/

section Closing

variable {lex : Lexicon} {seen w w' R : List UInt8} {t : Tag}

/-- The loop goes over `w` and writes `w'`. -/
def Writes (seen w w' R : List UInt8) : Prop :=
  normalizeEmptyFrom seen 0 (w ++ R) = w' ++ normalizeEmptyFrom (w.reverse ++ seen) 0 R

theorem Writes.append {v v' : List UInt8} (h : Writes seen w w' (v ++ R))
    (h' : Writes (w.reverse ++ seen) v v' R) : Writes seen (w ++ v) (w' ++ v') R := by
  rw [Writes, List.append_assoc, h, h', List.reverse_append, List.append_assoc, List.append_assoc]

theorem Writes.quiet (h : asciiByte '>' ∉ w) (R : List UInt8) : Writes seen w w R :=
  normalizeEmpty_run h

theorem Writes.nil (R : List UInt8) : Writes seen [] [] R := rfl

/-- A pair of angle brackets that is passed over. -/
theorem Writes.markup {body : List UInt8} (hgt : asciiByte '>' ∉ body)
    (hnone : emptyElement? (body.reverse ++ asciiByte '<' :: seen) (asciiByte '>' :: R) = none) :
    Writes seen (asciiByte '<' :: (body ++ [asciiByte '>']))
      (asciiByte '<' :: (body ++ [asciiByte '>'])) R := by
  have hquiet : asciiByte '>' ∉ asciiByte '<' :: body := by
    rw [List.mem_cons, not_or]
    exact ⟨by decide, hgt⟩
  have hend : Writes ((asciiByte '<' :: body).reverse ++ seen) [asciiByte '>'] [asciiByte '>'] R := by
    rw [List.reverse_cons, List.append_assoc, List.singleton_append, Writes, List.singleton_append,
      normalizeEmptyFrom]
    simp only [hnone]
    rfl
  exact (Writes.quiet hquiet _).append hend

/-- An element without content. -/
theorem Writes.element {body name : List UInt8} (hgt : asciiByte '>' ∉ body)
    (hsome : emptyElement? (body.reverse ++ asciiByte '<' :: seen)
      (asciiByte '>' :: asciiByte '<' :: asciiByte '/' :: (name ++ asciiByte '>' :: R))
      = some name.length) :
    Writes seen (asciiByte '<' :: (body ++ asciiByte '>' :: asciiByte '<' :: asciiByte '/'
        :: (name ++ [asciiByte '>'])))
      (asciiByte '<' :: (body ++ [asciiByte '/', asciiByte '>'])) R := by
  have hquiet : asciiByte '>' ∉ asciiByte '<' :: body := by
    rw [List.mem_cons, not_or]
    exact ⟨by decide, hgt⟩
  have hend : Writes ((asciiByte '<' :: body).reverse ++ seen)
      (asciiByte '>' :: asciiByte '<' :: asciiByte '/' :: (name ++ [asciiByte '>']))
      [asciiByte '/', asciiByte '>'] R := by
    have hlen : name.length + 3
        = (asciiByte '<' :: asciiByte '/' :: (name ++ [asciiByte '>'])).length := by
      simp
    rw [List.reverse_cons, List.append_assoc, List.singleton_append, Writes, List.cons_append,
      normalizeEmptyFrom]
    have hinput : asciiByte '>' :: ((asciiByte '<' :: asciiByte '/' :: (name ++ [asciiByte '>'])) ++ R)
        = asciiByte '>' :: asciiByte '<' :: asciiByte '/' :: (name ++ asciiByte '>' :: R) := by
      simp
    simp only [hinput, hsome]
    rw [hlen, normalizeEmpty_skip]
    simp only [List.reverse_cons, List.append_assoc, List.cons_append, List.nil_append]
  exact (Writes.quiet hquiet _).append hend

/-- Markup that starts like no opening tag. -/
theorem emptyElement?_head {tag : List UInt8} {b : UInt8} (htag : asciiByte '<' ∉ tag)
    (hhead : tag.head? = some b)
    (hb : b = asciiByte '/' ∨ b = asciiByte '!' ∨ b = asciiByte '?') (R : List UInt8) :
    emptyElement? (tag.reverse ++ asciiByte '<' :: seen) (asciiByte '>' :: R) = none := by
  by_cases hclose : [asciiByte '<', asciiByte '/'] <+: R
  · obtain ⟨rest, rfl⟩ := hclose
    have hopen : (tag.reverse ++ asciiByte '<' :: seen).takeWhile (fun b => b != asciiByte '<')
        = tag.reverse :=
      takeWhile_stop (ne_of_not_mem fun h => htag (List.mem_reverse.mp h)) (by decide)
    have hfalse : (b != asciiByte '/' && b != asciiByte '!' && b != asciiByte '?') = false := by
      rcases hb with rfl | rfl | rfl
      · decide
      · decide
      · decide
    rw [List.cons_append, List.cons_append, List.nil_append, emptyElement?]
    simp only [hopen, List.reverse_reverse, hhead, Option.all_some, hfalse, Bool.false_eq_true,
      false_and, and_false, if_false, ite_self]
  · exact emptyElement?_open hclose _

/-- The bytes of a name do not end it. -/
theorem endsTagName_name {n : List Char} (h : validName lex n = true) :
    ∀ b ∈ Text.bytes n, (!endsTagName b) = true := by
  intro b hb
  have hne : ∀ c ∈ nameStops, c ≠ ':' → c.toNat < 0x80 → b ≠ asciiByte c := by
    rintro c hc hcolon hascii rfl
    exact name_not_mem h hc hcolon ((Text.mem_bytes_iff hascii).mp hb)
  simp only [endsTagName, Bool.not_eq_true', Bool.or_eq_false_iff, decide_eq_false_iff_not]
  exact ⟨⟨⟨⟨hne ' ' (by decide) (by decide) (by decide), hne '\t' (by decide) (by decide) (by decide)⟩,
    hne '\n' (by decide) (by decide) (by decide)⟩, hne '\r' (by decide) (by decide) (by decide)⟩,
    hne '>' (by decide) (by decide) (by decide)⟩

theorem isSpace_ascii {c : Char} (h : isSpace c = true) :
    c.toNat < 0x80 ∧ endsTagName (asciiByte c) = true := by
  simp only [isSpace, Bool.or_eq_true, beq_iff_eq] at h
  rcases h with ((rfl | rfl) | rfl) | rfl
  · decide
  · decide
  · decide
  · decide

/-- The name that is read off a tag; `tail` is what the tag ends in. -/
theorem takeWhile_tag (h : t.valid lex = true) {tail : List UInt8} :
    (t.fields = [] ∧ t.space = [] ∧ Text.bytes (tagBody t) ++ tail = Text.bytes t.name ++ tail)
      ∨ ¬ (t.fields = [] ∧ t.space = [])
        ∧ (Text.bytes (tagBody t) ++ tail).takeWhile (fun b => !endsTagName b)
          = Text.bytes t.name := by
  have hname : validName lex t.name = true := by
    simp only [Tag.valid, Bool.and_eq_true] at h
    exact h.1.1.1
  have hbody : tagBody t = t.name ++ (t.fields.flatMap Field.text ++ t.space) := by
    rw [tagBody, List.append_assoc]
  rcases after_name h with ⟨hnil, hf, hs⟩ | ⟨c, after, hafter, hc⟩
  · rw [hbody, hnil, List.append_nil]
    exact Or.inl ⟨hf, hs, rfl⟩
  · obtain ⟨hascii, hends⟩ := isSpace_ascii hc
    refine Or.inr ⟨?_, ?_⟩
    · rintro ⟨hf, hs⟩
      rw [hf, hs] at hafter
      cases hafter
    · rw [hbody, hafter, Text.bytes_append, Text.bytes_cons, Text.utf8EncodeChar_ascii hascii,
        List.append_assoc, List.append_assoc, List.singleton_append]
      exact takeWhile_stop (endsTagName_name hname) (by rw [hends]; rfl)

/-- What may follow a row: no closing tag, or one that its last element is not taken to open. -/
def Follows (lex : Lexicon) (f : Source) (R : List UInt8) : Prop :=
  ¬ [asciiByte '<', asciiByte '/'] <+: R
    ∨ ∃ n space rest, R = asciiByte '<' :: asciiByte '/' :: (Text.bytes (n ++ space)
        ++ asciiByte '>' :: rest)
      ∧ validName lex n = true ∧ space.all isSpace = true ∧ endsAlike n f = false

theorem closing_quiet {n space : List Char} (hname : validName lex n = true)
    (hspace : space.all isSpace = true) {c : Char} (hc : c ∈ nameStops) (hcolon : c ≠ ':')
    (hnot : isSpace c = false) (hascii : c.toNat < 0x80) :
    asciiByte c ∉ Text.bytes (n ++ space) := by
  rw [Text.mem_bytes_iff hascii, List.mem_append, not_or]
  exact ⟨name_not_mem hname hc hcolon, space_not_mem hspace hnot⟩

theorem valid_name (h : t.valid lex = true) : validName lex t.name = true := by
  simp only [Tag.valid, Bool.and_eq_true] at h
  exact h.1.1.1

theorem bytes_tagBody_lt (h : t.valid lex = true) : asciiByte '<' ∉ Text.bytes (tagBody t) :=
  fun hm => tagBody_lt h ((Text.mem_bytes_iff (by decide)).mp hm)

theorem bytes_tagBody_gt (h : t.valid lex = true) (hcalm : calmTag t = true) :
    asciiByte '>' ∉ Text.bytes (tagBody t) :=
  fun hm => tagBody_gt h hcalm ((Text.mem_bytes_iff (by decide)).mp hm)

/-- The first byte of a tag is the first of its name. -/
theorem tag_head (h : t.valid lex = true) (hcalm : calmTag t = true) (tail : List UInt8) :
    (Text.bytes (tagBody t) ++ tail).head?.all (fun b =>
      b != asciiByte '/' && b != asciiByte '!' && b != asciiByte '?') = true := by
  obtain ⟨c, after, hc⟩ := List.exists_cons_of_ne_nil (validName_ne_nil (valid_name h))
  rw [calmTag, hc, Bool.and_eq_true, List.head?_cons, Option.all_some, Bool.and_eq_true] at hcalm
  have hslash : c ≠ '/' := by
    rintro rfl
    exact name_not_mem (valid_name h) (by decide) (by decide) (hc ▸ List.mem_cons_self)
  -- an ASCII byte that leads the tag is the first character of its name
  have hfirst : ∀ d : Char, d.toNat < 0x80 → c ≠ d →
      (Text.bytes (tagBody t) ++ tail).head? ≠ some (asciiByte d) := by
    intro d hd hne hhead
    have hbody : tagBody t = c :: (after ++ t.fields.flatMap Field.text ++ t.space) := by
      rw [tagBody, hc, List.cons_append, List.cons_append]
    have hnil : Text.bytes (tagBody t) ≠ [] := by
      rw [hbody, Text.bytes_cons]
      exact fun h => String.utf8EncodeChar_ne_nil (List.append_eq_nil_iff.mp h).1
    rw [List.head?_append_of_ne_nil _ hnil] at hhead
    have hc' := Text.head?_bytes hd hhead
    rw [hbody, List.head?_cons, Option.some.injEq] at hc'
    exact hne hc'
  cases hb : (Text.bytes (tagBody t) ++ tail).head? with
  | none => rfl
  | some b =>
      rw [Option.all_some, Bool.and_eq_true, Bool.and_eq_true, bne_iff_ne, bne_iff_ne, bne_iff_ne]
      refine ⟨⟨?_, ?_⟩, ?_⟩
      · rintro rfl
        exact hfirst '/' (by decide) hslash hb
      · rintro rfl
        exact hfirst '!' (by decide) (bne_iff_ne.mp hcalm.1.1) hb
      · rintro rfl
        exact hfirst '?' (by decide) (bne_iff_ne.mp hcalm.1.2) hb

/-- A tag that ends in a slash is passed over. -/
theorem emptyElement?_selfClosed {i : NodeId} (h : t.valid lex = true)
    (hR : Follows lex (.node i t .nil .nil) R) :
    emptyElement? ((Text.bytes (tagBody t) ++ [asciiByte '/']).reverse ++ asciiByte '<' :: seen)
      (asciiByte '>' :: R) = none := by
  rcases hR with hR | ⟨n, space, rest, rfl, hn, hspace, halike⟩
  · exact emptyElement?_open hR _
  · have hlt : asciiByte '<' ∉ Text.bytes (tagBody t) ++ [asciiByte '/'] := by
      rw [List.mem_append, not_or]
      exact ⟨bytes_tagBody_lt h, by decide⟩
    rw [emptyElement?_eq hlt
      (closing_quiet hn hspace (by decide) (by decide) (by decide) (by decide)), if_neg]
    rintro ⟨-, -, -, htake⟩
    rcases @takeWhile_tag lex t h [asciiByte '/'] with ⟨-, -, hbare⟩ | ⟨hmore, hname⟩
    · -- the slash is taken for a part of the name
      have hslash : asciiByte '/' ∈ Text.bytes (n ++ space) := by
        rw [← htake, hbare]
        have hall : ∀ b ∈ Text.bytes t.name ++ [asciiByte '/'], (!endsTagName b) = true := by
          intro b hb
          rcases List.mem_append.mp hb with hb | hb
          · exact endsTagName_name (valid_name h) b hb
          · rw [List.mem_singleton.mp hb]
            decide
        rw [List.takeWhile_eq_self_iff.mpr hall]
        simp
      exact closing_quiet hn hspace (by decide) (by decide) (by decide) (by decide) hslash
    · -- the closing tag behind it has the same name, so the two are endsAlike
      rw [hname] at htake
      have hsame : t.name = n ++ space := Text.bytes_inj htake
      have hnil : space = [] := by
        cases hs : space with
        | nil => rfl
        | cons c after =>
            rw [hs] at hspace hsame
            have hc := List.all_eq_true.mp hspace c List.mem_cons_self
            have hmem : c ∈ t.name := by
              rw [hsame]
              simp
            have hends := (isSpace_ascii hc)
            have hnot := endsTagName_name (valid_name h) (asciiByte c)
              ((Text.mem_bytes_iff hends.1).mpr hmem)
            rw [hends.2] at hnot
            cases hnot
      rw [hnil, List.append_nil] at hsame
      rw [endsAlike, hsame, beq_self_eq_true, Bool.true_and, Bool.not_eq_false', Bool.and_eq_true,
        List.isEmpty_iff, List.isEmpty_iff] at halike
      exact hmore halike

/-- An opening tag with its closing tag right behind it. -/
theorem emptyElement?_pair {space : List Char} (h : t.valid lex = true) (hcalm : calmTag t = true)
    (hspace : space.all isSpace = true) :
    emptyElement? ((Text.bytes (tagBody t)).reverse ++ asciiByte '<' :: seen)
      (asciiByte '>' :: asciiByte '<' :: asciiByte '/'
        :: (Text.bytes (t.name ++ space) ++ asciiByte '>' :: R))
      = if space = [] then some (Text.bytes (t.name ++ space)).length else none := by
  have hn := valid_name h
  have htake : (Text.bytes (tagBody t)).takeWhile (fun b => !endsTagName b)
      = Text.bytes t.name := by
    rcases @takeWhile_tag lex t h [] with ⟨-, -, hbare⟩ | ⟨-, hname⟩
    · rw [List.append_nil, List.append_nil] at hbare
      rw [hbare, List.takeWhile_eq_self_iff.mpr (endsTagName_name hn)]
    · rw [List.append_nil] at hname
      exact hname
  have hhead := tag_head h hcalm []
  rw [List.append_nil] at hhead
  rw [emptyElement?_eq (bytes_tagBody_lt h)
    (closing_quiet hn hspace (by decide) (by decide) (by decide) (by decide)), htake, hhead]
  by_cases hs : space = []
  · subst hs
    have hne : Text.bytes (t.name ++ []) ≠ [] := by
      rw [List.append_nil]
      obtain ⟨c, after, hc⟩ := List.exists_cons_of_ne_nil (validName_ne_nil hn)
      rw [hc, Text.bytes_cons]
      exact fun h => String.utf8EncodeChar_ne_nil (List.append_eq_nil_iff.mp h).1
    have hall : (Text.bytes (t.name ++ [])).all
        (fun b => b != asciiByte ' ' && b != asciiByte '<') = true := by
      rw [List.all_eq_true]
      intro b hb
      rw [List.append_nil] at hb
      rw [Bool.and_eq_true, bne_iff_ne, bne_iff_ne]
      constructor
      · rintro rfl
        exact name_not_mem hn (by decide) (by decide) ((Text.mem_bytes_iff (by decide)).mp hb)
      · rintro rfl
        exact name_not_mem hn (by decide) (by decide) ((Text.mem_bytes_iff (by decide)).mp hb)
    rw [if_pos ⟨hne, hall, rfl, by rw [List.append_nil]⟩, if_pos rfl]
  · -- blanks in the closing tag: the comparison takes them for a part of the name
    rw [if_neg hs, if_neg]
    rintro ⟨-, -, -, hsame⟩
    have hlen := congrArg List.length (Text.bytes_inj hsame)
    rw [List.length_append] at hlen
    exact hs (List.eq_nil_of_length_eq_zero (by omega))

/-- The parts of calm markup. -/
structure MarkupParts (s body space : List Char) : Prop where
  text : s = '<' :: (body ++ '>' :: space)
  lt : '<' ∉ body
  gt : '>' ∉ body
  head : body.head? = some '!' ∨ body.head? = some '?'
  last : body.getLast? ≠ some '/'
  closed : openQuote none (Text.bytes body) = none
  space : space.all isSpace = true

theorem markupParts {s : List Char} (h : calmMarkup s = true) :
    ∃ body space, MarkupParts s body space := by
  simp only [calmMarkup, Bool.and_eq_true, Bool.or_eq_true, beq_iff_eq, bne_iff_ne,
    Bool.not_eq_true'] at h
  obtain ⟨⟨⟨⟨⟨htext, hlt⟩, hhead⟩, hlast⟩, hclosed⟩, hspace⟩ := h
  refine ⟨_, _, htext, fun hm => ?_, fun hm => ?_, hhead, hlast, hclosed, hspace⟩
  · rw [List.contains_iff_mem.mpr hm] at hlt
    cases hlt
  · have := List.mem_takeWhile_imp hm
    exact absurd rfl (bne_iff_ne.mp this)

theorem MarkupParts.head_byte {s body space : List Char} (h : MarkupParts s body space) :
    ∃ b, (Text.bytes body).head? = some b ∧ (b = asciiByte '/' ∨ b = asciiByte '!'
      ∨ b = asciiByte '?') := by
  rcases h.head with hh | hh
  · obtain ⟨after, rfl⟩ := List.head?_eq_some_iff.mp hh
    exact ⟨asciiByte '!', rfl, Or.inr (Or.inl rfl)⟩
  · obtain ⟨after, rfl⟩ := List.head?_eq_some_iff.mp hh
    exact ⟨asciiByte '?', rfl, Or.inr (Or.inr rfl)⟩

theorem first_char {s : List Char} {b : UInt8} (hs : s ≠ []) (h : [b] <+: Text.bytes s ++ R) :
    (Text.bytes s).head? = some b := by
  obtain ⟨tail, htail⟩ := h
  have hne : Text.bytes s ≠ [] := by
    obtain ⟨c, after, rfl⟩ := List.exists_cons_of_ne_nil hs
    rw [Text.bytes_cons]
    exact fun h => String.utf8EncodeChar_ne_nil (List.append_eq_nil_iff.mp h).1
  rw [← @List.head?_append_of_ne_nil _ (Text.bytes s) R hne, ← htail]
  rfl

/-- A row that is not empty does not start with a closing tag. -/
theorem row_not_closing {path : List (NodeId × Element)} {f : Source} (hp : Proper lex path f)
    (hcalm : calm f = true) (hne : f ≠ .nil) (R : List UInt8) :
    ¬ [asciiByte '<', asciiByte '/'] <+: Text.bytes (f.text spelling) ++ R := by
  -- markup is none, nor is a tag
  have hmarkup : ∀ s after R', s ≠ [] → s.head? ≠ some '/' →
      ¬ [asciiByte '<', asciiByte '/'] <+: Text.bytes ('<' :: (s ++ after)) ++ R' := by
    intro s after R' hs hslash hpre
    have hlt : Text.bytes ('<' :: (s ++ after)) = asciiByte '<' :: Text.bytes (s ++ after) := by
      rw [Text.bytes_cons, Text.utf8EncodeChar_ascii (by decide)]
      rfl
    rw [hlt, List.cons_append, List.cons_prefix_cons] at hpre
    have hhead := Text.head?_bytes (by decide)
      (first_char (fun h => hs (List.append_eq_nil_iff.mp h).1) hpre.2)
    rw [List.head?_append_of_ne_nil _ hs] at hhead
    exact hslash hhead
  cases f with
  | nil => exact absurd rfl hne
  | leaf i p rest =>
      obtain ⟨hvalid, -, -⟩ := hp
      rw [calm, Bool.and_eq_true] at hcalm
      rw [Forest.text_leaf, Text.bytes_append, List.append_assoc]
      have hother : calmMarkup p.written = true →
          ¬ [asciiByte '<', asciiByte '/'] <+: Text.bytes p.written
            ++ (Text.bytes (rest.text spelling) ++ R) := by
        intro hm
        obtain ⟨body, space, h⟩ := markupParts hm
        rw [h.text]
        refine hmarkup body _ _ ?_ ?_
        · rintro rfl
          exact h.head.elim (by simp) (by simp)
        · rcases h.head with hh | hh
          · rw [hh]
            decide
          · rw [hh]
            decide
      cases p with
      | text raw =>
          have hraw := hvalid
          rw [Piece.valid] at hraw
          intro hpre
          have hfirst := Text.head?_bytes (by decide) (first_char (lex.text_ne_nil _ hraw)
            ((List.prefix_append [asciiByte '<'] [asciiByte '/']).trans hpre))
          exact lex.text_chars _ hraw (List.mem_of_head? hfirst)
      | cdata raw => exact hother hcalm.1
      | comment raw => exact hother hcalm.1
      | instruction raw => exact hother hcalm.1
      | declaration raw => exact hother hcalm.1
  | node i t kids rest =>
      obtain ⟨htag, -, -, -⟩ := hp
      rw [properTag, Bool.and_eq_true, Bool.and_eq_true] at htag
      have hn := valid_name htag.1.1
      rw [Forest.text_node, nodeText_eq, Text.bytes_append, List.append_assoc]
      refine hmarkup t.name _ _ (validName_ne_nil hn) fun hslash => ?_
      exact name_not_mem hn (by decide) (by decide) (List.mem_of_head? hslash)

theorem bytes_bracket (s : List Char) (tail : List Char) :
    Text.bytes ('<' :: (s ++ '>' :: tail))
      = asciiByte '<' :: (Text.bytes s ++ [asciiByte '>']) ++ Text.bytes tail := by
  rw [Text.bytes_cons, Text.bytes_append, Text.bytes_cons, Text.utf8EncodeChar_ascii (by decide),
    Text.utf8EncodeChar_ascii (by decide)]
  simp only [List.cons_append, List.append_assoc, List.nil_append]

/-- A piece is passed over. -/
theorem Writes.piece {p : Piece} (hvalid : p.valid lex = true) (hcalm : calmPiece p = true)
    (R : List UInt8) : Writes seen (Text.bytes p.written) (Text.bytes p.written) R := by
  have hother : calmMarkup p.written = true →
      Writes seen (Text.bytes p.written) (Text.bytes p.written) R := by
    intro hm
    obtain ⟨body, space, h⟩ := markupParts hm
    obtain ⟨b, hhead, hb⟩ := h.head_byte
    have hlt : asciiByte '<' ∉ Text.bytes body :=
      fun hm => h.lt ((Text.mem_bytes_iff (by decide)).mp hm)
    have hgt : asciiByte '>' ∉ Text.bytes body :=
      fun hm => h.gt ((Text.mem_bytes_iff (by decide)).mp hm)
    have hspace : asciiByte '>' ∉ Text.bytes space :=
      fun hm => space_not_mem h.space (by decide) ((Text.mem_bytes_iff (by decide)).mp hm)
    rw [h.text, bytes_bracket]
    exact (Writes.markup hgt (emptyElement?_head hlt hhead hb _)).append (Writes.quiet hspace R)
  cases p with
  | text raw =>
      refine Writes.quiet (fun hm => ?_) R
      have hgt : '>' ∈ raw := (Text.mem_bytes_iff (by decide)).mp hm
      rw [calmPiece, List.contains_iff_mem.mpr hgt] at hcalm
      cases hcalm
  | cdata raw => exact hother hcalm
  | comment raw => exact hother hcalm
  | instruction raw => exact hother hcalm
  | declaration raw => exact hother hcalm

/-- An opening tag with its bracket, before anything that does not close it. -/
theorem Writes.opening (h : t.valid lex = true) (hcalm : calmTag t = true)
    (hnone : ∀ seen, emptyElement? ((Text.bytes (tagBody t)).reverse ++ asciiByte '<' :: seen)
      (asciiByte '>' :: R) = none) :
    Writes seen (Text.bytes ('<' :: (tagBody t ++ ['>']))) (Text.bytes ('<' :: (tagBody t ++ ['>'])))
      R := by
  rw [bytes_bracket, Text.bytes_nil, List.append_nil]
  exact Writes.markup (bytes_tagBody_gt h hcalm) (hnone seen)

theorem Writes.closing {space : List Char} (h : t.valid lex = true)
    (hspace : space.all isSpace = true) (R : List UInt8) :
    Writes seen (Text.bytes ('<' :: '/' :: (t.name ++ space ++ ['>'])))
      (Text.bytes ('<' :: '/' :: (t.name ++ space ++ ['>']))) R := by
  have hn := valid_name h
  have hbody : '<' :: '/' :: (t.name ++ space ++ ['>']) = '<' :: ('/' :: (t.name ++ space) ++ ['>']) :=
    rfl
  have hslash : Text.bytes ('/' :: (t.name ++ space))
      = asciiByte '/' :: Text.bytes (t.name ++ space) := by
    rw [Text.bytes_cons, Text.utf8EncodeChar_ascii (by decide)]
    rfl
  have hlt : asciiByte '<' ∉ Text.bytes ('/' :: (t.name ++ space)) := by
    rw [hslash, List.mem_cons, not_or]
    exact ⟨by decide, closing_quiet hn hspace (by decide) (by decide) (by decide) (by decide)⟩
  have hgt : asciiByte '>' ∉ Text.bytes ('/' :: (t.name ++ space)) := by
    rw [hslash, List.mem_cons, not_or]
    exact ⟨by decide, closing_quiet hn hspace (by decide) (by decide) (by decide) (by decide)⟩
  rw [hbody, bytes_bracket, Text.bytes_nil, List.append_nil]
  exact Writes.markup hgt (emptyElement?_head hlt (by rw [hslash]; rfl) (Or.inl rfl) R)

theorem endsAlike_rest {n : List Char} {i : NodeId} {kids rest : Source} (hne : rest ≠ .nil) :
    endsAlike n (.node i t kids rest) = endsAlike n rest := by
  cases rest with
  | nil => exact absurd rfl hne
  | leaf j p rest => cases kids <;> rfl
  | node j t' kids' rest => cases kids <;> rfl

/-- What follows an element of a row. -/
theorem Follows.element {path : List (NodeId × Element)} {i : NodeId} {kids rest : Source}
    (h : Follows lex (.node i t kids rest) R) (hp : Proper lex path rest)
    (hcalm : calm rest = true) :
    Follows lex (.node i t kids .nil) (Text.bytes (rest.text spelling) ++ R) := by
  by_cases hne : rest = .nil
  · subst hne
    exact h
  · exact Or.inl (row_not_closing hp hcalm hne R)

/-- What follows the end of a row. -/
theorem Follows.last {i : NodeId} {kids rest : Source} (h : Follows lex (.node i t kids rest) R)
    (hne : rest ≠ .nil) : Follows lex rest R := by
  rcases h with h | ⟨n, space, more, hR, hn, hspace, halike⟩
  · exact Or.inl h
  · rw [endsAlike_rest hne] at halike
    exact Or.inr ⟨n, space, more, hR, hn, hspace, halike⟩

theorem bytes_closing {space : List Char} (rest : List UInt8) :
    Text.bytes ('<' :: '/' :: (t.name ++ space ++ ['>'])) ++ rest
      = asciiByte '<' :: asciiByte '/' :: (Text.bytes (t.name ++ space) ++ asciiByte '>' :: rest) := by
  simp only [Text.bytes_cons, Text.bytes_append, Text.bytes_nil, List.append_nil]
  rw [Text.utf8EncodeChar_ascii (by decide), Text.utf8EncodeChar_ascii (by decide),
    Text.utf8EncodeChar_ascii (by decide)]
  simp only [List.cons_append, List.append_assoc, List.nil_append]

/-- **The first rewriter closes the elements without content**, and leaves all else as it is. -/
theorem closedEmpty_run {path : List (NodeId × Element)} {f : Source} (hp : Proper lex path f)
    (hcalm : calm f = true) (hun : unmistaken f = true) (hR : Follows lex f R) :
    Writes seen (Text.bytes (f.text spelling)) (Text.bytes ((respelled closedTag f).text spelling))
      R := by
  induction f generalizing path R seen with
  | nil => exact Writes.nil R
  | leaf i p rest ih =>
      obtain ⟨hvalid, -, hrest⟩ := hp
      rw [calm, Bool.and_eq_true] at hcalm
      rw [respelled, Forest.text_leaf, Forest.text_leaf, Text.bytes_append, Text.bytes_append]
      exact (Writes.piece hvalid hcalm.1 _).append (ih hrest hcalm.2 hun hR)
  | node i t kids rest ihk ihr =>
      obtain ⟨htag, hnone, hkids, hrest⟩ := hp
      rw [properTag, Bool.and_eq_true, Bool.and_eq_true] at htag
      have ht := htag.1.1
      rw [calm, Bool.and_eq_true, Bool.and_eq_true] at hcalm
      obtain ⟨⟨hcalmTag, hcalmKids⟩, hcalmRest⟩ := hcalm
      rw [unmistaken, Bool.and_eq_true, Bool.and_eq_true, Bool.not_eq_true'] at hun
      obtain ⟨⟨halike, hunKids⟩, hunRest⟩ := hun
      have hafter := hR.element hrest hcalmRest
      -- the element, before the rest of the row
      have helement : Writes seen (Text.bytes (Forest.nodeText spelling t kids))
          (Text.bytes (Forest.nodeText spelling (closedTag kids t) (respelled closedTag kids)))
          (Text.bytes (rest.text spelling) ++ R) := by
        have hspaces : ∀ space, t.close = some space → space.all isSpace = true := by
          intro space hclose
          simp only [Tag.valid, Bool.and_eq_true] at ht
          have hall := ht.2
          rw [hclose, Option.all_some] at hall
          exact hall
        cases hclose : t.close with
        | none =>
            -- closed at once already: the rewriter must not take it for an opening tag
            have hkidless := hnone hclose
            subst hkidless
            have htext : Forest.nodeText spelling t (.nil : Source)
                = '<' :: ((tagBody t ++ ['/']) ++ '>' :: []) := by
              show t.opening ++ [] ++ t.closing = _
              rw [Tag.opening, Tag.closing, hclose, start_eq]
              simp
            have hsame : closedTag .nil t = t := by
              rw [closedTag, hclose]
              rfl
            have hslash : Text.bytes (tagBody t ++ ['/'])
                = Text.bytes (tagBody t) ++ [asciiByte '/'] := by
              rw [Text.bytes_append, Text.bytes_cons, Text.utf8EncodeChar_ascii (by decide)]
              rfl
            have hgt : asciiByte '>' ∉ Text.bytes (tagBody t) ++ [asciiByte '/'] := by
              rw [List.mem_append, not_or]
              exact ⟨bytes_tagBody_gt ht hcalmTag, by decide⟩
            rw [hsame, respelled, htext, bytes_bracket, Text.bytes_nil, List.append_nil, hslash]
            exact Writes.markup hgt (emptyElement?_selfClosed ht hafter)
        | some space =>
            have hspace := hspaces space hclose
            have htext : Forest.nodeText spelling t kids = '<' :: (tagBody t ++ ['>'])
                ++ kids.text spelling ++ ('<' :: '/' :: (t.name ++ space ++ ['>'])) := by
              show t.opening ++ _ ++ t.closing = _
              rw [Tag.opening, Tag.closing, hclose, start_eq]
              rfl
            by_cases hkidless : kids = .nil
            · subst hkidless
              rw [Forest.text_nil, List.append_nil] at htext
              by_cases hs : space = []
              · -- `<t></t>`: the one form that is written anew
                subst hs
                have hnew : Forest.nodeText spelling (closedTag .nil t) (respelled closedTag .nil)
                    = '<' :: (tagBody t ++ ['/', '>']) := by
                  rw [closedTag, if_pos hclose, respelled]
                  show Tag.opening { t with close := none } ++ []
                    ++ Tag.closing { t with close := none } = _
                  rw [Tag.opening, Tag.closing, start_eq]
                  simp [tagBody]
                have hpair := @emptyElement?_pair lex seen (Text.bytes (rest.text spelling) ++ R) t []
                  ht hcalmTag rfl
                rw [if_pos rfl] at hpair
                have hwrites := Writes.element (bytes_tagBody_gt ht hcalmTag) hpair
                rw [htext, hnew]
                simp only [Text.bytes_cons, Text.bytes_append, Text.bytes_nil, List.append_nil,
                  List.append_assoc, List.cons_append] at hwrites ⊢
                rw [Text.utf8EncodeChar_ascii (by decide), Text.utf8EncodeChar_ascii (by decide),
                  Text.utf8EncodeChar_ascii (by decide)]
                exact hwrites
              · have hsame : closedTag .nil t = t := by
                  rw [closedTag, hclose, if_neg fun h => hs (Option.some.inj h)]
                rw [hsame, respelled, htext, Text.bytes_append]
                refine (Writes.opening ht hcalmTag fun seen => ?_).append (Writes.closing ht hspace _)
                rw [bytes_closing, emptyElement?_pair ht hcalmTag hspace, if_neg hs]
            · have hsame : closedTag kids t = t := by
                cases kids with
                | nil => exact absurd rfl hkidless
                | leaf => rfl
                | node => rfl
              have hnew : Forest.nodeText spelling t (respelled closedTag kids)
                  = '<' :: (tagBody t ++ ['>']) ++ (respelled closedTag kids).text spelling
                  ++ ('<' :: '/' :: (t.name ++ space ++ ['>'])) := by
                show t.opening ++ _ ++ t.closing = _
                rw [Tag.opening, Tag.closing, hclose, start_eq]
                rfl
              rw [hsame, htext, hnew, Text.bytes_append, Text.bytes_append, Text.bytes_append,
                Text.bytes_append]
              refine ((Writes.opening ht hcalmTag fun seen => ?_).append
                (ihk hkids hcalmKids hunKids ?_)).append (Writes.closing ht hspace _)
              · exact emptyElement?_open (row_not_closing hkids hcalmKids hkidless _) _
              · exact Or.inr ⟨t.name, space, _, bytes_closing _, valid_name ht, hspace, halike⟩
      rw [respelled, Forest.text_node, Forest.text_node, Text.bytes_append, Text.bytes_append]
      refine helement.append ?_
      by_cases hne : rest = .nil
      · subst hne
        exact Writes.nil R
      · exact ihr hrest hcalmRest hunRest (hR.last hne)

end Closing

/-! ## The blank before the end of an empty tag -/

section Tightening

variable {lex : Lexicon} {w w' R : List UInt8} {t : Tag}

/-- The scan goes over `w` and writes `w'`, outside of tags before and after. -/
def Tightens (w w' R : List UInt8) : Prop :=
  normalizeSpaceFrom .text (w ++ R) = w' ++ normalizeSpaceFrom .text R

theorem Tightens.append {v v' : List UInt8} (h : Tightens w w' (v ++ R)) (h' : Tightens v v' R) :
    Tightens (w ++ v) (w' ++ v') R := by
  rw [Tightens, List.append_assoc, h, h', List.append_assoc]

theorem Tightens.text (h : asciiByte '<' ∉ w) (R : List UInt8) : Tightens w w R :=
  normalizeSpace_text h

/-- A pair of angle brackets without a slash before its end. -/
theorem Tightens.markup {body : List UInt8} (hgt : asciiByte '>' ∉ body)
    (hlast : body.getLast? ≠ some (asciiByte '/')) (hclosed : openQuote none body = none)
    (R : List UInt8) :
    Tightens (asciiByte '<' :: (body ++ [asciiByte '>'])) (asciiByte '<' :: (body ++ [asciiByte '>']))
      R := by
  have hbody := @normalizeSpace_tag body (asciiByte '>' :: R) none hgt
    (fun _ hpre => absurd (List.cons_prefix_cons.mp hpre).1 (by decide))
    (fun h => absurd h hlast)
  rw [hclosed] at hbody
  rw [Tightens, List.cons_append, List.append_assoc, List.singleton_append, normalizeSpaceFrom,
    if_pos rfl]
  rw [inTag] at hbody
  rw [hbody, normalizeSpaceFrom, if_neg (by decide), if_pos rfl]
  simp only [List.cons_append, List.append_assoc, List.nil_append]

/-- The end of an empty tag. -/
theorem normalizeSpace_end (R : List UInt8) :
    normalizeSpaceFrom .tag (asciiByte '/' :: asciiByte '>' :: R)
      = asciiByte '/' :: asciiByte '>' :: normalizeSpaceFrom .text R := by
  rw [normalizeSpaceFrom, if_neg (by decide), if_neg (by decide),
    if_neg (fun h => absurd h.1 (by decide)), normalizeSpaceFrom, if_neg (by decide), if_pos rfl]

/-- An empty tag without a blank before its end. -/
theorem Tightens.selfClosed {body : List UInt8} (hgt : asciiByte '>' ∉ body)
    (hlast : body.getLast? ≠ some (asciiByte ' ')) (hclosed : openQuote none body = none)
    (R : List UInt8) :
    Tightens (asciiByte '<' :: (body ++ [asciiByte '/', asciiByte '>']))
      (asciiByte '<' :: (body ++ [asciiByte '/', asciiByte '>'])) R := by
  have hbody := @normalizeSpace_tag body (asciiByte '/' :: asciiByte '>' :: R) none hgt
    (fun h => absurd h hlast) (fun _ h => absurd (Option.some.inj h) (by decide))
  rw [hclosed, inTag] at hbody
  rw [Tightens, List.cons_append, List.append_assoc, List.cons_append, List.singleton_append,
    normalizeSpaceFrom, if_pos rfl, hbody, normalizeSpace_end]
  simp only [List.cons_append, List.append_assoc, List.nil_append]

/-- An empty tag with one. -/
theorem Tightens.blank {body : List UInt8} (hgt : asciiByte '>' ∉ body)
    (hclosed : openQuote none body = none) (R : List UInt8) :
    Tightens (asciiByte '<' :: (body ++ [asciiByte ' ', asciiByte '/', asciiByte '>']))
      (asciiByte '<' :: (body ++ [asciiByte '/', asciiByte '>'])) R := by
  have hbody := @normalizeSpace_tag body (asciiByte ' ' :: asciiByte '/' :: asciiByte '>' :: R) none
    hgt (fun _ hpre => absurd (List.cons_prefix_cons.mp hpre).1 (by decide))
    (fun _ h => absurd (Option.some.inj h) (by decide))
  rw [hclosed, inTag] at hbody
  have hdrop : normalizeSpaceFrom .tag (asciiByte ' ' :: asciiByte '/' :: asciiByte '>' :: R)
      = normalizeSpaceFrom .tag (asciiByte '/' :: asciiByte '>' :: R) := by
    rw [normalizeSpaceFrom, if_neg (by decide), if_neg (by decide), if_pos ⟨rfl, rfl⟩]
  rw [Tightens, List.cons_append, List.append_assoc, List.cons_append, List.cons_append,
    List.singleton_append, normalizeSpaceFrom, if_pos rfl, hbody, hdrop, normalizeSpace_end]
  simp only [List.cons_append, List.append_assoc, List.nil_append]

theorem Tightens.piece {p : Piece} (hvalid : p.valid lex = true) (hcalm : calmPiece p = true)
    (R : List UInt8) : Tightens (Text.bytes p.written) (Text.bytes p.written) R := by
  have hother : calmMarkup p.written = true →
      Tightens (Text.bytes p.written) (Text.bytes p.written) R := by
    intro hm
    obtain ⟨body, space, h⟩ := markupParts hm
    have hgt : asciiByte '>' ∉ Text.bytes body :=
      fun hm => h.gt ((Text.mem_bytes_iff (by decide)).mp hm)
    have hspace : asciiByte '<' ∉ Text.bytes space :=
      fun hm => space_not_mem h.space (by decide) ((Text.mem_bytes_iff (by decide)).mp hm)
    rw [h.text, bytes_bracket]
    exact (Tightens.markup hgt (fun hl => h.last (Text.getLast?_bytes (by decide) hl)) h.closed
      _).append (Tightens.text hspace R)
  cases p with
  | text raw =>
      rw [Piece.valid] at hvalid
      exact Tightens.text
        (fun hm => lex.text_chars _ hvalid ((Text.mem_bytes_iff (by decide)).mp hm)) R
  | cdata raw => exact hother hcalm
  | comment raw => exact hother hcalm
  | instruction raw => exact hother hcalm
  | declaration raw => exact hother hcalm

theorem tagBody_last (h : t.valid lex = true) : (tagBody t).getLast? ≠ some '/' := by
  intro hl
  refine Tag.start_getLast h ?_
  rw [start_eq]
  obtain ⟨front, hfront⟩ := List.getLast?_eq_some_iff.mp hl
  rw [hfront, ← List.cons_append, List.getLast?_concat]

/-- A tag without white space at its end does not end in a blank. -/
theorem tagBody_no_blank (h : t.valid lex = true) (hspace : t.space = []) :
    (tagBody t).getLast? ≠ some ' ' := by
  rw [tagBody, hspace, List.append_nil]
  intro hl
  cases hf : (t.fields.flatMap Field.text).getLast? with
  | some c =>
      rw [List.getLast?_append, hf, Option.some_or, Option.some.injEq] at hl
      subst hl
      obtain ⟨f, hmem, hquote⟩ := exists_quote hf
      simp only [Tag.valid, Bool.and_eq_true] at h
      have hparts := fieldParts (List.all_eq_true.mp h.1.1.2 f hmem)
      exact quote_ne hparts (by decide) (by decide) hquote.symm
  | none =>
      rw [List.getLast?_append, hf, Option.none_or] at hl
      exact name_not_mem (valid_name h) (by decide) (by decide) (List.mem_of_getLast? hl)

theorem tightTag_valid (h : t.valid lex = true) : (tightTag t).valid lex = true := by
  rw [tightTag]
  split
  · simp only [Tag.valid, Bool.and_eq_true] at h ⊢
    refine ⟨⟨h.1.1, ?_⟩, h.2⟩
    exact List.all_eq_true.mpr fun c hc =>
      List.all_eq_true.mp h.1.2 c (List.mem_of_mem_dropLast hc)
  · exact h

/-- The tag of an element without content in one tag. -/
theorem Tightens.tag (h : t.valid lex = true) (hcalm : calmTag t = true) (hclose : t.close = none)
    (R : List UInt8) :
    Tightens (Text.bytes ('<' :: (tagBody t ++ ['/', '>'])))
      (Text.bytes ('<' :: (tagBody (tightTag t) ++ ['/', '>']))) R := by
  have hbytes : ∀ s : List Char, Text.bytes ('<' :: (s ++ ['/', '>']))
      = asciiByte '<' :: (Text.bytes s ++ [asciiByte '/', asciiByte '>']) := by
    intro s
    rw [Text.bytes_cons, Text.bytes_append, Text.bytes_cons, Text.bytes_cons,
      Text.utf8EncodeChar_ascii (by decide), Text.utf8EncodeChar_ascii (by decide),
      Text.utf8EncodeChar_ascii (by decide)]
    rfl
  have hgt := bytes_tagBody_gt (t := t) h hcalm
  rw [hbytes, hbytes]
  by_cases hblank : t.space.getLast? = some ' '
  · -- one blank goes, also where there are several
    have htight : tightTag t = { t with space := t.space.dropLast } := if_pos ⟨hclose, hblank⟩
    obtain ⟨front, hfront⟩ := List.getLast?_eq_some_iff.mp hblank
    have hbody : tagBody t = tagBody (tightTag t) ++ [' '] := by
      rw [htight, tagBody, tagBody, hfront, List.dropLast_concat]
      simp only [List.append_assoc]
    have hclosed := openQuote_tagBody (tightTag_valid h)
    rw [hbody, Text.bytes_append, Text.bytes_cons, Text.utf8EncodeChar_ascii (by decide)] at hgt
    rw [hbody, Text.bytes_append, Text.bytes_cons, Text.utf8EncodeChar_ascii (by decide),
      List.append_assoc]
    exact Tightens.blank (fun hm => hgt (List.mem_append_left _ hm)) hclosed R
  · have htight : tightTag t = t := if_neg fun hc => hblank hc.2
    rw [htight]
    refine Tightens.selfClosed hgt (fun hl => ?_) (openQuote_tagBody h) R
    have hlast := Text.getLast?_bytes (by decide) hl
    by_cases hs : t.space = []
    · exact tagBody_no_blank h hs hlast
    · rw [tagBody, List.getLast?_append_of_ne_nil _ hs] at hlast
      exact hblank hlast

/-- **The second rewriter takes the blanks before the ends of empty tags away**, and leaves all
else as it is. -/
theorem tightened_run {path : List (NodeId × Element)} {f : Source} (hp : Proper lex path f)
    (hcalm : calm f = true) (R : List UInt8) :
    Tightens (Text.bytes (f.text spelling))
      (Text.bytes ((respelled (fun _ => tightTag) f).text spelling)) R := by
  induction f generalizing path R with
  | nil => exact Eq.refl _
  | leaf i p rest ih =>
      obtain ⟨hvalid, -, hrest⟩ := hp
      rw [calm, Bool.and_eq_true] at hcalm
      rw [respelled, Forest.text_leaf, Forest.text_leaf, Text.bytes_append, Text.bytes_append]
      exact (Tightens.piece hvalid hcalm.1 _).append (ih hrest hcalm.2 R)
  | node i t kids rest ihk ihr =>
      obtain ⟨htag, hnone, hkids, hrest⟩ := hp
      rw [properTag, Bool.and_eq_true, Bool.and_eq_true] at htag
      have ht := htag.1.1
      rw [calm, Bool.and_eq_true, Bool.and_eq_true] at hcalm
      obtain ⟨⟨hcalmTag, hcalmKids⟩, hcalmRest⟩ := hcalm
      rw [respelled, Forest.text_node, Forest.text_node, Text.bytes_append, Text.bytes_append]
      refine Tightens.append ?_ (ihr hrest hcalmRest R)
      cases hclose : t.close with
      | none =>
          -- closed at once: only the blank before the end of the tag may go
          have hkidless := hnone hclose
          subst hkidless
          have htext : ∀ t' : Tag, t'.close = none →
              Forest.nodeText spelling t' (.nil : Source) = '<' :: (tagBody t' ++ ['/', '>']) := by
            intro t' hclose'
            show t'.opening ++ [] ++ t'.closing = _
            rw [Tag.opening, Tag.closing, hclose', start_eq]
            simp only [List.cons_append, List.append_nil]
          have hstill : (tightTag t).close = none := by
            rw [tightTag]
            split
            · exact hclose
            · exact hclose
          rw [respelled, htext t hclose, htext _ hstill]
          exact Tightens.tag ht hcalmTag hclose _
      | some space =>
          -- a pair of tags stays as it is, and what is between them is rewritten
          have hsame : tightTag t = t := by
            rw [tightTag, hclose]
            exact if_neg fun h => by cases h.1
          have hspace : space.all isSpace = true := by
            simp only [Tag.valid, Bool.and_eq_true] at ht
            have hall := ht.2
            rw [hclose, Option.all_some] at hall
            exact hall
          have htext : ∀ kids' : Source, Forest.nodeText spelling t kids'
              = '<' :: (tagBody t ++ '>' :: []) ++ kids'.text spelling
                ++ ('<' :: (('/' :: (t.name ++ space)) ++ '>' :: [])) := by
            intro kids'
            show t.opening ++ _ ++ t.closing = _
            rw [Tag.opening, Tag.closing, hclose, start_eq]
            rfl
          have hn := valid_name ht
          have hmem : ∀ c ∈ nameStops, c ≠ ':' → isSpace c = false → c ≠ '/' →
              c ∉ '/' :: (t.name ++ space) := by
            intro c hc hcolon hnot hne
            rw [List.mem_cons, List.mem_append, not_or, not_or]
            exact ⟨hne, name_not_mem hn hc hcolon, space_not_mem hspace hnot⟩
          have hlast : ('/' :: (t.name ++ space)).getLast? ≠ some '/' := by
            intro hl
            have hne : t.name ++ space ≠ [] :=
              fun h => validName_ne_nil hn (List.append_eq_nil_iff.mp h).1
            rw [← List.singleton_append, List.getLast?_append_of_ne_nil _ hne] at hl
            rcases List.mem_append.mp (List.mem_of_getLast? hl) with hm | hm
            · exact name_not_mem hn (by decide) (by decide) hm
            · exact space_not_mem hspace (by decide) hm
          rw [hsame, htext, htext, Text.bytes_append, Text.bytes_append, Text.bytes_append,
            Text.bytes_append, bytes_bracket, bytes_bracket, Text.bytes_nil, List.append_nil,
            List.append_nil]
          refine Tightens.append (Tightens.append ?_ (ihk hkids hcalmKids _)) ?_
          · exact Tightens.markup (bytes_tagBody_gt ht hcalmTag)
              (fun hl => tagBody_last ht (Text.getLast?_bytes (by decide) hl))
              (openQuote_tagBody ht) _
          · refine Tightens.markup (fun hm => ?_)
              (fun hl => hlast (Text.getLast?_bytes (by decide) hl))
              (openQuote_chars (hmem _ (by decide) (by decide) (by decide) (by decide))
                (hmem _ (by decide) (by decide) (by decide) (by decide))) _
            exact hmem _ (by decide) (by decide) (by decide) (by decide)
              ((Text.mem_bytes_iff (by decide)).mp hm)

end Tightening

/-! ## What stays -/

section Respelled

variable {lex : Lexicon} {path : List (NodeId × Element)} {f f' f'' : Source}

/-- Of a tag above the row `kids` only white space and the form it ends in are spelled in another
way. -/
structure TagKept (lex : Lexicon) (kids : Source) (t t' : Tag) : Prop where
  name : t'.name = t.name
  fields : t'.fields = t.fields
  valid : t.valid lex = true → t'.valid lex = true
  close : t'.close = none → t.close = none ∨ kids = .nil
  space : t.space = [] → t'.space = []

/-- One row is another spelling of the other. -/
inductive Respelled (lex : Lexicon) : Source → Source → Prop
  | nil : Respelled lex .nil .nil
  | leaf (i : NodeId) (p : Piece) {rest rest' : Source} (hr : Respelled lex rest rest') :
      Respelled lex (.leaf i p rest) (.leaf i p rest')
  | node (i : NodeId) {t t' : Tag} {kids kids' rest rest' : Source} (ht : TagKept lex kids t t')
      (hk : Respelled lex kids kids') (hr : Respelled lex rest rest') :
      Respelled lex (.node i t kids rest) (.node i t' kids' rest')

theorem TagKept.refl (lex : Lexicon) (kids : Source) (t : Tag) : TagKept lex kids t t :=
  ⟨rfl, rfl, id, Or.inl, id⟩

theorem tagKept_closedTag (lex : Lexicon) (kids : Source) (t : Tag) :
    TagKept lex kids t (closedTag kids t) := by
  cases kids with
  | leaf => exact TagKept.refl lex _ t
  | node => exact TagKept.refl lex _ t
  | nil =>
      rw [closedTag]
      split
      · refine ⟨rfl, rfl, fun hv => ?_, fun _ => Or.inr rfl, id⟩
        simp only [Tag.valid, Bool.and_eq_true] at hv ⊢
        exact ⟨hv.1, rfl⟩
      · exact TagKept.refl lex _ t

theorem tagKept_tightTag (lex : Lexicon) (kids : Source) (t : Tag) :
    TagKept lex kids t (tightTag t) := by
  have hvalid := @tightTag_valid lex t
  rw [tightTag] at hvalid ⊢
  split
  · rename_i hblank
    rw [if_pos hblank] at hvalid
    refine ⟨rfl, rfl, hvalid, Or.inl, fun hspace => ?_⟩
    rw [hspace]
    rfl
  · exact TagKept.refl lex _ t

theorem Respelled.refl (lex : Lexicon) (f : Source) : Respelled lex f f := by
  induction f with
  | nil => exact .nil
  | leaf i p rest ih => exact .leaf i p ih
  | node i t kids rest ihk ihr => exact .node i (TagKept.refl lex kids t) ihk ihr

theorem respelled_by {g : Source → Tag → Tag} (hg : ∀ kids t, TagKept lex kids t (g kids t))
    (f : Source) : Respelled lex f (respelled g f) := by
  induction f with
  | nil => exact .nil
  | leaf i p rest ih => exact .leaf i p ih
  | node i t kids rest ihk ihr => exact .node i (hg kids t) ihk ihr

theorem Respelled.eq_nil (h : Respelled lex f f') : f' = .nil ↔ f = .nil := by
  cases h with
  | nil => exact Iff.rfl
  | leaf => exact iff_of_false (fun h => by cases h) (fun h => by cases h)
  | node => exact iff_of_false (fun h => by cases h) (fun h => by cases h)

theorem Respelled.trans (h : Respelled lex f f') (h' : Respelled lex f' f'') :
    Respelled lex f f'' := by
  induction h generalizing f'' with
  | nil => exact h'
  | leaf i p _ ih =>
      cases h' with
      | leaf _ _ hr' => exact .leaf i p (ih hr')
  | node i ht hk _ ihk ihr =>
      cases h' with
      | node _ ht' hk' hr' =>
          refine .node i ⟨ht'.name.trans ht.name, ht'.fields.trans ht.fields,
            fun hv => ht'.valid (ht.valid hv), fun hc => ?_, fun hs => ht'.space (ht.space hs)⟩
            (ihk hk') (ihr hr')
          rcases ht'.close hc with hc' | hnil
          · exact ht.close hc'
          · exact Or.inr (hk.eq_nil.mp hnil)

theorem elementOf_kept {kids : Source} {t t' : Tag} (h : TagKept lex kids t t') :
    elementOf lex path t' = elementOf lex path t := by
  rw [elementOf, elementOf, scopeOf, scopeOf, declarationsOf, declarationsOf, h.name, h.fields]

/-- **The tree of a document does not depend on such spelling.** -/
theorem Respelled.treeOf_eq (h : Respelled lex f f') : treeOf lex path f' = treeOf lex path f := by
  induction h generalizing path with
  | nil => rfl
  | leaf i p _ ih => rw [treeOf, treeOf, ih]
  | node i ht _ _ ihk ihr => rw [treeOf, treeOf, elementOf_kept ht, ihk, ihr]

theorem Respelled.startsWithText_eq (h : Respelled lex f f') :
    startsWithText f' = startsWithText f := by
  cases h <;> rfl

theorem Respelled.proper (h : Respelled lex f f') (hp : Proper lex path f) :
    Proper lex path f' := by
  induction h generalizing path with
  | nil => exact trivial
  | leaf i p hr ih =>
      obtain ⟨hvalid, htext, hrest⟩ := hp
      refine ⟨hvalid, ?_, ih hrest⟩
      rw [hr.startsWithText_eq]
      exact htext
  | @node i t t' kids kids' rest rest' ht hk hr ihk ihr =>
      obtain ⟨htag, hnone, hkids, hrest⟩ := hp
      refine ⟨?_, fun hclose => ?_, ?_, ihr hrest⟩
      · rw [properTag, Bool.and_eq_true, Bool.and_eq_true] at htag ⊢
        have hscope : scopeOf lex path t' = scopeOf lex path t := by
          rw [scopeOf, scopeOf, declarationsOf, declarationsOf, ht.fields]
        refine ⟨⟨ht.valid htag.1.1, ?_⟩, ?_⟩
        · rw [prefixesBound, ht.name, ht.fields, hscope]
          exact htag.1.2
        · rw [fieldsApart, elementOf_kept ht]
          exact htag.2
      · rcases ht.close hclose with hc | hc
        · exact hk.eq_nil.mpr (hnone hc)
        · exact hk.eq_nil.mpr hc
      · rw [elementOf_kept ht]
        exact ihk hkids

theorem Respelled.calm_eq (h : Respelled lex f f') : calm f' = calm f := by
  induction h with
  | nil => rfl
  | leaf i p _ ih => rw [calm, calm, ih]
  | node i ht _ _ ihk ihr => rw [calm, calm, calmTag, calmTag, ht.name, ht.fields, ihk, ihr]

/-- No tag gets more than it had. -/
theorem Respelled.endsAlike (h : Respelled lex f f') {n : List Char}
    (hf : endsAlike n f = false) : Bergshamra.endsAlike n f' = false := by
  induction h with
  | nil => rfl
  | leaf i p _ ih => exact ih hf
  | @node i t t' kids kids' rest rest' ht hk hr ihk ihr =>
      by_cases hne : rest = .nil
      · obtain rfl := hne
        obtain rfl := hr.eq_nil.mpr rfl
        cases hk with
        | leaf => rfl
        | node => rfl
        | nil =>
            rw [Bergshamra.endsAlike, Bool.and_eq_false_iff] at hf ⊢
            rw [ht.name, ht.fields]
            rcases hf with hf | hf
            · exact Or.inl hf
            · rw [Bool.not_eq_false', Bool.and_eq_true, List.isEmpty_iff, List.isEmpty_iff] at hf ⊢
              exact Or.inr ⟨hf.1, ht.space hf.2⟩
      · rw [endsAlike_rest hne] at hf
        rw [endsAlike_rest fun hnil => hne (hr.eq_nil.mp hnil)]
        exact ihr hf

theorem Respelled.unmistaken (h : Respelled lex f f') (hf : unmistaken f = true) :
    Bergshamra.unmistaken f' = true := by
  induction h with
  | nil => rfl
  | leaf i p _ ih => exact ih hf
  | node i ht hk _ ihk ihr =>
      rw [Bergshamra.unmistaken, Bool.and_eq_true, Bool.and_eq_true, Bool.not_eq_true'] at hf
      rw [Bergshamra.unmistaken, ht.name, hk.endsAlike hf.1.1, ihk hf.1.2, ihr hf.2]
      rfl

theorem Respelled.noRoot (h : Respelled lex f f') (hf : OneRoot.NoRoot f) :
    OneRoot.NoRoot f' := by
  induction h with
  | nil => exact hf
  | leaf i p _ ih => exact ⟨hf.1, ih hf.2⟩
  | node => exact absurd hf id

theorem Respelled.oneRoot (h : Respelled lex f f') (hf : OneRoot f) : OneRoot f' := by
  induction h with
  | nil => exact hf
  | leaf i p _ ih => exact ⟨hf.1, ih hf.2⟩
  | node i _ _ hr => exact hr.noRoot hf

theorem Respelled.wellFormed (h : Respelled lex f f') (hf : WellFormed lex f) :
    WellFormed lex f' :=
  ⟨h.proper hf.proper, h.oneRoot hf.oneRoot⟩

theorem Respelled.append (h : Respelled lex f f') (rest : Source) :
    Respelled lex (f.append rest) (f'.append rest) := by
  induction h with
  | nil => exact .refl lex rest
  | leaf i p _ ih => exact .leaf i p ih
  | node i ht hk _ _ ihr => exact .node i ht hk ihr

/-- A row in its other spelling, in the same place. -/
theorem Respelled.substitute {r r' : Source} (h : Respelled lex r r') (f : Source) (k : NodeId) :
    Respelled lex (f.substitute k r) (f.substitute k r') := by
  induction f with
  | nil => exact .nil
  | leaf i p rest ih =>
      rw [Forest.substitute, Forest.substitute]
      split
      · exact h.append rest
      · exact .leaf i p ih
  | node i t kids rest ihk ihr =>
      rw [Forest.substitute, Forest.substitute]
      split
      · exact h.append rest
      · split
        · refine .node i ⟨rfl, rfl, id, Or.inl, id⟩ ihk (.refl lex rest)
        · exact .node i (TagKept.refl lex kids t) (.refl lex kids) ihr

end Respelled

/-! ## Both rewriters -/

section Both

variable {lex : Lexicon} {path : List (NodeId × Element)} {f : Source}

theorem respelled_rewritten (lex : Lexicon) (f : Source) : Respelled lex f (rewritten f) :=
  (respelled_by (tagKept_closedTag lex) f).trans (respelled_by (tagKept_tightTag lex) _)

/-- **The rewriters write a calm row in another spelling.** -/
theorem normalize_eq (hp : Proper lex path f) (hcalm : calm f = true)
    (hun : unmistaken f = true) :
    normalizeSelfClosingSpace (normalizeEmptyElements (Text.bytes (f.text spelling)))
      = Text.bytes ((rewritten f).text spelling) := by
  have hspell := respelled_by (tagKept_closedTag lex) f
  have hclosed := @closedEmpty_run lex [] [] path f hp hcalm hun
    (Or.inl fun h => absurd (List.prefix_nil.mp h) (by decide))
  rw [Writes, List.append_nil, normalizeEmptyFrom, List.append_nil] at hclosed
  have htight := tightened_run (hspell.proper hp) (hspell.calm_eq.trans hcalm) []
  rw [Tightens, List.append_nil, normalizeSpaceFrom, List.append_nil] at htight
  rw [normalizeEmptyElements, utf8?_bytes, Option.isSome_some, if_pos rfl, hclosed,
    normalizeSelfClosingSpace, utf8?_bytes, Option.isSome_some, if_pos rfl, htight, rewritten]

/-- **The rewriters keep the tree of a calm document.** What they write is read as a document with
the same nodes. -/
theorem rewriters_keep_tree {up : Uppsala} (hwf : WellFormed lex f) (hcalm : calm f = true)
    (hun : unmistaken f = true) (hunder : Understands lex up (rewritten f)) :
    ∃ text doc, normalizeSelfClosingSpace (normalizeEmptyElements (Text.bytes (f.text spelling)))
        = Text.bytes text.toList
      ∧ up.parse text = .ok doc ∧ doc.top.shape = (treeOf lex [] f).shape := by
  have hspell := respelled_rewritten lex f
  obtain ⟨doc, hparse, hshape⟩ := hunder.accepts (hspell.wellFormed hwf)
  refine ⟨_, doc, ?_, hparse, ?_⟩
  · rw [String.toList_ofList]
    exact normalize_eq hwf.proper hcalm hun
  · rw [hshape, hspell.treeOf_eq]

end Both

namespace RewriterSample

/-- `<a><b></b><c x="1" /></a>`. -/
def spread : Source :=
  .node 1 (bareTag ['a']) (.node 2 (bareTag ['b']) .nil
    (.node 3 ⟨['c'], [⟨[' '], ['x'], ['='], '"', ['1']⟩], [' '], none⟩ .nil .nil)) .nil

/-- `<a><b/><c x="1"/></a>`. -/
def tight : Source :=
  .node 1 (bareTag ['a']) (.node 2 ⟨['b'], [], [], none⟩ .nil
    (.node 3 ⟨['c'], [⟨[' '], ['x'], ['='], '"', ['1']⟩], [], none⟩ .nil .nil)) .nil

def up : Uppsala := (TransformLibs.ofParser (tableParse plainLexicon [tight])).toUppsala

theorem tight_facts : rewritten spread = tight ∧ WellFormed plainLexicon spread
    ∧ WellFormed plainLexicon tight ∧ calm spread = true ∧ unmistaken spread = true
    ∧ (0 :: tight.keys).Nodup := by
  decide +kernel

/-- The two empty elements are closed at once, and nothing else changes. -/
theorem spread_keeps_tree :
    ∃ text doc, normalizeSelfClosingSpace (normalizeEmptyElements (Text.bytes (spread.text spelling)))
        = Text.bytes text.toList
      ∧ up.parse text = .ok doc ∧ doc.top.shape = (treeOf plainLexicon [] spread).shape := by
  obtain ⟨hsame, hwf, hwf', hcalm, hun, hkeys⟩ := tight_facts
  have hentry : entryOf? [tight] (String.ofList (tight.text spelling)) = some tight :=
    List.find?_cons_of_pos (decide_eq_true rfl)
  refine rewriters_keep_tree hwf hcalm hun ?_
  rw [hsame]
  exact understands_table rfl hentry hkeys rfl hwf'

end RewriterSample

end Bergshamra
