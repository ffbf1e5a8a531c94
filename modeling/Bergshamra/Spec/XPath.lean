import Bergshamra.Dsig.XPathFilter
import Bergshamra.Dsig.Filter2

/-!
# Names in XPath expressions

A name test as XPath 1.0 reads it: a prefix stands for the namespace it has at
the element that holds the expression, and a name without a prefix is in no
namespace.
-/

namespace Bergshamra

/-- The characters, beside white space, that end a name in an expression. -/
def nameDelimiters : List Char := apostrophe :: ":*()[]|/@=!<>+,$\"".toList

/-- Part of a name; every NCName is one. -/
def IsXPathName (s : List Char) : Prop :=
  s ≠ [] ∧ ∀ c ∈ s, Text.isWhitespace c = false ∧ c ∉ nameDelimiters

instance (s : List Char) : Decidable (IsXPathName s) :=
  @instDecidableAnd _ _ _ (List.decidableBAll _ _)

/-- A test for an element's name. -/
structure NameTest where
  pfx : Option (List Char)
  localName : List Char
  isXPathName_pfx : ∀ p ∈ pfx, IsXPathName p
  isXPathName_localName : IsXPathName localName

namespace NameTest

/-- Without a prefix there is none to be a name. -/
theorem noPrefix (p : List Char) (h : p ∈ (none : Option (List Char))) : IsXPathName p := by
  cases h

/-- The test as it is written. -/
def text (t : NameTest) : List Char :=
  match t.pfx with
  | none => t.localName
  | some p => p ++ ':' :: t.localName

/-- The namespace the test asks for, in the scope of an element. -/
def uri? (t : NameTest) (scope : Node) : Option String :=
  match t.pfx with
  | none => some ""
  | some p => resolveNsPrefix scope p

end NameTest

theorem IsXPathName.not_whitespace {s : List Char} (h : IsXPathName s) {c : Char} (hc : c ∈ s) :
    Text.isWhitespace c = false := (h.2 c hc).1

theorem IsXPathName.ne_of_delimiter {s : List Char} (h : IsXPathName s) {d : Char}
    (hd : d ∈ nameDelimiters) : d ∉ s := fun hs => (h.2 d hs).2 hd

/-- A test is written without white space. -/
theorem NameTest.not_whitespace (t : NameTest) {c : Char} (hc : c ∈ t.text) :
    Text.isWhitespace c = false := by
  unfold NameTest.text at hc
  cases hp : t.pfx with
  | none =>
      rw [hp] at hc
      exact t.isXPathName_localName.not_whitespace hc
  | some p =>
      rw [hp] at hc
      rcases List.mem_append.mp hc with hc | hc
      · exact (t.isXPathName_pfx p (by rw [hp]; rfl)).not_whitespace hc
      · rcases List.mem_cons.mp hc with rfl | hc
        · decide
        · exact t.isXPathName_localName.not_whitespace hc

/-- A test has no delimiter in it but the colon. -/
theorem NameTest.not_mem (t : NameTest) {d : Char} (hd : d ∈ nameDelimiters) (hc : d ≠ ':') :
    d ∉ t.text := by
  obtain ⟨pfx, localName, hpfx, hlocal⟩ := t
  cases pfx with
  | none => exact hlocal.ne_of_delimiter hd
  | some p =>
      intro h
      rcases List.mem_append.mp h with h | h
      · exact (hpfx p rfl).ne_of_delimiter hd h
      · rcases List.mem_cons.mp h with h | h
        · exact hc h
        · exact hlocal.ne_of_delimiter hd h

theorem NameTest.text_ne_nil (t : NameTest) : t.text ≠ [] := by
  unfold NameTest.text
  cases t.pfx with
  | none => exact t.isXPathName_localName.1
  | some p => simp

/-- At the colon a test is split into its prefix and its local name. -/
theorem NameTest.splitOnce_text (t : NameTest) :
    Text.splitOnce [':'] t.text = t.pfx.map (fun p => (p, t.localName)) := by
  obtain ⟨pfx, localName, hpfx, hlocal⟩ := t
  have hcolon : ':' ∈ nameDelimiters := by decide
  cases pfx with
  | none => exact Text.splitOnce_eq_none (hlocal.ne_of_delimiter hcolon)
  | some p =>
      have hmark := Text.splitOnce_marker ':' [] localName
      rw [List.cons_append, List.nil_append] at hmark
      show Text.splitOnce [':'] (p ++ ':' :: localName) = some (p, localName)
      rw [Text.splitOnce_append ((hpfx p rfl).ne_of_delimiter hcolon), hmark, Option.map_some,
        List.append_nil]

/-- **The code resolves a name as XPath does.** -/
theorem resolvePrefixedName_text (t : NameTest) (scope : Node) :
    resolvePrefixedName t.text scope
      = (t.uri? scope).map (fun uri => (uri, String.ofList t.localName)) := by
  unfold resolvePrefixedName
  rw [t.splitOnce_text]
  unfold NameTest.text NameTest.uri?
  cases t.pfx with
  | none => rfl
  | some p => simp [resolveNsPrefix]

end Bergshamra
