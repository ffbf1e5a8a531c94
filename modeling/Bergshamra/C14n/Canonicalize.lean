import Bergshamra.C14n.Inclusive
import Bergshamra.C14n.Exclusive

/-!
# The six canonicalization modes
-/

namespace Bergshamra

inductive C14nMode where
  | inclusive
  | inclusiveWithComments
  | inclusive11
  | inclusive11WithComments
  | exclusive
  | exclusiveWithComments
deriving DecidableEq, Repr

namespace C14nMode

/-- `C14nMode::uri`. -/
def uri : C14nMode → String
  | .inclusive => Algorithm.C14N
  | .inclusiveWithComments => Algorithm.C14N_WITH_COMMENTS
  | .inclusive11 => Algorithm.C14N11
  | .inclusive11WithComments => Algorithm.C14N11_WITH_COMMENTS
  | .exclusive => Algorithm.EXC_C14N
  | .exclusiveWithComments => Algorithm.EXC_C14N_WITH_COMMENTS

/-- `C14nMode::from_uri`. -/
def fromUri (uri : String) : Option C14nMode :=
  if uri = Algorithm.C14N then some .inclusive
  else if uri = Algorithm.C14N_WITH_COMMENTS then some .inclusiveWithComments
  else if uri = Algorithm.C14N11 then some .inclusive11
  else if uri = Algorithm.C14N11_WITH_COMMENTS then some .inclusive11WithComments
  else if uri = Algorithm.EXC_C14N then some .exclusive
  else if uri = Algorithm.EXC_C14N_WITH_COMMENTS then some .exclusiveWithComments
  else none

/-- `C14nMode::with_comments`. -/
def withComments : C14nMode → Bool
  | .inclusiveWithComments | .inclusive11WithComments | .exclusiveWithComments => true
  | .inclusive | .inclusive11 | .exclusive => false

/-- `C14nMode::is_exclusive`. -/
def isExclusive : C14nMode → Bool
  | .exclusive | .exclusiveWithComments => true
  | .inclusive | .inclusiveWithComments | .inclusive11 | .inclusive11WithComments => false

/-- Is `xml:base` absolutized (Canonical XML 1.1)? -/
def isC14n11 : C14nMode → Bool
  | .inclusive11 | .inclusive11WithComments => true
  | .inclusive | .inclusiveWithComments | .exclusive | .exclusiveWithComments => false

/-- The identifier of a mode selects that mode. -/
theorem fromUri_uri (mode : C14nMode) : fromUri mode.uri = some mode := by
  cases mode <;> decide

end C14nMode

/-- The canonical form as characters. -/
def canonicalText (doc : Document) (mode : C14nMode) (nodeSet : Option NodeSet)
    (inclusivePrefixes : List String) : List Char :=
  if mode.isExclusive then
    Exclusive.canonicalize doc mode.withComments nodeSet inclusivePrefixes
  else Inclusive.canonicalizeWithOptions doc mode.withComments nodeSet mode.isC14n11

/-- `canonicalize_doc`: no branch of the source fails. -/
def canonicalizeDoc (doc : Document) (mode : C14nMode) (nodeSet : Option NodeSet)
    (inclusivePrefixes : List String) : ByteArray :=
  (String.ofList (canonicalText doc mode nodeSet inclusivePrefixes)).toUTF8

/-- `canonicalize`: parse, then canonicalize. -/
def canonicalize (up : Uppsala) (xml : String) (mode : C14nMode) (nodeSet : Option NodeSet)
    (inclusivePrefixes : List String) : Except Error ByteArray :=
  match up.parse xml with
  | .error e => .error (.xmlParse e)
  | .ok doc => .ok (canonicalizeDoc doc mode nodeSet inclusivePrefixes)

/-- Encoding loses nothing: equal bytes are equal characters. -/
theorem canonicalizeDoc_eq_iff {doc doc' : Document} {mode mode' : C14nMode}
    {ns ns' : Option NodeSet} {ps ps' : List String} :
    canonicalizeDoc doc mode ns ps = canonicalizeDoc doc' mode' ns' ps'
      ↔ canonicalText doc mode ns ps = canonicalText doc' mode' ns' ps' := by
  unfold canonicalizeDoc
  rw [String.toUTF8_eq_toByteArray, String.toUTF8_eq_toByteArray, String.toByteArray_inj]
  exact ⟨fun h => String.ofList_injective h, fun h => by rw [h]⟩

end Bergshamra
