import Bergshamra.Dsig.XPathBytes
import Bergshamra.Dsig.Verify

/-!
# The XPath transform and panics

Of all cuts the transform makes, one can be out of order: the pattern of
`is_enveloped_xpath` tests the two ends of the expression and then cuts out what
is between them. The ends share at most one character, so there is one expression
in which they overlap. On every other expression, document and input the
transform returns a value or an error.
-/

namespace Bergshamra

/-- The expression in which the two ends of the pattern overlap. -/
def overlapText : List Char := "not(ancestor-or-self::Signature)".toList

/-- The ends share nothing or a colon. -/
theorem shared_eq {before shared rest : List Char} (hne : shared ≠ [])
    (hfront : "not(ancestor-or-self::".toList = before ++ shared)
    (hback : ":Signature)".toList = shared ++ rest) :
    shared = [':'] ∧ rest = "Signature)".toList := by
  have hshort : ∀ k < 12, 0 < k →
      "not(ancestor-or-self::".toList.drop (22 - k) = ":Signature)".toList.take k → k = 1 := by
    decide
  have hlen : "not(ancestor-or-self::".toList.length = 22 := by decide
  have hlen' : ":Signature)".toList.length = 11 := by decide
  have hrest : ":Signature)".toList.drop 1 = "Signature)".toList := by decide
  have hcolon : ":Signature)".toList.take 1 = [':'] := by decide
  generalize "not(ancestor-or-self::".toList = front at *
  generalize ":Signature)".toList = back at *
  subst hfront hback
  have hpos := List.length_pos_of_ne_nil hne
  simp only [List.length_append] at hlen hlen'
  have hdrop : (before ++ shared).drop (22 - shared.length) = shared := by
    have : 22 - shared.length = before.length := by omega
    rw [this, List.drop_left]
  have hone : shared.length = 1 := by
    refine hshort shared.length (by omega) hpos ?_
    rw [hdrop, List.take_left]
  rw [← hone, List.take_left] at hcolon
  rw [← hone, List.drop_left] at hrest
  exact ⟨hcolon, hrest⟩

/-- **The one panic of the pattern matchers.** -/
theorem isEnvelopedXPath_panics_iff {expr : List Char} {xpathNode : Node} :
    isEnvelopedXPath expr xpathNode = .error .panics ↔ Text.trim expr = overlapText := by
  have hoverlap : overlapText = "not(ancestor-or-self::".toList ++ "Signature)".toList := by decide
  have hends : Text.startsWith "not(ancestor-or-self::".toList overlapText = true
      ∧ Text.endsWith ":Signature)".toList overlapText = true := by decide
  have hlen : overlapText.length
      < "not(ancestor-or-self::".toList.length + ":Signature)".toList.length := by decide
  unfold isEnvelopedXPath
  generalize Text.trim expr = expr
  dsimp only
  constructor
  · intro h
    split at h
    · simp at h
    · rename_i hboth
      split at h
      · rename_i hshort
        simp only [Text.startsWith, Text.endsWith, Bool.or_eq_true, Bool.not_eq_true', not_or,
          Bool.not_eq_false, Option.isSome_iff_exists] at hboth
        obtain ⟨⟨rest, hf⟩, before, hb⟩ := hboth
        rcases Bytes.middle_or_overlap hf hb with ⟨middle, rfl⟩ | ⟨shared, hne, hfront, hback⟩
        · simp only [List.length_append] at hshort
          omega
        · rw [Text.stripPrefix?_eq_some] at hf
          rw [hf, (shared_eq hne hfront hback).2, hoverlap]
      · simp at h
  · rintro rfl
    rw [hends.1, hends.2, if_neg (by simp), if_pos hlen]

/-! ## After the choice of a filter -/

theorem bind_not_panics {α β : Type} {x : Except Error α} {f : α → Except Error β}
    (hx : x ≠ .error .panics) (hf : ∀ a, f a ≠ .error .panics) : (x >>= f) ≠ .error .panics := by
  cases x with
  | error e =>
      intro h
      cases h
      exact hx rfl
  | ok a => exact hf a

theorem xmlInput_not_panics (lib : TransformLibs) (mapErr : String → Error)
    (h : ∀ e, mapErr e ≠ .panics) (data : TransformData) :
    xmlInput lib mapErr data ≠ .error .panics := by
  cases data with
  | xml xmlText nodeSet => simp [xmlInput]
  | binary bytes =>
      refine bind_not_panics ?_ (fun text => by simp)
      unfold fromUtf8
      split
      · simp
      · simpa using h _

theorem parseXml_not_panics (lib : TransformLibs) (xmlText : String) :
    parseXml lib xmlText ≠ .error .panics := by
  unfold parseXml
  split <;> simp

theorem insertIds_not_panics (ps : List (String × Node)) (m : IdMap) :
    insertIds m ps ≠ .error .panics := by
  induction ps generalizing m with
  | nil => simp [insertIds]
  | cons p ps ih =>
      rw [insertIds]
      split
      · simp
      · exact ih _

theorem applyXPathFilter_not_panics (lib : TransformLibs) (data : TransformData)
    (filter : XPathFilter) (xpathNode : Node) (sigNode : NodeId) :
    applyXPathFilter lib data filter xpathNode sigNode ≠ .error .panics := by
  cases filter with
  | enveloped =>
      cases data with
      | binary bytes => simp [applyXPathFilter, EnvelopedSignatureTransform.execute]
      | xml xmlText nodeSet =>
          simp only [applyXPathFilter, EnvelopedSignatureTransform.execute]
          split <;> simp
  | parsed expr =>
      refine bind_not_panics (xmlInput_not_panics _ _ (by simp) _) (fun input => ?_)
      exact bind_not_panics (parseXml_not_panics _ _) (fun doc => by simp)
  | compound c =>
      refine bind_not_panics (xmlInput_not_panics _ _ (by simp) _) (fun input => ?_)
      refine bind_not_panics (parseXml_not_panics _ _) (fun doc => ?_)
      exact bind_not_panics (insertIds_not_panics _ _) (fun idMap => by simp)

/-- The choice of a filter panics with its first test. -/
theorem classifyXPath_panics_iff {expr : List Char} {xpathNode : Node} :
    classifyXPath expr xpathNode = .error .panics ↔ Text.trim expr = overlapText := by
  rw [← isEnvelopedXPath_panics_iff]
  unfold classifyXPath
  cases isEnvelopedXPath expr xpathNode with
  | error e => simp [bind, Except.bind]
  | ok enveloped =>
      refine iff_of_false ?_ (by simp)
      dsimp only [bind, Except.bind]
      split
      · simp
      · split
        · simp
        · split <;> simp

theorem applyXPathTransform_panics_iff {lib : TransformLibs} {data : TransformData}
    {transformNode xpathNode : Node} {sigNode : NodeId}
    (hx : xpathChild? transformNode = some xpathNode) :
    applyXPathTransform lib data transformNode sigNode = .error .panics
      ↔ classifyXPath (xpathExprOf xpathNode) xpathNode = .error .panics := by
  unfold applyXPathTransform
  rw [hx]
  dsimp only
  cases classifyXPath (xpathExprOf xpathNode) xpathNode with
  | error e => simp [bind, Except.bind]
  | ok filter =>
      refine iff_of_false ?_ (by simp)
      exact applyXPathFilter_not_panics lib data filter xpathNode sigNode

/-- **When the transform panics**: on one expression, whatever the document and the input are. -/
theorem xpath_panics_iff {lib : TransformLibs} {data : TransformData} {transformNode : Node}
    {sigNode : NodeId} :
    Bytes.applyXPathTransform lib data transformNode sigNode = .error .panics
      ↔ ∃ xpathNode, xpathChild? transformNode = some xpathNode
        ∧ Text.trim (xpathExprOf xpathNode) = overlapText := by
  rw [Bytes.applyXPathTransform_eq]
  constructor
  · intro h
    cases hx : xpathChild? transformNode with
    | none => simp [applyXPathTransform, hx] at h
    | some xpathNode =>
        rw [applyXPathTransform_panics_iff hx, classifyXPath_panics_iff] at h
        exact ⟨xpathNode, rfl, h⟩
  · rintro ⟨xpathNode, hx, h⟩
    rw [applyXPathTransform_panics_iff hx, classifyXPath_panics_iff]
    exact h

/-- `<Transform><XPath>not(ancestor-or-self::Signature)</XPath></Transform>`. -/
def sampleOverlap : Node :=
  ⟨1, [], .node (Sample.element "Transform" [])
    (Sample.textElement 2 "XPath" "not(ancestor-or-self::Signature)" .nil)⟩

/-- The transform always returns. -/
def XPathTransformReturns : Prop :=
  ∀ (lib : TransformLibs) (data : TransformData) (transformNode : Node) (sigNode : NodeId),
    Bytes.applyXPathTransform lib data transformNode sigNode ≠ .error .panics

theorem overlap_panics : ¬ XPathTransformReturns := by
  intro h
  refine h (.ofParser (fun _ => .error "")) (.xml "" none) sampleOverlap 0 ?_
  have hx : xpathChild? sampleOverlap = some (⟨2, [(1, Sample.element "Transform" [])],
      .node (Sample.element "XPath" [])
        (.leaf 3 (.text "not(ancestor-or-self::Signature)") .nil)⟩ : Node) := rfl
  rw [Bytes.applyXPathTransform_eq, applyXPathTransform_panics_iff hx, classifyXPath_panics_iff]
  decide +kernel

end Bergshamra
