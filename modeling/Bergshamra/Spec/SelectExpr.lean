import Bergshamra.Lib.Nesting
import Bergshamra.Spec.BoolExpr

/-!
# Selections in XPath 1.0

The expressions that the XPath Filter 2.0 transform supports: unions of `/`, of
`//name` and of absolute paths whose steps test for a name or are `*`, with
predicates on attributes. The nodes an expression selects are those XPath 1.0
assigns to it; the filter works with the subtrees below them.

White space stands where the transform's recognizer takes some: around the bar
of a union, at the ends of a predicate and of the argument of `not`, and around
`or`.
-/

namespace Bergshamra

namespace XPath

/-! ## Predicates -/

/-- `@name="value"`, asking for the attribute that the parser finds under the name. -/
structure AttrTest where
  name : List Char
  literal : Literal
  isXPathName_name : IsXPathName name

namespace AttrTest

def text (a : AttrTest) : List Char := '@' :: a.name ++ '=' :: a.literal.text

def truth (up : Uppsala) (e : Element) (a : AttrTest) : Bool :=
  up.getAttribute e (String.ofList a.name) == some a.literal.value

end AttrTest

/-- The spellings of a disjunction. -/
inductive AttrTest.SpellsAny : List AttrTest → List Char → Prop
  | one (a : AttrTest) : SpellsAny [a] a.text
  | or (a : AttrTest) {as : List AttrTest} {s w w' : List Char} (hw : Text.IsBlank w)
      (hw' : Text.IsBlank w') (h : SpellsAny as s) :
      SpellsAny (a :: as) (a.text ++ (w ++ " or ".toList ++ w') ++ s)

inductive Predicate
  /-- A disjunction of attribute tests. -/
  | any (tests : List AttrTest)
  /-- `not(@name)`. -/
  | absent (name : List Char) (isXPathName : IsXPathName name)

def Predicate.truth (up : Uppsala) (e : Element) : Predicate → Bool
  | .any tests => tests.any (AttrTest.truth up e)
  | .absent name _ => (up.getAttribute e (String.ofList name)).isNone

/-- The attribute tests in a predicate. -/
def Predicate.attrTests : Predicate → List AttrTest
  | .any tests => tests
  | .absent _ _ => []

inductive Predicate.Spells : Predicate → List Char → Prop
  | any {tests : List AttrTest} {s : List Char} (h : AttrTest.SpellsAny tests s) :
      Spells (.any tests) s
  | absent {name : List Char} (hn : IsXPathName name) {w w' : List Char} (hw : Text.IsBlank w)
      (hw' : Text.IsBlank w') :
      Spells (.absent name hn) ("not(".toList ++ (w ++ '@' :: name ++ w') ++ [')'])

/-! ## Steps -/

/-- The node tests on the child axis. -/
inductive ElementTest
  | any
  | named (t : NameTest)

def ElementTest.text : ElementTest → List Char
  | .any => ['*']
  | .named t => t.text

def ElementTest.fits (reading : NameReading) (scope : Node) (e : Element) : ElementTest → Bool
  | .any => true
  | .named t => reading t scope e

structure Step where
  test : ElementTest
  predicate : Option Predicate

namespace Step

inductive Spells : Step → List Char → Prop
  | bare (test : ElementTest) : Spells ⟨test, none⟩ test.text
  | filtered (test : ElementTest) {p : Predicate} {s w w' : List Char} (hw : Text.IsBlank w)
      (hw' : Text.IsBlank w') (h : p.Spells s) :
      Spells ⟨test, some p⟩ (test.text ++ '[' :: (w ++ s ++ w') ++ [']'])

/-- The attribute tests in a step. -/
def attrTests (st : Step) : List AttrTest := st.predicate.elim [] Predicate.attrTests

/-- Does the step keep a child? -/
def keeps (reading : NameReading) (up : Uppsala) (scope : Node) (s : Step) (n : Node) : Bool :=
  n.element?.any (fun e =>
    s.test.fits reading scope e && s.predicate.all (fun p => p.truth up e))

/-- The spellings of steps with slashes between them. -/
inductive SpellsPath : List Step → List Char → Prop
  | one {st : Step} {s : List Char} (h : st.Spells s) : SpellsPath [st] s
  | cons {st : Step} {sts : List Step} {s t : List Char} (h : st.Spells s)
      (h' : SpellsPath sts t) : SpellsPath (st :: sts) (s ++ '/' :: t)

/-- The nodes that steps lead to from a row of children. -/
inductive Leads (reading : NameReading) (up : Uppsala) (scope : Node) :
    List Step → List Node → Node → Prop
  | last {s : Step} {row : List Node} {n : Node} (hn : n ∈ row)
      (hs : s.keeps reading up scope n = true) : Leads reading up scope [s] row n
  | next {s : Step} {ss : List Step} {row : List Node} {m n : Node} (hm : m ∈ row)
      (hs : s.keeps reading up scope m = true) (h : Leads reading up scope ss m.children n) :
      Leads reading up scope (s :: ss) row n

end Step

/-! ## Paths and unions -/

inductive Path
  /-- `/` -/
  | root
  /-- `//name` -/
  | anywhere (t : NameTest)
  /-- `/step/…/step` -/
  | steps (sts : List Step)

namespace Path

inductive Spells : Path → List Char → Prop
  | root : Spells .root ['/']
  | anywhere (t : NameTest) : Spells (.anywhere t) ("//".toList ++ t.text)
  | steps {sts : List Step} {s : List Char} (h : Step.SpellsPath sts s) :
      Spells (.steps sts) ('/' :: s)

/-- The nodes a path selects; `none` is the document node. -/
inductive Selects (reading : NameReading) (up : Uppsala) (doc : Document) (scope : Node) :
    Path → Option Node → Prop
  | root : Selects reading up doc scope .root none
  | anywhere {t : NameTest} {n : Node} {e : Element} (hn : n ∈ doc.descendants)
      (he : n.element? = some e) (ht : reading t scope e = true) :
      Selects reading up doc scope (.anywhere t) (some n)
  | steps {sts : List Step} {n : Node} (h : Step.Leads reading up scope sts doc.children n) :
      Selects reading up doc scope (.steps sts) (some n)

/-- The name tests in a path. -/
def tests : Path → List NameTest
  | root => []
  | anywhere t => [t]
  | steps sts => sts.filterMap (fun s =>
      match s.test with
      | .any => none
      | .named t => some t)

/-- The attribute tests in a path. -/
def attrTests : Path → List AttrTest
  | root | anywhere _ => []
  | steps sts => sts.flatMap Step.attrTests

end Path

/-- The paths of a union, from left to right. -/
abbrev Selection := List Path

namespace Selection

inductive Spells : Selection → List Char → Prop
  | one {p : Path} {s : List Char} (h : p.Spells s) : Spells [p] s
  | union {p : Path} {ps : Selection} {s t w w' : List Char} (h : p.Spells s) (hw : Text.IsBlank w)
      (hw' : Text.IsBlank w') (h' : Spells ps t) : Spells (p :: ps) (s ++ (w ++ '|' :: w') ++ t)

def tests (ps : Selection) : List NameTest := ps.flatMap Path.tests

def attrTests (ps : Selection) : List AttrTest := ps.flatMap Path.attrTests

/-- The nodes in the subtree of a node; `none` is the document node. -/
def subtreeIds (doc : Document) : Option Node → List NodeId
  | none => doc.ids
  | some n => n.subtreeKeys

/-- The nodes in the subtrees of what a union selects. -/
def expansion (reading : NameReading) (up : Uppsala) (doc : Document) (scope : Node)
    (ps : Selection) : Set NodeId :=
  { id | ∃ p ∈ ps, ∃ n, p.Selects reading up doc scope n ∧ id ∈ subtreeIds doc n }

end Selection

/-- With a name that has no prefix read as one in any namespace. -/
def unprefixedAnywhere : NameReading := fun t scope e =>
  e.name.localName == String.ofList t.localName
    && (t.pfx.isNone || (t.uri? scope).any (fun uri => e.name.uri == uri))

end XPath

end Bergshamra
