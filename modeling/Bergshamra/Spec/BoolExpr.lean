import Bergshamra.Lib.Words
import Bergshamra.Spec.XPath

/-!
# Boolean expressions in XPath 1.0

The expressions whose atoms the XPath transform supports, how they are spelled,
and their truth at a node. As in the grammar of XPath 1.0 `and` binds tighter
than `or` and both group to the left; a character data section is a text node,
the name of a processing instruction is its target, and a name without a prefix
is in no namespace.

A spelling has white space wherever the transform's parser takes some; inside a
name test or a call it has none.
-/

namespace Bergshamra

namespace XPath

/-! ## Atoms -/

/-- The axes of the name tests. -/
inductive Axis
  | self
  | parent
  | ancestorOrSelf
deriving DecidableEq

def Axis.text : Axis → List Char
  | .self => "self::".toList
  | .parent => "parent::".toList
  | .ancestorOrSelf => "ancestor-or-self::".toList

/-- The elements on an axis. -/
def Axis.elements (n : Node) : Axis → List Element
  | .self => n.element?.toList
  | .parent => (n.parentElement?.map Prod.snd).toList
  | .ancestorOrSelf => n.selfPath.map Prod.snd

/-- A number: digits, or digits with a point somewhere. -/
structure Number where
  whole : List Char
  fraction : Option (List Char)
  digits : ∀ c ∈ whole ++ fraction.getD [], c.isDigit = true
  ne_nil : whole ++ fraction.getD [] ≠ []

namespace Number

def text (v : Number) : List Char :=
  match v.fraction with
  | none => v.whole
  | some f => v.whole ++ '.' :: f

/-- The boolean of a number: is the nearest double other than zero? -/
def truth (v : Number) : Bool :=
  roundsToNonzero (natOfDigits (v.whole ++ v.fraction.getD [])) (-(v.fraction.getD []).length)

end Number

/-- A string literal. -/
structure Literal where
  quote : Char
  content : List Char
  isQuote : quote = '"' ∨ quote = apostrophe
  not_mem : quote ∉ content

namespace Literal

def text (l : Literal) : List Char := l.quote :: l.content ++ [l.quote]

def value (l : Literal) : String := String.ofList l.content

end Literal

/-- The functions that are compared with literals. -/
inductive NameFunction
  | name
  | namespaceUri
deriving DecidableEq

def NameFunction.text : NameFunction → List Char
  | .name => "name()".toList
  | .namespaceUri => "namespace-uri()".toList

/-- The value of a function at a node. -/
def NameFunction.value (n : Node) : NameFunction → String
  | .name =>
      match n.item with
      | .node e _ => elementQName e
      | .leaf (.pi target _) => target
      | .leaf _ => ""
  | .namespaceUri =>
      match n.item with
      | .node e _ => e.name.uri
      | .leaf _ => ""

/-- `=` and `!=`. -/
inductive Comparison
  | eq
  | neq
deriving DecidableEq

def Comparison.text : Comparison → List Char
  | .eq => ['=']
  | .neq => "!=".toList

def Comparison.truth (a b : String) : Comparison → Bool
  | .eq => a == b
  | .neq => a != b

inductive Atom
  | number (v : Number)
  | nameTest (axis : Axis) (test : NameTest)
  | selfText
  | hasAttributes
  | compare (fn : NameFunction) (cmp : Comparison) (literal : Literal)
  | depthOdd

/-- The spellings of an atom. -/
inductive Atom.Spells : Atom → List Char → Prop
  | number (v : Number) : Spells (.number v) v.text
  | nameTest (axis : Axis) (test : NameTest) : Spells (.nameTest axis test) (axis.text ++ test.text)
  | selfText : Spells .selfText "self::text()".toList
  | hasAttributes : Spells .hasAttributes "@*".toList
  | compare (fn : NameFunction) (cmp : Comparison) (literal : Literal) {w w' : List Char}
      (hw : Text.IsBlank w) (hw' : Text.IsBlank w') :
      Spells (.compare fn cmp literal) (fn.text ++ w ++ (cmp.text ++ w' ++ literal.text))
  | depthOdd {w₁ w₂ w₃ w₄ : List Char} (h₁ : Text.IsBlank w₁ ∧ w₁ ≠ [])
      (h₂ : Text.IsBlank w₂ ∧ w₂ ≠ []) (h₃ : Text.IsBlank w₃ ∧ w₃ ≠ [])
      (h₄ : Text.IsBlank w₄ ∧ w₄ ≠ []) :
      Spells .depthOdd ("(count(ancestor-or-self::node())".toList ++ w₁
        ++ ("mod".toList ++ w₂ ++ ("2)".toList ++ w₃ ++ (['='] ++ w₄ ++ ['1']))))

/-- How a name test is read: in the scope of a node, does it fit an element? -/
abbrev NameReading := NameTest → Node → Element → Bool

/-- As XPath reads it. -/
def exactName : NameReading := fun t scope e =>
  e.name.localName == String.ofList t.localName && (t.uri? scope).any (fun uri => e.name.uri == uri)

/-- With a name in no namespace read as one in any. -/
def anyNamespace : NameReading := fun t scope e =>
  e.name.localName == String.ofList t.localName
    && (t.uri? scope).any (fun uri => uri.isEmpty || e.name.uri == uri)

/-- The truth of an atom at a node. -/
def Atom.truth (reading : NameReading) (scope n : Node) : Atom → Bool
  | .number v => v.truth
  | .nameTest axis test => (axis.elements n).any (reading test scope)
  | .selfText => n.leaf?.any (fun k => k.text?.isSome)
  | .hasAttributes => n.element?.any (fun e => !e.attributes.isEmpty)
  | .compare fn cmp literal => cmp.truth (fn.value n) literal.value
  -- the node, the elements above it and the root node
  | .depthOdd => (n.path.length + 2) % 2 == 1

/-! ## Expressions -/

inductive Connective
  | and
  | or
deriving DecidableEq

/-- The connective with the spaces around it. -/
def Connective.text : Connective → List Char
  | .and => " and ".toList
  | .or => " or ".toList

def Connective.rank : Connective → Nat
  | .and => 1
  | .or => 0

def Connective.truth (a b : Bool) : Connective → Bool
  | .and => a && b
  | .or => a || b

inductive Expr
  | atom (a : Atom)
  | paren (e : Expr)
  | not (e : Expr)
  | binary (op : Connective) (l r : Expr)

namespace Expr

/-- How tight the outermost operator binds. -/
def rank : Expr → Nat
  | atom _ | paren _ | not _ => 2
  | binary op _ _ => op.rank

def atoms : Expr → List Atom
  | atom a => [a]
  | paren e => e.atoms
  | not e => e.atoms
  | binary _ l r => l.atoms ++ r.atoms

/-- The truth of an expression at a node. -/
def truth (reading : NameReading) (scope n : Node) : Expr → Bool
  | atom a => a.truth reading scope n
  | paren e => e.truth reading scope n
  | not e => !e.truth reading scope n
  | binary op l r => op.truth (l.truth reading scope n) (r.truth reading scope n)

/-- The spellings of an expression; the ranks are those of XPath's grammar. -/
inductive Spells : Expr → List Char → Prop
  | atom {a : Atom} {s : List Char} (h : a.Spells s) : Spells (.atom a) s
  | paren {e : Expr} {s w w' : List Char} (h : Spells e s) (hw : Text.IsBlank w)
      (hw' : Text.IsBlank w') : Spells (.paren e) ('(' :: (w ++ s ++ w') ++ [')'])
  | not {e : Expr} {s w w' : List Char} (space : Bool) (h : Spells e s) (hw : Text.IsBlank w)
      (hw' : Text.IsBlank w') :
      Spells (.not e)
        ((if space then "not (".toList else "not(".toList) ++ (w ++ s ++ w') ++ [')'])
  | binary (op : Connective) {l r : Expr} {s t w w' : List Char} (hl : op.rank ≤ l.rank)
      (hr : op.rank < r.rank) (h : Spells l s) (h' : Spells r t) (hw : Text.IsBlank w)
      (hw' : Text.IsBlank w') : Spells (.binary op l r) (s ++ (w ++ op.text ++ w') ++ t)

end Expr

end XPath

end Bergshamra
