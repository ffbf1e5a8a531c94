import Bergshamra.Lib.Bytes
import Mathlib.Data.List.Basic
import Mathlib.Data.List.Infix

/-!
# The XML declaration

The grammar of the declaration that an XML document may begin with: the
version, the encoding and the standalone setting, each a name and a value in
quotes with blanks where XML allows them.
-/

namespace XmlDecl

/-- White space of XML. -/
def IsBlank (c : Char) : Prop := c = ' ' ∨ c = '\t' ∨ c = '\n' ∨ c = '\r'

/-- `'1.' [0-9]+` -/
def IsVersionNum (v : List Char) : Prop :=
  ∃ digits, digits ≠ [] ∧ (∀ c ∈ digits, c.isDigit = true) ∧ v = '1' :: '.' :: digits

/-- `[A-Za-z] ([A-Za-z0-9._] | '-')*` -/
def IsEncName (v : List Char) : Prop :=
  ∃ c rest, v = c :: rest ∧ c.isAlpha = true
    ∧ ∀ d ∈ rest, d.isAlphanum = true ∨ d = '.' ∨ d = '_' ∨ d = '-'

def IsYesNo (v : List Char) : Prop := v = ['y', 'e', 's'] ∨ v = ['n', 'o']

/-- A name, `=` and a value in quotes, with the blanks around them. -/
structure Setting (IsValue : List Char → Prop) where
  before : List Char
  beforeEq : List Char
  afterEq : List Char
  quote : Char
  value : List Char
  before_ne : before ≠ []
  blank : ∀ c ∈ before ++ beforeEq ++ afterEq, IsBlank c
  quoted : quote = '"' ∨ quote = Char.ofNat 39
  isValue : IsValue value

variable {IsValue : List Char → Prop}

def Setting.text (name : List Char) (x : Setting IsValue) : List Char :=
  x.before ++ name ++ x.beforeEq ++ ['='] ++ x.afterEq ++ [x.quote] ++ x.value ++ [x.quote]

/-- Is there no blank around the `=`? -/
def Setting.Tight (x : Setting IsValue) : Prop := x.beforeEq = [] ∧ x.afterEq = []

theorem Setting.text_of_tight {x : Setting IsValue} (h : x.Tight) (name : List Char) :
    x.text name = x.before ++ (name ++ ['='] ++ [x.quote] ++ x.value ++ [x.quote]) := by
  rw [Setting.text, h.1, h.2]
  simp only [List.append_nil, List.append_assoc]

end XmlDecl

/-- An XML declaration. -/
structure XmlDecl where
  version : XmlDecl.Setting XmlDecl.IsVersionNum
  encoding : Option (XmlDecl.Setting XmlDecl.IsEncName)
  standalone : Option (XmlDecl.Setting XmlDecl.IsYesNo)
  close : List Char
  close_blank : ∀ c ∈ close, XmlDecl.IsBlank c

namespace XmlDecl

def encodingWord : List Char := "encoding".toList

/-- The declaration up to the end of the version. -/
def opening (d : XmlDecl) : List Char := "<?xml".toList ++ d.version.text "version".toList

/-- The declaration after the encoding. -/
def closing (d : XmlDecl) : List Char :=
  (d.standalone.map (Setting.text "standalone".toList)).getD [] ++ d.close ++ ['?', '>']

def text (d : XmlDecl) : List Char :=
  d.opening ++ (d.encoding.map (Setting.text encodingWord)).getD [] ++ d.closing

theorem text_of_encoding {d : XmlDecl} {e : Setting IsEncName} (h : d.encoding = some e) :
    d.text = d.opening ++ e.text encodingWord ++ d.closing := by
  rw [text, h, Option.map_some, Option.getD_some]

/-- The text begins with an XML declaration that names the encoding, in any case. -/
def Declares (name s : List Char) : Prop :=
  ∃ (d : XmlDecl) (e : Setting IsEncName) (body : List Char),
    s = d.text ++ body ∧ d.encoding = some e ∧ e.value.map Char.toLower = name

end XmlDecl
