import Bergshamra.Xml.Document
import Bergshamra.C14n.Namespaces
import Bergshamra.Lib.Text
import Mathlib.Algebra.Group.Nat.Defs

/-!
# XPath boolean expressions

The subset of XPath 1.0 that the XPath transform parses, and its evaluation at a
node. Namespace nodes are not nodes of the tree: `evalXPathBoolNs` evaluates an
expression at one, given by its prefix, URI and parent element.

The parser calls itself on proper parts of the expression, so a fuel of one more
than the expression's length is never used up (`parseWithFuel_eq`).
-/

namespace Bergshamra

/-- `XPathBoolExpr`. -/
inductive XPathBoolExpr where
  | true
  | ancestorOrSelf (nsUri localName : String)
  | selfText
  | hasAttributes
  | selfElement (nsUri localName : String)
  | not (inner : XPathBoolExpr)
  | and (left right : XPathBoolExpr)
  | or (left right : XPathBoolExpr)
  | nameEq (s : String)
  | nameNeq (s : String)
  | namespaceUriEq (s : String)
  | namespaceUriNeq (s : String)
  | parentIs (nsUri localName : String)
  | stringSelfEqNsUriParent
  | isNotParentNsNode
  | isParentNsNode
  | depthOdd
deriving DecidableEq, Repr

/-! ## Scanning -/

/-- The depth of parentheses after `c`. -/
def parenDepth (depth : Int) (c : Char) : Int :=
  if c = '(' then depth + 1 else if c = ')' then depth - 1 else depth

/-- The loop of `split_top_level`: `before` is what was scanned, last character first. -/
def splitTopLevelFrom (sep : List Char) (depth : Int) (before : List Char) :
    List Char → Option (List Char × List Char)
  | [] => none
  | c :: s =>
      match Text.stripPrefix? sep (c :: s) with
      | some right =>
          if parenDepth depth c = 0 ∧ Text.trim before.reverse ≠ [] ∧ Text.trim right ≠ [] then
            some (Text.trim before.reverse, Text.trim right)
          else splitTopLevelFrom sep (parenDepth depth c) (c :: before) s
      | none => splitTopLevelFrom sep (parenDepth depth c) (c :: before) s

/-- `split_top_level`. -/
def splitTopLevel (expr sep : List Char) : Option (List Char × List Char) :=
  splitTopLevelFrom sep 0 [] expr

/-- Do the parentheses close, and never before they open? -/
def balancedFrom (depth : Int) : List Char → Bool
  | [] => depth == 0
  | c :: s => if parenDepth depth c < 0 then false else balancedFrom (parenDepth depth c) s

/-- `strip_not`. -/
def stripNot (expr : List Char) : Option (List Char) :=
  let expr := Text.trim expr
  let rest? :=
    match Text.stripPrefix? "not(".toList expr with
    | some rest => some rest
    | none => Text.stripPrefix? "not (".toList expr
  match rest? with
  | none => none
  | some rest =>
      match Text.stripSuffix? [')'] rest with
      | some inner => if balancedFrom 0 inner then some (Text.trim inner) else none
      | none => none

/-- The digits at the front, and what follows them. -/
def digits (s : List Char) : List Char × List Char :=
  (s.takeWhile Char.isDigit, s.dropWhile Char.isDigit)

/-- The number a run of digits stands for. -/
def natOfDigits (ds : List Char) : Nat :=
  ds.foldl (fun n d => 10 * n + (d.toNat - '0'.toNat)) 0

/-- Does `mantissa * 10 ^ exponent` round to a `f64` other than zero? What is at most half of
the least positive one, `2 ^ -1074`, rounds to zero. -/
def roundsToNonzero (mantissa : Nat) (exponent : Int) : Bool :=
  if 0 ≤ exponent then mantissa != 0
  else decide (10 ^ exponent.natAbs < mantissa * 2 ^ 1075)

/-- `expr.parse::<f64>()`, and whether the number differs from `0.0`. -/
def parseF64Nonzero? (s : List Char) : Option Bool :=
  let s :=
    match s with
    | '+' :: rest => rest
    | '-' :: rest => rest
    | _ => s
  let lower := s.map Char.toLower
  if lower = "inf".toList ∨ lower = "infinity".toList ∨ lower = "nan".toList then some true
  else
    let (whole, rest) := digits s
    let (fraction, rest) :=
      match rest with
      | '.' :: rest => digits rest
      | _ => ([], rest)
    if whole ++ fraction = [] then none
    else
      let mantissa := natOfDigits (whole ++ fraction)
      match rest with
      | [] => some (roundsToNonzero mantissa (-fraction.length))
      | e :: rest =>
          if e ≠ 'e' ∧ e ≠ 'E' then none
          else
            let (sign, rest) : Int × List Char :=
              match rest with
              | '+' :: rest => (1, rest)
              | '-' :: rest => (-1, rest)
              | _ => (1, rest)
            if rest = [] ∨ !rest.all Char.isDigit then none
            else some (roundsToNonzero mantissa (sign * natOfDigits rest - fraction.length))

/-- `resolve_prefixed_name`, with the namespaces of the XPath element. -/
def resolvePrefixedName (name : List Char) (xpathNode : Node) : Option (String × String) :=
  match Text.splitOnce [':'] name with
  | some (pfx, localName) =>
      (xpathNode.selfPath.findSome? (fun a =>
        a.2.namespaceDeclarations.findSome? (fun d =>
          if d.1 = String.ofList pfx then some d.2 else none))).map
        (fun uri => (uri, String.ofList localName))
  | none => some ("", String.ofList name)

/-- `val.trim().trim_matches('"').trim_matches('\'')`. -/
def unquote (val : List Char) : String :=
  String.ofList (Text.trimMatches (Char.ofNat 39) (Text.trimMatches '"' (Text.trim val)))

/-- `fn() != "str"` and `fn() = "str"`. -/
def parseComparison (fn : List Char) (neq eq : String → XPathBoolExpr) (expr : List Char) :
    Option XPathBoolExpr :=
  match Text.stripPrefix? fn (Text.normalizeSpace expr) with
  | none => none
  | some rest =>
      let rest := Text.trim rest
      match Text.stripPrefix? "!=".toList rest with
      | some val => some (neq (unquote val))
      | none => (Text.stripPrefix? ['='] rest).map (fun val => eq (unquote val))

/-- The arms of the parser that compare with fixed texts. -/
def parseFixed (expr : List Char) : Option XPathBoolExpr :=
  let norm := Text.normalizeSpace expr
  if norm = "string(self::node()) = namespace-uri(parent::node())".toList then
    some .stringSelfEqNsUriParent
  else if norm =
      "count(parent::node()/namespace::*) != count(parent::node()/namespace::* | self::node())".toList
  then some .isNotParentNsNode
  else if norm =
      "count(parent::node()/namespace::*) = count(parent::node()/namespace::* | self::node())".toList
  then some .isParentNsNode
  else if norm = "(count(ancestor-or-self::node()) mod 2) = 1".toList then some .depthOdd
  else none

/-- The comparisons, tried in turn. -/
def parseTests (expr : List Char) : Option XPathBoolExpr :=
  match parseComparison "name()".toList .nameNeq .nameEq expr with
  | some e => some e
  | none =>
      match parseComparison "namespace-uri()".toList .namespaceUriNeq .namespaceUriEq expr with
      | some e => some e
      | none => parseFixed expr

/-- The arms of the parser for `parent::`, then the tests. `parent::node()` is only tried by
the tests; an unbound prefix ends the parse. -/
def parseParent (xpathNode : Node) (expr : List Char) : Option XPathBoolExpr :=
  match Text.stripPrefix? "parent::".toList expr with
  | some name =>
      if name ≠ "node()".toList then
        (resolvePrefixedName name xpathNode).map (fun r => .parentIs r.1 r.2)
      else parseTests expr
  | none => parseTests expr

/-- The arms of the parser from `self::text()` on. -/
def parseStep (xpathNode : Node) (expr : List Char) : Option XPathBoolExpr :=
  if expr = "self::text()".toList then some .selfText
  else if expr = "@*".toList then some .hasAttributes
  else
    match Text.stripPrefix? "self::".toList expr with
    | some name =>
        if name ≠ "text()".toList ∧ name ≠ "node()".toList then
          (resolvePrefixedName name xpathNode).map (fun r => .selfElement r.1 r.2)
        else parseTests expr
    | none =>
        match Text.stripPrefix? "ancestor-or-self::".toList expr with
        | some name => (resolvePrefixedName name xpathNode).map (fun r => .ancestorOrSelf r.1 r.2)
        | none => parseParent xpathNode expr

/-- `parse_xpath_bool_expr`, at most `fuel` calls deep. -/
def parseWithFuel (xpathNode : Node) : Nat → List Char → Option XPathBoolExpr
  | 0, _ => none
  | fuel + 1, expr =>
      let expr := Text.trim expr
      if expr = [] then none
      else
        match parseF64Nonzero? expr with
        | some nonzero => some (if nonzero then .true else .not .true)
        | none =>
            match splitTopLevel expr " and ".toList with
            | some (left, right) => do
                let l ← parseWithFuel xpathNode fuel left
                let r ← parseWithFuel xpathNode fuel right
                some (.and l r)
            | none =>
                match splitTopLevel expr " or ".toList with
                | some (left, right) => do
                    let l ← parseWithFuel xpathNode fuel left
                    let r ← parseWithFuel xpathNode fuel right
                    some (.or l r)
                | none =>
                    match stripNot expr with
                    | some inner => (parseWithFuel xpathNode fuel inner).map .not
                    | none =>
                        match Text.stripPrefix? ['('] expr with
                        | some rest =>
                            match Text.stripSuffix? [')'] rest with
                            | some inner => parseWithFuel xpathNode fuel inner
                            | none => parseStep xpathNode expr
                        | none => parseStep xpathNode expr

/-- `parse_xpath_bool_expr`. -/
def parseXPathBoolExpr (expr : List Char) (xpathNode : Node) : Option XPathBoolExpr :=
  parseWithFuel xpathNode (expr.length + 1) expr

/-! ## The fuel is enough -/

theorem trim_length_le (s : List Char) : (Text.trim s).length ≤ s.length := by
  unfold Text.trim Text.trimStart
  rw [List.length_reverse]
  have h1 := (List.dropWhile_sublist (l := (s.dropWhile Text.isWhitespace).reverse)
    Text.isWhitespace).length_le
  have h2 := (List.dropWhile_sublist (l := s) Text.isWhitespace).length_le
  rw [List.length_reverse] at h1
  omega

theorem splitTopLevelFrom_length {sep : List Char} (hsep : sep ≠ []) {depth : Int}
    {before s left right : List Char}
    (h : splitTopLevelFrom sep depth before s = some (left, right)) :
    left.length < before.length + s.length ∧ right.length < before.length + s.length := by
  induction s generalizing depth before with
  | nil => simp [splitTopLevelFrom] at h
  | cons c s ih =>
      have hrec : ∀ {d : Int}, splitTopLevelFrom sep d (c :: before) s = some (left, right) →
          left.length < before.length + (c :: s).length
            ∧ right.length < before.length + (c :: s).length := by
        intro d hd
        have := ih hd
        simp only [List.length_cons] at this ⊢
        omega
      rw [splitTopLevelFrom] at h
      split at h
      · rename_i rest hs
        split at h
        · simp only [Option.some.injEq, Prod.mk.injEq] at h
          obtain ⟨rfl, rfl⟩ := h
          have hcs := Text.stripPrefix?_eq_some.mp hs
          have hlen := congrArg List.length hcs
          have hpos : 0 < sep.length := List.length_pos_of_ne_nil hsep
          have h1 := trim_length_le before.reverse
          have h2 := trim_length_le rest
          rw [List.length_append, List.length_cons] at hlen
          rw [List.length_reverse] at h1
          simp only [List.length_cons]
          omega
        · exact hrec h
      · exact hrec h

theorem splitTopLevel_length {sep expr left right : List Char} (hsep : sep ≠ [])
    (h : splitTopLevel expr sep = some (left, right)) :
    left.length < expr.length ∧ right.length < expr.length := by
  have := splitTopLevelFrom_length hsep h
  simpa using this

theorem stripSuffix?_length {pat s inner : List Char} (h : Text.stripSuffix? pat s = some inner) :
    inner.length ≤ s.length := by
  unfold Text.stripSuffix? at h
  rw [Option.map_eq_some_iff] at h
  obtain ⟨r, hr, rfl⟩ := h
  have hlen := congrArg List.length (Text.stripPrefix?_eq_some.mp hr)
  simp only [List.length_reverse, List.length_append] at hlen ⊢
  omega

theorem stripPrefix?_length {pat s rest : List Char} (h : Text.stripPrefix? pat s = some rest) :
    s.length = pat.length + rest.length := by
  rw [Text.stripPrefix?_eq_some.mp h, List.length_append]

theorem stripNot_length {expr inner : List Char} (h : stripNot expr = some inner) :
    inner.length < expr.length := by
  have htrim := trim_length_le expr
  have hfour : "not(".toList.length = 4 := by decide
  have hfive : "not (".toList.length = 5 := by decide
  unfold stripNot at h
  dsimp only at h
  split at h
  · simp at h
  · rename_i rest hrest
    split at h
    · rename_i body hbody
      split at h
      · rw [Option.some.injEq] at h
        have h1 := trim_length_le body
        have h2 := stripSuffix?_length hbody
        have h3 : rest.length < (Text.trim expr).length := by
          split at hrest
          · rename_i r hr
            rw [Option.some.injEq] at hrest
            have := stripPrefix?_length hr
            subst hrest
            omega
          · have := stripPrefix?_length hrest
            omega
        rw [← h]
        omega
      · simp at h
    · simp at h

/-- **Fuel does not matter.** More than the length of the expression is always enough. -/
theorem parseWithFuel_eq (xpathNode : Node) {fuel fuel' : Nat} {expr : List Char}
    (h : expr.length < fuel) (h' : expr.length < fuel') :
    parseWithFuel xpathNode fuel expr = parseWithFuel xpathNode fuel' expr := by
  induction fuel generalizing fuel' expr with
  | zero => omega
  | succ fuel ih =>
      cases fuel' with
      | zero => omega
      | succ fuel' =>
          have htrim := trim_length_le expr
          -- every part the parser calls itself on is shorter than the expression
          have hpart : ∀ part : List Char, part.length < (Text.trim expr).length →
              parseWithFuel xpathNode fuel part = parseWithFuel xpathNode fuel' part := by
            intro part hp
            exact ih (by omega) (by omega)
          rw [parseWithFuel, parseWithFuel]
          split
          · rfl
          · split
            · rfl
            · split
              · rename_i hs
                have := splitTopLevel_length (by decide) hs
                rw [hpart _ this.1, hpart _ this.2]
              · split
                · rename_i hs
                  have := splitTopLevel_length (by decide) hs
                  rw [hpart _ this.1, hpart _ this.2]
                · split
                  · rename_i hs
                    rw [hpart _ (stripNot_length hs)]
                  · split
                    · rename_i rest hs
                      have h1 := stripPrefix?_length hs
                      split
                      · rename_i inner hi
                        have h2 := stripSuffix?_length hi
                        refine hpart _ ?_
                        rw [h1]
                        simp only [List.length_cons, List.length_nil]
                        omega
                      · rfl
                    · rfl

/-! ## Evaluation -/

/-- Does the element have this name? An empty URI stands for any namespace. -/
def matchesName (nsUri localName : String) (e : Element) : Bool :=
  e.name.localName == localName && (nsUri.isEmpty || e.name.uri == nsUri)

/-- `get_element_qname_from_elem`. -/
def elementQName (e : Element) : String :=
  match e.name.pfx with
  | some p => if p.isEmpty then e.name.localName else p ++ ":" ++ e.name.localName
  | none => e.name.localName

/-- `matches!(kind, Text(_))`; CDATA is not among them. -/
def LeafKind.isText : LeafKind → Bool
  | .text _ => true
  | _ => false

/-- `eval_xpath_bool`. The document node counts as an ancestor for the depth. -/
def evalXPathBool (node : Node) : XPathBoolExpr → Bool
  | .true => true
  | .ancestorOrSelf nsUri localName => node.selfPath.any (fun a => matchesName nsUri localName a.2)
  | .selfText => node.leaf?.any LeafKind.isText
  | .hasAttributes => node.element?.any (fun e => !e.attributes.isEmpty)
  | .selfElement nsUri localName => node.element?.any (matchesName nsUri localName)
  | .not inner => !evalXPathBool node inner
  | .and left right => evalXPathBool node left && evalXPathBool node right
  | .or left right => evalXPathBool node left || evalXPathBool node right
  | .nameEq s =>
      match node.element? with
      | some e => elementQName e == s
      | none => if node.leaf?.any LeafKind.isText then s.isEmpty else false
  | .nameNeq s =>
      match node.element? with
      | some e => elementQName e != s
      | none => if node.leaf?.any LeafKind.isText then !s.isEmpty else true
  | .namespaceUriEq s =>
      match node.element? with
      | some e => e.name.uri == s
      | none => s.isEmpty
  | .namespaceUriNeq s =>
      match node.element? with
      | some e => e.name.uri != s
      | none => !s.isEmpty
  | .parentIs nsUri localName =>
      node.parentElement?.any (fun p => matchesName nsUri localName p.2)
  | .stringSelfEqNsUriParent => false
  | .isNotParentNsNode => true
  | .isParentNsNode => false
  | .depthOdd => (node.path.length + 2) % 2 == 1

/-- A virtual namespace node; `chain` is its parent element and that element's ancestors. -/
structure NsNode where
  pfx : String
  uri : String
  parent : Element
  above : List Element

/-- `eval_xpath_bool_ns`. -/
def evalXPathBoolNs (n : NsNode) : XPathBoolExpr → Bool
  | .true => true
  | .ancestorOrSelf nsUri localName => (n.parent :: n.above).any (matchesName nsUri localName)
  | .selfText => false
  | .hasAttributes => false
  | .selfElement _ _ => false
  | .not inner => !evalXPathBoolNs n inner
  | .and left right => evalXPathBoolNs n left && evalXPathBoolNs n right
  | .or left right => evalXPathBoolNs n left || evalXPathBoolNs n right
  | .nameEq s => n.pfx == s
  | .nameNeq s => n.pfx != s
  | .namespaceUriEq s => s.isEmpty
  | .namespaceUriNeq s => !s.isEmpty
  | .parentIs nsUri localName => matchesName nsUri localName n.parent
  | .stringSelfEqNsUriParent => n.uri == n.parent.name.uri
  | .isNotParentNsNode => false
  | .isParentNsNode => true
  | .depthOdd => (n.above.length + 3) % 2 == 1

/-- `expr_references_ns_nodes`. -/
def exprReferencesNsNodes : XPathBoolExpr → Bool
  | .true => false
  | .nameEq _ | .nameNeq _ | .namespaceUriEq _ | .namespaceUriNeq _ | .stringSelfEqNsUriParent
  | .isNotParentNsNode | .isParentNsNode | .depthOdd => true
  | .not inner => exprReferencesNsNodes inner
  | .and l r | .or l r => exprReferencesNsNodes l || exprReferencesNsNodes r
  | .ancestorOrSelf _ _ | .selfText | .hasAttributes | .selfElement _ _ | .parentIs _ _ => false

end Bergshamra
