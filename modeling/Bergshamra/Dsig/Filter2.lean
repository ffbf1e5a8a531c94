import Bergshamra.Dsig.XPathExpr
import Bergshamra.Transforms.Pipeline
import Bergshamra.Xml.XPath

/-!
# XPath Filter 2.0

`apply_xpath_filter2_transform`. Each `<XPath>` child selects subtrees of the
parsed text, and the selections are folded into a filter set by intersection,
subtraction and union; the transform returns the input set met with the filter.

The selection language has unions, `//name` and absolute paths with attribute
predicates. The evaluator calls itself on the two sides of a union, which are
shorter than the expression, so a fuel of one more than its length is not used up.
-/

namespace Bergshamra

/-! ## Scanning -/

/-- The depth of square brackets after `c`. -/
def bracketDepth (depth : Int) (c : Char) : Int :=
  if c = '[' then depth + 1 else if c = ']' then depth - 1 else depth

/-- The loop of `split_xpath_union`: `before` is what was scanned, last character first. -/
def splitXPathUnionFrom (bracket paren : Int) (before : List Char) :
    List Char → Option (List Char × List Char)
  | [] => none
  | c :: s =>
      if c = '|' ∧ bracket = 0 ∧ paren = 0 ∧ Text.trim before.reverse ≠ [] ∧ Text.trim s ≠ [] then
        some (Text.trim before.reverse, Text.trim s)
      else splitXPathUnionFrom (bracketDepth bracket c) (parenDepth paren c) (c :: before) s

/-- `split_xpath_union`. -/
def splitXPathUnion (expr : List Char) : Option (List Char × List Char) :=
  splitXPathUnionFrom 0 0 [] expr

/-- `resolve_ns_prefix`. -/
def resolveNsPrefix (n : Node) (pfx : List Char) : Option String :=
  n.selfPath.findSome? (fun a =>
    a.2.namespaceDeclarations.findSome? (fun d =>
      if d.1 = String.ofList pfx then some d.2 else none))

/-! ## Predicates -/

/-- The loop of `split_predicate_or`: `part` is the part begun, last character first, and `skip`
counts the characters of a separator that are still to be passed over. A separator that starts
with the last character of the one before it ends a part before that part starts. -/
def splitPredicateOrFrom (quote : Option Char) (skip : Nat) (part : List Char) :
    List Char → Except Error (List (List Char))
  | [] => .ok [part.reverse]
  | c :: s =>
      let part' := if skip = 0 then c :: part else part
      match quote with
      | none =>
          if c = '"' ∨ c = apostrophe then splitPredicateOrFrom (some c) (skip - 1) part' s
          else if (Text.stripPrefix? " or ".toList (c :: s)).isSome then
            if skip ≠ 0 then .error .panics
            else do
              let parts ← splitPredicateOrFrom none 3 [] s
              .ok (part.reverse :: parts)
          else splitPredicateOrFrom none (skip - 1) part' s
      | some q =>
          splitPredicateOrFrom (if c = q then none else some q) (skip - 1) part' s

/-- `split_predicate_or`. -/
def splitPredicateOr (pred : List Char) : Except Error (List (List Char)) :=
  splitPredicateOrFrom none 0 [] pred

/-- `is_attr_eq_predicate`. -/
def isAttrEqPredicate (part : List Char) : Bool :=
  Text.startsWith ['@'] part
    && (Text.containsSub "=\"".toList part || Text.containsSub ['=', apostrophe] part)

/-- `trim_matches(|c| c == '"' || c == '\'')`. -/
def trimQuotes (s : List Char) : List Char :=
  let isQuote := fun c => c == '"' || c == apostrophe
  ((s.dropWhile isQuote).reverse.dropWhile isQuote).reverse

/-- `evaluate_attr_eq`. -/
def evaluateAttrEq (up : Uppsala) (e : Element) (pred : List Char) : Bool :=
  match Text.stripPrefix? ['@'] (Text.trim pred) with
  | none => false
  | some attrPart =>
      match Text.splitOnce ['='] attrPart with
      | none => false
      | some (attrName, quotedValue) =>
          up.getAttribute e (String.ofList attrName)
            == some (String.ofList (trimQuotes quotedValue))

/-- The disjunction of comparisons that `evaluate_xpath_predicate` tries last. -/
def evaluatePredicateParts (up : Uppsala) (e : Element) (pred : List Char) : Except Error Bool := do
  let parts ← splitPredicateOr pred
  if parts.all (fun p => isAttrEqPredicate (Text.trim p)) then
    .ok (parts.any (fun p => evaluateAttrEq up e (Text.trim p)))
  else .ok false

/-- `evaluate_xpath_predicate`, at an element. -/
def evaluateXPathPredicate (up : Uppsala) (e : Element) (pred : List Char) : Except Error Bool :=
  let pred := Text.trim pred
  match (Text.stripPrefix? "not(".toList pred).bind (Text.stripSuffix? [')']) with
  | some inner =>
      match Text.stripPrefix? ['@'] (Text.trim inner) with
      | some attrName => .ok (up.getAttribute e (String.ofList attrName)).isNone
      | none => evaluatePredicateParts up e pred
  | none => evaluatePredicateParts up e pred

/-! ## Paths -/

/-- `PathStep`; `nsUri` holds the prefix, which is resolved when the path is evaluated. -/
structure PathStep where
  name : List Char
  nsUri : Option (List Char)
  predicate : Option (List Char)

/-- The pieces of a path between slashes outside predicates; `step` is the one begun, last
character first. -/
def splitStepsFrom (depth : Int) (step : List Char) : List Char → List (List Char)
  | [] => if step = [] then [] else [step.reverse]
  | c :: s =>
      if c = '/' ∧ depth = 0 then step.reverse :: splitStepsFrom 0 [] s
      else splitStepsFrom (bracketDepth depth c) (c :: step) s

/-- The name test of a step. -/
def pathStepOf (name : List Char) (predicate : Option (List Char)) : PathStep :=
  if name = ['*'] then ⟨name, none, predicate⟩
  else
    match Text.splitOnce [':'] name with
    | some (pfx, localName) => ⟨localName, some pfx, predicate⟩
    | none => ⟨name, none, predicate⟩

/-- One step: `name`, `name[predicate]` or `*[predicate]`. -/
def parsePathStep (step : List Char) : Except Error PathStep :=
  match Text.splitOnce ['['] step with
  | none => .ok (pathStepOf step none)
  | some (name, rest) =>
      match Text.stripSuffix? [']'] rest with
      | some pred => .ok (pathStepOf name (some pred))
      | none => .error (.xmlStructure
          ("XPath step with unclosed predicate: " ++ String.ofList step))

/-- `parse_xpath_path_steps`. -/
def parseXPathPathSteps (path : List Char) : Except Error (List PathStep) :=
  (splitStepsFrom 0 [] path).mapM parsePathStep

/-- Does a step's name test hold at an element? A prefix that does not resolve allows any
namespace. -/
def PathStep.namesElement (s : PathStep) (xpathNode : Node) (e : Element) : Bool :=
  (s.name == ['*'] || e.name.localName == String.ofList s.name)
    && (match s.nsUri.bind (resolveNsPrefix xpathNode) with
      | some uri => e.name.uri == uri
      | none => true)

/-- Does a step match a node? -/
def PathStep.holds (up : Uppsala) (xpathNode : Node) (s : PathStep) (n : Node) :
    Except Error Bool :=
  match n.element? with
  | none => .ok false
  | some e =>
      if s.namesElement xpathNode e then
        match s.predicate with
        | some pred => evaluateXPathPredicate up e pred
        | none => .ok true
      else .ok false

/-- The candidates that a step matches. -/
def matchStep (up : Uppsala) (xpathNode : Node) (s : PathStep) (candidates : List Node) :
    Except Error (List Node) :=
  candidates.filterM (s.holds up xpathNode)

/-- `evaluate_path_steps`. -/
def evaluatePathSteps (up : Uppsala) (doc : Document) (xpathNode : Node) :
    List PathStep → Except Error (List Node)
  | [] => .ok []
  | first :: steps => do
      let start ← matchStep up xpathNode first doc.children
      steps.foldlM
        (fun current s => matchStep up xpathNode s (current.flatMap Forest.Cursor.children)) start

/-! ## Selections -/

/-- The subtrees of some nodes, as `collect_subtree_ids` collects them. -/
def subtreesOf (ns : List Node) : NodeSet :=
  .fromIds (ns.flatMap Forest.Cursor.subtreeKeys).toFinset .normal

/-- `//name` and `//prefix:name`. -/
def selectByName (doc : Document) (xpathNode : Node) (name : List Char) : Except Error NodeSet :=
  match Text.splitOnce [':'] name with
  | some (pfx, localName) =>
      match resolveNsPrefix xpathNode pfx with
      | none => .error (.invalidUri
          ("XPath Filter 2.0: unresolved namespace prefix '" ++ String.ofList pfx ++ "'"))
      | some uri =>
          .ok (subtreesOf (doc.descendants.filter (fun n : Node =>
            n.isNamed uri (String.ofList localName))))
  | none =>
      .ok (subtreesOf (doc.descendants.filter (fun n : Node =>
        n.element?.any (fun e => e.name.localName == String.ofList name))))

/-- `evaluate_simple_xpath`, at most `fuel` calls deep. -/
def evaluateWithFuel (up : Uppsala) (doc : Document) (xpathNode : Node) :
    Nat → List Char → Except Error NodeSet
  | 0, _ => .error (.unsupportedAlgorithm "")
  | fuel + 1, expr =>
      if expr = ['/'] then .ok (NodeSet.all doc)
      else
        match splitXPathUnion expr with
        | some (left, right) => do
            let leftNs ← evaluateWithFuel up doc xpathNode fuel (Text.trim left)
            let rightNs ← evaluateWithFuel up doc xpathNode fuel (Text.trim right)
            .ok (leftNs.union rightNs)
        | none =>
            match Text.stripPrefix? "//".toList expr with
            | some name => selectByName doc xpathNode name
            | none =>
                match Text.stripPrefix? ['/'] expr with
                | some path => do
                    let steps ← parseXPathPathSteps path
                    let ns ← evaluatePathSteps up doc xpathNode steps
                    .ok (subtreesOf ns)
                | none => .error (.unsupportedAlgorithm
                    ("XPath Filter 2.0 expression not supported: " ++ String.ofList expr))

/-- `evaluate_simple_xpath`. -/
def evaluateSimpleXPath (up : Uppsala) (doc : Document) (expr : List Char) (xpathNode : Node) :
    Except Error NodeSet :=
  evaluateWithFuel up doc xpathNode (expr.length + 1) expr

/-! ## The transform -/

/-- Update the filter set by one `<XPath>` child. -/
def filter2Step (up : Uppsala) (doc : Document) (filterNs : NodeSet) (child : Node) :
    Except Error NodeSet :=
  match child.element? with
  | none => .ok filterNs
  | some e =>
      if e.name.localName ≠ "XPath" then .ok filterNs
      else do
        let filter := (up.getAttribute e "Filter").getD ""
        let xpathNs ←
          evaluateSimpleXPath up doc (Text.trim (child.elementText.getD "").toList) child
        if filter = "intersect" then .ok (filterNs.intersection xpathNs)
        else if filter = "subtract" then .ok (filterNs.subtract xpathNs)
        else if filter = "union" then .ok (filterNs.union xpathNs)
        else .error (.unsupportedAlgorithm ("XPath Filter 2.0 unknown filter: " ++ filter))

/-- The filter set of a transform element over a document. -/
def filter2Ns (up : Uppsala) (doc : Document) (transformNode : Node) : Except Error NodeSet :=
  transformNode.children.foldlM (filter2Step up doc) (NodeSet.all doc)

/-- `apply_xpath_filter2_transform`. -/
def applyXPathFilter2Transform (lib : TransformLibs) (data : TransformData)
    (transformNode : Node) : Except Error TransformData :=
  match data with
  | .binary _ => .ok data
  | .xml xmlText nodeSet =>
      match lib.parse xmlText with
      | .error e => .error (.xmlParse e)
      | .ok doc => do
          let inputNs := nodeSet.getD (NodeSet.all doc)
          let filterNs ← filter2Ns lib.toUppsala doc transformNode
          .ok (.xml xmlText (some (inputNs.intersection filterNs)))

theorem applyXPathFilter2Transform_xml {lib : TransformLibs} {xmlText : String} {doc : Document}
    (h : lib.parse xmlText = .ok doc) {nodeSet : Option NodeSet} {transformNode : Node}
    {result : TransformData} :
    applyXPathFilter2Transform lib (.xml xmlText nodeSet) transformNode = .ok result
      ↔ ∃ filterNs, filter2Ns lib.toUppsala doc transformNode = .ok filterNs
        ∧ result
          = .xml xmlText (some ((nodeSet.getD (NodeSet.all doc)).intersection filterNs)) := by
  simp only [applyXPathFilter2Transform, h, bind_eq_ok, Except.ok.injEq, eq_comm (a := result)]

end Bergshamra
