import Bergshamra.Lib.Forest
import Bergshamra.Lib.Markup
import Mathlib.Algebra.GroupWithZero.Nat
import Mathlib.Data.Finset.Basic
import Mathlib.Data.List.Basic

/-!
# A stylesheet of one template rule

The rules of XSLT 1.0 for a stylesheet whose only template rule matches every
node and every attribute. A source tree is given by its nodes, each with the
subtree it stands for (`Focus`); what XPath selects at a node is a parameter.
A body writes a sequence of attributes and nodes; the attributes that come
first belong to the element the sequence is the content of, and one that comes
later is an error. Text is written character by character, so that adjacent
pieces of text are one text.

`process` applies the template to a node. It need not end, so it takes fuel.

The main result is `reproduces_iff`: a template with an `xsl:copy` of its own
gives every node back as it was if and only if one pass of its body does, with
each `xsl:apply-templates` standing for the nodes it selects.
-/

namespace TemplateRule

variable {ν H N M X : Type} [DecidableEq N] [DecidableEq M]

/-- An element's name with what else `xsl:copy` keeps of it, and its set of attributes. -/
structure Label (H N : Type) where
  head : H
  attributes : Finset (N × List Char)
deriving DecidableEq

/-- A row of the source tree or of the result tree. -/
abbrev Row (H N : Type) := Forest Unit (Label H N) Markup.Leaf

/-- One piece of what a body writes. -/
inductive Written (H N : Type) where
  | attr (a : N × List Char)
  | leaf (l : Markup.Leaf)
  | element (label : Label H N) (kids : Row H N)
deriving DecidableEq

/-- A text, written. -/
def chars (s : List Char) : List (Written H N) := s.map (fun c => .leaf (.char c))

/-- A row, written. -/
def writtenRow : Row H N → List (Written H N)
  | .nil => []
  | .leaf _ l rest => .leaf l :: writtenRow rest
  | .node _ label kids rest => .element label kids :: writtenRow rest

/-- The row that a sequence without attributes makes. -/
def rowOf : List (Written H N) → Option (Row H N)
  | [] => some .nil
  | .attr _ :: _ => none
  | .leaf l :: ws => (rowOf ws).map (.leaf () l)
  | .element label kids :: ws => (rowOf ws).map (.node () label kids)

/-- An attribute replaces an earlier one of its name. -/
def addAttribute (s : Finset (N × List Char)) (a : N × List Char) : Finset (N × List Char) :=
  insert a (s.filter (fun b => b.1 ≠ a.1))

/-- The attributes and the children that a sequence makes as the content of an element. -/
def contentOf (s : Finset (N × List Char)) :
    List (Written H N) → Option (Finset (N × List Char) × Row H N)
  | [] => some (s, .nil)
  | .attr a :: ws => contentOf (addAttribute s a) ws
  | .leaf l :: ws => (rowOf (.leaf l :: ws)).map (fun r => (s, r))
  | .element label kids :: ws => (rowOf (.element label kids :: ws)).map (fun r => (s, r))

/-- The characters of a row, those of the rows below it included. -/
def rowText : Row H N → List Char
  | .nil => []
  | .leaf _ (.char c) rest => c :: rowText rest
  | .leaf _ _ rest => rowText rest
  | .node _ _ kids rest => rowText kids ++ rowText rest

/-- What a node of the source tree is. -/
inductive Focus (H N : Type) where
  | root (row : Row H N)
  | attr (a : N × List Char)
  | text (s : List Char)
  | leaf (l : Markup.Leaf)
  | element (label : Label H N) (kids : Row H N)

namespace Focus

/-- The node copied whole. -/
def written : Focus H N → List (Written H N)
  | .root row => writtenRow row
  | .attr a => [.attr a]
  | .text s => chars s
  | .leaf l => [.leaf l]
  | .element label kids => [.element label kids]

/-- What the built-in rules write for the node: its text. -/
def builtIn : Focus H N → List Char
  | .root row => rowText row
  | .attr a => a.2
  | .text s => s
  | .leaf _ => []
  | .element _ kids => rowText kids

def isRoot : Focus H N → Bool
  | .root _ => true
  | _ => false

/-- Does `xsl:copy` use its content at the node? -/
def hasContent : Focus H N → Bool
  | .root _ => true
  | .element _ _ => true
  | _ => false

end Focus

/-- The body of a template. -/
inductive Body (H N M X : Type) where
  | nil
  | text (s : List Char) (rest : Body H N M X)
  | valueOf (x : X) (rest : Body H N M X)
  | apply (x : X) (mode : M) (rest : Body H N M X)
  | copy (kids rest : Body H N M X)
  | literal (head : H) (attributes : List (N × X)) (kids rest : Body H N M X)

structure Rule (H N M X : Type) where
  mode : M
  body : Body H N M X

/-- A source tree: its nodes, and what expressions select and say at them. -/
structure Source (ν H N X : Type) where
  focus : ν → Focus H N
  children : ν → List ν
  select : X → ν → List ν
  string : X → ν → List Char
  written_ne_nil : ∀ n, (focus n).written ≠ []
  root_children : ∀ n row, focus n = .root row →
    (children n).flatMap (fun m => (focus m).written) = writtenRow row
  child_not_root : ∀ n row m, focus n = .root row → m ∈ children n → (focus m).isRoot = false

/-! ## Execution -/

/-- One sequence after another. -/
def both (a b : Option (List (Written H N))) : Option (List (Written H N)) :=
  a.bind (fun x => b.map (fun y => x ++ y))

/-- What is written for each of a list of nodes, in turn. -/
def collect (f : ν → Option (List (Written H N))) : List ν → Option (List (Written H N))
  | [] => some []
  | n :: ns => both (f n) (collect f ns)

/-- `xsl:copy`, given what its content writes. -/
def copyOf (focus : Focus H N) (content : Option (List (Written H N))) :
    Option (List (Written H N)) :=
  match focus with
  | .root _ => content
  | .element label _ =>
      (content.bind (contentOf ∅)).map (fun c => [.element ⟨label.head, c.1⟩ c.2])
  | other => some other.written

variable (src : Source ν H N X) (mode : M)

/-- The attributes of a literal element: the values are templates of strings. -/
def literalAttributes (n : ν) (as : List (N × X)) : Finset (N × List Char) :=
  as.foldl (fun s a => addAttribute s (a.1, src.string a.2 n)) ∅

/-- A body at a node, in a rule of the given mode; `f` is what applying the rule to a node
writes. A mode that the rule does not have leaves the nodes to the built-in rules. -/
def execute (f : ν → Option (List (Written H N))) (n : ν) :
    Body H N M X → Option (List (Written H N))
  | .nil => some []
  | .text s rest => both (some (chars s)) (execute f n rest)
  | .valueOf x rest => both (some (chars (src.string x n))) (execute f n rest)
  | .apply x m rest =>
      both (if m = mode then collect f (src.select x n)
          else some ((src.select x n).flatMap (fun k => chars (src.focus k).builtIn)))
        (execute f n rest)
  | .copy kids rest => both (copyOf (src.focus n) (execute f n kids)) (execute f n rest)
  | .literal head as kids rest =>
      both (((execute f n kids).bind (contentOf (literalAttributes src n as))).map
          (fun c => [.element ⟨head, c.1⟩ c.2]))
        (execute f n rest)

/-- The rule applied to a node; the root has a built-in rule. -/
def process (rule : Rule H N M X) : Nat → ν → Option (List (Written H N))
  | 0, _ => none
  | fuel + 1, n =>
      match src.focus n with
      | .root _ => collect (process rule fuel) (src.children n)
      | _ => execute src rule.mode (process rule fuel) n rule.body

/-- The whole transformation starts at the root, in a mode of its own. -/
def transform (rule : Rule H N M X) (initial : M) (root : ν) (fuel : Nat) :
    Option (List (Written H N)) :=
  if rule.mode = initial then process src rule fuel root
  else some (chars (src.focus root).builtIn)

/-- Applying the rule to the node ends, and gives the node back. -/
def Reproduces (rule : Rule H N M X) (n : ν) : Prop :=
  ∃ fuel, process src rule fuel n = some (src.focus n).written

/-- The transformation gives the document back, and the rule every node of it. -/
structure IsIdentity (rule : Rule H N M X) (initial : M) (root : ν) : Prop where
  document : ∃ fuel, transform src rule initial root fuel = some (src.focus root).written
  nodes : ∀ n, Reproduces src rule n

/-! ## One pass -/

/-- One pass of a body: each `xsl:apply-templates` stands for the nodes it selects. -/
def once (n : ν) (body : Body H N M X) : Option (List (Written H N)) :=
  execute src mode (fun m => some (src.focus m).written) n body

/-- The instructions write nothing at the node. -/
def Silent (n : ν) : Body H N M X → Prop
  | .nil => True
  | .text s rest => s = [] ∧ Silent n rest
  | .valueOf x rest => src.string x n = [] ∧ Silent n rest
  | .apply x m rest =>
      (if m = mode then src.select x n = []
        else ∀ k ∈ src.select x n, (src.focus k).builtIn = []) ∧ Silent n rest
  | .copy _ _ => False
  | .literal _ _ _ _ => False

namespace Body

/-- Is there an `xsl:copy` in the row itself? -/
def hasCopy : Body H N M X → Bool
  | .nil => false
  | .text _ rest => rest.hasCopy
  | .valueOf _ rest => rest.hasCopy
  | .apply _ _ rest => rest.hasCopy
  | .copy _ _ => true
  | .literal _ _ _ rest => rest.hasCopy

/-- The instructions before the first `xsl:copy` of the row. -/
def before : Body H N M X → Body H N M X
  | .nil => .nil
  | .text s rest => .text s rest.before
  | .valueOf x rest => .valueOf x rest.before
  | .apply x m rest => .apply x m rest.before
  | .copy _ _ => .nil
  | .literal head as kids rest => .literal head as kids rest.before

/-- The content of the first `xsl:copy` of the row. -/
def inside : Body H N M X → Body H N M X
  | .nil => .nil
  | .text _ rest => rest.inside
  | .valueOf _ rest => rest.inside
  | .apply _ _ rest => rest.inside
  | .copy kids _ => kids
  | .literal _ _ _ rest => rest.inside

/-- The instructions after the first `xsl:copy` of the row. -/
def after : Body H N M X → Body H N M X
  | .nil => .nil
  | .text _ rest => rest.after
  | .valueOf _ rest => rest.after
  | .apply _ _ rest => rest.after
  | .copy _ rest => rest
  | .literal _ _ _ rest => rest.after

end Body

/-- **What one pass must do at a node.** Beside its `xsl:copy` the body writes nothing, and in
it, at an element, exactly the element's attributes and children. -/
structure PassesThrough (body : Body H N M X) (n : ν) : Prop where
  before : Silent src mode n body.before
  after : Silent src mode n body.after
  inside : ∀ label kids, src.focus n = .element label kids →
    (once src mode n body.inside).bind (contentOf ∅) = some (label.attributes, kids)

/-! ## Sequences -/

section Sequences

omit [DecidableEq N] [DecidableEq M]

@[simp] theorem both_some_some (x y : List (Written H N)) :
    both (some x) (some y) = some (x ++ y) := rfl

theorem both_eq_some {a b : Option (List (Written H N))} {z : List (Written H N)} :
    both a b = some z ↔ ∃ x y, a = some x ∧ b = some y ∧ z = x ++ y := by
  cases a with
  | none => simp [both]
  | some x =>
      cases b with
      | none => simp [both]
      | some y => simp [eq_comm]

theorem both_assoc (a b c : Option (List (Written H N))) :
    both (both a b) c = both a (both b c) := by
  cases a <;> cases b <;> cases c <;> simp [both]

theorem both_nil_left (a : Option (List (Written H N))) : both (some []) a = a := by
  cases a <;> simp [both]

/-- What one function writes another does that agrees with it wherever it writes. -/
theorem collect_mono {f g : ν → Option (List (Written H N))}
    (hfg : ∀ m ws, f m = some ws → g m = some ws) {ns : List ν} {ws : List (Written H N)}
    (h : collect f ns = some ws) : collect g ns = some ws := by
  induction ns generalizing ws with
  | nil => exact h
  | cons n ns ih =>
      obtain ⟨x, y, hx, hy, rfl⟩ := both_eq_some.mp h
      exact both_eq_some.mpr ⟨x, y, hfg n x hx, ih hy, rfl⟩

theorem collect_congr {f g : ν → Option (List (Written H N))} {ns : List ν}
    (h : ∀ m ∈ ns, f m = g m) : collect f ns = collect g ns := by
  induction ns with
  | nil => rfl
  | cons n ns ih =>
      rw [collect, collect, h n List.mem_cons_self,
        ih (fun m hm => h m (List.mem_cons_of_mem n hm))]

theorem collect_some (w : ν → List (Written H N)) (ns : List ν) :
    collect (fun m => some (w m)) ns = some (ns.flatMap w) := by
  induction ns with
  | nil => rfl
  | cons n ns ih => rw [collect, ih, both_some_some, List.flatMap_cons]

@[simp] theorem chars_nil : (chars [] : List (Written H N)) = [] := rfl

theorem chars_eq_nil {s : List Char} : (chars s : List (Written H N)) = [] ↔ s = [] := by
  simp [chars]

end Sequences

/-! ## Execution does what its parts do -/

variable {src mode}

/-- A body only asks of the function what it answers. -/
theorem execute_mono {f g : ν → Option (List (Written H N))}
    (hfg : ∀ m ws, f m = some ws → g m = some ws) {n : ν} {body : Body H N M X}
    {ws : List (Written H N)} (h : execute src mode f n body = some ws) :
    execute src mode g n body = some ws := by
  induction body generalizing ws with
  | nil => exact h
  | text s rest ih =>
      obtain ⟨x, y, hx, hy, rfl⟩ := both_eq_some.mp h
      exact both_eq_some.mpr ⟨x, y, hx, ih hy, rfl⟩
  | valueOf x rest ih =>
      obtain ⟨x, y, hx, hy, rfl⟩ := both_eq_some.mp h
      exact both_eq_some.mpr ⟨x, y, hx, ih hy, rfl⟩
  | apply x m rest ih =>
      obtain ⟨w, y, hw, hy, rfl⟩ := both_eq_some.mp h
      refine both_eq_some.mpr ⟨w, y, ?_, ih hy, rfl⟩
      split at hw
      · rename_i hm
        rw [if_pos hm]
        exact collect_mono hfg hw
      · rename_i hm
        rw [if_neg hm]
        exact hw
  | copy kids rest ihk ihr =>
      obtain ⟨w, y, hw, hy, rfl⟩ := both_eq_some.mp h
      refine both_eq_some.mpr ⟨w, y, ?_, ihr hy, rfl⟩
      unfold copyOf at hw ⊢
      cases hn : src.focus n with
      | root row =>
          rw [hn] at hw
          exact ihk hw
      | element label row =>
          rw [hn] at hw
          cases hk : execute src mode f n kids with
          | none =>
              rw [hk] at hw
              cases hw
          | some c =>
              rw [hk] at hw
              rw [ihk hk]
              exact hw
      | attr a => rwa [hn] at hw
      | text s => rwa [hn] at hw
      | leaf l => rwa [hn] at hw
  | literal head as kids rest ihk ihr =>
      obtain ⟨w, y, hw, hy, rfl⟩ := both_eq_some.mp h
      refine both_eq_some.mpr ⟨w, y, ?_, ihr hy, rfl⟩
      cases hk : execute src mode f n kids with
      | none =>
          rw [hk] at hw
          cases hw
      | some c =>
          rw [hk] at hw
          rw [ihk hk]
          exact hw

/-- A body with an `xsl:copy` writes what stands before it, the copy, and what stands after. -/
theorem execute_split {f : ν → Option (List (Written H N))} {n : ν} {body : Body H N M X}
    (h : body.hasCopy = true) :
    execute src mode f n body = both (execute src mode f n body.before)
      (both (copyOf (src.focus n) (execute src mode f n body.inside))
        (execute src mode f n body.after)) := by
  induction body with
  | nil => cases h
  | text s rest ih => exact (congrArg _ (ih h)).trans (both_assoc _ _ _).symm
  | valueOf x rest ih => exact (congrArg _ (ih h)).trans (both_assoc _ _ _).symm
  | apply x m rest ih => exact (congrArg _ (ih h)).trans (both_assoc _ _ _).symm
  | copy kids rest ihk ihr => exact (both_nil_left _).symm
  | literal head as kids rest ihk ihr => exact (congrArg _ (ihr h)).trans (both_assoc _ _ _).symm

/-- Silent instructions write nothing, whatever applying the rule would write. -/
theorem execute_silent {f : ν → Option (List (Written H N))} {n : ν} {body : Body H N M X}
    (h : Silent src mode n body) : execute src mode f n body = some [] := by
  induction body with
  | nil => rfl
  | text s rest ih =>
      obtain ⟨rfl, hrest⟩ := h
      rw [execute, ih hrest]
      rfl
  | valueOf x rest ih =>
      obtain ⟨hx, hrest⟩ := h
      rw [execute, ih hrest, hx]
      rfl
  | apply x m rest ih =>
      obtain ⟨hx, hrest⟩ := h
      rw [execute, ih hrest]
      split
      · rename_i hm
        rw [if_pos hm] at hx
        rw [hx]
        rfl
      · rename_i hm
        rw [if_neg hm] at hx
        rw [List.flatMap_eq_nil_iff.mpr (fun k hk => chars_eq_nil.mpr (hx k hk))]
        rfl
  | copy kids rest => exact h.elim
  | literal head as kids rest => exact h.elim

omit [DecidableEq N] in
theorem both_eq_nil {a b : Option (List (Written H N))} (h : both a b = some []) :
    a = some [] ∧ b = some [] := by
  obtain ⟨x, y, hx, hy, hxy⟩ := both_eq_some.mp h
  obtain ⟨rfl, rfl⟩ := List.append_eq_nil_iff.mp hxy.symm
  exact ⟨hx, hy⟩

/-- Away from the root, `xsl:copy` writes as many pieces as the node has. -/
theorem length_copyOf {focus : Focus H N} {c : Option (List (Written H N))}
    {ws : List (Written H N)} (hf : focus.isRoot = false) (h : copyOf focus c = some ws) :
    ws.length = focus.written.length := by
  cases focus with
  | root row => cases hf
  | attr a =>
      cases h
      rfl
  | text s =>
      cases h
      rfl
  | leaf l =>
      cases h
      rfl
  | element label kids =>
      obtain ⟨p, -, rfl⟩ := Option.map_eq_some_iff.mp h
      rfl

/-- What writes nothing in one pass is silent. -/
theorem silent_of_once {n : ν} {body : Body H N M X} (hn : (src.focus n).isRoot = false)
    (h : once src mode n body = some []) : Silent src mode n body := by
  induction body with
  | nil => trivial
  | text s rest ih =>
      rw [once, execute] at h
      obtain ⟨hs, hrest⟩ := both_eq_nil h
      exact ⟨chars_eq_nil.mp (Option.some.inj hs), ih hrest⟩
  | valueOf x rest ih =>
      rw [once, execute] at h
      obtain ⟨hs, hrest⟩ := both_eq_nil h
      exact ⟨chars_eq_nil.mp (Option.some.inj hs), ih hrest⟩
  | apply x m rest ih =>
      rw [once, execute] at h
      obtain ⟨hs, hrest⟩ := both_eq_nil h
      refine ⟨?_, ih hrest⟩
      by_cases hm : m = mode
      · rw [if_pos hm, collect_some] at hs
        rw [if_pos hm]
        -- a node is never nothing, so none is selected
        cases hx : src.select x n with
        | nil => rfl
        | cons k ks =>
            rw [hx, List.flatMap_cons] at hs
            have hk := (List.append_eq_nil_iff.mp (Option.some.inj hs)).1
            exact absurd hk (src.written_ne_nil k)
      · rw [if_neg hm] at hs
        rw [if_neg hm]
        intro k hk
        exact chars_eq_nil.mp (List.flatMap_eq_nil_iff.mp (Option.some.inj hs) k hk)
  | copy kids rest =>
      rw [once, execute] at h
      obtain ⟨hc, -⟩ := both_eq_nil h
      have hlen := length_copyOf hn hc
      exact absurd (List.length_eq_zero_iff.mp hlen.symm) (src.written_ne_nil n)
  | literal head as kids rest =>
      rw [once, execute] at h
      obtain ⟨hc, -⟩ := both_eq_nil h
      obtain ⟨p, -, hp⟩ := Option.map_eq_some_iff.mp hc
      cases hp

/-- One pass gives a node back exactly when it passes the node through. -/
theorem once_eq_written_iff {n : ν} {body : Body H N M X} (hcopy : body.hasCopy = true)
    (hn : (src.focus n).isRoot = false) :
    once src mode n body = some (src.focus n).written ↔ PassesThrough src mode body n := by
  rw [once, execute_split hcopy]
  constructor
  · intro h
    obtain ⟨b, rest, hb, hrest, hsplit⟩ := both_eq_some.mp h
    obtain ⟨c, a, hc, ha, rfl⟩ := both_eq_some.mp hrest
    -- the copy has as many pieces as there are, so the rest has none
    have hlen := length_copyOf hn hc
    have hsum := congrArg List.length hsplit
    rw [List.length_append, List.length_append] at hsum
    obtain rfl : b = [] := List.length_eq_zero_iff.mp (by omega)
    obtain rfl : a = [] := List.length_eq_zero_iff.mp (by omega)
    refine ⟨silent_of_once hn hb, silent_of_once hn ha, ?_⟩
    intro label kids hfocus
    rw [List.nil_append, List.append_nil] at hsplit
    rw [hfocus] at hc hsplit
    obtain ⟨p, hp, rfl⟩ := Option.map_eq_some_iff.mp hc
    obtain ⟨hlabel, hkids⟩ : label = ⟨label.head, p.1⟩ ∧ kids = p.2 := by
      simpa [Focus.written] using hsplit
    rw [hlabel, hkids]
    exact hp
  · intro h
    rw [execute_silent h.before, execute_silent h.after, both_nil_left]
    cases hfocus : src.focus n with
    | root row =>
        rw [hfocus] at hn
        cases hn
    | element label kids =>
        have hin : (execute src mode (fun m => some (src.focus m).written) n body.inside).bind
            (contentOf ∅) = some (label.attributes, kids) := h.inside label kids hfocus
        rw [copyOf, hin]
        rfl
    | _ => simp [copyOf]

/-! ## Fuel -/

variable {rule : Rule H N M X}

omit [DecidableEq N] in
theorem Focus.eq_root {f : Focus H N} (h : f.isRoot = true) : ∃ row, f = .root row := by
  cases f with
  | root row => exact ⟨row, rfl⟩
  | _ => cases h

theorem process_root {n : ν} {fuel : Nat} (hn : (src.focus n).isRoot = true) :
    process src rule (fuel + 1) n = collect (process src rule fuel) (src.children n) := by
  obtain ⟨row, hf⟩ := Focus.eq_root hn
  rw [process, hf]

theorem process_of_not_root {n : ν} {fuel : Nat} (hn : (src.focus n).isRoot = false) :
    process src rule (fuel + 1) n
      = execute src rule.mode (process src rule fuel) n rule.body := by
  rw [process]
  cases hf : src.focus n with
  | root row =>
      rw [hf] at hn
      cases hn
  | _ => rfl

theorem process_succ {n : ν} {ws : List (Written H N)} {fuel : Nat}
    (h : process src rule fuel n = some ws) : process src rule (fuel + 1) n = some ws := by
  induction fuel generalizing n ws with
  | zero => cases h
  | succ fuel ih =>
      cases hn : (src.focus n).isRoot with
      | true =>
          rw [process_root hn] at h ⊢
          exact collect_mono (fun m ws hm => ih hm) h
      | false =>
          rw [process_of_not_root hn] at h ⊢
          exact execute_mono (fun m ws hm => ih hm) h

/-- More fuel changes no result. -/
theorem process_le {n : ν} {ws : List (Written H N)} {fuel fuel' : Nat} (hle : fuel ≤ fuel')
    (h : process src rule fuel n = some ws) : process src rule fuel' n = some ws := by
  induction hle with
  | refl => exact h
  | step hle ih => exact process_succ ih

theorem process_unique {n : ν} {x y : List (Written H N)} {fuel fuel' : Nat}
    (hx : process src rule fuel n = some x) (hy : process src rule fuel' n = some y) : x = y := by
  have hx' := process_le (Nat.le_max_left fuel fuel') hx
  have hy' := process_le (Nat.le_max_right fuel fuel') hy
  rw [hx'] at hy'
  exact Option.some.inj hy'

/-- One amount of fuel does for a list of nodes. -/
theorem fuel_for_all {ns : List ν} (h : ∀ m ∈ ns, Reproduces src rule m) :
    ∃ fuel, ∀ m ∈ ns, process src rule fuel m = some (src.focus m).written := by
  induction ns with
  | nil => exact ⟨0, by simp⟩
  | cons n ns ih =>
      obtain ⟨a, ha⟩ := h n List.mem_cons_self
      obtain ⟨b, hb⟩ := ih (fun m hm => h m (List.mem_cons_of_mem n hm))
      refine ⟨max a b, fun m hm => ?_⟩
      rcases List.mem_cons.mp hm with rfl | hm
      · exact process_le (Nat.le_max_left a b) ha
      · exact process_le (Nat.le_max_right a b) (hb m hm)

/-! ## Size

`Written.size` counts the nodes of a piece, attributes apart. What an element's content selects
is smaller than the element, if one pass over the element gives it back. -/

/-- The number of nodes of a row. -/
def rowSize : Row H N → Nat
  | .nil => 0
  | .leaf _ _ rest => 1 + rowSize rest
  | .node _ _ kids rest => 1 + rowSize kids + rowSize rest

/-- The number of nodes of a piece, attributes not counted. -/
def Written.size : Written H N → Nat
  | .attr _ => 0
  | .leaf _ => 1
  | .element _ kids => 1 + rowSize kids

def sizeOf (ws : List (Written H N)) : Nat := (ws.map Written.size).sum

omit [DecidableEq N] in
@[simp] theorem sizeOf_append (xs ys : List (Written H N)) :
    sizeOf (xs ++ ys) = sizeOf xs + sizeOf ys := by
  simp [sizeOf]

omit [DecidableEq N] in
@[simp] theorem sizeOf_cons (w : Written H N) (ws : List (Written H N)) :
    sizeOf (w :: ws) = w.size + sizeOf ws := by
  simp [sizeOf]

omit [DecidableEq N] in
theorem sizeOf_le_flatMap {w : ν → List (Written H N)} {m : ν} {ns : List ν} (hm : m ∈ ns) :
    sizeOf (w m) ≤ sizeOf (ns.flatMap w) := by
  obtain ⟨xs, ys, rfl⟩ := List.append_of_mem hm
  rw [List.flatMap_append, List.flatMap_cons, sizeOf_append, sizeOf_append]
  omega

omit [DecidableEq N] in
theorem rowSize_rowOf {ws : List (Written H N)} {r : Row H N} (h : rowOf ws = some r) :
    rowSize r = sizeOf ws := by
  induction ws generalizing r with
  | nil =>
      cases h
      rfl
  | cons w ws ih =>
      cases w with
      | attr a => cases h
      | leaf l =>
          obtain ⟨r', hr', rfl⟩ := Option.map_eq_some_iff.mp h
          rw [sizeOf_cons, ← ih hr']
          rfl
      | element label kids =>
          obtain ⟨r', hr', rfl⟩ := Option.map_eq_some_iff.mp h
          rw [sizeOf_cons, ← ih hr']
          rfl

theorem rowSize_contentOf {s : Finset (N × List Char)} {ws : List (Written H N)}
    {c : Finset (N × List Char) × Row H N} (h : contentOf s ws = some c) :
    rowSize c.2 = sizeOf ws := by
  induction ws generalizing s with
  | nil =>
      cases h
      rfl
  | cons w ws ih =>
      cases w with
      | attr a =>
          rw [sizeOf_cons, ← ih h]
          exact (Nat.zero_add _).symm
      | leaf l =>
          obtain ⟨r, hr, rfl⟩ := Option.map_eq_some_iff.mp h
          exact rowSize_rowOf hr
      | element label kids =>
          obtain ⟨r, hr, rfl⟩ := Option.map_eq_some_iff.mp h
          exact rowSize_rowOf hr

variable (src mode) in
/-- The nodes to which a body at `n` applies the rule. -/
def appliedTo (n : ν) : Body H N M X → List ν
  | .nil => []
  | .text _ rest => appliedTo n rest
  | .valueOf _ rest => appliedTo n rest
  | .apply x m rest => (if m = mode then src.select x n else []) ++ appliedTo n rest
  | .copy kids rest =>
      (if (src.focus n).hasContent then appliedTo n kids else []) ++ appliedTo n rest
  | .literal _ _ kids rest => appliedTo n kids ++ appliedTo n rest

/-- A body depends only on what is written for the nodes it applies the rule to. -/
theorem execute_congr {f g : ν → Option (List (Written H N))} {n : ν} {body : Body H N M X}
    (h : ∀ m ∈ appliedTo src mode n body, f m = g m) :
    execute src mode f n body = execute src mode g n body := by
  induction body with
  | nil => rfl
  | text s rest ih => rw [execute, execute, ih h]
  | valueOf x rest ih => rw [execute, execute, ih h]
  | apply x m rest ih =>
      rw [execute, execute, ih (fun k hk => h k (List.mem_append_right _ hk))]
      by_cases hm : m = mode
      · have hsel : collect f (src.select x n) = collect g (src.select x n) := by
          refine collect_congr fun k hk => h k (List.mem_append_left _ ?_)
          rwa [if_pos hm]
        rw [if_pos hm, if_pos hm, hsel]
      · rw [if_neg hm, if_neg hm]
  | copy kids rest ihk ihr =>
      rw [execute, execute, ihr (fun k hk => h k (List.mem_append_right _ hk))]
      congr 1
      -- the content counts only where the node has one
      cases hf : src.focus n with
      | root row =>
          refine ihk fun k hk => h k (List.mem_append_left _ ?_)
          rwa [hf]
      | element label row =>
          have hkids : execute src mode f n kids = execute src mode g n kids := by
            refine ihk fun k hk => h k (List.mem_append_left _ ?_)
            rwa [hf]
          rw [hkids]
      | _ => rfl
  | literal head as kids rest ihk ihr =>
      rw [execute, execute, ihk (fun k hk => h k (List.mem_append_left _ hk)),
        ihr (fun k hk => h k (List.mem_append_right _ hk))]

omit [DecidableEq N] in
theorem appliedTo_silent {n : ν} {body : Body H N M X} (h : Silent src mode n body) :
    appliedTo src mode n body = [] := by
  induction body with
  | nil => rfl
  | text s rest ih => exact ih h.2
  | valueOf x rest ih => exact ih h.2
  | apply x m rest ih =>
      rw [appliedTo, ih h.2, List.append_nil]
      by_cases hm : m = mode
      · rw [if_pos hm]
        simpa [hm] using h.1
      · rw [if_neg hm]
  | copy kids rest => exact h.elim
  | literal head as kids rest => exact h.elim

omit [DecidableEq N] in
theorem mem_appliedTo_split {n k : ν} {body : Body H N M X}
    (hk : k ∈ appliedTo src mode n body) :
    k ∈ appliedTo src mode n body.before
      ∨ ((src.focus n).hasContent = true ∧ k ∈ appliedTo src mode n body.inside)
      ∨ k ∈ appliedTo src mode n body.after := by
  induction body with
  | nil => cases hk
  | text s rest ih => exact ih hk
  | valueOf x rest ih => exact ih hk
  | apply x m rest ih =>
      rcases List.mem_append.mp hk with hk | hk
      · exact Or.inl (List.mem_append_left _ hk)
      · rcases ih hk with hb | hb
        · exact Or.inl (List.mem_append_right _ hb)
        · exact Or.inr hb
  | copy kids rest =>
      rcases List.mem_append.mp hk with hk | hk
      · split at hk
        · rename_i hn
          exact Or.inr (Or.inl ⟨hn, hk⟩)
        · cases hk
      · exact Or.inr (Or.inr hk)
  | literal head as kids rest ihk ihr =>
      rcases List.mem_append.mp hk with hk | hk
      · exact Or.inl (List.mem_append_left _ hk)
      · rcases ihr hk with hb | hb
        · exact Or.inl (List.mem_append_right _ hb)
        · exact Or.inr hb

/-- What one pass writes has room for every node it selects. -/
theorem sizeOf_appliedTo {n k : ν} {body : Body H N M X} {ws : List (Written H N)}
    (h : once src mode n body = some ws) (hk : k ∈ appliedTo src mode n body) :
    sizeOf (src.focus k).written ≤ sizeOf ws := by
  induction body generalizing ws with
  | nil => cases hk
  | text s rest ih =>
      rw [once, execute] at h
      obtain ⟨x, y, -, hy, rfl⟩ := both_eq_some.mp h
      have hle := ih hy hk
      rw [sizeOf_append]
      omega
  | valueOf x rest ih =>
      rw [once, execute] at h
      obtain ⟨x, y, -, hy, rfl⟩ := both_eq_some.mp h
      have hle := ih hy hk
      rw [sizeOf_append]
      omega
  | apply x m rest ih =>
      obtain ⟨w, y, hw, hy, rfl⟩ := both_eq_some.mp h
      rw [sizeOf_append]
      rcases List.mem_append.mp hk with hk | hk
      · split at hk
        · rename_i hm
          rw [if_pos hm, collect_some] at hw
          cases hw
          have hle := sizeOf_le_flatMap (w := fun m => (src.focus m).written) hk
          omega
        · cases hk
      · have hle := ih hy hk
        omega
  | copy kids rest ihk ihr =>
      obtain ⟨w, y, hw, hy, rfl⟩ := both_eq_some.mp h
      rw [sizeOf_append]
      rcases List.mem_append.mp hk with hk | hk
      · split at hk
        · rename_i hn
          cases hf : src.focus n with
          | root row =>
              rw [hf] at hw
              have hle := ihk hw hk
              omega
          | element label row =>
              rw [hf] at hw
              obtain ⟨c, hc, rfl⟩ := Option.map_eq_some_iff.mp hw
              obtain ⟨v, hv, hvc⟩ := Option.bind_eq_some_iff.mp hc
              have hle := ihk hv hk
              have hsize := rowSize_contentOf hvc
              rw [sizeOf_cons, Written.size]
              omega
          | _ =>
              rw [hf] at hn
              cases hn
        · cases hk
      · have hle := ihr hy hk
        omega
  | literal head as kids rest ihk ihr =>
      obtain ⟨w, y, hw, hy, rfl⟩ := both_eq_some.mp h
      rw [sizeOf_append]
      rcases List.mem_append.mp hk with hk | hk
      · obtain ⟨c, hc, rfl⟩ := Option.map_eq_some_iff.mp hw
        obtain ⟨v, hv, hvc⟩ := Option.bind_eq_some_iff.mp hc
        have hle := ihk hv hk
        have hsize := rowSize_contentOf hvc
        rw [sizeOf_cons, Written.size]
        omega
      · have hle := ihr hy hk
        omega

/-! ## Every node back as it was -/

/-- A node that is passed through selects only what is smaller. -/
theorem sizeOf_lt_of_passesThrough {n k : ν} {body : Body H N M X}
    (hn : (src.focus n).isRoot = false) (h : PassesThrough src mode body n)
    (hk : k ∈ appliedTo src mode n body) :
    sizeOf (src.focus k).written < sizeOf (src.focus n).written := by
  rcases mem_appliedTo_split hk with hk | ⟨hc, hk⟩ | hk
  · rw [appliedTo_silent h.before] at hk
    cases hk
  · cases hf : src.focus n with
    | element label kids =>
        obtain ⟨ws, hws, hcontent⟩ := Option.bind_eq_some_iff.mp (h.inside label kids hf)
        have hle := sizeOf_appliedTo hws hk
        have hsize : rowSize kids = sizeOf ws := rowSize_contentOf hcontent
        rw [Focus.written, sizeOf_cons, Written.size]
        omega
    | root row =>
        rw [hf] at hn
        cases hn
    | _ =>
        rw [hf] at hc
        cases hc
  · rw [appliedTo_silent h.after] at hk
    cases hk

omit [DecidableEq N] in
/-- The root's children are no larger than the root. -/
theorem sizeOf_child_le {n m : ν} (hn : (src.focus n).isRoot = true) (hm : m ∈ src.children n) :
    sizeOf (src.focus m).written ≤ sizeOf (src.focus n).written := by
  obtain ⟨row, hf⟩ := Focus.eq_root hn
  rw [hf, Focus.written, ← src.root_children n row hf]
  exact sizeOf_le_flatMap (w := fun m => (src.focus m).written) hm

/-- The measure of the recursion: the root comes above a node of its size. -/
def weight (src : Source ν H N X) (n : ν) : Nat :=
  2 * sizeOf (src.focus n).written + (src.focus n).isRoot.toNat

theorem reproduces_of_passesThrough (hcopy : rule.body.hasCopy = true)
    (h : ∀ n, (src.focus n).isRoot = false → PassesThrough src rule.mode rule.body n) (n : ν) :
    Reproduces src rule n := by
  induction hw : weight src n using Nat.strong_induction_on generalizing n with
  | _ w ih =>
    subst hw
    cases hn : (src.focus n).isRoot with
    | true =>
        obtain ⟨row, hf⟩ := Focus.eq_root hn
        have hall : ∀ m ∈ src.children n, Reproduces src rule m := by
          intro m hm
          refine ih (weight src m) ?_ m rfl
          have hle := sizeOf_child_le hn hm
          have hm0 := src.child_not_root n row m hf hm
          rw [weight, weight, hn, hm0, Bool.toNat_true, Bool.toNat_false]
          omega
        obtain ⟨fuel, hfuel⟩ := fuel_for_all hall
        refine ⟨fuel + 1, ?_⟩
        rw [process_root hn, collect_congr hfuel,
          collect_some (fun m => (src.focus m).written), src.root_children n row hf, hf,
          Focus.written]
    | false =>
        have hall : ∀ m ∈ appliedTo src rule.mode n rule.body, Reproduces src rule m := by
          intro m hm
          refine ih (weight src m) ?_ m rfl
          have hlt := sizeOf_lt_of_passesThrough hn (h n hn) hm
          have hroot := Bool.toNat_le (src.focus m).isRoot
          rw [weight, weight]
          omega
        obtain ⟨fuel, hfuel⟩ := fuel_for_all hall
        refine ⟨fuel + 1, ?_⟩
        rw [process_of_not_root hn, execute_congr hfuel]
        exact (once_eq_written_iff hcopy hn).mpr (h n hn)

/-- **The rule gives every node back if and only if one pass gives every node back.** -/
theorem reproduces_iff (hcopy : rule.body.hasCopy = true) :
    (∀ n, Reproduces src rule n)
      ↔ ∀ n, (src.focus n).isRoot = false → PassesThrough src rule.mode rule.body n := by
  constructor
  · intro h n hn
    obtain ⟨fuel, hfuel⟩ := h n
    obtain ⟨fuel, rfl⟩ : ∃ k, fuel = k + 1 := by
      cases fuel with
      | zero => cases hfuel
      | succ k => exact ⟨k, rfl⟩
    rw [process_of_not_root hn] at hfuel
    refine (once_eq_written_iff hcopy hn).mp (execute_mono (fun m ws hm => ?_) hfuel)
    -- what is written for a node in the course of the run is the node itself
    obtain ⟨fuel', hfuel'⟩ := h m
    rw [process_unique hm hfuel']
  · intro h n
    exact reproduces_of_passesThrough hcopy h n

/-- A transformation that starts in another mode than the rule's writes text alone. -/
theorem isIdentity_iff {initial : M} {root : ν} (hcopy : rule.body.hasCopy = true)
    (hroot : ∀ s, (src.focus root).written ≠ chars s) :
    IsIdentity src rule initial root ↔ rule.mode = initial
      ∧ ∀ n, (src.focus n).isRoot = false → PassesThrough src rule.mode rule.body n := by
  rw [← reproduces_iff hcopy]
  constructor
  · intro h
    refine ⟨?_, h.nodes⟩
    by_contra hmode
    obtain ⟨fuel, hfuel⟩ := h.document
    rw [transform, if_neg hmode] at hfuel
    exact hroot _ (Option.some.inj hfuel).symm
  · rintro ⟨hmode, h⟩
    obtain ⟨fuel, hfuel⟩ := h root
    refine ⟨⟨fuel, ?_⟩, h⟩
    rw [transform, if_pos hmode]
    exact hfuel

end TemplateRule
