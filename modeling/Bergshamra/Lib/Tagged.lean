import Bergshamra.Lib.Markup
import Bergshamra.Lib.Writer

/-!
# What two writers can be told apart by

A writer that makes markup of a forest leaves a list of pieces where a node is not
kept. Two writers that keep the same nodes and make the same of every leaf can
still write different tags and leave different pieces. If one of them never
leaves more pieces than the other, nothing can make up for a difference: their
markup is the same only if they agree on every tag and leave as many pieces
everywhere. The tags are compared by their order in the document, the pieces by
their number.
-/

namespace Forest

variable {ι α β γ δ : Type}

/-- The forest with every leaf cut into the pieces it lists. -/
def flatten : Forest ι α (List δ) → Forest Unit α δ
  | .nil => .nil
  | .leaf _ ls rest => ls.foldr (fun l f => .leaf () l f) rest.flatten
  | .node _ a kids rest => .node () a kids.flatten rest.flatten

/-- The number of leaves. -/
def leafCount : Forest ι α β → Nat
  | .nil => 0
  | .leaf _ _ rest => rest.leafCount + 1
  | .node _ _ kids rest => kids.leafCount + rest.leafCount

/-- The number of pieces in the leaves. -/
def pieceCount : Forest ι α (List δ) → Nat
  | .nil => 0
  | .leaf _ ls rest => ls.length + rest.pieceCount
  | .node _ _ kids rest => kids.pieceCount + rest.pieceCount

theorem labels_foldr_leaf (ls : List δ) (f : Forest Unit α δ) :
    (ls.foldr (fun l f => .leaf () l f) f).labels = f.labels := by
  induction ls with
  | nil => rfl
  | cons l ls ih => exact ih

theorem leafCount_foldr_leaf (ls : List δ) (f : Forest Unit α δ) :
    (ls.foldr (fun l f => .leaf () l f) f).leafCount = ls.length + f.leafCount := by
  induction ls with
  | nil => simp
  | cons l ls ih =>
      rw [List.foldr_cons, leafCount, ih, List.length_cons]
      omega

theorem labels_flatten (f : Forest ι α (List δ)) : f.flatten.labels = f.labels := by
  induction f with
  | nil => rfl
  | leaf i ls rest ih => rw [flatten, labels_foldr_leaf, ih, labels]
  | node i a kids rest ihk ihr => rw [flatten, labels, labels, ihk, ihr]

theorem leafCount_flatten (f : Forest ι α (List δ)) : f.flatten.leafCount = f.pieceCount := by
  induction f with
  | nil => rfl
  | leaf i ls rest ih => rw [flatten, leafCount_foldr_leaf, ih, pieceCount]
  | node i a kids rest ihk ihr => rw [flatten, leafCount, pieceCount, ihk, ihr]

theorem labels_append (f g : Forest ι α β) : (f.append g).labels = f.labels ++ g.labels := by
  induction f with
  | nil => rfl
  | leaf i b rest ih => rw [append, labels, labels, ih]
  | node i a kids rest ihk ihr =>
      rw [append, labels, labels, ihr, List.cons_append, List.append_assoc]

theorem pieceCount_append (f g : Forest ι α (List δ)) :
    (f.append g).pieceCount = f.pieceCount + g.pieceCount := by
  induction f with
  | nil => simp [append, pieceCount]
  | leaf i ls rest ih =>
      rw [append, pieceCount, pieceCount, ih]
      omega
  | node i a kids rest ihk ihr =>
      rw [append, pieceCount, pieceCount, ihr]
      omega

namespace Writer

variable {w w' : Writer ι α β γ (List δ)}

/-- What becomes of a node: its new label, if it is kept. -/
def label? (w : Writer ι α β γ δ) (c : Cursor ι α β) : Option γ :=
  match c.item with
  | .node a _ => if w.keep c.key then some (w.tag c.path c.key a) else none
  | .leaf _ => none

/-- The labels that are written, in document order. -/
theorem labels_write (w : Writer ι α β γ δ) (path : List (ι × α)) (preceding : Bool)
    (f : Forest ι α β) :
    (w.write path preceding f).labels = (f.cursors path).filterMap w.label? := by
  induction f generalizing path preceding with
  | nil => rfl
  | leaf i b rest ih =>
      rw [write, labels, ih, cursors, List.filterMap_cons_none rfl]
  | node i a kids rest ihk ihr =>
      rw [write, cursors, List.filterMap_cons, List.filterMap_append]
      by_cases hk : w.keep i = true
      · have hlabel : w.label? ⟨i, path, .node a kids⟩ = some (w.tag path i a) := if_pos hk
        rw [if_pos hk, hlabel, labels, ihk, ihr]
      · have hlabel : w.label? ⟨i, path, .node a kids⟩ = none := if_neg hk
        rw [if_neg hk, hlabel, labels, labels_append, ihk, ihr]

/-- Writers that agree on what there is to write write the same. -/
theorem write_eq_of_cursors {w w' : Writer ι α β γ δ} (hkeep : ∀ i, w.keep i = w'.keep i)
    (htext : ∀ top preceding following i b,
      w.text top preceding following i b = w'.text top preceding following i b)
    {path : List (ι × α)} {f : Forest ι α β} (preceding : Bool)
    (h : ∀ c ∈ f.cursors path, ∀ a kids, c.item = .node a kids →
      (w.keep c.key = true → w.tag c.path c.key a = w'.tag c.path c.key a)
        ∧ (w.keep c.key = false → w.loose c.path c.key a = w'.loose c.path c.key a)) :
    w.write path preceding f = w'.write path preceding f := by
  induction f generalizing path preceding with
  | nil => rfl
  | leaf i b rest ih =>
      rw [write, write, htext, ih _ (fun c hc => h c (List.mem_cons_of_mem _ hc))]
  | node i a kids rest ihk ihr =>
      obtain ⟨htag, hloose⟩ := h ⟨i, path, .node a kids⟩ List.mem_cons_self a kids rfl
      have hkids := @ihk ((i, a) :: path) false
        (fun c hc => h c (List.mem_cons_of_mem _ (List.mem_append_left _ hc)))
      have hrest := @ihr path true
        (fun c hc => h c (List.mem_cons_of_mem _ (List.mem_append_right _ hc)))
      rw [write, write, hkids, hrest, ← hkeep i]
      by_cases hk : w.keep i = true
      · rw [if_pos hk, if_pos hk, htag hk]
      · rw [if_neg hk, if_neg hk, hloose (Bool.eq_false_iff.mpr hk)]

/-- The writers keep the same nodes, make the same of the leaves, and the second never leaves
fewer pieces. -/
structure LeavesMore (w w' : Writer ι α β γ (List δ)) : Prop where
  keep : ∀ i, w.keep i = w'.keep i
  text : ∀ top preceding following i b,
    w.text top preceding following i b = w'.text top preceding following i b
  loose : ∀ path i a, (w.loose path i a).length ≤ (w'.loose path i a).length

theorem LeavesMore.pieceCount_le (h : LeavesMore w w') (path : List (ι × α)) (preceding : Bool)
    (f : Forest ι α β) :
    (w.write path preceding f).pieceCount ≤ (w'.write path preceding f).pieceCount := by
  induction f generalizing path preceding with
  | nil => exact Nat.le_refl 0
  | leaf i b rest ih =>
      have hrest := ih path preceding
      rw [write, write, pieceCount, pieceCount, h.text]
      omega
  | node i a kids rest ihk ihr =>
      have hkids := ihk ((i, a) :: path) false
      have hrest := ihr path true
      have hself := h.loose path i a
      rw [write, write, ← h.keep i]
      by_cases hk : w.keep i = true
      · rw [if_pos hk, if_pos hk, pieceCount, pieceCount]
        omega
      · rw [if_neg hk, if_neg hk, pieceCount, pieceCount, pieceCount_append, pieceCount_append]
        omega

/-- As many pieces in all are as many at each node. -/
theorem LeavesMore.loose_eq (h : LeavesMore w w') {path : List (ι × α)} {preceding : Bool}
    {f : Forest ι α β}
    (hcount : (w.write path preceding f).pieceCount = (w'.write path preceding f).pieceCount)
    {c : Cursor ι α β} (hc : c ∈ f.cursors path) {a : α} {kids : Forest ι α β}
    (hi : c.item = .node a kids) (hk : w.keep c.key = false) :
    (w.loose c.path c.key a).length = (w'.loose c.path c.key a).length := by
  induction f generalizing path preceding with
  | nil => simp [cursors] at hc
  | leaf i b rest ih =>
      rw [write, write, pieceCount, pieceCount, h.text] at hcount
      rw [cursors, List.mem_cons] at hc
      rcases hc with rfl | hc
      · cases hi
      · exact @ih path preceding (by omega) hc
  | node i a' kids' rest ihk ihr =>
      have hkids := h.pieceCount_le ((i, a') :: path) false kids'
      have hrest := h.pieceCount_le path true rest
      have hself := h.loose path i a'
      rw [write, write, ← h.keep i] at hcount
      rw [cursors, List.mem_cons, List.mem_append] at hc
      by_cases hv : w.keep i = true
      · rw [if_pos hv, if_pos hv, pieceCount, pieceCount] at hcount
        rcases hc with rfl | hc | hc
        · rw [hk] at hv
          cases hv
        · exact @ihk ((i, a') :: path) false (by omega) hc
        · exact @ihr path true (by omega) hc
      · rw [if_neg hv, if_neg hv, pieceCount, pieceCount, pieceCount_append,
          pieceCount_append] at hcount
        rcases hc with rfl | hc | hc
        · simp only [Item.node.injEq] at hi
          rw [← hi.1]
          show (w.loose path i a').length = (w'.loose path i a').length
          omega
        · exact @ihk ((i, a') :: path) false (by omega) hc
        · exact @ihr path true (by omega) hc

/-- The tags agree, position by position, where the lists of labels do. -/
theorem LeavesMore.tag_eq (h : LeavesMore w w') {cs : List (Cursor ι α β)}
    (hlabels : cs.filterMap w.label? = cs.filterMap w'.label?) {c : Cursor ι α β} (hc : c ∈ cs)
    {a : α} {kids : Forest ι α β} (hi : c.item = .node a kids) (hk : w.keep c.key = true) :
    w.tag c.path c.key a = w'.tag c.path c.key a := by
  have hlabel : ∀ v : Writer ι α β γ (List δ), v.keep c.key = true →
      v.label? c = some (v.tag c.path c.key a) := by
    intro v hv
    rw [label?, hi]
    exact if_pos hv
  have hkeep : ∀ d : Cursor ι α β, (w.label? d).isSome = (w'.label? d).isSome := by
    intro d
    rw [label?, label?]
    cases d.item with
    | leaf b => rfl
    | node a k =>
        dsimp only
        rw [← h.keep]
        by_cases hd : w.keep d.key = true
        · rw [if_pos hd, if_pos hd]
          rfl
        · rw [if_neg hd, if_neg hd]
  -- the two lists of labels have the same length and run in step
  induction cs with
  | nil => cases hc
  | cons d cs ih =>
      have hd := hkeep d
      rw [List.filterMap_cons, List.filterMap_cons] at hlabels
      cases hw : w.label? d with
      | none =>
          rw [hw] at hd hlabels
          have hw' : w'.label? d = none := by
            simpa using hd.symm
          rw [hw'] at hlabels
          rcases List.mem_cons.mp hc with rfl | hc
          · rw [hlabel w hk] at hw
            cases hw
          · exact ih hlabels hc
      | some t =>
          rw [hw] at hd hlabels
          obtain ⟨t', hw'⟩ := Option.isSome_iff_exists.mp hd.symm
          rw [hw'] at hlabels
          obtain ⟨ht, hrest⟩ := List.cons.inj hlabels
          rcases List.mem_cons.mp hc with rfl | hc
          · rw [hlabel w hk, Option.some.injEq] at hw
            rw [hlabel w' (by rw [← h.keep]; exact hk), Option.some.injEq] at hw'
            rw [hw, hw', ht]
          · exact ih hrest hc

end Writer

/-! ## Markup -/

section Markup

open Markup

variable {escText escField : Char → List Char}

theorem render_foldr_leaf (ls : List Leaf) (f : Forest Unit Tag Leaf) :
    render escText escField (ls.foldr (fun l f => .leaf () l f) f)
      = ls.flatMap (renderLeaf escText) ++ render escText escField f := by
  induction ls with
  | nil => rfl
  | cons l ls ih => rw [List.foldr_cons, render, ih, List.flatMap_cons, List.append_assoc]

/-- Flattened markup is the text of the forest. -/
theorem render_flatten (f : Forest ι Tag (List Leaf)) :
    render escText escField f.flatten
      = f.print (renderStart escField) renderEnd (fun ls => ls.flatMap (renderLeaf escText)) := by
  induction f with
  | nil => rfl
  | leaf i ls rest ih => rw [flatten, render_foldr_leaf, ih, print]
  | node i t kids rest ihk ihr => rw [flatten, render, ihk, ihr, print]

theorem valid_foldr_leaf {ls : List Leaf} (hls : ∀ l ∈ ls, l.Valid) {f : Forest Unit Tag Leaf}
    (hf : Valid f) : Valid (ls.foldr (fun l f => .leaf () l f) f) := by
  induction ls with
  | nil => exact hf
  | cons l ls ih =>
      exact ⟨hls l List.mem_cons_self, ih (fun m hm => hls m (List.mem_cons_of_mem _ hm))⟩

theorem valid_flatten_append {f g : Forest ι Tag (List Leaf)} (hf : Valid f.flatten)
    (hg : Valid g.flatten) : Valid (f.append g).flatten := by
  induction f with
  | nil => exact hg
  | leaf i ls rest ih =>
      rw [append, flatten]
      rw [flatten] at hf
      induction ls with
      | nil => exact ih hf
      | cons l ls ihl => exact ⟨hf.1, ihl hf.2⟩
  | node i t kids rest ihk ihr => exact ⟨hf.1, hf.2.1, ihr hf.2.2⟩

/-- What a writer makes of every item is valid. -/
structure Writer.Valid (w : Writer ι α β Tag (List Leaf)) (cs : List (Cursor ι α β)) : Prop where
  tag : ∀ c ∈ cs, ∀ a kids, c.item = .node a kids → w.keep c.key = true →
    (w.tag c.path c.key a).Valid
  loose : ∀ path i a, ∀ l ∈ w.loose path i a, l.Valid
  text : ∀ c ∈ cs, ∀ b, c.item = .leaf b → ∀ top preceding following,
    ∀ l ∈ w.text top preceding following c.key b, l.Valid

theorem Writer.valid_write {w : Writer ι α β Tag (List Leaf)} {path : List (ι × α)}
    {f : Forest ι α β} (h : w.Valid (f.cursors path)) (preceding : Bool) :
    Markup.Valid (w.write path preceding f).flatten := by
  induction f generalizing path preceding with
  | nil => trivial
  | leaf i b rest ih =>
      rw [write, flatten]
      refine valid_foldr_leaf (h.text ⟨i, path, .leaf b⟩ List.mem_cons_self b rfl _ _ _) (ih ?_ _)
      exact ⟨fun c hc => h.tag c (List.mem_cons_of_mem _ hc), h.loose,
        fun c hc => h.text c (List.mem_cons_of_mem _ hc)⟩
  | node i a kids rest ihk ihr =>
      have hmemk : ∀ c ∈ kids.cursors ((i, a) :: path), c ∈ (Forest.node i a kids rest).cursors path :=
        fun c hc => List.mem_cons_of_mem _ (List.mem_append_left _ hc)
      have hmemr : ∀ c ∈ rest.cursors path, c ∈ (Forest.node i a kids rest).cursors path :=
        fun c hc => List.mem_cons_of_mem _ (List.mem_append_right _ hc)
      have hkids := @ihk ((i, a) :: path) ⟨fun c hc => h.tag c (hmemk c hc), h.loose,
        fun c hc => h.text c (hmemk c hc)⟩ false
      have hrest := @ihr path ⟨fun c hc => h.tag c (hmemr c hc), h.loose,
        fun c hc => h.text c (hmemr c hc)⟩ true
      rw [write]
      by_cases hk : w.keep i = true
      · rw [if_pos hk]
        exact ⟨h.tag ⟨i, path, .node a kids⟩ List.mem_cons_self a kids rfl hk, hkids, hrest⟩
      · rw [if_neg hk, flatten]
        exact valid_foldr_leaf (h.loose path i a) (valid_flatten_append hkids hrest)

/-- **Equal markup, equal tags and as many pieces.** -/
theorem Writer.LeavesMore.agree {w w' : Writer ι α β Tag (List Leaf)} (h : LeavesMore w w')
    (ht : Escape escText '<') (hf : Escape escField '"') {f : Forest ι α β}
    (hv : w.Valid (f.cursors [])) (hv' : w'.Valid (f.cursors []))
    (heq : render escText escField (w.write [] false f).flatten
      = render escText escField (w'.write [] false f).flatten)
    {c : Cursor ι α β} (hc : c ∈ f.cursors []) {a : α} {kids : Forest ι α β}
    (hi : c.item = .node a kids) :
    (w.keep c.key = true → w.tag c.path c.key a = w'.tag c.path c.key a)
      ∧ (w.keep c.key = false →
        (w.loose c.path c.key a).length = (w'.loose c.path c.key a).length) := by
  have hnil : render escText escField (w.write [] false f).flatten ++ []
      = render escText escField (w'.write [] false f).flatten ++ [] := by rw [heq]
  obtain ⟨hflat, _⟩ := render_separates ht hf (Writer.valid_write hv false)
    (Writer.valid_write hv' false) rfl rfl hnil
  have hlabels := congrArg labels hflat
  have hcount := congrArg leafCount hflat
  rw [labels_flatten, labels_flatten, labels_write, labels_write] at hlabels
  rw [leafCount_flatten, leafCount_flatten] at hcount
  exact ⟨h.tag_eq hlabels hc hi, h.loose_eq hcount hc hi⟩

end Markup

end Forest
