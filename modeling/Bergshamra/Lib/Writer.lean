import Bergshamra.Lib.Refill

/-!
# Writing a forest out, some of its nodes left out

A `Writer` decides which nodes of a forest it keeps and what it makes of each
item. A node it keeps becomes a node with a new label; everything else becomes a
leaf, and the row below a node that is not kept takes that node's place among its
siblings. What is made of a node may depend on the chain of nodes above it.

The two facts that are used of the result are that its nodes are the kept nodes
with the kept part of their chains, and that two writers which agree item by item
have the same result.
-/

namespace Forest

variable {ι α α' β γ δ : Type}

/-- One row behind the other. -/
def append : Forest ι α β → Forest ι α β → Forest ι α β
  | .nil, g => g
  | .leaf i b rest, g => .leaf i b (rest.append g)
  | .node i a kids rest, g => .node i a kids (rest.append g)

theorem cursors_append (path : List (ι × α)) (f g : Forest ι α β) :
    (f.append g).cursors path = f.cursors path ++ g.cursors path := by
  induction f with
  | nil => rfl
  | leaf i b rest ih => rw [append, cursors, cursors, ih, List.cons_append]
  | node i a kids rest ihk ihr =>
      rw [append, cursors, cursors, ihr, List.cons_append, List.append_assoc]

/-- The forest as text: what a node starts and ends with, and what a leaf is. -/
def print {χ : Type} (start stop : α → List χ) (text : β → List χ) : Forest ι α β → List χ
  | .nil => []
  | .leaf _ b rest => text b ++ rest.print start stop text
  | .node _ a kids rest =>
      start a ++ kids.print start stop text ++ stop a ++ rest.print start stop text

theorem print_append {χ : Type} (start stop : α → List χ) (text : β → List χ)
    (f g : Forest ι α β) :
    (f.append g).print start stop text = f.print start stop text ++ g.print start stop text := by
  induction f with
  | nil => rfl
  | leaf i b rest ih => rw [append, print, print, ih, List.append_assoc]
  | node i a kids rest ihk ihr => rw [append, print, print, ihr, ← List.append_assoc]

/-- Other labels on the nodes. -/
def mapLabels (g : α → α') : Forest ι α β → Forest ι α' β
  | .nil => .nil
  | .leaf i b rest => .leaf i b (rest.mapLabels g)
  | .node i a kids rest => .node i (g a) (kids.mapLabels g) (rest.mapLabels g)

@[simp] theorem mapLabels_id (f : Forest ι α β) : f.mapLabels id = f := by
  induction f with
  | nil => rfl
  | leaf i b rest ih => rw [mapLabels, ih]
  | node i a kids rest ihk ihr => rw [mapLabels, ihk, ihr, id]

@[simp] theorem keys_mapLabels (g : α → α') (f : Forest ι α β) :
    (f.mapLabels g).keys = f.keys := by
  induction f with
  | nil => rfl
  | leaf i b rest ih => rw [mapLabels, keys, keys, ih]
  | node i a kids rest ihk ihr => rw [mapLabels, keys, keys, ihk, ihr]

structure Writer (ι α β γ δ : Type) where
  keep : ι → Bool
  /-- The new label of a node that is kept, below the chain `path`. -/
  tag : (path : List (ι × α)) → ι → α → γ
  /-- What is left of a node that is not kept. -/
  loose : (path : List (ι × α)) → ι → α → δ
  /-- What is made of a leaf: is it at the top, and is there a node before and after it? -/
  text : (top preceding following : Bool) → ι → β → δ

namespace Writer

def write (w : Writer ι α β γ δ) (path : List (ι × α)) (preceding : Bool) :
    Forest ι α β → Forest ι γ δ
  | .nil => .nil
  | .leaf i b rest =>
      .leaf i (w.text path.isEmpty preceding rest.hasNode i b) (w.write path preceding rest)
  | .node i a kids rest =>
      if w.keep i then
        .node i (w.tag path i a) (w.write ((i, a) :: path) false kids) (w.write path true rest)
      else
        .leaf i (w.loose path i a)
          ((w.write ((i, a) :: path) false kids).append (w.write path true rest))

/-- The kept part of a chain, with the new labels. -/
def tags (w : Writer ι α β γ δ) : List (ι × α) → List (ι × γ)
  | [] => []
  | (i, a) :: path => if w.keep i then (i, w.tag path i a) :: w.tags path else w.tags path

variable {w : Writer ι α β γ δ}

theorem tags_keep {i : ι} (h : w.keep i = true) (a : α) (path : List (ι × α)) :
    w.tags ((i, a) :: path) = (i, w.tag path i a) :: w.tags path := if_pos h

theorem tags_skip {i : ι} (h : w.keep i = false) (a : α) (path : List (ι × α)) :
    w.tags ((i, a) :: path) = w.tags path := if_neg (by simp [h])

/-! ## The nodes written -/

/-- `n` is what the writer makes of the node `c`. -/
structure Writes (w : Writer ι α β γ δ) (c : Cursor ι α β) (a : α) (n : Cursor ι γ δ) (t : γ) :
    Prop where
  source : ∃ kids, c.item = .node a kids
  target : ∃ kids, n.item = .node t kids
  keep : w.keep c.key = true
  key : n.key = c.key
  path : n.path = w.tags c.path
  tag : t = w.tag c.path c.key a

/-- Every node of the result is made of a node that is kept. -/
theorem source_of_mem {f : Forest ι α β} {path : List (ι × α)} {preceding : Bool}
    {n : Cursor ι γ δ} (hn : n ∈ (w.write path preceding f).cursors (w.tags path)) {t : γ}
    {kids : Forest ι γ δ} (hi : n.item = .node t kids) :
    ∃ c ∈ f.cursors path, ∃ a, w.Writes c a n t := by
  induction f generalizing path preceding with
  | nil => simp [write, cursors] at hn
  | leaf i b rest ih =>
      rw [write, cursors, List.mem_cons] at hn
      rcases hn with hn | hn
      · subst hn
        simp at hi
      · obtain ⟨c, hc, h⟩ := ih hn
        exact ⟨c, by rw [cursors]; exact List.mem_cons_of_mem _ hc, h⟩
  | node i a kids₀ rest ihk ihr =>
      rw [write] at hn
      by_cases hk : w.keep i = true
      · rw [if_pos hk, cursors, List.mem_cons, List.mem_append, ← tags_keep hk] at hn
        rcases hn with hn | hn | hn
        · subst hn
          have ht : w.tag path i a = t := by
            simp only [Item.node.injEq] at hi
            exact hi.1
          exact ⟨⟨i, path, .node a kids₀⟩, by simp [cursors], a,
            ⟨⟨kids₀, rfl⟩, ⟨kids, hi⟩, hk, rfl, rfl, ht.symm⟩⟩
        · obtain ⟨c, hc, h⟩ := ihk hn
          exact ⟨c, by rw [cursors]; simp [hc], h⟩
        · obtain ⟨c, hc, h⟩ := ihr hn
          exact ⟨c, by rw [cursors]; simp [hc], h⟩
      · rw [if_neg hk, cursors, List.mem_cons, cursors_append, List.mem_append] at hn
        rcases hn with hn | hn | hn
        · subst hn
          simp at hi
        · rw [← tags_skip (by simpa using hk) a] at hn
          obtain ⟨c, hc, h⟩ := ihk hn
          exact ⟨c, by rw [cursors]; simp [hc], h⟩
        · obtain ⟨c, hc, h⟩ := ihr hn
          exact ⟨c, by rw [cursors]; simp [hc], h⟩

/-- Every node that is kept is made into a node of the result. -/
theorem exists_of_keep {f : Forest ι α β} {path : List (ι × α)} (preceding : Bool)
    {c : Cursor ι α β} (hc : c ∈ f.cursors path) {a : α} {kids : Forest ι α β}
    (hi : c.item = .node a kids) (hk : w.keep c.key = true) :
    ∃ n ∈ (w.write path preceding f).cursors (w.tags path),
      w.Writes c a n (w.tag c.path c.key a) := by
  induction f generalizing path preceding with
  | nil => simp [cursors] at hc
  | leaf i b rest ih =>
      rw [cursors, List.mem_cons] at hc
      rcases hc with hc | hc
      · subst hc
        simp at hi
      · obtain ⟨n, hn, h⟩ := ih preceding hc
        exact ⟨n, by rw [write, cursors]; exact List.mem_cons_of_mem _ hn, h⟩
  | node i a₀ kids₀ rest ihk ihr =>
      rw [cursors, List.mem_cons, List.mem_append] at hc
      rw [write]
      by_cases hki : w.keep i = true
      · rw [if_pos hki, cursors, ← tags_keep hki]
        rcases hc with hc | hc | hc
        · subst hc
          simp only [Item.node.injEq] at hi
          obtain ⟨rfl, rfl⟩ := hi
          exact ⟨_, List.mem_cons_self, ⟨⟨kids₀, rfl⟩, ⟨_, rfl⟩, hki, rfl, rfl, rfl⟩⟩
        · obtain ⟨n, hn, h⟩ := ihk false hc
          exact ⟨n, by simp [hn], h⟩
        · obtain ⟨n, hn, h⟩ := ihr true hc
          exact ⟨n, by simp [hn], h⟩
      · rw [if_neg hki, cursors, cursors_append]
        rcases hc with hc | hc | hc
        · subst hc
          exact absurd hk hki
        · obtain ⟨n, hn, h⟩ := ihk false hc
          rw [tags_skip (by simpa using hki)] at hn
          exact ⟨n, by simp [hn], h⟩
        · obtain ⟨n, hn, h⟩ := ihr true hc
          exact ⟨n, by simp [hn], h⟩

end Writer

/-! ## Two forests of one shape -/

/-- The same tree with the same keys and leaves; the labels of the nodes are related by `P`,
and the keys of the leaves satisfy `Q`. -/
inductive Paired (P : ι → α → α' → Prop) (Q : ι → Prop) :
    Forest ι α β → Forest ι α' β → Prop
  | nil : Paired P Q .nil .nil
  | leaf {i b rest rest'} (hi : Q i) (hrest : Paired P Q rest rest') :
      Paired P Q (.leaf i b rest) (.leaf i b rest')
  | node {i a a' kids kids' rest rest'} (hi : P i a a') (hkids : Paired P Q kids kids')
      (hrest : Paired P Q rest rest') :
      Paired P Q (.node i a kids rest) (.node i a' kids' rest')

/-- Two chains over the same keys. -/
def PairedPath (P : ι → α → α' → Prop) (path : List (ι × α)) (path' : List (ι × α')) : Prop :=
  List.Forall₂ (fun x x' => x.1 = x'.1 ∧ P x.1 x.2 x'.2) path path'

variable {P : ι → α → α' → Prop} {Q : ι → Prop}

theorem Paired.hasNode {f : Forest ι α β} {f' : Forest ι α' β} (h : Paired P Q f f') :
    f.hasNode = f'.hasNode := by
  induction h with
  | nil => rfl
  | leaf _ _ ih => exact ih
  | node => rfl

/-- A row beside the same row with other labels. -/
theorem Paired.map (g : α → α') {f : Forest ι α β} (path : List (ι × α))
    (hp : ∀ c ∈ f.cursors path, ∀ a kids, c.item = .node a kids → P c.key a (g a))
    (hq : ∀ i ∈ f.keys, Q i) : Paired P Q f (f.mapLabels g) := by
  induction f generalizing path with
  | nil => exact .nil
  | leaf i b rest ih =>
      refine .leaf (hq i (by simp)) (ih path ?_ (fun j hj => hq j (by simp [hj])))
      intro c hc
      exact hp c (by simp [cursors, hc])
  | node i a kids rest ihk ihr =>
      have hself : P i a (g a) := hp ⟨i, path, .node a kids⟩ (by simp [cursors]) a kids rfl
      refine .node hself (ihk ((i, a) :: path) ?_ (fun j hj => hq j (by simp [hj])))
        (ihr path ?_ (fun j hj => hq j (by simp [hj])))
      · intro c hc
        exact hp c (by simp [cursors, hc])
      · intro c hc
        exact hp c (by simp [cursors, hc])

/-- What holds of every label of the first row can be added to the relation. -/
theorem Paired.and {R : α → Prop} {f : Forest ι α β} {f' : Forest ι α' β} (h : Paired P Q f f')
    (hr : ∀ a ∈ f.labels, R a) : Paired (fun i a a' => P i a a' ∧ R a) Q f f' := by
  induction h with
  | nil => exact .nil
  | leaf hi _ ih => exact .leaf hi (ih hr)
  | node hi _ _ ihk ihr =>
      rw [labels, List.forall_mem_cons, List.forall_mem_append] at hr
      exact .node ⟨hi, hr.1⟩ (ihk hr.2.1) (ihr hr.2.2)

/-- **Writers that agree item by item write the same.** -/
theorem Writer.write_congr {w : Writer ι α β γ δ} {w' : Writer ι α' β γ δ}
    (hkeep : ∀ i a a', P i a a' → w.keep i = w'.keep i)
    (htag : ∀ path path' i a a', PairedPath P path path' → P i a a' → w.keep i = true →
      w.tag path i a = w'.tag path' i a')
    (hloose : ∀ path path' i a a', PairedPath P path path' → P i a a' → w.keep i = false →
      w.loose path i a = w'.loose path' i a')
    (htext : ∀ top preceding following i b, Q i →
      w.text top preceding following i b = w'.text top preceding following i b)
    {f : Forest ι α β} {f' : Forest ι α' β} (h : Paired P Q f f')
    {path : List (ι × α)} {path' : List (ι × α')} (hp : PairedPath P path path')
    (preceding : Bool) : w.write path preceding f = w'.write path' preceding f' := by
  induction h generalizing path path' preceding with
  | nil => rfl
  | leaf hi hrest ih =>
      have htop : path.isEmpty = path'.isEmpty := by cases hp <;> rfl
      rw [write, write, htop, hrest.hasNode, htext _ _ _ _ _ hi, ih hp]
  | node hi hkids hrest ihk ihr =>
      rename_i i a a' kids kids' rest rest'
      have hp' : PairedPath P ((i, a) :: path) ((i, a') :: path') := .cons ⟨rfl, hi⟩ hp
      rw [write, write, ihk hp', ihr hp, ← hkeep i a a' hi]
      by_cases hk : w.keep i = true
      · rw [if_pos hk, if_pos hk, htag path path' i a a' hp hi hk]
      · rw [if_neg hk, if_neg hk, hloose path path' i a a' hp hi (by simpa using hk)]

end Forest
